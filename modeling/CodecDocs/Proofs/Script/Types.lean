import CodecDocs.Proofs.Script.Brackets
import CodecDocs.Proofs.Script.Moves
import CodecDocs.Script.Skipping

/-! Types leave no trace, and they end where they should. The grammar of types is a predicate on
texts; passing over a text of it takes all of its tokens and none of those that follow. -/

namespace CodecDocs.Script

open Token (Kind)
open CodecDocs.Script.Parser (typePrefixes)

/-! ### The grammar -/

/-- A group in brackets of one kind. What is inside has its brackets in pairs. -/
def Group (opening : Punct) (text : List Kind) : Prop :=
  ∃ inside closing, opening.partner? = some closing ∧ Paired inside ∧ Kind.eof ∉ inside ∧
    text = .punct opening :: (inside ++ [.punct closing])

def angles (inside : List Kind) : List Kind :=
  .punct .less :: (inside ++ [.punct .greater])

/-- A name with further names after dots. -/
def dotted (name : String) (parts : List String) : List Kind :=
  .word name :: parts.flatMap fun part => [.punct .dot, .word part]

/-- Words that do not begin the name of a type. -/
def typeWords : List String := typePrefixes ++ ["const", "extends"]

mutual

/-- Types: operands joined by bars and ampersands. -/
inductive TypeText : List Kind → Prop
  | operand {atom : List Kind} (atom_text : AtomText atom) : TypeText atom
  | joined {atom type : List Kind} {mark : Punct} (mark_joins : mark = .bar ∨ mark = .ampersand)
      (atom_text : AtomText atom) (type_text : TypeText type) :
    TypeText (atom ++ .punct mark :: type)

/-- Operands: words before a core, and groups in square brackets after it. -/
inductive AtomText : List Kind → Prop
  | mk {words : List String} {core : List Kind} {groups : List (List Kind)}
      (words_lead : ∀ word ∈ words, word ∈ typePrefixes) (core_text : CoreText core)
      (groups_follow : ∀ group ∈ groups, Group .openBracket group) :
    AtomText (words.map .word ++ core ++ groups.flatten)

inductive CoreText : List Kind → Prop
  | name {name : String} (parts : List String) (plain : name ∉ typeWords) :
    CoreText (dotted name parts)
  | generic {name : String} (parts : List String) {args : List (List Kind)}
      (plain : name ∉ typeWords) (args_text : ∀ arg ∈ args, TypeText arg) :
    CoreText (dotted name parts ++ angles (separated args))
  | string (value : String) : CoreText [.string value]
  | number (value : Binary64) : CoreText [.number value]
  | group {opening : Punct} {text : List Kind} (form : Group opening text) : CoreText text
  | function {params result : List Kind} (params_group : Group .openParen params)
      (result_text : TypeText result) : CoreText (params ++ .punct .arrow :: result)

end

/-! ### Groups -/

theorem Punct.closes_of_partner {opening closing : Punct} (h : opening.partner? = some closing) :
    opening.opens = true ∧ closing.closes = true := by
  cases opening <;> cases h <;> exact ⟨rfl, rfl⟩

namespace Parser

/-- The parser takes the text off the tokens and stops at a token of the stated kind. -/
def Skips (p : Parser Unit) (text : List Kind) (follow : Kind → Prop) : Prop :=
  ∀ (c : Cursor) (k : Kind) (rest : List Kind), c.kinds = text ++ k :: rest → follow k →
    p c = .ok ((), c.after text.length)

variable {c : Cursor} {k : Kind} {rest text : List Kind}

theorem depthAfter_nextOpen {opened opened' : List Punct} (h : nextOpen opened k = some opened') :
    depthAfter (opened.length + 1) k = opened'.length + 1 := by
  by_cases hbracket : ∃ mark, k = .punct mark ∧ (mark.opens = true ∨ mark.closes = true)
  · obtain ⟨mark, rfl, hmark⟩ := hbracket
    by_cases hopens : mark.opens = true
    · rw [nextOpen_opens hopens] at h
      obtain rfl := Option.some.inj h
      simp [depthAfter, hopens]
    · have hcloses := hmark.resolve_left hopens
      obtain ⟨inner, rfl, -⟩ := nextOpen_closes (Punct.opens_of_closes hcloses) hcloses h
      simp [depthAfter, hopens, hcloses]
  · have hother : ∀ mark, k = .punct mark → mark.opens = false ∧ mark.closes = false := by
      intro mark hk
      simpa using fun hmark => hbracket ⟨mark, hk, hmark⟩
    rw [nextOpen_other hother] at h
    obtain rfl := Option.some.inj h
    cases k with
    | punct mark => simp [depthAfter, hother mark rfl]
    | _ => rfl

theorem balancedFrom_succ (rounds depth : ℕ) (hk : c.kind ≠ .eof) :
    balancedFrom (rounds + 1) depth c =
      if depthAfter depth c.kind = 0 then .ok ((), c.next)
      else balancedFrom rounds (depthAfter depth c.kind) c.next := by
  rw [balancedFrom, get_bind]
  dsimp only
  rw [if_neg hk, advance_bind]
  split_ifs <;> rfl

/-- Inside a group, the depth counts the brackets that are open. -/
theorem balancedFrom_inside {opened opened' : List Punct} (h : openAfter opened text = some opened')
    (heof : Kind.eof ∉ text) (rounds : ℕ) (hc : c.kinds = text ++ rest) (hrest : rest ≠ []) :
    balancedFrom (rounds + text.length) (opened.length + 1) c =
      balancedFrom rounds (opened'.length + 1) (c.after text.length) := by
  induction text generalizing opened c with
  | nil =>
    obtain rfl := Option.some.inj h
    rfl
  | cons k text ih =>
    rw [openAfter_cons, Option.bind_eq_some_iff] at h
    obtain ⟨middle, hmiddle, hopened⟩ := h
    have hk : k ≠ .eof := fun hk => heof (hk ▸ List.mem_cons_self)
    have hnext := Cursor.next_kinds hc (by simp [hrest])
    rw [List.length_cons, ← Nat.add_assoc, balancedFrom_succ _ _ (Cursor.kind_eq hc ▸ hk),
      Cursor.kind_eq hc, depthAfter_nextOpen hmiddle, if_neg (Nat.succ_ne_zero _),
      ih hopened (fun hmem => heof (List.mem_cons_of_mem k hmem)) hnext, Cursor.after_succ]

theorem skipBalanced_skips {opening : Punct} (h : Group opening text) :
    Skips skipBalanced text fun _ => True := by
  rintro c k rest hc -
  obtain ⟨inside, closing, hpartner, hpaired, heof, rfl⟩ := h
  obtain ⟨hopens, hcloses⟩ := Punct.closes_of_partner hpartner
  have hopens' := Punct.opens_of_closes hcloses
  rw [List.cons_append, List.append_assoc] at hc
  obtain ⟨rounds, hrounds⟩ : ∃ n, c.bound = n + 1 + inside.length + 1 := by
    refine ⟨rest.length + 2, ?_⟩
    rw [← Cursor.length_kinds, hc]
    simp only [List.length_cons, List.length_append, List.length_nil]
    omega
  have hnext := Cursor.next_kinds hc (by simp)
  have hlast := Cursor.kind_eq (Cursor.after_kinds hnext (by simp))
  have hopen : depthAfter 0 (.punct opening) = 1 := by simp [depthAfter, hopens]
  have hclose : depthAfter 1 (.punct closing) = 0 := by simp [depthAfter, hopens', hcloses]
  rw [skipBalanced, get_bind, hrounds, balancedFrom_succ _ _ (by simp [Cursor.kind_eq hc]),
    Cursor.kind_eq hc, hopen, if_neg Nat.one_ne_zero]
  have hinside := balancedFrom_inside hpaired heof (rounds + 1) hnext (by simp)
  rw [List.length_nil, Nat.zero_add] at hinside
  rw [hinside, balancedFrom_succ _ _ (by simp [hlast]), hlast, hclose, if_pos rfl, List.length_cons,
    List.length_append, Cursor.after_succ, ← Cursor.after_after]
  rfl

/-! ### Type arguments -/

/-- The token is no bracket of any kind, and type arguments do not end at it. -/
def Plain (k : Kind) : Prop :=
  k ≠ .eof ∧ ∀ mark, k = .punct mark →
    mark.opens = false ∧ mark ≠ .semicolon ∧ mark ≠ .less ∧ mark ≠ .greater

theorem anglesFrom_plain (rounds depth : ℕ) (hk : Plain c.kind) :
    anglesFrom (rounds + 1) (depth + 1) c = anglesFrom rounds (depth + 1) c.next := by
  rw [anglesFrom, get_bind]
  generalize c.kind = k at hk ⊢
  obtain ⟨heof, hmark⟩ := hk
  split
  · exact absurd rfl heof
  · exact absurd rfl (hmark _ rfl).2.1
  · cases (hmark _ rfl).1
  · cases (hmark _ rfl).1
  · cases (hmark _ rfl).1
  · rw [advance_bind, if_neg fun h => (hmark _ h).2.2.1 rfl,
      if_neg fun h => (hmark _ h).2.2.2 rfl]
    rfl

theorem anglesFrom_less (rounds depth : ℕ) (hk : c.kind = .punct .less) :
    anglesFrom (rounds + 1) depth c = anglesFrom rounds (depth + 1) c.next := by
  rw [anglesFrom, get_bind, hk]
  rfl

theorem anglesFrom_greater (rounds depth : ℕ) (hk : c.kind = .punct .greater) :
    anglesFrom (rounds + 1) (depth + 1) c =
      if depth = 0 then .ok ((), c.next) else anglesFrom rounds depth c.next := by
  rw [anglesFrom, get_bind, hk]
  show (if depth = 0 then pure () else anglesFrom rounds depth : Parser Unit) c.next = _
  split_ifs <;> rfl

theorem anglesFrom_group (rounds depth : ℕ) {opening : Punct} (hopens : opening.opens = true)
    (hk : c.kind = .punct opening) {c' : Cursor} (h : skipBalanced c = .ok ((), c')) :
    anglesFrom (rounds + 1) depth c = anglesFrom rounds depth c' := by
  rw [anglesFrom, get_bind, hk]
  rcases Punct.eq_of_opens hopens with rfl | rfl | rfl <;> exact bind_ok h _

/-- Looking for the end of type arguments passes over the text. -/
def AngleNeutral (text : List Kind) : Prop :=
  ∀ (rounds depth : ℕ) (c : Cursor) (rest : List Kind), c.kinds = text ++ rest → rest ≠ [] →
    ∃ more, anglesFrom (rounds + text.length) (depth + 1) c =
      anglesFrom (rounds + more) (depth + 1) (c.after text.length)

namespace AngleNeutral

theorem nil : AngleNeutral [] := fun _ _ _ _ _ _ => ⟨0, rfl⟩

theorem append {text more : List Kind} (h : AngleNeutral text) (hmore : AngleNeutral more) :
    AngleNeutral (text ++ more) := by
  intro rounds depth c rest hc hrest
  rw [List.append_assoc] at hc
  obtain ⟨left, hleft⟩ := h (rounds + more.length) depth c _ hc (by simp [hrest])
  obtain ⟨right, hright⟩ :=
    hmore (rounds + left) depth _ rest (Cursor.after_kinds hc (by simp [hrest])) hrest
  refine ⟨left + right, ?_⟩
  rw [List.length_append, Nat.add_comm text.length, ← Nat.add_assoc, hleft, Nat.add_right_comm,
    hright, Cursor.after_after, Nat.add_comm text.length, Nat.add_assoc]

theorem single (hk : Plain k) : AngleNeutral [k] := by
  intro rounds depth c rest hc hrest
  refine ⟨0, ?_⟩
  rw [List.length_singleton, anglesFrom_plain rounds depth (Cursor.kind_eq hc ▸ hk)]
  rfl

theorem cons (hk : Plain k) (h : AngleNeutral text) : AngleNeutral (k :: text) :=
  (single hk).append h

theorem group {opening : Punct} (h : Group opening text) : AngleNeutral text := by
  intro rounds depth c rest hc hrest
  have hskip := skipBalanced_skips h
  obtain ⟨inside, closing, hpartner, -, -, rfl⟩ := h
  obtain ⟨k, more, rfl⟩ := List.exists_cons_of_ne_nil hrest
  refine ⟨inside.length + 1, ?_⟩
  have hopens := (Punct.closes_of_partner hpartner).1
  rw [List.length_cons, ← Nat.add_assoc,
    anglesFrom_group _ _ hopens (Cursor.kind_eq hc) (hskip c k more hc trivial),
    List.length_append, List.length_singleton, List.length_cons, List.length_append,
    List.length_singleton]

theorem angles (h : AngleNeutral text) : AngleNeutral (angles text) := by
  intro rounds depth c rest hc hrest
  rw [Script.angles, List.cons_append, List.append_assoc] at hc
  have hnext := Cursor.next_kinds hc (by simp)
  have hlast := Cursor.after_kinds hnext (by simp)
  obtain ⟨more, hmore⟩ := h (rounds + 1) (depth + 1) c.next _ hnext (by simp)
  refine ⟨more, ?_⟩
  have hlength : rounds + (Script.angles text).length = rounds + 1 + text.length + 1 := by
    simp only [Script.angles, List.length_cons, List.length_append, List.length_nil]
    omega
  rw [hlength, anglesFrom_less _ _ (Cursor.kind_eq hc), hmore, Nat.add_right_comm,
    anglesFrom_greater _ _ (Cursor.kind_eq hlast), if_neg (Nat.succ_ne_zero depth), Script.angles,
    List.length_cons, List.length_append, Cursor.after_succ, ← Cursor.after_after]
  rfl

theorem flatten {texts : List (List Kind)} (h : ∀ text ∈ texts, AngleNeutral text) :
    AngleNeutral texts.flatten := by
  induction texts with
  | nil => exact nil
  | cons text texts ih =>
    obtain ⟨htext, htexts⟩ := List.forall_mem_cons.1 h
    exact htext.append (ih htexts)

theorem separated {texts : List (List Kind)} (h : ∀ text ∈ texts, AngleNeutral text) :
    AngleNeutral (separated texts) := by
  fun_induction Script.separated texts with
  | case1 => exact nil
  | case2 text => exact h text List.mem_cons_self
  | case3 text texts _ ih =>
    obtain ⟨htext, htexts⟩ := List.forall_mem_cons.1 h
    exact htext.append (.cons (by simp [Plain]; decide) (ih htexts))

end AngleNeutral

theorem skipAngles_skips (h : AngleNeutral text) :
    Skips skipAngles (angles text) fun _ => True := by
  rintro c k rest hc -
  rw [angles, List.cons_append, List.append_assoc] at hc
  have hnext := Cursor.next_kinds hc (by simp)
  have hlast := Cursor.after_kinds hnext (by simp)
  obtain ⟨rounds, hrounds⟩ : ∃ n, c.bound = n + 1 + text.length + 1 := by
    refine ⟨rest.length + 2, ?_⟩
    rw [← Cursor.length_kinds, hc]
    simp only [List.length_cons, List.length_append, List.length_nil]
    omega
  obtain ⟨more, hmore⟩ := h (rounds + 1) 0 c.next _ hnext (by simp)
  rw [skipAngles, get_bind, hrounds, anglesFrom_less _ _ (Cursor.kind_eq hc), hmore,
    Nat.add_right_comm, anglesFrom_greater _ _ (Cursor.kind_eq hlast), if_pos rfl, angles,
    List.length_cons, List.length_append, Cursor.after_succ, ← Cursor.after_after]
  rfl

end Parser

open CodecDocs.Script.Parser

theorem angleNeutral_words (words : List String) : AngleNeutral (words.map .word) := by
  induction words with
  | nil => exact .nil
  | cons word words ih => exact .cons (by simp [Plain]) ih

theorem angleNeutral_dotted (name : String) (parts : List String) :
    AngleNeutral (dotted name parts) := by
  have hparts : AngleNeutral (parts.flatMap fun part => [.punct .dot, .word part]) := by
    induction parts with
    | nil => exact .nil
    | cons part parts ih => exact .cons (by simp [Plain]; decide) (.cons (by simp [Plain]) ih)
  exact .cons (by simp [Plain]) hparts

mutual

theorem TypeText.angleNeutral : ∀ {text : List Kind}, TypeText text → AngleNeutral text
  | _, .operand hatom => hatom.angleNeutral
  | _, .joined hmark hatom htype => by
    refine hatom.angleNeutral.append (.cons ?_ htype.angleNeutral)
    rcases hmark with rfl | rfl <;> (simp [Plain]; decide)

theorem AtomText.angleNeutral : ∀ {text : List Kind}, AtomText text → AngleNeutral text
  | _, .mk _ hcore hgroups =>
    ((angleNeutral_words _).append hcore.angleNeutral).append
      (.flatten fun group hgroup => .group (hgroups group hgroup))

theorem CoreText.angleNeutral : ∀ {text : List Kind}, CoreText text → AngleNeutral text
  | _, .name parts _ => angleNeutral_dotted _ parts
  | _, .generic parts _ hargs =>
    (angleNeutral_dotted _ parts).append
      (AngleNeutral.separated fun arg harg => (hargs arg harg).angleNeutral).angles
  | _, .string value => .single (by simp [Plain])
  | _, .number value => .single (by simp [Plain])
  | _, .group form => .group form
  | _, .function hparams hresult =>
    (AngleNeutral.group hparams).append (.cons (by simp [Plain]; decide) hresult.angleNeutral)

end

/-! ### Types as they are read

A function type reaches as far as it can: what is joined to it belongs to its result. -/

/-- Cores that are read without another type. -/
inductive PlainCore : List Kind → Prop
  | name {name : String} (parts : List String) (plain : name ∉ typeWords) :
    PlainCore (dotted name parts)
  | generic {name : String} (parts : List String) {inside : List Kind} (plain : name ∉ typeWords)
      (neutral : AngleNeutral inside) : PlainCore (dotted name parts ++ angles inside)
  | string (value : String) : PlainCore [.string value]
  | number (value : Binary64) : PlainCore [.number value]
  | group {opening : Punct} {text : List Kind} (form : Group opening text) : PlainCore text

inductive PlainAtom : List Kind → Prop
  | mk {words : List String} {core : List Kind} {groups : List (List Kind)}
      (words_lead : ∀ word ∈ words, word ∈ typePrefixes) (core_plain : PlainCore core)
      (groups_follow : ∀ group ∈ groups, Group .openBracket group) :
    PlainAtom (words.map .word ++ core ++ groups.flatten)

inductive ReadType : List Kind → Prop
  | plain {atom : List Kind} (atom_plain : PlainAtom atom) : ReadType atom
  | joined {atom type : List Kind} {mark : Punct} (mark_joins : mark = .bar ∨ mark = .ampersand)
      (atom_plain : PlainAtom atom) (type_read : ReadType type) :
    ReadType (atom ++ .punct mark :: type)
  | function {words : List String} {params result : List Kind}
      (words_lead : ∀ word ∈ words, word ∈ typePrefixes) (params_group : Group .openParen params)
      (result_read : ReadType result) :
    ReadType (words.map .word ++ params ++ .punct .arrow :: result)

namespace ReadType

variable {text more : List Kind}

theorem ofCore {words : List String} (hwords : ∀ word ∈ words, word ∈ typePrefixes)
    (h : PlainCore text) : ReadType (words.map .word ++ text) := by
  have hatom : PlainAtom (words.map .word ++ text ++ ([] : List (List Kind)).flatten) :=
    .mk hwords h (by simp)
  rw [List.flatten_nil, List.append_nil] at hatom
  exact .plain hatom

theorem append_groups {groups : List (List Kind)} (h : ReadType text)
    (hgroups : ∀ group ∈ groups, Group .openBracket group) : ReadType (text ++ groups.flatten) := by
  have hplain : ∀ {atom : List Kind}, PlainAtom atom → PlainAtom (atom ++ groups.flatten) := by
    rintro _ ⟨hwords, hcore, hown⟩
    rw [List.append_assoc, ← List.flatten_append]
    exact .mk hwords hcore (List.forall_mem_append.2 ⟨hown, hgroups⟩)
  induction h with
  | plain hatom => exact .plain (hplain hatom)
  | joined hmark hatom _ ih =>
    rw [List.append_assoc]
    exact .joined hmark hatom ih
  | function hwords hparams _ ih =>
    rw [List.append_assoc]
    exact .function hwords hparams ih

theorem join {mark : Punct} (h : ReadType text) (hmark : mark = .bar ∨ mark = .ampersand)
    (hmore : ReadType more) : ReadType (text ++ .punct mark :: more) := by
  induction h with
  | plain hatom => exact .joined hmark hatom hmore
  | joined hmark' hatom _ ih =>
    rw [List.append_assoc]
    exact .joined hmark' hatom ih
  | function hwords hparams _ ih =>
    rw [List.append_assoc]
    exact .function hwords hparams ih

end ReadType

mutual

theorem TypeText.readType : ∀ {text : List Kind}, TypeText text → ReadType text
  | _, .operand hatom => hatom.readType
  | _, .joined hmark hatom htype => hatom.readType.join hmark htype.readType

theorem AtomText.readType : ∀ {text : List Kind}, AtomText text → ReadType text
  | _, .mk hwords hcore hgroups => (hcore.readType hwords).append_groups hgroups

theorem CoreText.readType : ∀ {text : List Kind} {words : List String}, CoreText text →
    (∀ word ∈ words, word ∈ typePrefixes) → ReadType (words.map .word ++ text)
  | _, _, .name parts hname, hwords => .ofCore hwords (.name parts hname)
  | _, _, .generic parts hname hargs, hwords =>
    .ofCore hwords (.generic parts hname (.separated fun arg harg => (hargs arg harg).angleNeutral))
  | _, _, .string value, hwords => .ofCore hwords (.string value)
  | _, _, .number value, hwords => .ofCore hwords (.number value)
  | _, _, .group form, hwords => .ofCore hwords (.group form)
  | _, _, .function hparams hresult, hwords => by
    rw [← List.append_assoc]
    exact .function hwords hparams hresult.readType

end

/-! ### Passing over types -/

theorem Cursor.atAnyWord_iff {c : Cursor} {words : List String} :
    c.atAnyWord words = true ↔ ∃ word ∈ words, c.kind = .word word := by
  simp [atAnyWord, atWord]

namespace Parser

variable {c : Cursor} {k : Kind} {rest text core : List Kind} {type : Parser Unit}

theorem skipWords_skips {words : List String} (hwords : ∀ word ∈ words, word ∈ typePrefixes)
    (hk : ∀ word ∈ typePrefixes, k ≠ .word word) {rounds : ℕ} (hrounds : words.length < rounds)
    (hc : c.kinds = words.map .word ++ k :: rest) :
    skipWords typePrefixes rounds c = .ok ((), c.after words.length) := by
  obtain ⟨rounds, rfl⟩ : ∃ n, rounds = n + 1 := ⟨rounds - 1, by omega⟩
  induction words generalizing rounds c with
  | nil =>
    have hat : ¬ c.atAnyWord typePrefixes = true := by
      rw [Cursor.atAnyWord_iff]
      rintro ⟨word, hword, hkind⟩
      exact hk word hword ((Cursor.kind_eq hc).symm.trans hkind)
    rw [skipWords, get_bind, if_neg hat]
    rfl
  | cons word words ih =>
    obtain ⟨hword, hlater⟩ := List.forall_mem_cons.1 hwords
    have hat : c.atAnyWord typePrefixes = true :=
      Cursor.atAnyWord_iff.2 ⟨word, hword, Cursor.kind_eq hc⟩
    obtain ⟨rounds, rfl⟩ : ∃ n, rounds = n + 1 := by
      rw [List.length_cons] at hrounds
      exact ⟨rounds - 1, by omega⟩
    rw [skipWords, get_bind, if_pos hat, advance_bind,
      ih hlater (Cursor.next_kinds hc (by simp)) rounds (by simpa using hrounds)]
    rfl

theorem dottedFrom_skips {parts : List String} (hk : k ≠ .punct .dot) {rounds : ℕ}
    (hrounds : parts.length < rounds)
    (hc : c.kinds = (parts.flatMap fun part => [.punct .dot, .word part]) ++ k :: rest) :
    dottedFrom rounds c =
      .ok ((), c.after (parts.flatMap fun part => [Kind.punct .dot, .word part]).length) := by
  obtain ⟨rounds, rfl⟩ : ∃ n, rounds = n + 1 := ⟨rounds - 1, by omega⟩
  induction parts generalizing rounds c with
  | nil =>
    rw [dottedFrom, eat_bind, if_neg (Cursor.kind_eq hc ▸ hk)]
    rfl
  | cons part parts ih =>
    obtain ⟨rounds, rfl⟩ : ∃ n, rounds = n + 1 := by
      rw [List.length_cons] at hrounds
      exact ⟨rounds - 1, by omega⟩
    have hnext := Cursor.next_kinds (Cursor.next_kinds hc (by simp)) (by simp)
    rw [dottedFrom, eat_bind, if_pos (Cursor.kind_eq hc), if_pos rfl, advance_bind,
      ih hnext rounds (by simpa using hrounds)]
    rfl

theorem bracketsFrom_skips {groups : List (List Kind)}
    (hgroups : ∀ group ∈ groups, Group .openBracket group) (hk : k ≠ .punct .openBracket)
    {rounds : ℕ} (hrounds : groups.length < rounds) (hc : c.kinds = groups.flatten ++ k :: rest) :
    bracketsFrom rounds c = .ok ((), c.after groups.flatten.length) := by
  obtain ⟨rounds, rfl⟩ : ∃ n, rounds = n + 1 := ⟨rounds - 1, by omega⟩
  induction groups generalizing rounds c with
  | nil =>
    rw [bracketsFrom, get_bind, if_neg (by simpa [Cursor.atPunct, Cursor.kind_eq hc] using hk)]
    rfl
  | cons group groups ih =>
    obtain ⟨hgroup, hlater⟩ := List.forall_mem_cons.1 hgroups
    rw [List.flatten_cons, List.append_assoc] at hc
    obtain ⟨k', more, hmore⟩ : ∃ k' more, groups.flatten ++ k :: rest = k' :: more :=
      List.exists_cons_of_ne_nil (by simp)
    have hskip := skipBalanced_skips hgroup c k' more (hmore ▸ hc) trivial
    have hkind : c.kind = .punct .openBracket := by
      obtain ⟨inside, closing, -, -, -, rfl⟩ := hgroup
      exact Cursor.kind_eq hc
    obtain ⟨rounds, rfl⟩ : ∃ n, rounds = n + 1 := by
      rw [List.length_cons] at hrounds
      exact ⟨rounds - 1, by omega⟩
    rw [bracketsFrom, get_bind, if_pos (by simp [Cursor.atPunct, hkind]), bind_ok hskip,
      ih hlater (Cursor.after_kinds hc (by simp)) rounds (by simpa using hrounds),
      Cursor.after_after, List.flatten_cons, List.length_append]

theorem plainCore_front (h : PlainCore core) :
    ∃ k more, core = k :: more ∧ (∀ word ∈ typeWords, k ≠ .word word) ∧
      ∀ mark, k = .punct mark → mark.opens = true := by
  cases h with
  | name parts hname =>
    exact ⟨_, _, rfl, fun word hword hk => hname (Kind.word.inj hk ▸ hword), by simp⟩
  | generic parts hname =>
    exact ⟨_, _, rfl, fun word hword hk => hname (Kind.word.inj hk ▸ hword), by simp⟩
  | string value => exact ⟨_, _, rfl, by simp, by simp⟩
  | number value => exact ⟨_, _, rfl, by simp, by simp⟩
  | group form =>
    obtain ⟨inside, closing, hpartner, -, -, rfl⟩ := form
    refine ⟨_, _, rfl, by simp, fun mark hk => ?_⟩
    obtain rfl := Kind.punct.inj hk
    exact (Punct.closes_of_partner hpartner).1

/-- Words before an operand are passed over. -/
theorem typeAtom_words (type : Parser Unit) {words : List String}
    (hwords : ∀ word ∈ words, word ∈ typePrefixes) (hk : ∀ word ∈ typePrefixes, k ≠ .word word)
    (hc : c.kinds = words.map .word ++ k :: rest) :
    typeAtom type c = typeAtom type (c.after words.length) := by
  have hlen : (words.map Kind.word).length = words.length := List.length_map _
  have hafter := Cursor.after_kinds hc (by simp)
  rw [hlen] at hafter
  have hbound : words.length < c.bound := by
    rw [← Cursor.length_kinds, hc, List.length_append, hlen]
    omega
  have hnone : ([] : List String).length < (c.after words.length).bound := by
    rw [← Cursor.length_kinds]
    exact Nat.succ_pos _
  have hnil := skipWords_skips (List.forall_mem_nil _) hk hnone hafter
  rw [typeAtom, get_bind, get_bind, bind_ok (skipWords_skips hwords hk hbound hc), bind_ok hnil]
  rfl

/-- Without words before it, an operand is read from its core on. -/
theorem skipWords_none (hk : ∀ word ∈ typePrefixes, k ≠ .word word) (hc : c.kinds = k :: rest) :
    skipWords typePrefixes c.bound c = .ok ((), c) := by
  have hbound : ([] : List String).length < c.bound := Nat.succ_pos _
  exact skipWords_skips (List.forall_mem_nil _) hk hbound hc

/-- A core ends where none of these tokens follows it. -/
def EndsCore (k : Kind) : Prop := k ≠ .punct .dot ∧ k ≠ .punct .less ∧ k ≠ .punct .arrow

/-- Cores that begin with a name or a literal. -/
theorem typeAtom_named (type : Parser Unit) {first : Kind} (parts : List String) {args : List Kind}
    (hfirst : (∃ name, first = .word name) ∨ (∃ value, first = .string value) ∨
      ∃ value, first = .number value)
    (hwords : ∀ word ∈ typePrefixes, first ≠ .word word)
    (hargs : args = [] ∨ ∃ inside, AngleNeutral inside ∧ args = angles inside) :
    Skips (typeAtom type)
      (first :: ((parts.flatMap fun part => [.punct .dot, .word part]) ++ args)) EndsCore := by
  rintro c k rest hc ⟨hdot, hless, -⟩
  set dots := parts.flatMap fun part => [Kind.punct .dot, .word part]
  rw [List.cons_append, List.append_assoc] at hc
  have hnext := Cursor.next_kinds hc (by simp)
  have hdots : dottedFrom c.next.bound c.next = .ok ((), c.next.after dots.length) := by
    have hbound : parts.length < c.next.bound := by
      have hlen : dots.length = parts.length * 2 := by simp [dots, List.length_flatMap]
      rw [← Cursor.length_kinds, hnext, List.length_append]
      omega
    rcases hargs with rfl | ⟨inside, -, rfl⟩
    · exact dottedFrom_skips hdot hbound hnext
    · exact dottedFrom_skips (by simp) hbound hnext
  have hafter := Cursor.after_kinds hnext (by simp)
  have hbody : (discard advance >>= fun _ => get >>= fun c => dottedFrom c.bound >>= fun _ =>
      get >>= fun c => if c.atPunct .less = true then skipAngles else pure ()) c =
      .ok ((), c.after (first :: (dots ++ args)).length) := by
    rw [advance_bind, get_bind, bind_ok hdots, get_bind]
    rcases hargs with rfl | ⟨inside, hinside, rfl⟩
    · rw [if_neg (by simpa [Cursor.atPunct, Cursor.kind_eq hafter] using hless)]
      simp [Cursor.after_succ]
    · rw [if_pos (by simp [Cursor.atPunct, Cursor.kind_eq hafter]),
        skipAngles_skips hinside _ k rest hafter trivial, Cursor.after_after, List.length_cons,
        List.length_append, Cursor.after_succ]
  rw [typeAtom, get_bind, bind_ok (skipWords_none hwords hc), get_bind]
  simp only [Cursor.kind_eq hc]
  rcases hfirst with ⟨name, rfl⟩ | ⟨value, rfl⟩ | ⟨value, rfl⟩ <;> exact hbody

theorem typeAtom_plain (type : Parser Unit) (h : PlainCore core) :
    Skips (typeAtom type) core EndsCore := by
  cases h with
  | @name name parts hname =>
    have hnamed := typeAtom_named type parts (.inl ⟨name, rfl⟩)
      (fun word hword hk => hname (Kind.word.inj hk ▸ List.mem_append_left _ hword)) (.inl rfl)
    rwa [List.append_nil] at hnamed
  | @generic name parts inside hname hinside =>
    exact typeAtom_named type parts (.inl ⟨name, rfl⟩)
      (fun word hword hk => hname (Kind.word.inj hk ▸ List.mem_append_left _ hword))
      (.inr ⟨inside, hinside, rfl⟩)
  | string value => exact typeAtom_named type [] (.inr (.inl ⟨value, rfl⟩)) (by simp) (.inl rfl)
  | number value => exact typeAtom_named type [] (.inr (.inr ⟨value, rfl⟩)) (by simp) (.inl rfl)
  | @group opening _ form =>
    rintro c k rest hc ⟨-, -, harrow⟩
    have hskip := skipBalanced_skips form c k rest hc trivial
    have hafter := Cursor.after_kinds hc (by simp)
    obtain ⟨inside, closing, hpartner, -, -, rfl⟩ := form
    have hopens := (Punct.closes_of_partner hpartner).1
    rw [typeAtom, get_bind, bind_ok (skipWords_none (by simp) hc), get_bind]
    simp only [Cursor.kind_eq hc]
    rcases Punct.eq_of_opens hopens with rfl | rfl | rfl
    · refine (bind_ok hskip _).trans ?_
      rw [eat_bind, if_neg (Cursor.kind_eq hafter ▸ harrow)]
      rfl
    · exact hskip
    · exact hskip

/-- The result of a function type is read as a type. -/
theorem typeAtom_function (type : Parser Unit) {params result : List Kind}
    (h : Group .openParen params) (hc : c.kinds = params ++ .punct .arrow :: result) :
    typeAtom type c = type (c.after (params.length + 1)) := by
  have hskip := skipBalanced_skips h c _ _ hc trivial
  have hafter := Cursor.after_kinds hc (by simp)
  obtain ⟨inside, closing, -, -, -, rfl⟩ := h
  rw [typeAtom, get_bind, bind_ok (skipWords_none (by simp) hc), get_bind]
  simp only [Cursor.kind_eq hc]
  rw [bind_ok hskip, eat_bind, if_pos (Cursor.kind_eq hafter), ← Cursor.after_after]
  rfl

/-- Tokens with which a type goes on. -/
def typeGoesOn : List Kind :=
  [.punct .dot, .punct .less, .punct .openBracket, .punct .bar, .punct .ampersand, .punct .arrow,
    .word "extends"]

theorem length_le_flatten {groups : List (List Kind)}
    (hgroups : ∀ group ∈ groups, Group .openBracket group) :
    groups.length ≤ groups.flatten.length := by
  induction groups with
  | nil => exact Nat.le_refl _
  | cons group groups ih =>
    obtain ⟨hgroup, hlater⟩ := List.forall_mem_cons.1 hgroups
    have hle := ih hlater
    obtain ⟨inside, closing, -, -, -, rfl⟩ := hgroup
    rw [List.flatten_cons, List.length_append, List.length_cons, List.length_cons]
    omega

/-- After an operand and its brackets, a type ends or a joining mark leads to the next operand. -/
theorem typeFrom_operand {rounds : ℕ} {groups : List (List Kind)} {c' : Cursor}
    (hatom : typeAtom (do typeLead; typeFrom rounds) c = .ok ((), c'))
    (hgroups : ∀ group ∈ groups, Group .openBracket group)
    (hc' : c'.kinds = groups.flatten ++ k :: rest) (hbracket : k ≠ .punct .openBracket)
    (hextends : k ≠ .word "extends") :
    typeFrom (rounds + 1) c =
      if k = .punct .bar ∨ k = .punct .ampersand then
        typeFrom rounds (c'.after (groups.flatten.length + 1))
      else .ok ((), c'.after groups.flatten.length) := by
  have hbound : groups.length < c'.bound := by
    have hlen := length_le_flatten hgroups
    rw [← Cursor.length_kinds, hc', List.length_append]
    omega
  have hbrackets := bracketsFrom_skips hgroups hbracket hbound hc'
  have hkind := Cursor.kind_eq (Cursor.after_kinds hc' (by simp))
  rw [typeFrom, bind_ok hatom, get_bind, bind_ok hbrackets, eatWord_bind,
    if_neg (hkind ▸ hextends), if_neg Bool.false_ne_true, eat_bind, hkind]
  by_cases hbar : k = .punct .bar
  · rw [if_pos hbar, if_pos rfl, if_pos (.inl hbar), ← Cursor.after_after]
    rfl
  rw [if_neg hbar, if_neg Bool.false_ne_true, eat_bind, hkind]
  by_cases hampersand : k = .punct .ampersand
  · rw [if_pos hampersand, if_pos rfl, if_pos (.inr hampersand), ← Cursor.after_after]
    rfl
  · rw [if_neg hampersand, if_neg (not_or.2 ⟨hbar, hampersand⟩)]
    rfl

/-- An operand with the words before it and the brackets after it. -/
theorem typeFrom_plain {atom : List Kind} (h : PlainAtom atom) (rounds : ℕ)
    (hc : c.kinds = atom ++ k :: rest) (hcore : EndsCore k) (hbracket : k ≠ .punct .openBracket)
    (hextends : k ≠ .word "extends") :
    typeFrom (rounds + 1) c =
      if k = .punct .bar ∨ k = .punct .ampersand then
        typeFrom rounds (c.after (atom.length + 1))
      else .ok ((), c.after atom.length) := by
  obtain @⟨words, core, groups, hwords, hplain, hgroups⟩ := h
  rw [List.append_assoc, List.append_assoc] at hc
  obtain ⟨first, more, hfirst, hlead, -⟩ := plainCore_front hplain
  have hfront : c.kinds = words.map .word ++ first :: (more ++ (groups.flatten ++ k :: rest)) := by
    rw [hc, hfirst]
    rfl
  have hword := typeAtom_words (do typeLead; typeFrom rounds) hwords
    (fun word hmem => hlead word (List.mem_append_left _ hmem)) hfront
  have hafter := Cursor.after_kinds hc (by simp)
  rw [List.length_map] at hafter
  have hatom : typeAtom (do typeLead; typeFrom rounds) c =
      .ok ((), (c.after words.length).after core.length) := by
    rw [hword]
    cases groups with
    | nil => exact typeAtom_plain _ hplain _ _ _ hafter hcore
    | cons group groups =>
      obtain ⟨inside, closing, -, -, -, rfl⟩ := hgroups group List.mem_cons_self
      exact typeAtom_plain _ hplain _ _ _ hafter (by simp [EndsCore])
  rw [typeFrom_operand hatom hgroups (Cursor.after_kinds hafter (by simp)) hbracket hextends]
  simp only [Cursor.after_after, List.length_append, List.length_map, Nat.add_assoc]

/-- How types begin. -/
def BeginsType (text : List Kind) : Prop :=
  ∃ k more, text = k :: more ∧ k ≠ .word "const" ∧ ∀ mark, k = .punct mark → mark.opens = true

theorem BeginsType.append (h : BeginsType text) (rest : List Kind) : BeginsType (text ++ rest) := by
  obtain ⟨k, more, rfl, hk⟩ := h
  exact ⟨k, more ++ rest, rfl, hk⟩

theorem BeginsType.words (h : BeginsType text) {words : List String}
    (hwords : ∀ word ∈ words, word ∈ typePrefixes) : BeginsType (words.map .word ++ text) := by
  cases words with
  | nil => exact h
  | cons word words =>
    refine ⟨_, _, rfl, fun hk => ?_, by simp⟩
    obtain rfl := Kind.word.inj hk
    exact absurd (hwords _ List.mem_cons_self) (by decide)

theorem beginsType_of_plain {atom : List Kind} (h : PlainAtom atom) : BeginsType atom := by
  obtain ⟨hwords, hcore, -⟩ := h
  obtain ⟨k, more, rfl, hk, hmark⟩ := plainCore_front hcore
  have hbegins : BeginsType (k :: more) := ⟨k, more, rfl, hk "const" (by decide), hmark⟩
  exact (hbegins.words hwords).append _

theorem beginsType_of_read {type : List Kind} (h : ReadType type) : BeginsType type := by
  cases h with
  | plain hatom => exact beginsType_of_plain hatom
  | joined _ hatom => exact (beginsType_of_plain hatom).append _
  | function hwords hparams =>
    obtain ⟨inside, closing, -, -, -, rfl⟩ := hparams
    exact (BeginsType.words ⟨_, _, rfl, by simp, by simp [Punct.opens]⟩ hwords).append _

theorem typeLead_none (h : BeginsType text) (hc : c.kinds = text) : typeLead c = .ok ((), c) := by
  obtain ⟨k, more, rfl, -, hmark⟩ := h
  have hne : ∀ mark, mark.opens = false → c.kind ≠ .punct mark := by
    intro mark hopens hk
    rw [hmark mark ((Cursor.kind_eq hc).symm.trans hk)] at hopens
    cases hopens
  rw [typeLead, discard_eat_bind, if_neg (hne _ rfl), ← bind_pure (discard (eat .ampersand)),
    discard_eat_bind, if_neg (hne _ rfl)]
  rfl

theorem ends_of_not_goesOn (hk : k ∉ typeGoesOn) :
    EndsCore k ∧ k ≠ .punct .openBracket ∧ k ≠ .word "extends" ∧
      ¬ (k = .punct .bar ∨ k = .punct .ampersand) := by
  simp only [typeGoesOn, List.mem_cons, List.not_mem_nil, or_false, not_or] at hk
  obtain ⟨hdot, hless, hbracket, hbar, hampersand, harrow, hextends⟩ := hk
  exact ⟨⟨hdot, hless, harrow⟩, hbracket, hextends, not_or.2 ⟨hbar, hampersand⟩⟩

theorem typeFrom_skips {type : List Kind} (h : ReadType type) {rounds : ℕ}
    (hrounds : type.length < rounds) : Skips (typeFrom rounds) type fun k => k ∉ typeGoesOn := by
  obtain ⟨rounds, rfl⟩ : ∃ n, rounds = n + 1 := ⟨rounds - 1, by omega⟩
  induction h generalizing rounds with
  | plain hatom =>
    intro c k rest hc hk
    obtain ⟨hcore, hbracket, hextends, hends⟩ := ends_of_not_goesOn hk
    rw [typeFrom_plain hatom rounds hc hcore hbracket hextends, if_neg hends]
  | @joined atom type mark hmark hatom htype ih =>
    intro c k rest hc hk
    rw [List.append_assoc] at hc
    rw [List.length_append, List.length_cons] at hrounds
    obtain ⟨rounds, rfl⟩ : ∃ n, rounds = n + 1 := ⟨rounds - 1, by omega⟩
    have hcore : EndsCore (.punct mark) ∧ Kind.punct mark ≠ .punct .openBracket := by
      rcases hmark with rfl | rfl <;> simp [EndsCore]
    have hnext := Cursor.next_kinds (Cursor.after_kinds hc (by simp)) (by simp)
    rw [typeFrom_plain hatom (rounds + 1) hc hcore.1 hcore.2 (by simp),
      if_pos (by simpa using hmark), ← Cursor.after_after, Cursor.after_succ, Cursor.after_zero,
      ih rounds (by omega) _ k rest hnext hk, ← Cursor.after_succ, Cursor.after_after,
      List.length_append, List.length_cons]
  | @function words params result hwords hparams hresult ih =>
    intro c k rest hc hk
    obtain ⟨-, hbracket, hextends, hends⟩ := ends_of_not_goesOn hk
    rw [List.append_assoc, List.append_assoc] at hc
    simp only [List.length_append, List.length_cons] at hrounds
    obtain ⟨rounds, rfl⟩ : ∃ n, rounds = n + 1 := ⟨rounds - 1, by omega⟩
    have hafter := Cursor.after_kinds hc (by simp)
    rw [List.length_map] at hafter
    have hword : typeAtom (do typeLead; typeFrom (rounds + 1)) c =
        typeAtom (do typeLead; typeFrom (rounds + 1)) (c.after words.length) := by
      obtain ⟨inside, closing, -, -, -, rfl⟩ := hparams
      exact typeAtom_words _ hwords (by simp) hc
    have hnext := Cursor.next_kinds (Cursor.after_kinds hafter (by simp)) (by simp)
    have hatom : typeAtom (do typeLead; typeFrom (rounds + 1)) c =
        .ok ((), ((c.after words.length).after params.length).next.after result.length) := by
      rw [hword, typeAtom_function _ hparams hafter, ← Cursor.after_after,
        Cursor.after_succ _ 0, Cursor.after_zero]
      rw [bind_ok (typeLead_none ((beginsType_of_read hresult).append (k :: rest)) hnext)]
      exact ih rounds (by omega) _ k rest hnext hk
    have hlast := Cursor.after_kinds hnext (by simp)
    rw [typeFrom_operand hatom (List.forall_mem_nil _) hlast hbracket hextends, if_neg hends,
      ← Cursor.after_succ]
    simp only [Cursor.after_after, List.length_append, List.length_cons, List.length_map,
      List.flatten_nil, List.length_nil, Nat.add_zero, Nat.add_assoc]

theorem skipType_skips {type : List Kind} (h : ReadType type) :
    Skips skipType type fun k => k ∉ typeGoesOn := by
  intro c k rest hc hk
  have hlead := typeLead_none ((beginsType_of_read h).append (k :: rest)) hc
  have hbound : type.length < c.bound := by
    rw [← Cursor.length_kinds, hc, List.length_append]
    omega
  rw [skipType, get_bind, bind_ok hlead]
  exact typeFrom_skips h hbound c k rest hc hk

end Parser

end CodecDocs.Script
