import CodecDocs.Proofs.Script.Documented
import CodecDocs.Script.Lookahead

/-! Looking ahead in canonical text. Brackets are balanced in it, so the group at its front ends
where the text says; only the parameters of an arrow function have an arrow after them. -/

namespace CodecDocs.Script

open Token (Kind)
open CodecDocs.Script.Parser (Ends)

/-! ### Balanced text -/

section Steps

variable {t : Token} {mark : Punct}

theorem afterGroup_opens (depth : ℕ) (rest : List Token) (h : t.kind = .punct mark)
    (hmark : mark.opens = true) : afterGroup depth (t :: rest) = afterGroup (depth + 1) rest := by
  rw [afterGroup.eq_def]
  simp [h, hmark]

theorem afterGroup_closes (depth : ℕ) (rest : List Token) (h : t.kind = .punct mark)
    (hopens : mark.opens = false) (hcloses : mark.closes = true) :
    afterGroup (depth + 1) (t :: rest) =
      if depth = 0 then some rest else afterGroup depth rest := by
  rw [afterGroup.eq_def]
  cases depth <;> simp [h, hopens, hcloses]

theorem afterGroup_other (depth : ℕ) (rest : List Token) (heof : t.kind ≠ .eof)
    (hmark : ∀ mark, t.kind = .punct mark → mark.opens = false ∧ mark.closes = false) :
    afterGroup depth (t :: rest) = afterGroup depth rest := by
  rw [afterGroup.eq_def]
  dsimp only
  split
  · next mark hk =>
    obtain ⟨hopens, hcloses⟩ := hmark mark hk
    simp [hopens, hcloses]
  · next hk => exact absurd hk heof
  · rfl

end Steps

/-- Looking for the end of a group passes over the text. -/
def Balanced (text : List Kind) : Prop :=
  ∀ depth tokens rest, tokens.map Token.kind = text ++ rest →
    ∃ later, later.map Token.kind = rest ∧
      afterGroup (depth + 1) tokens = afterGroup (depth + 1) later

namespace Balanced

theorem nil : Balanced [] := fun _ tokens _ h => ⟨tokens, h, rfl⟩

theorem append {text more : List Kind} (h : Balanced text) (hmore : Balanced more) :
    Balanced (text ++ more) := by
  intro depth tokens rest ht
  rw [List.append_assoc] at ht
  obtain ⟨middle, hmiddle, heq⟩ := h depth tokens _ ht
  obtain ⟨later, hlater, heq'⟩ := hmore depth middle _ hmiddle
  exact ⟨later, hlater, heq.trans heq'⟩

/-- A token that is no bracket and not the end. -/
theorem single {k : Kind} (heof : k ≠ .eof)
    (hmark : ∀ mark, k = .punct mark → mark.opens = false ∧ mark.closes = false) :
    Balanced [k] := by
  intro depth tokens rest ht
  obtain ⟨t, later, rfl, rfl, hlater⟩ := List.map_eq_cons_iff.1 ht
  exact ⟨later, hlater, afterGroup_other _ _ heof hmark⟩

theorem word (name : String) : Balanced [.word name] := single (by simp) (by simp)

theorem punct {mark : Punct} (hopens : mark.opens = false) (hcloses : mark.closes = false) :
    Balanced [.punct mark] :=
  single (by simp) fun _ h => by
    obtain rfl := Kind.punct.inj h
    exact ⟨hopens, hcloses⟩

theorem cons {k : Kind} {text : List Kind} (hk : Balanced [k]) (h : Balanced text) :
    Balanced (k :: text) := hk.append h

theorem group {opening closing : Punct} {inside : List Kind} (hopens : opening.opens = true)
    (hcloses : closing.closes = true) (hopens' : closing.opens = false) (h : Balanced inside) :
    Balanced (.punct opening :: (inside ++ [.punct closing])) := by
  intro depth tokens rest ht
  rw [List.cons_append, List.append_assoc] at ht
  obtain ⟨t, tokens, rfl, hkind, ht⟩ := List.map_eq_cons_iff.1 ht
  obtain ⟨middle, hmiddle, heq⟩ := h (depth + 1) tokens _ ht
  obtain ⟨u, later, rfl, hclosing, hlater⟩ := List.map_eq_cons_iff.1 hmiddle
  refine ⟨later, hlater, ?_⟩
  rw [afterGroup_opens _ _ hkind hopens, heq, afterGroup_closes _ _ hclosing hopens' hcloses,
    if_neg (Nat.succ_ne_zero depth)]

theorem parens {inside : List Kind} (h : Balanced inside) : Balanced (parens inside) :=
  group rfl rfl rfl h

theorem brackets {inside : List Kind} (h : Balanced inside) : Balanced (brackets inside) :=
  group rfl rfl rfl h

theorem braces {inside : List Kind} (h : Balanced inside) : Balanced (braces inside) :=
  group rfl rfl rfl h

theorem separated {pieces : List (List Kind)} (h : ∀ piece ∈ pieces, Balanced piece) :
    Balanced (separated pieces) := by
  fun_induction Script.separated pieces with
  | case1 => exact nil
  | case2 piece => exact h piece List.mem_cons_self
  | case3 piece pieces _ ih =>
    obtain ⟨hpiece, hpieces⟩ := List.forall_mem_cons.1 h
    exact hpiece.append ((punct rfl rfl).cons (ih hpieces))

theorem asOperand {e : Expr} {text : List Kind} (h : Balanced text) :
    Balanced (asOperand e text) := by
  unfold Script.asOperand
  split_ifs
  · exact h.parens
  · exact h

theorem asBody {text : List Kind} (h : Balanced text) : Balanced (asBody text) := by
  unfold Script.asBody
  split_ifs
  · exact h.parens
  · exact h

end Balanced

theorem params_balanced (params : List String) :
    Balanced (separated (params.map fun p => [.word p])) := by
  refine .separated fun piece hpiece => ?_
  obtain ⟨p, -, rfl⟩ := List.mem_map.1 hpiece
  exact .word p

mutual

theorem Codec.balanced : ∀ {e : Expr}, Codec e → Balanced e.text
  | _, .string value span => .single (by simp) (by simp)
  | _, .number value span => .single (by simp) (by simp)
  | _, .bool value span => .word _
  | _, .null span => .word _
  | _, .ident span plain => .word _
  | _, .member name span h =>
    h.balanced.asOperand.append ((Balanced.punct rfl rfl).cons (.word name))
  | _, .call span h hargs => by
    rw [Expr.text, Expr.texts_eq]
    refine h.balanced.asOperand.append (Balanced.separated fun text htext => ?_).parens
    obtain ⟨arg, harg, rfl⟩ := List.mem_map.1 htext
    exact (hargs arg harg).balanced
  | _, .array span helements => by
    rw [Expr.text, Expr.texts_eq]
    refine (Balanced.separated fun text htext => ?_).brackets
    obtain ⟨e, he, rfl⟩ := List.mem_map.1 htext
    exact (helements e he).balanced
  | _, .object span hproperties => by
    rw [Expr.text, Property.texts_eq]
    refine (Balanced.separated fun text htext => ?_).braces
    obtain ⟨p, hp, rfl⟩ := List.mem_map.1 htext
    exact (hproperties p hp).balanced
  | _, .arrow params span h =>
    (params_balanced params).parens.append ((Balanced.punct rfl rfl).cons h.balanced.asBody)

theorem CodecElement.balanced : ∀ {e : Expr}, CodecElement e → Balanced e.text
  | _, .single h => h.balanced
  | _, .spread span h => (Balanced.punct rfl rfl).cons h.balanced

theorem CodecProperty.balanced : ∀ {p : Property}, CodecProperty p → Balanced p.text
  | _, .keyed doc span hkey h => hkey.balanced.append ((Balanced.punct rfl rfl).cons h.balanced)
  | _, .shorthand name doc span => .word name
  | _, .spread doc span h => (Balanced.punct rfl rfl).cons h.balanced

theorem CodecKey.balanced : ∀ {k : Key}, CodecKey k → Balanced k.text
  | _, .name text => .word text
  | _, .string text => .single (by simp) (by simp)
  | _, .number value => .single (by simp) (by simp)
  | _, .computed h => h.balanced.brackets

end

/-! ### Chains of members and calls -/

/-- What follows an operand. -/
inductive Suffix where
  | member (name : String)
  | call (args : List Expr)

def Suffix.text : Suffix → List Kind
  | .member name => [.punct .dot, .word name]
  | .call args => parens (separated (args.map Expr.text))

/-- An operand with the suffix that begins at the cursor. -/
def Suffix.apply (operand : Expr) (c : Cursor) : Suffix → Expr
  | .member name => .member operand name default
  | .call args => .call operand (Expr.documenteds args c.next) default

/-- An operand with the chain that begins at the cursor. -/
def chained : Expr → Cursor → List Suffix → Expr
  | operand, _, [] => operand
  | operand, c, s :: suffixes => chained (s.apply operand c) (c.after s.text.length) suffixes

theorem chained_snoc (operand : Expr) (c : Cursor) (suffixes : List Suffix) (s : Suffix) :
    chained operand c (suffixes ++ [s]) =
      s.apply (chained operand c suffixes) (c.after (suffixes.flatMap Suffix.text).length) := by
  induction suffixes generalizing operand c with
  | nil => rfl
  | cons first suffixes ih =>
    rw [List.cons_append, chained, ih, chained, Cursor.after_after, List.flatMap_cons,
      List.length_append]

def Suffix.Codec : Suffix → Prop
  | .member _ => True
  | .call args => ∀ arg ∈ args, CodecElement arg

/-- The operand that a chain of members and calls begins with, and the chain. -/
def Expr.spine : Expr → Expr × List Suffix
  | .member operand name _ => (operand.spine.1, operand.spine.2 ++ [.member name])
  | .call operand args _ => (operand.spine.1, operand.spine.2 ++ [.call args])
  | e => (e, [])

def Expr.isChain : Expr → Bool
  | .member .. | .call .. => true
  | _ => false

/-- An expression in the place of an operand is its spine. -/
structure Spine (e seed : Expr) (suffixes : List Suffix) : Prop where
  seed_codec : Codec seed
  seed_single : seed.isChain = false
  suffixes_codec : ∀ s ∈ suffixes, s.Codec
  text_eq : asOperand e e.text = asOperand seed seed.text ++ suffixes.flatMap Suffix.text
  documented_eq (c : Cursor) : e.documented (c.atOperand e) =
    chained (seed.documented (c.atOperand seed)) (c.after (asOperand seed seed.text).length)
      suffixes

theorem Spine.seed {e : Expr} (h : Codec e) (hsingle : e.isChain = false) : Spine e e [] where
  seed_codec := h
  seed_single := hsingle
  suffixes_codec := by simp
  text_eq := by simp
  documented_eq _ := rfl

/-- One more suffix. -/
theorem Spine.snoc {e operand seed : Expr} {suffixes : List Suffix} {s : Suffix}
    (h : Spine operand seed suffixes) (hs : s.Codec) (hfun : e.isFunction = false)
    (htext : e.text = asOperand operand operand.text ++ s.text)
    (hdocumented : ∀ c : Cursor, e.documented c =
      s.apply (operand.documented (c.atOperand operand))
        (c.after (asOperand operand operand.text).length)) :
    Spine e seed (suffixes ++ [s]) where
  seed_codec := h.seed_codec
  seed_single := h.seed_single
  suffixes_codec := by
    intro s' hs'
    rcases List.mem_append.1 hs' with hs' | hs'
    · exact h.suffixes_codec s' hs'
    · obtain rfl := List.mem_singleton.1 hs'
      exact hs
  text_eq := by
    rw [asOperand, hfun, if_neg Bool.false_ne_true, htext, h.text_eq]
    simp
  documented_eq c := by
    rw [Cursor.atOperand, hfun, if_neg Bool.false_ne_true, hdocumented, h.documented_eq, h.text_eq,
      chained_snoc, Cursor.after_after, List.length_append]

theorem Codec.spine : ∀ {e : Expr}, Codec e → Spine e e.spine.1 e.spine.2
  | _, .string value span => .seed (.string value span) rfl
  | _, .number value span => .seed (.number value span) rfl
  | _, .bool value span => .seed (.bool value span) rfl
  | _, .null span => .seed (.null span) rfl
  | _, .ident span plain => .seed (.ident span plain) rfl
  | _, .member name span h => h.spine.snoc trivial rfl rfl fun _ => rfl
  | _, .call span h hargs => h.spine.snoc hargs rfl (by simp [Expr.text, Suffix.text]) fun _ => rfl
  | _, .array span helements => .seed (.array span helements) rfl
  | _, .object span hproperties => .seed (.object span hproperties) rfl
  | _, .arrow params span h => .seed (.arrow params span h) rfl

/-! ### Arrows -/

/-- Marks at which an expression ends in canonical text. -/
def endMarks : List Punct := [.comma, .closeParen, .closeBracket, .closeBrace, .semicolon]

theorem dropAsync_other {t : Token} (rest : List Token) (h : t.kind ≠ .word "async") :
    dropAsync (t :: rest) = t :: rest := by
  cases rest with
  | nil => rfl
  | cons next rest => simp [dropAsync, h]

theorem arrowAhead_other {t : Token} (rest : List Token) (hword : isWordKind t.kind = false)
    (hparen : t.kind ≠ .punct .openParen) : arrowAhead (t :: rest) = false := by
  have hasync : t.kind ≠ .word "async" := by
    intro h
    rw [h] at hword
    cases hword
  rw [arrowAhead, dropAsync_other rest hasync]
  dsimp only
  split
  · next name hk =>
    rw [hk] at hword
    cases hword
  · next hk => exact absurd hk hparen
  · rfl

/-- A group in parentheses is the parameters of an arrow function just when an arrow follows it. -/
theorem arrowAhead_parens {inside rest : List Kind} {k : Kind} {tokens : List Token}
    (hinside : Balanced inside) (ht : tokens.map Token.kind = parens inside ++ k :: rest)
    (hk : k ≠ .punct .colon) : arrowAhead tokens = decide (k = .punct .arrow) := by
  rw [parens, List.cons_append, List.append_assoc] at ht
  obtain ⟨t, tokens, rfl, hopen, ht⟩ := List.map_eq_cons_iff.1 ht
  obtain ⟨middle, hmiddle, heq⟩ := hinside 0 tokens _ ht
  obtain ⟨u, later, rfl, hclose, hlater⟩ := List.map_eq_cons_iff.1 hmiddle
  obtain ⟨v, later, rfl, hv, -⟩ := List.map_eq_cons_iff.1 hlater
  have hgroup : afterGroup 0 (t :: tokens) = some (v :: later) := by
    rw [afterGroup_opens 0 tokens hopen rfl, heq, afterGroup_closes 0 _ hclose rfl rfl, if_pos rfl]
  rw [arrowAhead, dropAsync_other tokens (by rw [hopen]; simp)]
  simp only [hopen, hgroup, hv]
  split <;> simp_all

/-- A word is no arrow function unless an arrow, or what is one with `async` before it, follows. -/
theorem arrowAhead_word {t u : Token} {tokens : List Token} {name : String}
    (ht : t.kind = .word name) (harrow : u.kind ≠ .punct .arrow) (hasync : u.kind ≠ .word "async")
    (hlater : isWordKind u.kind ∨ u.kind = .punct .openParen → arrowAhead (u :: tokens) = false) :
    arrowAhead (t :: u :: tokens) = false := by
  have hplain : dropAsync (u :: tokens) = u :: tokens := dropAsync_other tokens hasync
  rw [arrowAhead] at hlater ⊢
  rw [hplain] at hlater
  by_cases hdrop : t.kind = .word "async" ∧ !u.newline ∧
      (isWordKind u.kind ∨ u.kind = .punct .openParen)
  · rw [dropAsync, if_pos hdrop]
    exact hlater hdrop.2.2
  · rw [dropAsync, if_neg hdrop]
    simp [ht, harrow]

/-! ### Chains and what follows them -/

/-- Words with which the type of an expression is asserted. -/
def assertionWords : List String := ["as", "satisfies"]

/-- What may follow an operand that is neither called there nor the parameters of an arrow
function: a mark, or a word before a type. -/
inductive Follow : List Kind → Prop
  | mark {mark : Punct} (h : mark ∉ [Punct.arrow, .colon, .openParen]) (rest : List Kind) :
    Follow (.punct mark :: rest)
  | word {word : String} (h : word ∈ assertionWords) {k : Kind} (hk : k ≠ .punct .arrow)
      (rest : List Kind) : Follow (.word word :: k :: rest)

theorem Follow.ne_nil {rest : List Kind} (h : Follow rest) : rest ≠ [] := by
  cases h <;> exact List.cons_ne_nil _ _

theorem follow_of_ends {rest : List Kind} (h : Ends endMarks rest) : Follow rest := by
  obtain ⟨mark, hmark, more, rfl⟩ := h
  refine .mark (fun hmem => ?_) more
  revert hmark hmem
  cases mark <;> simp [endMarks]

theorem arrowAhead_follow {rest : List Kind} {tokens : List Token} (h : Follow rest)
    (ht : tokens.map Token.kind = rest) : arrowAhead tokens = false := by
  cases h with
  | mark hmark more =>
    obtain ⟨t, tokens, rfl, hkind, -⟩ := List.map_eq_cons_iff.1 ht
    simp only [List.mem_cons, List.not_mem_nil, or_false, not_or] at hmark
    exact arrowAhead_other tokens (by rw [hkind]; rfl) (by simp [hkind, hmark])
  | @word word hword k hk more =>
    obtain ⟨t, tokens, rfl, hkind, ht⟩ := List.map_eq_cons_iff.1 ht
    obtain ⟨u, tokens, rfl, rfl, -⟩ := List.map_eq_cons_iff.1 ht
    have hasync : t.kind ≠ .word "async" := by
      intro hasync
      obtain rfl := Kind.word.inj (hkind.symm.trans hasync)
      simp [assertionWords] at hword
    rw [arrowAhead, dropAsync_other _ hasync]
    simp [hkind, hk]

theorem chain_front (suffixes : List Suffix) {rest : List Kind} (h : Follow rest) :
    ∃ k more, suffixes.flatMap Suffix.text ++ rest = k :: more ∧ k ≠ .punct .arrow ∧
      k ≠ .punct .colon ∧ k ≠ .word "async" ∧ k ≠ .word "function" := by
  cases suffixes with
  | nil =>
    cases h with
    | mark hmark more =>
      simp only [List.mem_cons, List.not_mem_nil, or_false, not_or] at hmark
      exact ⟨_, more, rfl, by simp [hmark], by simp [hmark], by simp, by simp⟩
    | word hword _ more =>
      simp only [assertionWords, List.mem_cons, List.not_mem_nil, or_false] at hword
      rcases hword with rfl | rfl <;> exact ⟨_, _, rfl, by simp, by simp, by simp, by simp⟩
  | cons s suffixes =>
    cases s with
    | member name => exact ⟨.punct .dot, _, rfl, by simp, by simp, by simp, by simp⟩
    | call args => exact ⟨.punct .openParen, _, rfl, by simp, by simp, by simp, by simp⟩

theorem args_balanced {args : List Expr} (h : ∀ arg ∈ args, CodecElement arg) :
    Balanced (separated (args.map Expr.text)) := by
  refine .separated fun text htext => ?_
  obtain ⟨arg, harg, rfl⟩ := List.mem_map.1 htext
  exact (h arg harg).balanced

/-- A group in parentheses with a chain after it is no arrow function. -/
theorem arrowAhead_parens_chain (suffixes : List Suffix) {inside rest : List Kind}
    {tokens : List Token} (hinside : Balanced inside) (hrest : Follow rest)
    (ht : tokens.map Token.kind = parens inside ++ (suffixes.flatMap Suffix.text ++ rest)) :
    arrowAhead tokens = false := by
  obtain ⟨k, more, hfront, harrow, hcolon, -⟩ := chain_front suffixes hrest
  rw [hfront] at ht
  rw [arrowAhead_parens hinside ht hcolon]
  simpa using harrow

theorem arrowAhead_word_chain {name : String} {rest : List Kind} {suffixes : List Suffix}
    {tokens : List Token} (hcodec : ∀ s ∈ suffixes, s.Codec) (hrest : Follow rest)
    (ht : tokens.map Token.kind = .word name :: (suffixes.flatMap Suffix.text ++ rest)) :
    arrowAhead tokens = false := by
  obtain ⟨k, more, hfront, harrow, -, hasync, -⟩ := chain_front suffixes hrest
  obtain ⟨t, tokens, rfl, hword, ht⟩ := List.map_eq_cons_iff.1 ht
  have ht' := ht
  rw [hfront] at ht'
  obtain ⟨u, later, rfl, rfl, -⟩ := List.map_eq_cons_iff.1 ht'
  refine arrowAhead_word hword harrow hasync fun hcase => ?_
  cases suffixes with
  | nil => exact arrowAhead_follow hrest ht
  | cons s suffixes =>
    cases s with
    | member name =>
      rw [(List.cons.inj ht).1] at hcase
      simp [isWordKind] at hcase
    | call args =>
      refine arrowAhead_parens_chain suffixes
        (args_balanced (hcodec (.call args) List.mem_cons_self)) hrest ?_
      rw [ht, List.flatMap_cons, List.append_assoc]
      rfl

/-- Looking ahead at a chain, as an operand or on its own, finds no arrow function. -/
theorem arrowAhead_chain {seed : Expr} {suffixes : List Suffix} {rest : List Kind}
    {tokens : List Token} (hseed : Codec seed) (hsingle : seed.isChain = false)
    (hcodec : ∀ s ∈ suffixes, s.Codec) (hrest : Follow rest)
    (ht : tokens.map Token.kind =
      asOperand seed seed.text ++ (suffixes.flatMap Suffix.text ++ rest)) :
    arrowAhead tokens = false := by
  have hother : ∀ k more, tokens.map Token.kind = k :: more → isWordKind k = false →
      k ≠ .punct .openParen → arrowAhead tokens = false := by
    intro k more hk hword hparen
    obtain ⟨t, tokens, rfl, rfl, -⟩ := List.map_eq_cons_iff.1 hk
    exact arrowAhead_other tokens hword hparen
  cases hseed with
  | string | number | array | object => exact hother _ _ ht rfl (by simp)
  | bool | null | ident => exact arrowAhead_word_chain hcodec hrest ht
  | member | call => cases hsingle
  | arrow params span hbody =>
    exact arrowAhead_parens_chain suffixes (Codec.arrow params span hbody).balanced hrest ht

end CodecDocs.Script
