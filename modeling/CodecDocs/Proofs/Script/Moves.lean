import CodecDocs.Proofs.Script.Writing
import CodecDocs.Script.Cursor
import Mathlib.Logic.Function.Iterate

/-! What the parser's moves do to the kinds of the tokens that are left. Reading a text is stated
for any tokens of its kinds, whatever their places, and for any text after it that begins with a
mark at which the text may end. -/

namespace CodecDocs.Script

open Token (Kind)

namespace Cursor

variable {c : Cursor} {k k' : Kind} {ks : List Kind}

/-- The kinds of the tokens that are left. -/
def kinds (c : Cursor) : List Kind := c.tokens.map Token.kind

theorem kind_eq (h : c.kinds = k :: ks) : c.kind = k := (List.cons.inj h).1

theorem next_tokens {t : Token} {tokens : List Token} (h : c.tokens = t :: tokens)
    (hne : tokens ≠ []) : c.next.tokens = tokens := by
  obtain ⟨lastStop, current, ahead⟩ := c
  cases ahead with
  | nil => exact absurd (List.cons.inj h).2.symm hne
  | cons token rest => exact (List.cons.inj h).2

theorem next_kinds (h : c.kinds = k :: ks) (hne : ks ≠ []) : c.next.kinds = ks := by
  obtain ⟨lastStop, current, ahead⟩ := c
  cases ahead with
  | nil => exact absurd (List.cons.inj h).2.symm hne
  | cons token rest => exact (List.cons.inj h).2

theorem nextKind_eq (h : c.kinds = k :: k' :: ks) : c.nextKind = k' :=
  kind_eq (next_kinds h (List.cons_ne_nil k' ks))

theorem length_kinds (c : Cursor) : c.kinds.length + 1 = c.bound := by
  simp [kinds, tokens, bound]

theorem atWord_mark {mark : Punct} (h : c.kind = .punct mark) (word : String) :
    c.atWord word = false := by
  simp [atWord, h]

theorem atAnyWord_mark {mark : Punct} (h : c.kind = .punct mark) (words : List String) :
    c.atAnyWord words = false := by
  simp [atAnyWord, atWord_mark h]

/-- The cursor so many tokens further on. -/
def after (c : Cursor) (n : ℕ) : Cursor := next^[n] c

@[simp] theorem after_zero (c : Cursor) : c.after 0 = c := rfl

theorem after_succ (c : Cursor) (n : ℕ) : c.after (n + 1) = c.next.after n := rfl

theorem after_next (c : Cursor) (n : ℕ) : (c.after n).next = c.after (n + 1) :=
  (Function.iterate_succ_apply' next n c).symm

theorem after_after (c : Cursor) (m n : ℕ) : (c.after m).after n = c.after (m + n) := by
  rw [after, after, after, ← Function.iterate_add_apply, Nat.add_comm]

theorem after_tokens {taken tokens : List Token} (hc : c.tokens = taken ++ tokens)
    (hne : tokens ≠ []) : (c.after taken.length).tokens = tokens := by
  induction taken generalizing c with
  | nil => exact hc
  | cons t taken ih => exact ih (next_tokens hc (by simp [hne]))

theorem after_kinds {text rest : List Kind} (hc : c.kinds = text ++ rest) (hrest : rest ≠ []) :
    (c.after text.length).kinds = rest := by
  induction text generalizing c with
  | nil => exact hc
  | cons k text ih => exact ih (next_kinds hc (by simp [hrest]))

/-- A group is its inside and two brackets. -/
theorem after_group (c : Cursor) (n : ℕ) : (c.next.after n).next = c.after (n + 2) := by
  rw [after_next, ← after_succ]

end Cursor

namespace Parser

variable {α β : Type} {c c' : Cursor}

theorem bind_ok {p : Parser α} {a : α} (h : p c = .ok (a, c')) (f : α → Parser β) :
    (p >>= f) c = f a c' := by
  show (p c >>= fun r => f r.1 r.2) = f a c'
  rw [h]
  rfl

theorem map_ok {p : Parser α} {a : α} (h : p c = .ok (a, c')) (f : α → β) :
    (f <$> p) c = .ok (f a, c') := by
  show (p c >>= fun r => pure (f r.1, r.2)) = .ok (f a, c')
  rw [h]
  rfl

@[simp] theorem pure_apply (a : α) (c : Cursor) : (pure a : Parser α) c = .ok (a, c) := rfl

@[simp] theorem get_bind (f : Cursor → Parser β) (c : Cursor) : (get >>= f) c = f c c := rfl

@[simp] theorem here_bind (f : Span → Parser β) (c : Cursor) :
    (here >>= f) c = f c.current.span c := rfl

@[simp] theorem spanFrom_bind (start : Span) (f : Span → Parser β) (c : Cursor) :
    (spanFrom start >>= f) c = f (c.spanFrom start) c := rfl

@[simp] theorem advance_bind (f : Unit → Parser β) (c : Cursor) :
    (discard advance >>= f) c = f () c.next := rfl

@[simp] theorem eat_bind (mark : Punct) (f : Bool → Parser β) (c : Cursor) :
    (eat mark >>= f) c = if c.kind = .punct mark then f true c.next else f false c := by
  by_cases h : c.kind = .punct mark <;> simp [eat, Cursor.atPunct, h, bind_assoc]

@[simp] theorem eatWord_bind (word : String) (f : Bool → Parser β) (c : Cursor) :
    (eatWord word >>= f) c = if c.kind = .word word then f true c.next else f false c := by
  by_cases h : c.kind = .word word <;> simp [eatWord, Cursor.atWord, h, bind_assoc]

theorem discard_bind (p : Parser α) (f : Unit → Parser β) :
    (discard p >>= f) = p >>= fun _ => f () := by
  simp only [Functor.discard, LawfulFunctor.map_const, Function.comp, Function.const, bind_map_left]

@[simp] theorem discard_eat_bind (mark : Punct) (f : Unit → Parser β) (c : Cursor) :
    (discard (eat mark) >>= f) c = if c.kind = .punct mark then f () c.next else f () c := by
  rw [discard_bind, eat_bind]

@[simp] theorem discard_eatWord_bind (word : String) (f : Unit → Parser β) (c : Cursor) :
    (discard (eatWord word) >>= f) c = if c.kind = .word word then f () c.next else f () c := by
  rw [discard_bind, eatWord_bind]

@[simp] theorem expect_bind {mark : Punct} (h : c.kind = .punct mark) (f : Unit → Parser β) :
    (expect mark >>= f) c = f () c.next := by
  simp [expect, Cursor.atPunct, h, bind_assoc]

@[simp] theorem expectWord_bind {word : String} (h : c.kind = .word word) (f : Unit → Parser β) :
    (expectWord word >>= f) c = f () c.next := by
  simp [expectWord, Cursor.atWord, h, bind_assoc]

theorem identifier_eq {name : String} (h : c.kind = .word name) :
    identifier c = .ok (name, c.next) := by
  simp [identifier, h, -bind_pure_comp]

theorem exportName_eq {name : String} (h : c.kind = .word name) :
    exportName c = .ok (name, c.next) := by
  simp [exportName, h, identifier_eq h]

theorem stringLiteral_eq {value : String} (h : c.kind = .string value) :
    stringLiteral c = .ok (value, c.next) := by
  simp [stringLiteral, h, -bind_pure_comp]

/-! ### Reading -/

/-- The text begins with one of these marks. -/
def Ends (marks : List Punct) (text : List Kind) : Prop :=
  ∃ mark ∈ marks, ∃ rest, text = .punct mark :: rest

theorem Ends.ne_nil {marks : List Punct} {text : List Kind} (h : Ends marks text) : text ≠ [] := by
  obtain ⟨mark, -, rest, rfl⟩ := h
  exact List.cons_ne_nil _ _

theorem Ends.mono {marks marks' : List Punct} {text : List Kind} (h : Ends marks text)
    (hmarks : marks ⊆ marks') : Ends marks' text := by
  obtain ⟨mark, hmark, hrest⟩ := h
  exact ⟨mark, hmarks hmark, hrest⟩

/-- The parser takes a text off the tokens when one of these marks follows it, with a result as
stated for the place where the text begins. -/
def Reads (marks : List Punct) (p : Parser α) (text : List Kind) (result : Cursor → α → Prop) :
    Prop :=
  ∀ c rest, c.kinds = text ++ rest → Ends marks rest →
    ∃ a, p c = .ok (a, c.after text.length) ∧ result c a

theorem Reads.mono {marks marks' : List Punct} {p : Parser α} {text : List Kind}
    {result : Cursor → α → Prop} (h : Reads marks p text result) (hmarks : marks' ⊆ marks) :
    Reads marks' p text result :=
  fun c rest hc hrest => h c rest hc (hrest.mono hmarks)

/-! ### Lists with commas -/

theorem length_le_separated (pieces : List (List Kind)) :
    pieces.length ≤ (separated pieces).length + 1 := by
  fun_induction separated pieces <;> simp_all
  omega

theorem length_le_of_mem {piece : List Kind} {pieces : List (List Kind)} (h : piece ∈ pieces) :
    piece.length ≤ (separated pieces).length := by
  fun_induction separated pieces with
  | case1 => cases h
  | case2 single =>
    obtain rfl := List.mem_singleton.1 h
    exact Nat.le_refl _
  | case3 first pieces _ ih =>
    rw [List.length_append, List.length_cons]
    rcases List.mem_cons.1 h with rfl | h
    · omega
    · have := ih h
      omega

/-- A loop that reads entries with commas between them up to a closing mark; `ready` says where it
reads an entry. -/
structure Loop (close : Punct) (entry : Parser α) (ready : Cursor → Prop)
    (loop : ℕ → List α → Parser (List α)) : Prop where
  stop : ∀ rounds read c, c.kind = .punct close → loop (rounds + 1) read c = .ok (read.reverse, c)
  step : ∀ rounds read c a c', ready c → entry c = .ok (a, c') →
    loop (rounds + 1) read c =
      if c'.kind = .punct .comma then loop rounds (a :: read) c'.next
      else .ok ((a :: read).reverse, c')

/-- What is seen of the entries, one after the other with a comma between them. -/
def listed {γ : Type} (text : α → List Kind) (seen : Cursor → α → γ) : Cursor → List α → List γ
  | _, [] => []
  | c, x :: xs => seen c x :: listed text seen (c.after (text x).length).next xs

theorem listed_const (text : α → List Kind) (c : Cursor) (xs : List α) :
    listed text (fun _ x => x) c xs = xs := by
  induction xs generalizing c with
  | nil => rfl
  | cons x xs ih => rw [listed, ih]

/-- A loop reads all entries when it reads each of them; `view` is what is kept of an entry, and
`seen` what that is where the entry begins. -/
theorem Loop.reads {γ : Type} {close : Punct} {entry : Parser α} {ready : Cursor → Prop}
    {loop : ℕ → List α → Parser (List α)} (hloop : Loop close entry ready loop)
    (hcomma : close ≠ .comma) {text : α → List Kind} {view : α → γ} {seen : Cursor → α → γ}
    {entries : List α}
    (hentry : ∀ x ∈ entries, Reads [.comma, close] entry (text x) fun c y => view y = seen c x)
    (hready : ∀ x ∈ entries, ∀ c rest, c.kinds = text x ++ rest → Ends [.comma, close] rest →
      ready c)
    {rounds : ℕ} (hrounds : entries.length < rounds) (read : List α) {c : Cursor} {rest : List Kind}
    (hc : c.kinds = separated (entries.map text) ++ .punct close :: rest) :
    ∃ ys, loop rounds read c =
        .ok (read.reverse ++ ys, c.after (separated (entries.map text)).length) ∧
      ys.map view = listed text seen c entries := by
  obtain ⟨rounds, rfl⟩ : ∃ n, rounds = n + 1 := ⟨rounds - 1, by omega⟩
  induction entries generalizing rounds read c with
  | nil =>
    refine ⟨[], ?_, rfl⟩
    rw [hloop.stop rounds read c (Cursor.kind_eq hc), List.append_nil]
    rfl
  | cons x entries ih =>
    have hx := List.forall_mem_cons.1 hentry
    have hxr := List.forall_mem_cons.1 hready
    cases entries with
    | nil =>
      rw [List.map_singleton, separated] at hc
      have hends : Ends [.comma, close] (.punct close :: rest) := ⟨close, by simp, rest, rfl⟩
      obtain ⟨y, hy, hview⟩ := hx.1 c _ hc hends
      have hlast : (c.after (text x).length).kind ≠ .punct .comma := by
        rw [Cursor.kind_eq (Cursor.after_kinds hc hends.ne_nil)]
        simpa using hcomma
      refine ⟨[y], ?_, by simpa [listed] using hview⟩
      rw [hloop.step rounds read c y _ (hxr.1 c _ hc hends) hy, if_neg hlast, List.reverse_cons]
      rfl
    | cons z entries =>
      have hsplit : c.kinds = text x ++
          .punct .comma :: (separated ((z :: entries).map text) ++ .punct close :: rest) := by
        rw [hc]
        simp [separated]
      have hends : Ends [.comma, close]
          (.punct .comma :: (separated ((z :: entries).map text) ++ .punct close :: rest)) :=
        ⟨.comma, by simp, _, rfl⟩
      obtain ⟨y, hy, hview⟩ := hx.1 c _ hsplit hends
      have hcommaAt := Cursor.after_kinds hsplit hends.ne_nil
      have hnext := Cursor.next_kinds hcommaAt (by simp)
      obtain ⟨rounds, rfl⟩ : ∃ n, rounds = n + 1 := by
        rw [List.length_cons, List.length_cons] at hrounds
        exact ⟨rounds - 1, by omega⟩
      obtain ⟨ys, hys, hviews⟩ :=
        ih hx.2 hxr.2 (y :: read) hnext rounds (by simpa using hrounds)
      refine ⟨y :: ys, ?_, by rw [List.map_cons, hviews, hview]; rfl⟩
      rw [hloop.step (rounds + 1) read c y _ (hxr.1 c _ hsplit hends) hy,
        if_pos (Cursor.kind_eq hcommaAt), hys, ← Cursor.after_succ, Cursor.after_after]
      simp [separated]

/-- A loop in brackets, with as many rounds as there are tokens. -/
theorem Loop.reads_group {γ : Type} {opening close : Punct} {entry : Parser α}
    {ready : Cursor → Prop} {loop : ℕ → List α → Parser (List α)}
    (hloop : Loop close entry ready loop) (hcomma : close ≠ .comma)
    {text : α → List Kind} {view : α → γ} {seen : Cursor → α → γ} {entries : List α}
    (hentry : ∀ x ∈ entries, Reads [.comma, close] entry (text x) fun c y => view y = seen c x)
    (hready : ∀ x ∈ entries, ∀ c rest, c.kinds = text x ++ rest → Ends [.comma, close] rest →
      ready c)
    {c : Cursor} {rest : List Kind}
    (hc : c.kinds =
      .punct opening :: (separated (entries.map text) ++ [.punct close]) ++ rest) :
    ∃ ys c', c.kind = .punct opening ∧ loop c.next.bound [] c.next = .ok (ys, c') ∧
      c'.kind = .punct close ∧ c'.next = c.after ((separated (entries.map text)).length + 2) ∧
      ys.map view = listed text seen c.next entries := by
  rw [List.cons_append, List.append_assoc] at hc
  have hnext := Cursor.next_kinds hc (by simp)
  have hrounds : entries.length < c.next.bound := by
    have hcommas := length_le_separated (entries.map text)
    rw [← Cursor.length_kinds, hnext, List.length_append]
    rw [List.length_map] at hcommas
    simp only [List.singleton_append, List.length_cons]
    omega
  obtain ⟨ys, hys, hview⟩ := hloop.reads hcomma hentry hready hrounds [] hnext
  exact ⟨ys, _, Cursor.kind_eq hc, hys,
    Cursor.kind_eq (Cursor.after_kinds hnext (List.cons_ne_nil _ _)), Cursor.after_group c _, hview⟩

end Parser

end CodecDocs.Script
