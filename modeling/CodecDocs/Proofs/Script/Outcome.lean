import CodecDocs.Proofs.Script.Moves

/-! What a parser does at a place in the tokens: it takes some of them and gives a result, or it
fails at one of those that are left. The rules follow the text of the parsers, one for each move and
one for each way of putting moves together, so that every production has one statement about the
tokens it takes and is not opened again where it is used. -/

namespace CodecDocs.Script

open Token (Kind)

/-! ### Tokens that are taken -/

/-- The last token marks the end. -/
def EofLast (tokens : List Token) : Prop :=
  ∃ front last, tokens = front ++ [last] ∧ last.kind = .eof

theorem eofLast_iff {tokens : List Token} :
    EofLast tokens ↔ tokens.getLast?.map Token.kind = some .eof := by
  rw [Option.map_eq_some_iff]
  constructor
  · rintro ⟨front, last, rfl, hlast⟩
    exact ⟨last, List.getLast?_concat, hlast⟩
  · rintro ⟨last, hget, hlast⟩
    obtain ⟨front, rfl⟩ := List.getLast?_eq_some_iff.1 hget
    exact ⟨front, last, rfl, hlast⟩

instance (tokens : List Token) : Decidable (EofLast tokens) :=
  decidable_of_iff _ eofLast_iff.symm

namespace EofLast

theorem of_kinds {tokens : List Token} {front : List Kind}
    (h : tokens.map Token.kind = front ++ [.eof]) : EofLast tokens := by
  rw [eofLast_iff, ← List.getLast?_map, h, List.getLast?_concat]

theorem of_append {taken tokens : List Token} (h : EofLast (taken ++ tokens))
    (hne : tokens ≠ []) : EofLast tokens := by
  obtain ⟨front, last, heq, hlast⟩ := h
  obtain ⟨later, t, rfl⟩ := (List.eq_nil_or_concat' tokens).resolve_left hne
  rw [← List.append_assoc] at heq
  obtain ⟨-, ht⟩ := List.append_inj' heq rfl
  obtain rfl := List.singleton_injective ht
  exact ⟨later, t, rfl, hlast⟩

theorem ne_nil_of_kind_ne {t : Token} {tokens : List Token} (h : EofLast (t :: tokens))
    (ht : t.kind ≠ .eof) : tokens ≠ [] := by
  rintro rfl
  obtain ⟨front, last, heq, hlast⟩ := h
  obtain ⟨-, hsingle⟩ := (List.append_eq_singleton_iff.1 heq.symm).resolve_right (by simp)
  obtain rfl := List.singleton_injective hsingle
  exact ht hlast

end EofLast

namespace Cursor

theorem ofTokens_tokens {tokens : List Token} (h : EofLast tokens) :
    (ofTokens tokens).tokens = tokens := by
  have hlast := eofLast_iff.1 h
  rw [ofTokens, if_pos hlast]
  cases tokens with
  | nil => cases hlast
  | cons first rest => rfl

variable {c c' c'' : Cursor} {taken more : List Token}

theorem not_bound_le_zero : ¬ c.bound ≤ 0 := by simp [bound]

theorem kind_ne_eof_of_atAnyWord {words : List String} (h : c.atAnyWord words = true) :
    c.kind ≠ .eof := by
  obtain ⟨word, -, hword⟩ := List.any_eq_true.1 h
  simp [show c.kind = .word word by simpa [atWord] using hword]

/-- Taking these tokens leads from one place to the other. -/
structure Takes (c : Cursor) (taken : List Token) (c' : Cursor) : Prop where
  tokens_eq : c.tokens = taken ++ c'.tokens
  lastStop_eq : c'.lastStop = (taken.getLast?.map fun t => t.span.stop).or c.lastStop

namespace Takes

theorem refl (c : Cursor) : c.Takes [] c := ⟨rfl, rfl⟩

theorem trans (h : c.Takes taken c') (h' : c'.Takes more c'') : c.Takes (taken ++ more) c'' where
  tokens_eq := by rw [h.tokens_eq, h'.tokens_eq, List.append_assoc]
  lastStop_eq := by
    rw [h'.lastStop_eq, h.lastStop_eq, List.getLast?_append, ← Option.or_assoc]
    cases more.getLast? <;> rfl

theorem length_eq (h : c.Takes taken c') : c.ahead.length = taken.length + c'.ahead.length := by
  have hlen := congrArg List.length h.tokens_eq
  simp only [tokens, List.length_cons, List.length_append] at hlen
  omega

theorem bound_le (h : c.Takes taken c') : c'.bound ≤ c.bound := by
  have hlen := h.length_eq
  unfold bound
  omega

/-- A token that is taken leaves one round less to be made. -/
theorem bound_le_pred {rounds : ℕ} (h : c.Takes taken c') (hne : taken ≠ [])
    (hc : c.bound ≤ rounds + 1) : c'.bound ≤ rounds := by
  have hlen := h.length_eq
  have hpos := List.length_pos_iff.2 hne
  unfold bound at *
  omega

theorem eofLast (h : c.Takes taken c') (hc : EofLast c.tokens) : EofLast c'.tokens := by
  rw [h.tokens_eq] at hc
  exact hc.of_append (List.cons_ne_nil _ _)

theorem of_ahead (h : c.ahead ≠ []) : c.Takes [c.current] c.next := by
  obtain ⟨lastStop, current, ahead⟩ := c
  cases ahead with
  | nil => exact absurd rfl h
  | cons token rest => exact ⟨rfl, rfl⟩

theorem next (hc : EofLast c.tokens) (h : c.kind ≠ .eof) : c.Takes [c.current] c.next :=
  of_ahead (hc.ne_nil_of_kind_ne h)

/-- A place from the first token that is taken to the last one. -/
theorem spanFrom_eq (h : c.Takes taken c') (hne : taken ≠ []) :
    ∃ last, taken.getLast? = some last ∧ taken.head? = some c.current ∧
      c'.spanFrom c.current.span =
        { c.current.span with stop := max last.span.stop c.current.span.start } := by
  obtain ⟨front, last, rfl⟩ := (List.eq_nil_or_concat' taken).resolve_left hne
  refine ⟨last, by simp, ?_, ?_⟩
  · have hhead := congrArg List.head? h.tokens_eq
    rw [List.head?_append_of_ne_nil _ hne] at hhead
    exact hhead.symm
  · rw [Cursor.spanFrom, h.lastStop_eq]
    simp

end Takes

end Cursor

/-! ### Outcomes -/

/-- The error stands at one of the tokens. -/
def ParseError.StandsIn (e : ParseError) (tokens : List Token) : Prop :=
  ∃ t ∈ tokens, e.line = t.span.line ∧ e.column = t.span.column

theorem ParseError.StandsIn.of_takes {e : ParseError} {c c' : Cursor} {taken : List Token}
    (h : e.StandsIn c'.tokens) (ht : c.Takes taken c') : e.StandsIn c.tokens := by
  obtain ⟨t, hmem, hplace⟩ := h
  rw [ParseError.StandsIn, ht.tokens_eq]
  exact ⟨t, List.mem_append_right _ hmem, hplace⟩

namespace Parser

variable {α β : Type} {enough enough' : Prop} {c c' : Cursor} {mark : Punct} {word : String}
  {post : α → List Token → Prop}

/-- Tokens were taken from here with a result as stated, or the failure stands at a token that was
left; with enough rounds it is not the bound on them that failed. -/
def Ended (enough : Prop) (c : Cursor) (post : α → List Token → Prop) :
    Except ParseError (α × Cursor) → Prop
  | .ok (a, c') => ∃ taken, c.Takes taken c' ∧ post a taken
  | .error e => (enough → e.complaint ≠ .exhausted) ∧ e.StandsIn c.tokens

namespace Ended

variable {r : Except ParseError (α × Cursor)} {taken : List Token}

theorem weaken {m : α → List Token → Prop} (h : Ended enough' c m r) (henough : enough → enough')
    (hpost : ∀ a taken, m a taken → post a taken) : Ended enough c post r := by
  cases r with
  | error e => exact ⟨fun he => h.1 (henough he), h.2⟩
  | ok r =>
    obtain ⟨taken, ht, hmid⟩ := h
    exact ⟨taken, ht, hpost _ _ hmid⟩

/-- What ends from a later place ends from the earlier one too. -/
theorem of_takes (h : Ended enough c' (fun a more => post a (taken ++ more)) r)
    (ht : c.Takes taken c') : Ended enough c post r := by
  cases r with
  | error e => exact ⟨h.1, h.2.of_takes ht⟩
  | ok r =>
    obtain ⟨more, hmore, hpost⟩ := h
    exact ⟨taken ++ more, ht.trans hmore, hpost⟩

end Ended

/-- What the parser does at a place in tokens of which the last one marks the end. -/
def Outcome (enough : Prop) (p : Parser α) (c : Cursor) (post : α → List Token → Prop) : Prop :=
  EofLast c.tokens → Ended enough c post (p c)

namespace Outcome

theorem ok {p : Parser α} (h : Outcome enough p c post) (hc : EofLast c.tokens) {a : α}
    (hp : p c = .ok (a, c')) : ∃ taken, c.Takes taken c' ∧ post a taken := by
  have h := h hc
  rwa [hp] at h

theorem error {p : Parser α} (h : Outcome enough p c post) (hc : EofLast c.tokens)
    {e : ParseError} (hp : p c = .error e) :
    (enough → e.complaint ≠ .exhausted) ∧ e.StandsIn c.tokens := by
  have h := h hc
  rwa [hp] at h

/-- A parser that is run for its result alone. -/
theorem run' {p : Parser α} (h : Outcome enough p c post) (hc : EofLast c.tokens) :
    (∀ a, p.run' c = .ok a → ∃ taken c', c.Takes taken c' ∧ post a taken) ∧
      ∀ e, p.run' c = .error e → (enough → e.complaint ≠ .exhausted) ∧ e.StandsIn c.tokens := by
  have hrun : p.run' c = (p c).map Prod.fst := rfl
  rw [hrun]
  cases hp : p c with
  | ok r =>
    obtain ⟨taken, ht⟩ := h.ok hc hp
    refine ⟨fun a ha => ?_, fun e he => nomatch he⟩
    obtain rfl := Except.ok.inj ha
    exact ⟨taken, r.2, ht⟩
  | error e =>
    refine ⟨fun a ha => (nomatch ha), fun e' he => ?_⟩
    obtain rfl := Except.error.inj he
    exact h.error hc hp

theorem weaken {p : Parser α} {m : α → List Token → Prop} (h : Outcome enough' p c m)
    (henough : enough → enough') (hpost : ∀ a taken, m a taken → post a taken) :
    Outcome enough p c post :=
  fun hc => (h hc).weaken henough hpost

theorem pure {a : α} (h : post a []) : Outcome enough (pure a) c post :=
  fun _ => ⟨[], .refl c, h⟩

theorem fail {complaint : ParseComplaint} (h : enough → complaint ≠ .exhausted) :
    Outcome enough (fail complaint) c post :=
  fun _ => ⟨h, c.current, List.mem_cons_self, rfl, rfl⟩

/-- Without a round that is left, the bound was too small. -/
theorem exhausted : Outcome (c.bound ≤ 0) (Parser.fail .exhausted) c post :=
  fail fun h => absurd h Cursor.not_bound_le_zero

theorem fail_bind {complaint : ParseComplaint} {f : β → Parser α}
    (h : enough → complaint ≠ .exhausted) : Outcome enough (Parser.fail complaint >>= f) c post :=
  fun _ => ⟨h, c.current, List.mem_cons_self, rfl, rfl⟩

/-- One parser after another, which may go back to where the first one began. -/
theorem bind_ended {p : Parser β} {f : β → Parser α} {m : β → List Token → Prop}
    (hp : Outcome enough' p c m) (henough : enough → enough')
    (hf : ∀ b taken c', c.Takes taken c' → m b taken → EofLast c.tokens →
      Ended enough c post (f b c')) : Outcome enough (p >>= f) c post := by
  intro hc
  cases hpc : p c with
  | error e =>
    have hbind : (p >>= f) c = .error e := by
      show (p c >>= fun r => f r.1 r.2) = .error e
      rw [hpc]
      rfl
    rw [hbind]
    have he := hp.error hc hpc
    exact ⟨fun h => he.1 (henough h), he.2⟩
  | ok r =>
    obtain ⟨b, c'⟩ := r
    rw [bind_ok hpc]
    obtain ⟨taken, ht, hmid⟩ := hp.ok hc hpc
    exact hf b taken c' ht hmid hc

/-- One parser after another takes the tokens of both. -/
theorem bind {p : Parser β} {f : β → Parser α} {m : β → List Token → Prop}
    (hp : Outcome enough' p c m) (henough : enough → enough')
    (hf : ∀ b taken c', c.Takes taken c' → m b taken →
      Outcome enough (f b) c' fun a more => post a (taken ++ more)) :
    Outcome enough (p >>= f) c post :=
  hp.bind_ended henough fun b taken c' ht hmid hc =>
    (hf b taken c' ht hmid (ht.eofLast hc)).of_takes ht

theorem map {p : Parser β} {f : β → α} (hp : Outcome enough p c fun b taken => post (f b) taken) :
    Outcome enough (f <$> p) c post := by
  rw [map_eq_pure_bind]
  exact hp.bind id fun b taken c' _ hmid => .pure (by simpa using hmid)

theorem discard {p : Parser β} {post : Unit → List Token → Prop}
    (hp : Outcome enough p c fun _ taken => post () taken) :
    Outcome enough (discard p) c post := by
  rw [Functor.discard, LawfulFunctor.map_const]
  exact hp.map

theorem discard_bind {p : Parser β} {f : Unit → Parser α} {m : β → List Token → Prop}
    (hp : Outcome enough' p c m) (henough : enough → enough')
    (hf : ∀ b taken c', c.Takes taken c' → m b taken →
      Outcome enough (f ()) c' fun a more => post a (taken ++ more)) :
    Outcome enough (Functor.discard p >>= f) c post := by
  rw [Parser.discard_bind]
  exact hp.bind henough hf

/-! ### Moves -/

theorem get {f : Cursor → Parser α} (h : Outcome enough (f c) c post) :
    Outcome enough (get >>= f) c post := h

theorem here {f : Span → Parser α} (h : Outcome enough (f c.current.span) c post) :
    Outcome enough (here >>= f) c post := h

theorem spanFrom {start : Span} {f : Span → Parser α}
    (h : Outcome enough (f (c.spanFrom start)) c post) :
    Outcome enough (spanFrom start >>= f) c post := h

/-- Moving on by a token that is not the last one. -/
theorem next {p : Parser α} (ht : c.Takes [c.current] c.next)
    (h : ∀ c', c.Takes [c.current] c' →
      Outcome enough p c' fun a more => post a (c.current :: more)) (hc : EofLast c.tokens) :
    Ended enough c post (p c.next) :=
  (h c.next ht (ht.eofLast hc)).of_takes ht

theorem advance {f : Unit → Parser α} (hkind : c.kind ≠ .eof)
    (h : ∀ c', c.Takes [c.current] c' →
      Outcome enough (f ()) c' fun a more => post a (c.current :: more)) :
    Outcome enough (Functor.discard advance >>= f) c post := fun hc => by
  rw [advance_bind]
  exact next (.next hc hkind) h hc

/-- Moving on by a token; at the last one the parser stays. -/
theorem advance_any {f : Unit → Parser α}
    (h : ∀ taken c', c.Takes taken c' → (c.kind ≠ .eof → taken ≠ []) →
      Outcome enough (f ()) c' fun a more => post a (taken ++ more)) :
    Outcome enough (Functor.discard Parser.advance >>= f) c post := fun hc => by
  rw [advance_bind]
  cases hahead : c.ahead with
  | nil =>
    have hnext : c.next = c := by rw [Cursor.next, hahead]
    rw [hnext]
    exact h [] c (.refl c) (fun hkind => absurd hahead (hc.ne_nil_of_kind_ne hkind)) hc
  | cons token rest =>
    exact next (.of_ahead (by simp [hahead])) (fun c' ht => h _ c' ht (by simp)) hc

theorem eat {f : Bool → Parser α}
    (htaken : c.kind = .punct mark → ∀ c', c.Takes [c.current] c' →
      Outcome enough (f true) c' fun a more => post a (c.current :: more))
    (hleft : c.kind ≠ .punct mark → Outcome enough (f false) c post) :
    Outcome enough (eat mark >>= f) c post := fun hc => by
  rw [eat_bind]
  split_ifs with hkind
  · exact next (.next hc (by simp [hkind])) (htaken hkind) hc
  · exact hleft hkind hc

theorem eatWord {f : Bool → Parser α}
    (htaken : c.kind = .word word → ∀ c', c.Takes [c.current] c' →
      Outcome enough (f true) c' fun a more => post a (c.current :: more))
    (hleft : c.kind ≠ .word word → Outcome enough (f false) c post) :
    Outcome enough (eatWord word >>= f) c post := fun hc => by
  rw [eatWord_bind]
  split_ifs with hkind
  · exact next (.next hc (by simp [hkind])) (htaken hkind) hc
  · exact hleft hkind hc

/-- A part behind a mark that may be left out, and what follows it. -/
theorem eat_join {p : Parser β} {f : β → Parser α} {b : β} {m : β → List Token → Prop}
    (hp : ∀ c', c.Takes [c.current] c' → Outcome enough p c' fun b more => m b (c.current :: more))
    (hskip : m b [])
    (hf : ∀ b taken c', c.Takes taken c' → m b taken →
      Outcome enough (f b) c' fun a more => post a (taken ++ more)) :
    Outcome enough (Parser.eat mark >>= fun eaten => if eaten = true then p >>= f else f b) c
      post := by
  refine eat (fun _ c' ht => ?_) fun _ => ?_
  · rw [if_pos rfl]
    exact (hp c' ht).bind id fun b taken c'' ht' hb => hf b _ c'' (ht.trans ht') hb
  · rw [if_neg Bool.false_ne_true]
    exact hf b [] c (.refl c) hskip

theorem eatWord_join {p : Parser β} {f : β → Parser α} {b : β} {m : β → List Token → Prop}
    (hp : ∀ c', c.Takes [c.current] c' → Outcome enough p c' fun b more => m b (c.current :: more))
    (hskip : m b [])
    (hf : ∀ b taken c', c.Takes taken c' → m b taken →
      Outcome enough (f b) c' fun a more => post a (taken ++ more)) :
    Outcome enough (Parser.eatWord word >>= fun eaten => if eaten = true then p >>= f else f b) c
      post := by
  refine eatWord (fun _ c' ht => ?_) fun _ => ?_
  · rw [if_pos rfl]
    exact (hp c' ht).bind id fun b taken c'' ht' hb => hf b _ c'' (ht.trans ht') hb
  · rw [if_neg Bool.false_ne_true]
    exact hf b [] c (.refl c) hskip

/-- A token that is taken under a condition, and what follows it. -/
theorem advance_join {f : Unit → Parser α} {q : Prop} [Decidable q]
    (hf : ∀ taken c', c.Takes taken c' →
      Outcome enough (f ()) c' fun a more => post a (taken ++ more)) :
    Outcome enough (if q then Functor.discard Parser.advance >>= f else f ()) c post := by
  split_ifs
  · exact advance_any fun taken c' ht _ => hf taken c' ht
  · exact hf [] c (.refl c)

/-- A mark that may stand here, at the end of a parser. -/
theorem eat_last : Outcome enough (Parser.eat mark) c fun _ _ => True := by
  rw [← bind_pure (Parser.eat mark)]
  exact eat (fun _ _ _ => .pure trivial) fun _ => .pure trivial

theorem eatWord_last : Outcome enough (Parser.eatWord word) c fun _ _ => True := by
  rw [← bind_pure (Parser.eatWord word)]
  exact eatWord (fun _ _ _ => .pure trivial) fun _ => .pure trivial

/-- A mark that may stand here. -/
theorem discard_eat {f : Unit → Parser α}
    (h : ∀ taken c', c.Takes taken c' →
      Outcome enough (f ()) c' fun a more => post a (taken ++ more)) :
    Outcome enough (Functor.discard (Parser.eat mark) >>= f) c post := by
  rw [Parser.discard_bind]
  exact eat (fun _ c' ht => h _ c' ht) fun _ => h [] c (.refl c)

/-- A word that may stand here. -/
theorem discard_eatWord {f : Unit → Parser α}
    (h : ∀ taken c', c.Takes taken c' →
      Outcome enough (f ()) c' fun a more => post a (taken ++ more)) :
    Outcome enough (Functor.discard (Parser.eatWord word) >>= f) c post := by
  rw [Parser.discard_bind]
  exact eatWord (fun _ c' ht => h _ c' ht) fun _ => h [] c (.refl c)

theorem expect : Outcome enough (expect mark) c fun _ taken => taken = [c.current] := by
  refine get ?_
  split_ifs with hkind
  · have hkind : c.kind = .punct mark := by simpa [Cursor.atPunct] using hkind
    rw [← bind_pure (Functor.discard Parser.advance)]
    exact advance (by simp [hkind]) fun c' _ => .pure rfl
  · exact .fail (by simp)

theorem expectWord : Outcome enough (expectWord word) c fun _ taken => taken = [c.current] := by
  refine get ?_
  split_ifs with hkind
  · have hkind : c.kind = .word word := by simpa [Cursor.atWord] using hkind
    rw [← bind_pure (Functor.discard Parser.advance)]
    exact advance (by simp [hkind]) fun c' _ => .pure rfl
  · exact .fail (by simp)

theorem identifier : Outcome enough identifier c fun _ taken => taken = [c.current] := by
  refine get ?_
  split
  · next name hkind => exact advance (by simp [hkind]) fun c' _ => .pure rfl
  · exact .fail (by simp)

theorem stringLiteral : Outcome enough stringLiteral c fun _ taken => taken = [c.current] := by
  refine get ?_
  split
  · next name hkind => exact advance (by simp [hkind]) fun c' _ => .pure rfl
  · exact .fail (by simp)

theorem exportName : Outcome enough exportName c fun _ taken => taken = [c.current] := by
  refine get ?_
  split
  · next name hkind => exact advance (by simp [hkind]) fun c' _ => .pure rfl
  · exact identifier

/-- An attempt that fails takes nothing. -/
theorem attempt {p : Parser α} (h : Outcome enough p c post) :
    Outcome enough (attempt p) c fun
      | some a, taken => post a taken
      | none, taken => taken = [] := by
  intro hc
  unfold Parser.attempt
  cases hp : p c with
  | ok r =>
    obtain ⟨a, c'⟩ := r
    exact h.ok hc hp
  | error e =>
    dsimp only
    split_ifs
    · exact h.error hc hp
    · exact ⟨[], .refl c, rfl⟩

end Outcome

end Parser

end CodecDocs.Script
