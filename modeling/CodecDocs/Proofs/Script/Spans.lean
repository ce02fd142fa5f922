import CodecDocs.Project.Basic
import CodecDocs.Proofs.Script.Statements
import CodecDocs.Proofs.Token.Lossless

/-! Spans of a module in its source. The tokens of a source take characters, one token after the
other, so what covers a run of them lies between two places of the source, around everything that
covers a part of the run, and before everything that covers a later one. -/

namespace CodecDocs.Script

open Text
open Token (spanOf Lossless lossless_of_cut lexFrom_cut)

/-! ### Tokens in order -/

/-- Tokens that take characters, each after those of the tokens before it. -/
structure InOrder (tokens : List Token) : Prop where
  positive : ∀ t ∈ tokens, t.span.start < t.span.stop
  ordered : tokens.Pairwise fun t u => t.span.stop ≤ u.span.start

namespace InOrder

variable {tokens own before after : List Token} {t u : Token}

theorem sublist (h : InOrder tokens) (hown : own.Sublist tokens) : InOrder own :=
  ⟨fun t ht => h.positive t (hown.subset ht), h.ordered.sublist hown⟩

theorem run (h : InOrder (before ++ own ++ after)) : InOrder own :=
  h.sublist ((List.sublist_append_right before own).trans (List.sublist_append_left _ after))

theorem head_le (h : InOrder tokens) (ht : tokens.head? = some t) (hu : u ∈ tokens) :
    t.span.start ≤ u.span.start := by
  obtain ⟨rest, rfl⟩ := List.head?_eq_some_iff.1 ht
  rcases List.mem_cons.1 hu with rfl | hu
  · exact Nat.le_refl _
  · have hpos := h.positive t List.mem_cons_self
    have hle := List.rel_of_pairwise_cons h.ordered hu
    omega

theorem le_last (h : InOrder tokens) (ht : tokens.getLast? = some t) (hu : u ∈ tokens) :
    u.span.stop ≤ t.span.stop := by
  obtain ⟨front, rfl⟩ := List.getLast?_eq_some_iff.1 ht
  rcases List.mem_append.1 hu with hu | hu
  · have hpos := h.positive t (by simp)
    have hle := (List.pairwise_append.1 h.ordered).2.2 u hu t (List.mem_singleton_self t)
    omega
  · rw [List.mem_singleton.1 hu]

end InOrder

/-- The span begins where one of the tokens does, ends where one does, and holds them all. -/
structure Frames (tokens : List Token) (s : Span) : Prop where
  first : ∃ t ∈ tokens, s.start = t.span.start ∧ s.line = t.span.line ∧ s.column = t.span.column
  last : ∃ t ∈ tokens, s.stop = t.span.stop
  holds : ∀ t ∈ tokens, s.start ≤ t.span.start ∧ t.span.stop ≤ s.stop

theorem Covers.frames {tokens : List Token} {s : Span} (h : Covers tokens s)
    (horder : InOrder tokens) : Frames tokens s := by
  obtain ⟨first, last, hfirst, hlast, hstart, hline, hcolumn, hstop⟩ := h
  have hfirstmem : first ∈ tokens := List.mem_of_mem_head? hfirst
  have hlastmem : last ∈ tokens := List.mem_of_getLast? hlast
  have hle : first.span.start ≤ last.span.stop := by
    have hpos := horder.positive first hfirstmem
    have := horder.le_last hlast hfirstmem
    omega
  refine ⟨⟨first, hfirstmem, hstart, hline, hcolumn⟩, ⟨last, hlastmem, hstop hle⟩, fun t ht => ?_⟩
  rw [hstart, hstop hle]
  exact ⟨horder.head_le hfirst ht, horder.le_last hlast ht⟩

/-- Spans of runs one after the other do not overlap, and they stay among the tokens. -/
theorem Apart.ordered {tokens : List Token} {spans : List Span} (h : Apart tokens spans)
    (horder : InOrder tokens) :
    (spans.Pairwise fun s s' => s.stop ≤ s'.start) ∧
      ∀ s ∈ spans, (∃ t ∈ tokens, s.start = t.span.start) ∧ ∃ t ∈ tokens, s.stop = t.span.stop := by
  induction h with
  | nil => simp
  | @cons before own after s spans covers later ih =>
    have hframes := covers.frames horder.run
    obtain ⟨hpairwise, hwithin⟩ := ih (horder.sublist (by simp))
    obtain ⟨first, hfirst, hstart, -⟩ := hframes.first
    obtain ⟨last, hlast, hstop⟩ := hframes.last
    refine ⟨List.pairwise_cons.2 ⟨fun s' hs' => ?_, hpairwise⟩, List.forall_mem_cons.2 ⟨?_, ?_⟩⟩
    · obtain ⟨⟨t, ht, hstart'⟩, -⟩ := hwithin s' hs'
      rw [hstop, hstart']
      exact (List.pairwise_append.1 horder.ordered).2.2 last (List.mem_append_right _ hlast) t ht
    · exact ⟨⟨first, by simp [hfirst], hstart⟩, last, by simp [hlast], hstop⟩
    · intro s' hs'
      obtain ⟨⟨t, ht, hstart'⟩, u, hu, hstop'⟩ := hwithin s' hs'
      exact ⟨⟨t, by simp [ht], hstart'⟩, u, by simp [hu], hstop'⟩

namespace Placed

variable {tokens : List Token} {n m : Node}

theorem part (h : Placed tokens n) (hm : m ∈ n.parts) : Placed tokens m :=
  fun k hk => h k (.part hm hk)

theorem frames (h : Placed tokens n) (horder : InOrder tokens) :
    ∃ own : List Token, own.Sublist tokens ∧ Frames own n.span ∧
      ((n.parts.map Node.span).Pairwise fun s s' => s.stop ≤ s'.start) ∧
      ∀ m ∈ n.parts, n.span.start ≤ m.span.start ∧ m.span.stop ≤ n.span.stop := by
  obtain ⟨before, own, after, rfl, hcovers, hparts⟩ := h n (.self n)
  have hframes := hcovers.frames horder.run
  obtain ⟨hpairwise, hwithin⟩ := hparts.ordered horder.run
  refine ⟨own, by simp, hframes, hpairwise, fun m hm => ?_⟩
  obtain ⟨⟨t, ht, hstart⟩, u, hu, hstop⟩ := hwithin m.span (List.mem_map_of_mem hm)
  rw [hstart, hstop]
  exact ⟨(hframes.holds t ht).1, (hframes.holds u hu).2⟩

/-- A node's span contains those of all nodes below it. -/
theorem contains (h : Placed tokens n) (horder : InOrder tokens) (hm : m.Within n) :
    n.span.start ≤ m.span.start ∧ m.span.stop ≤ n.span.stop := by
  induction hm with
  | self => exact ⟨Nat.le_refl _, Nat.le_refl _⟩
  | part hpart hwithin ih =>
    obtain ⟨own, -, -, -, hparts⟩ := h.frames horder
    have hle := hparts _ hpart
    have hlater := ih (h.part hpart)
    omega

end Placed

/-! ### Spans in the source -/

/-- The span lies between two places of the source, which give its line and column. -/
theorem exists_cut {source : List Char} {s first last : Span}
    (hfirst : ∃ before text after, source = before ++ text ++ after ∧ first = spanOf before text)
    (hlast : ∃ before text after, source = before ++ text ++ after ∧ last = spanOf before text)
    (hstart : s.start = first.start) (hline : s.line = first.line)
    (hcolumn : s.column = first.column) (hstop : s.stop = last.stop) (hlt : s.start < s.stop) :
    ∃ before text after, source = before ++ text ++ after ∧ s = spanOf before text := by
  obtain ⟨before, text, after, hsource, rfl⟩ := hfirst
  obtain ⟨before', text', after', hsource', rfl⟩ := hlast
  have hbefore : before <+: source := ⟨text ++ after, by rw [hsource, List.append_assoc]⟩
  have hbefore' : before' ++ text' <+: source := ⟨after', hsource'.symm⟩
  obtain ⟨run, hrun⟩ : before <+: before' ++ text' := by
    refine (List.prefix_or_prefix_of_prefix hbefore hbefore').resolve_right fun hprefix => ?_
    obtain ⟨more, rfl⟩ := hprefix
    rw [hstart, hstop] at hlt
    simp only [spanOf, bytes_append] at hlt
    omega
  refine ⟨before, run, after', by rw [hrun, hsource'], ?_⟩
  have hspan : s = ⟨s.start, s.stop, s.line, s.column⟩ := rfl
  rw [hspan, hstart, hstop, hline, hcolumn]
  simp only [spanOf, hrun]

/-- What the span of a node says is true of the source and of the nodes below it. -/
structure Faithful (source : String) (tokens : List Token) (n : Node) : Prop where
  nonempty : n.span.start < n.span.stop
  /-- It begins with a token, whose line and column it gives. -/
  first : ∃ t ∈ tokens, t.kind ≠ .eof ∧ n.span.start = t.span.start ∧ n.span.line = t.span.line ∧
    n.span.column = t.span.column
  last : ∃ t ∈ tokens, t.kind ≠ .eof ∧ n.span.stop = t.span.stop
  /-- It is the place of a text in the source, which every project that holds the source gives for
  it. -/
  text : ∃ before text after, source.toList = before ++ text ++ after ∧
    n.span = spanOf before text ∧
    ∀ (p : Project) (id : String) (m : SourceModule), p.module? id = some m → m.source = source →
      p.sourceText? id n.span.start n.span.stop = some (String.ofList text)
  contains : ∀ m : Node, m.Within n → n.span.start ≤ m.span.start ∧ m.span.stop ≤ n.span.stop
  parts : (n.parts.map Node.span).Pairwise fun s s' => s.stop ≤ s'.start

theorem Placed.faithful {source : String} {tokens taken : List Token} {n : Node}
    (hlossless : Lossless source tokens) (hplaced : Placed taken n) (horder : InOrder taken)
    (htaken : ∀ t ∈ taken, t ∈ tokens ∧ t.kind ≠ .eof) : Faithful source tokens n := by
  obtain ⟨own, hown, hframes, hparts, -⟩ := hplaced.frames horder
  obtain ⟨first, hfirst, hstart, hline, hcolumn⟩ := hframes.first
  obtain ⟨last, hlast, hstop⟩ := hframes.last
  obtain ⟨hfirstmem, hfirstkind⟩ := htaken first (hown.subset hfirst)
  obtain ⟨hlastmem, hlastkind⟩ := htaken last (hown.subset hlast)
  have hlt : n.span.start < n.span.stop := by
    have hpos := horder.positive first (hown.subset hfirst)
    have hle := (hframes.holds first hfirst).2
    omega
  refine ⟨hlt, ⟨first, hfirstmem, hfirstkind, hstart, hline, hcolumn⟩,
    ⟨last, hlastmem, hlastkind, hstop⟩, ?_, fun m hm => hplaced.contains horder hm, hparts⟩
  have hspan : ∀ t ∈ tokens, ∃ before text after, source.toList = before ++ text ++ after ∧
      t.span = spanOf before text := by
    intro t ht
    obtain ⟨before, text, after, hsource, hspan, -⟩ := hlossless.spans t ht
    exact ⟨before, text, after, hsource, hspan⟩
  obtain ⟨before, text, after, hsource, hcut⟩ :=
    exists_cut (hspan first hfirstmem) (hspan last hlastmem) hstart hline hcolumn hstop hlt
  refine ⟨before, text, after, hsource, hcut, ?_⟩
  rintro p id m hm rfl
  rw [Project.sourceText?, hm, Option.bind_some, hcut, hsource]
  simp only [spanOf, bytes_append]
  rw [slice_append, Option.map_some]

/-- The tokens taken from a source are in order, and none of them marks the end. -/
theorem inOrder_of_takes {source : String} {tokens taken : List Token} {c c' : Cursor}
    (hlossless : Lossless source tokens) (hc : c.tokens = tokens) (ht : c.Takes taken c') :
    InOrder taken ∧ ∀ t ∈ taken, t ∈ tokens ∧ t.kind ≠ .eof := by
  obtain ⟨front, last, hlast, hfront, -⟩ := hlossless.eof_last
  have hsplit : taken ++ c'.tokens = front ++ [last] := by rw [← ht.tokens_eq, hc, hlast]
  have hkind : ∀ t ∈ taken, t.kind ≠ .eof := by
    obtain ⟨later, t, hlater⟩ :=
      (List.eq_nil_or_concat' c'.tokens).resolve_left (by simp [Cursor.tokens])
    rw [hlater, ← List.append_assoc] at hsplit
    obtain ⟨rfl, -⟩ := List.append_inj' hsplit rfl
    exact fun t ht => hfront t (List.mem_append_left _ ht)
  have hmem : ∀ t ∈ taken, t ∈ tokens := by
    intro t ht'
    rw [← hc, ht.tokens_eq]
    exact List.mem_append_left _ ht'
  refine ⟨⟨fun t ht' => ?_, ?_⟩, fun t ht' => ⟨hmem t ht', hkind t ht'⟩⟩
  · obtain ⟨-, -, -, -, -, hlt⟩ := hlossless.spans t (hmem t ht')
    exact hlt (hkind t ht')
  · have hordered := hlossless.ordered
    rw [← hc, ht.tokens_eq] at hordered
    exact hordered.sublist (List.sublist_append_left _ _)

/-- Every declaration of a module that is read, every expression and every entry in it has a
faithful span, and the declarations follow each other. -/
theorem parse_faithful {source : String} {items : List Item} (h : parse source = .ok items) :
    ∃ tokens, Token.lex source = .ok tokens ∧
      (∀ d, Item.declares d ∈ items → ∀ n : Node, n.Within (.declaration d) →
        Faithful source tokens n) ∧
      ((items.flatMap Item.nodes).map Node.span).Pairwise fun s s' => s.stop ≤ s'.start := by
  unfold parse at h
  split at h
  · cases h
  next tokens hlex =>
  have hlossless := lossless_of_cut (@lexFrom_cut _ none [] _ _ hlex)
  have hlast : EofLast tokens := by
    obtain ⟨front, last, heq, -, hkind, -⟩ := hlossless.eof_last
    exact ⟨front, last, heq, hkind⟩
  have hc := Cursor.ofTokens_tokens hlast
  have hread : parseTokens tokens = .ok items := by
    cases hparse : parseTokens tokens with
    | error e => simp [hparse, Except.mapError] at h
    | ok read => simpa [hparse, Except.mapError] using h
  have hstatements := @Parser.statements_outcome True (Cursor.ofTokens tokens)
  obtain ⟨taken, c', ht, hitems⟩ := (hstatements.run' (by rwa [hc])).1 items hread
  obtain ⟨horder, htaken⟩ := inOrder_of_takes hlossless hc ht
  refine ⟨tokens, hlex, fun d hd n hn => ?_, (hitems.apart.ordered horder).1⟩
  have hd : Placed taken (.declaration d) := by
    refine hitems.placed _ (List.mem_flatMap.2 ⟨_, hd, ?_⟩)
    exact List.mem_singleton_self _
  exact Placed.faithful hlossless (fun m hm => hd m (hm.trans hn)) horder htaken

/-- A call whose name takes two bytes, with an operator and an object literal in it. -/
def accentedCall : Declaration :=
  let call : Expr := .call (.ident "é" ⟨10, 12, 1, 11⟩)
    [.unary .not (.ident "a" ⟨14, 15, 1, 14⟩) ⟨13, 15, 1, 13⟩,
      .object [.shorthand "b" none ⟨19, 20, 1, 19⟩] ⟨17, 22, 1, 17⟩] ⟨10, 23, 1, 11⟩
  ⟨"x", some call, false, none, ⟨6, 23, 1, 7⟩⟩

theorem parse_faithful_accentedCall :
    parse "const x = é(!a, { b });" = .ok [.declares accentedCall] ∧
      ∃ tokens, Token.lex "const x = é(!a, { b });" = .ok tokens ∧
        ∀ n : Node, n.Within (.declaration accentedCall) →
          Faithful "const x = é(!a, { b });" tokens n := by
  have hlex : Token.lex "const x = é(!a, { b });" = .ok
      [⟨.word "const", ⟨0, 5, 1, 1⟩, none, true⟩, ⟨.word "x", ⟨6, 7, 1, 7⟩, none, false⟩,
        ⟨.punct .assign, ⟨8, 9, 1, 9⟩, none, false⟩, ⟨.word "é", ⟨10, 12, 1, 11⟩, none, false⟩,
        ⟨.punct .openParen, ⟨12, 13, 1, 12⟩, none, false⟩,
        ⟨.punct .bang, ⟨13, 14, 1, 13⟩, none, false⟩, ⟨.word "a", ⟨14, 15, 1, 14⟩, none, false⟩,
        ⟨.punct .comma, ⟨15, 16, 1, 15⟩, none, false⟩,
        ⟨.punct .openBrace, ⟨17, 18, 1, 17⟩, none, false⟩,
        ⟨.word "b", ⟨19, 20, 1, 19⟩, none, false⟩,
        ⟨.punct .closeBrace, ⟨21, 22, 1, 21⟩, none, false⟩,
        ⟨.punct .closeParen, ⟨22, 23, 1, 22⟩, none, false⟩,
        ⟨.punct .semicolon, ⟨23, 24, 1, 23⟩, none, false⟩,
        ⟨.eof, ⟨24, 24, 1, 24⟩, none, true⟩] := by
    decide +kernel
  have hparse : parse "const x = é(!a, { b });" = .ok [.declares accentedCall] := by
    rw [parse, hlex]
    rfl
  obtain ⟨tokens, htokens, hfaithful, -⟩ := parse_faithful hparse
  exact ⟨hparse, tokens, htokens, hfaithful _ (List.mem_singleton_self _)⟩

end CodecDocs.Script
