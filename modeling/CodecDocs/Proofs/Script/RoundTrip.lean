import CodecDocs.Proofs.Script.Expressions
import CodecDocs.Script.ItemParser

/-! Reading codec modules. Parsing the canonical text of a codec module gives the module back, up to
places and documentation. A default import under the name `from` is the one form that is not read:
that word always ends the bindings. -/

namespace CodecDocs.Script

open Token (Kind)
open CodecDocs.Script.Parser

namespace Parser

variable {c : Cursor} {rest : List Kind}

/-! ### Lists of names -/

theorem namesFrom_loop (rename : Parser String) :
    Loop .closeBrace (renamed rename)
      (fun c => c.kind ≠ .punct .closeBrace ∧ atTypeName c = false) (namesFrom rename) where
  stop rounds read c h := by simp [namesFrom, Cursor.atPunct, h]
  step rounds read c a c' hready h := by
    simp only [namesFrom, get_bind, Cursor.atPunct, beq_iff_eq, if_neg hready.1, hready.2,
      Bool.false_eq_true, if_false]
    rw [bind_ok h]
    simp only [pure_bind, eat_bind]
    rfl

/-- A parser that takes a word as a name. -/
def TakesName (rename : Parser String) : Prop :=
  ∀ c name, c.kind = .word name → rename c = .ok (name, c.next)

theorem renamed_reads {rename : Parser String} (hrename : TakesName rename) (n : String × String) :
    Reads [.comma, .closeBrace] (renamed rename) (nameText n) fun _ n' => n' = n := by
  intro c rest hc hrest
  obtain ⟨name, other⟩ := n
  unfold nameText at hc
  split_ifs at hc with hsame
  · obtain rfl : name = other := hsame
    have hnext := Cursor.next_kinds hc hrest.ne_nil
    obtain ⟨mark, -, more, rfl⟩ := hrest
    refine ⟨(name, name), ?_, rfl⟩
    rw [renamed, bind_ok (exportName_eq (Cursor.kind_eq hc)), eatWord_bind,
      if_neg (by simp [Cursor.kind_eq hnext]), nameText, if_pos rfl]
    rfl
  · have hnext := Cursor.next_kinds hc (by simp)
    have hother := Cursor.next_kinds hnext (by simp)
    refine ⟨(name, other), ?_, rfl⟩
    rw [renamed, bind_ok (exportName_eq (Cursor.kind_eq hc)), eatWord_bind,
      if_pos (Cursor.kind_eq hnext)]
    simp only [if_true]
    rw [bind_ok (hrename _ _ (Cursor.kind_eq hother)), nameText, if_neg hsame]
    rfl

theorem nameText_ready {n : String × String} (hc : c.kinds = nameText n ++ rest)
    (hrest : Ends [.comma, .closeBrace] rest) :
    c.kind ≠ .punct .closeBrace ∧ atTypeName c = false := by
  unfold nameText at hc
  split_ifs at hc
  · obtain ⟨mark, -, more, rfl⟩ := hrest
    simp [Cursor.kind_eq hc, atTypeName, Cursor.nextKind_eq hc, isWordKind]
  · simp [Cursor.kind_eq hc, atTypeName, Cursor.nextKind_eq hc]

theorem names_reads {rename : Parser String} (hrename : TakesName rename)
    {names : List (String × String)} (hrest : rest ≠ []) (hc : c.kinds = nameList names ++ rest) :
    c.kind = .punct .openBrace ∧
      ∃ c', Parser.names rename c.next = .ok (names, c') ∧ c'.kinds = rest := by
  obtain ⟨read, c', hopen, hread, hclose, hc', hview⟩ :=
    (namesFrom_loop rename).reads_group (by decide) (fun n _ => renamed_reads hrename n)
      (fun n _ _ _ hc hrest => nameText_ready hc hrest) hc
  obtain rfl : read = names := by
    rwa [listed_const, List.map_id'] at hview
  have hafter := Cursor.after_kinds hc hrest
  refine ⟨hopen, c'.next, ?_, ?_⟩
  · rw [Parser.names, get_bind, bind_ok hread, expect_bind hclose]
    rfl
  · rwa [hc', ← length_braces]

/-! ### Imports -/

theorem identifier_takesName : TakesName identifier := fun _ _ h => identifier_eq h

theorem exportName_takesName : TakesName exportName := fun _ _ h => exportName_eq h

/-- What may follow the default binding of an import. -/
inductive Others : List Binding → Prop
  | star (name : String) : Others [.star name]
  | named (n : String × String) (names : List (String × String)) :
    Others ((n :: names).map fun n => .named n.1 n.2)

theorem otherText_front {others : List Binding} (h : Others others) :
    ∃ mark more, otherText others = .punct mark :: more ∧ (mark = .star ∨ mark = .openBrace) := by
  cases h with
  | star name => exact ⟨.star, _, rfl, .inl rfl⟩
  | named n names => cases names <;> exact ⟨.openBrace, _, rfl, .inr rfl⟩

theorem otherText_named (n : String × String) (names : List (String × String)) :
    otherText ((n :: names).map fun n => .named n.1 n.2) = nameList (n :: names) := by
  cases names <;> simp [otherText]

theorem otherBindings_reads {others : List Binding} (h : Others others) (hrest : rest ≠ [])
    (hc : c.kinds = otherText others ++ rest) :
    ∃ c', otherBindings c = .ok (others, c') ∧ c'.kinds = rest := by
  cases h with
  | star name =>
    have hnext := Cursor.next_kinds hc (by simp)
    have hname := Cursor.next_kinds hnext (by simp)
    refine ⟨c.next.next.next, ?_, Cursor.next_kinds hname hrest⟩
    rw [otherBindings, eat_bind, if_pos (Cursor.kind_eq hc)]
    simp only [if_true]
    rw [expectWord_bind (Cursor.kind_eq hnext), bind_ok (identifier_eq (Cursor.kind_eq hname))]
    rfl
  | named n names =>
    rw [otherText_named] at hc
    obtain ⟨hopen, c', hnames, hc'⟩ := names_reads identifier_takesName hrest hc
    refine ⟨c', ?_, hc'⟩
    rw [otherBindings, eat_bind, if_neg (by simp [hopen])]
    simp only [Bool.false_eq_true, if_false]
    rw [eat_bind, if_pos hopen]
    simp only [if_true]
    rw [bind_ok hnames]
    rfl

/-- An import once its bindings are read. -/
theorem importItem_bindings {first others : List Binding} {source : String} {c₁ c₂ : Cursor}
    (himport : c.kind = .word "import") (hstring : ∀ s, c.next.kind ≠ .string s)
    (htype : (c.next.atWord "type" && c.next.nextKind != .punct .comma &&
      c.next.nextKind != .word "from") = false)
    (hfirst : defaultBinding c.next = .ok (first, c₁))
    (hothers : otherBindings c₁ = .ok (others, c₂))
    (hc₂ : c₂.kinds = .word "from" :: .string source :: .punct .semicolon :: rest)
    (hrest : rest ≠ []) :
    ∃ c', importItem c = .ok ([.imports source (first ++ others)], c') ∧ c'.kinds = rest := by
  have hsource := Cursor.next_kinds hc₂ (by simp)
  have hend := Cursor.next_kinds hsource (by simp)
  refine ⟨c₂.next.next.next, ?_, Cursor.next_kinds hend hrest⟩
  have hkind := Cursor.kind_eq hend
  have hwords : c₂.next.next.atAnyWord ["assert", "with"] = false := by
    simp [Cursor.atAnyWord, Cursor.atWord, hkind]
  rw [importItem, expectWord_bind himport, get_bind]
  cases hk : c.next.kind with
  | string s => exact absurd hk (hstring s)
  | _ =>
    simp only [htype, Bool.false_eq_true, if_false]
    rw [bind_ok hfirst, bind_ok hothers, expectWord_bind (Cursor.kind_eq hc₂),
      bind_ok (stringLiteral_eq (Cursor.kind_eq hsource)), get_bind, hwords]
    simp only [Bool.false_eq_true, if_false, discard_eat_bind, if_pos hkind, pure_apply]

theorem defaultBinding_word {name : String} {k : Kind} (hname : name ≠ "from")
    (hc : c.kinds = .word name :: k :: rest) :
    defaultBinding c =
      .ok ([.default name], if k = .punct .comma then c.next.next else c.next) := by
  have hkind := Cursor.kind_eq hc
  have hword : (isWordKind c.kind && !c.atWord "from") = true := by
    simp [hkind, isWordKind, Cursor.atWord, hname]
  have hnext : c.next.kind = k := Cursor.nextKind_eq hc
  rw [defaultBinding, get_bind, hword, if_pos rfl, bind_ok (identifier_eq hkind), discard_eat_bind,
    hnext]
  split_ifs <;> rfl

theorem defaultBinding_mark {mark : Punct} (h : c.kind = .punct mark) :
    defaultBinding c = .ok ([], c) := by
  simp [defaultBinding, h, isWordKind]

theorem otherBindings_none (h : c.kind = .word "from") : otherBindings c = .ok ([], c) := by
  simp [otherBindings, h]

theorem codecBindings_cases {bindings : List Binding} (h : CodecBindings bindings) :
    bindings = [] ∨ (∃ name, bindings = [.default name]) ∨ Others bindings ∨
      ∃ name others, Others others ∧ bindings = .default name :: others := by
  cases h with
  | star first name =>
    cases first with
    | none => exact .inr (.inr (.inl (.star name)))
    | some d => exact .inr (.inr (.inr ⟨d, _, .star name, rfl⟩))
  | named first names =>
    cases first with
    | none =>
      cases names with
      | nil => exact .inl rfl
      | cons n names => exact .inr (.inr (.inl (.named n names)))
    | some d =>
      cases names with
      | nil => exact .inr (.inl ⟨d, rfl⟩)
      | cons n names => exact .inr (.inr (.inr ⟨d, _, .named n names, rfl⟩))

theorem importClause_others {others : List Binding} (h : Others others) :
    importClause others = otherText others ++ [.word "from"] := by
  cases h <;> rfl

theorem importClause_default {others : List Binding} (name : String) (h : Others others) :
    importClause (.default name :: others) =
      .word name :: .punct .comma :: (otherText others ++ [.word "from"]) := by
  cases h <;> rfl

theorem importItem_reads {source : String} {bindings : List Binding}
    (hform : CodecBindings bindings)
    (hfrom : ∀ others, bindings ≠ .default "from" :: others) (hrest : rest ≠ [])
    (hc : c.kinds = (Item.imports source bindings).text ++ .punct .semicolon :: rest) :
    ∃ c', importItem c = .ok ([.imports source bindings], c') ∧ c'.kinds = rest := by
  have himport : c.kind = .word "import" := Cursor.kind_eq hc
  rw [Item.text, List.cons_append, List.append_assoc] at hc
  have hnext := Cursor.next_kinds hc (by simp)
  rcases codecBindings_cases hform with rfl | ⟨name, rfl⟩ | hothers | ⟨name, others, hothers, rfl⟩
  · have hend := Cursor.next_kinds hnext (by simp)
    refine ⟨c.next.next.next, ?_, Cursor.next_kinds hend hrest⟩
    rw [importItem, expectWord_bind himport, get_bind]
    simp only [Cursor.kind_eq hnext, advance_bind, discard_eat_bind, if_pos (Cursor.kind_eq hend),
      pure_apply]
  · have hname : name ≠ "from" := fun h => hfrom [] (by rw [h])
    have hfirst := defaultBinding_word hname hnext
    rw [if_neg (by simp)] at hfirst
    have hc₁ := Cursor.next_kinds hnext (by simp)
    have hothers := otherBindings_none (Cursor.kind_eq hc₁)
    refine importItem_bindings himport ?_ ?_ hfirst hothers hc₁ hrest
    · simp [Cursor.kind_eq hnext]
    · simp [Cursor.nextKind_eq hnext]
  · rw [importClause_others hothers, List.append_assoc] at hnext
    obtain ⟨mark, more, hfront, -⟩ := otherText_front hothers
    have hmark : c.next.kind = .punct mark := by
      rw [hfront] at hnext
      exact Cursor.kind_eq hnext
    obtain ⟨c₂, hread, hc₂⟩ := otherBindings_reads hothers (by simp) hnext
    refine importItem_bindings himport ?_ ?_ (defaultBinding_mark hmark) hread hc₂ hrest
    · simp [hmark]
    · simp [Cursor.atWord, hmark]
  · have hname : name ≠ "from" := fun h => hfrom others (by rw [h])
    rw [importClause_default name hothers, List.cons_append, List.cons_append,
      List.append_assoc] at hnext
    have hfirst := defaultBinding_word hname hnext
    rw [if_pos rfl] at hfirst
    have hc₁ := Cursor.next_kinds (Cursor.next_kinds hnext (by simp)) (by simp)
    obtain ⟨c₂, hread, hc₂⟩ := otherBindings_reads hothers (by simp) hc₁
    refine importItem_bindings himport ?_ ?_ hfirst hread hc₂ hrest
    · simp [Cursor.kind_eq hnext]
    · simp [Cursor.nextKind_eq hnext]

/-! ### Declarations -/

/-- A declaration with a type and a value or without them, up to a semicolon. -/
theorem declarations_eq {name : String} {k : Kind} {init : Option Expr} {c₁ c' : Cursor}
    (exported : Bool) (doc : Option String)
    (hc : c.kinds = .word "const" :: .word name :: k :: rest) (hbang : k ≠ .punct .bang)
    (htype : (if k = .punct .colon then skipType c.next.next.next else .ok ((), c.next.next)) =
      .ok ((), c₁))
    (hinit : (if c₁.kind = .punct .assign then (some <$> Parser.expr) c₁.next
      else .ok (none, c₁)) = .ok (init, c'))
    (hend : c'.kind = .punct .semicolon) :
    declarations exported doc c =
      .ok ([.declares ⟨name, init, exported, doc, c'.spanFrom c.next.current.span⟩], c'.next) := by
  have hnext := Cursor.next_kinds hc (by simp)
  have hword := Cursor.kind_eq hnext
  have hk : c.next.next.kind = k := Cursor.nextKind_eq hnext
  have hbound : ∀ c : Cursor, c.bound = c.ahead.length + 1 + 1 := fun _ => rfl
  have hplain : (c.next.atPunct .openBrace || c.next.atPunct .openBracket) = false := by
    simp [Cursor.atPunct, hword]
  have hcolon : ∀ f : Unit → Parser (List Item),
      (eat .colon >>= fun b => if b = true then skipType >>= f else f ()) c.next.next =
        f () c₁ := by
    intro f
    rw [eat_bind, hk]
    by_cases hcolon : k = .punct .colon
    · rw [if_pos hcolon] at htype ⊢
      exact bind_ok htype f
    · rw [if_neg hcolon] at htype ⊢
      obtain ⟨-, rfl⟩ := Prod.mk.inj (Except.ok.inj htype)
      rfl
  have hvalue : ∀ f : Option Expr → Parser (List Item),
      (eat .assign >>= fun b => if b = true then some <$> Parser.expr >>= f else pure none >>= f)
        c₁ = f init c' := by
    intro f
    rw [eat_bind]
    by_cases hassign : c₁.kind = .punct .assign
    · rw [if_pos hassign] at hinit ⊢
      exact bind_ok hinit f
    · rw [if_neg hassign] at hinit ⊢
      obtain ⟨rfl, rfl⟩ := Prod.mk.inj (Except.ok.inj hinit)
      rfl
  rw [declarations, advance_bind, get_bind, hbound, declarationsFrom, get_bind, hplain,
    if_neg Bool.false_ne_true, here_bind, bind_ok (identifier_eq hword), discard_eat_bind,
    if_neg (hk ▸ hbang)]
  refine (hcolon _).trans ((hvalue _).trans ?_)
  simp [hend, -bind_pure_comp]

theorem declarations_reads {d : Declaration} (hinit : ∀ e ∈ d.init, Codec e) (doc : Option String)
    (hrest : rest ≠ []) (hc : c.kinds = d.text ++ .punct .semicolon :: rest) :
    ∃ init' span c', declarations d.exported doc c =
        .ok ([.declares ⟨d.name, init', d.exported, doc, span⟩], c') ∧ c'.kinds = rest ∧
      init'.map Expr.bare = d.init.map Expr.bare := by
  rw [Declaration.text] at hc
  cases hvalue : d.init with
  | none =>
    rw [hvalue] at hc
    have hend := Cursor.next_kinds (Cursor.next_kinds hc (by simp)) (by simp)
    exact ⟨none, _, c.next.next.next, declarations_eq d.exported doc hc (by simp)
      (if_neg (by simp)) (if_neg (by simp [Cursor.kind_eq hend])) (Cursor.kind_eq hend),
      Cursor.next_kinds hend hrest, rfl⟩
  | some e =>
    rw [hvalue] at hc
    have hvalue := Cursor.next_kinds (Cursor.next_kinds (Cursor.next_kinds hc (by simp)) (by simp))
      (by simp)
    obtain ⟨e', he', hread⟩ := expr_reads (hinit e (by simp [*])) c.next.next.next _ hvalue
      ⟨.semicolon, by decide, rest, rfl⟩
    have hend := Cursor.after_kinds hvalue (by simp)
    have hassign := Cursor.kind_eq (Cursor.next_kinds (Cursor.next_kinds hc (by simp)) (by simp))
    refine ⟨some e', _, _, declarations_eq d.exported doc hc (by simp) (if_neg (by simp)) ?_
      (Cursor.kind_eq hend), Cursor.next_kinds hend hrest, by simp [bare_eq_of_documented hread]⟩
    rw [if_pos hassign, map_ok he']

/-! ### Exports -/

/-- No function follows a word at which an expression begins. -/
theorem word_front {e : Expr} (hcodec : Codec e) {name : String} {more : List Kind}
    (htext : e.text = .word name :: more) (hrest : Ends endMarks rest) :
    ∃ k later, more ++ rest = k :: later ∧ k ≠ .word "function" := by
  obtain ⟨hseed, hsingle, -, hspine, -⟩ := hcodec.spine
  have hfun : e.isFunction = false := by
    cases hcodec with
    | arrow => cases htext
    | _ => rfl
  rw [asOperand, hfun, if_neg Bool.false_ne_true, htext] at hspine
  obtain ⟨k, later, hfront, -, -, -, hk⟩ := chain_front e.spine.2 (follow_of_ends hrest)
  refine ⟨k, later, ?_, hk⟩
  rw [← hfront]
  generalize e.spine.1 = seed at *
  cases hseed with
  | bool | null | ident =>
    have hmore := (List.cons.inj hspine).2
    rw [hmore]
    rfl
  | member | call => cases hsingle
  | string | number | array | object | arrow => cases hspine

theorem defaultExport_reads {e : Expr} (hcodec : Codec e) (start : Span) (doc : Option String)
    (hrest : rest ≠ []) (hc : c.kinds = e.text ++ .punct .semicolon :: rest) :
    ∃ e' span c', defaultExport start doc c =
        .ok ([.declares ⟨"default", some e', true, doc, span⟩], c') ∧ c'.kinds = rest ∧
      e'.bare = e.bare := by
  have hends : Ends endMarks (.punct .semicolon :: rest) := ⟨.semicolon, by decide, rest, rfl⟩
  obtain ⟨e', he', hread⟩ := expr_reads hcodec c _ hc hends
  have hend := Cursor.after_kinds hc (by simp)
  have hopening : Opening c.kind := hcodec.opens.opening hc
  -- `async` is a name here: no function can follow it
  have hasync : (c.atWord "async" && c.nextKind == .word "function") = false := by
    by_cases hword : c.kind = .word "async"
    · obtain ⟨k, more, htext, -⟩ := hcodec.opens
      rw [htext] at hc
      obtain rfl : k = .word "async" := (Cursor.kind_eq hc).symm.trans hword
      obtain ⟨k, later, hfront, hk⟩ := word_front hcodec htext hends
      rw [List.cons_append, hfront] at hc
      simp [Cursor.nextKind_eq hc, hk]
    · simp [Cursor.atWord, hword]
  have hplain : ∀ word ∈ operatorWords, c.atWord word = false := by
    intro word hmem
    simpa [Cursor.atWord] using hopening.ne_word hmem
  set last := (c.after e.text.length).next
  refine ⟨e', last.spanFrom start, last, ?_, Cursor.next_kinds hend hrest,
    bare_eq_of_documented hread⟩
  rw [defaultExport, get_bind, hasync]
  simp only [Bool.false_eq_true, if_false, get_bind, hplain "function" (by decide),
    hplain "class" (by decide), hplain "interface" (by decide), Bool.or_self]
  rw [bind_ok he', discard_eat_bind, if_pos (Cursor.kind_eq hend), spanFrom_bind]
  rfl

theorem exports_reads {names : List (String × String)} {source : Option String}
    (doc : Option String) (hrest : rest ≠ [])
    (hc : c.kinds = (Item.exports names source).text ++ .punct .semicolon :: rest) :
    ∃ c', exportItem doc c = .ok ([.exports names source], c') ∧ c'.kinds = rest := by
  have hexport : c.kind = .word "export" := Cursor.kind_eq hc
  rw [Item.text, List.cons_append, List.append_assoc] at hc
  have hnext := Cursor.next_kinds hc (by simp)
  obtain ⟨hopen, c₁, hnames, hc₁⟩ := names_reads exportName_takesName (by simp) hnext
  rw [exportItem, expectWord_bind hexport, here_bind, eatWord_bind, if_neg (by simp [hopen])]
  simp only [Bool.false_eq_true, if_false, get_bind, Cursor.atAnyWord_mark hopen,
    Cursor.atWord_mark hopen, Bool.false_and, eat_bind, hopen, if_true]
  rw [bind_ok hnames, eatWord_bind]
  cases source with
  | none =>
    refine ⟨c₁.next, ?_, Cursor.next_kinds hc₁ hrest⟩
    rw [if_neg (by simp [Cursor.kind_eq hc₁])]
    simp [Cursor.kind_eq hc₁, -bind_pure_comp]
  | some value =>
    have hvalue := Cursor.next_kinds hc₁ (by simp)
    have hend := Cursor.next_kinds hvalue (by simp)
    refine ⟨c₁.next.next.next, ?_, Cursor.next_kinds hend hrest⟩
    rw [if_pos (Cursor.kind_eq hc₁)]
    simp only [if_true]
    rw [bind_ok (map_ok (stringLiteral_eq (Cursor.kind_eq hvalue)) some)]
    simp [Cursor.kind_eq hend, -bind_pure_comp]

theorem exportsAll_reads {source : String} {name : Option String} (doc : Option String)
    (hrest : rest ≠ [])
    (hc : c.kinds = (Item.exportsAll source name).text ++ .punct .semicolon :: rest) :
    ∃ c', exportItem doc c = .ok ([.exportsAll source name], c') ∧ c'.kinds = rest := by
  have hexport : c.kind = .word "export" := Cursor.kind_eq hc
  have hnext := Cursor.next_kinds hc (by simp)
  have hstar : c.next.kind = .punct .star := Cursor.kind_eq hnext
  have hc₁ := Cursor.next_kinds hnext (by simp)
  rw [exportItem, expectWord_bind hexport, here_bind, eatWord_bind, if_neg (by simp [hstar])]
  simp only [Bool.false_eq_true, if_false, get_bind, Cursor.atAnyWord_mark hstar,
    Cursor.atWord_mark hstar, Bool.false_and, eat_bind, hstar, if_true, Kind.punct.injEq,
    reduceCtorEq, eatWord_bind]
  cases name with
  | none =>
    have hvalue := Cursor.next_kinds hc₁ (by simp)
    have hend := Cursor.next_kinds hvalue (by simp)
    refine ⟨c.next.next.next.next.next, ?_, Cursor.next_kinds hend hrest⟩
    have hfrom := Cursor.kind_eq hc₁
    rw [if_neg (by simp [hfrom])]
    simp only [pure_bind]
    rw [expectWord_bind hfrom, bind_ok (stringLiteral_eq (Cursor.kind_eq hvalue))]
    simp [Cursor.kind_eq hend, -bind_pure_comp]
  | some other =>
    have hother := Cursor.next_kinds hc₁ (by simp)
    have hfrom := Cursor.next_kinds hother (by simp)
    have hvalue := Cursor.next_kinds hfrom (by simp)
    have hend := Cursor.next_kinds hvalue (by simp)
    refine ⟨c.next.next.next.next.next.next.next, ?_, Cursor.next_kinds hend hrest⟩
    rw [if_pos (Cursor.kind_eq hc₁),
      bind_ok (map_ok (exportName_eq (Cursor.kind_eq hother)) some),
      expectWord_bind (Cursor.kind_eq hfrom), bind_ok (stringLiteral_eq (Cursor.kind_eq hvalue))]
    simp [Cursor.kind_eq hend, -bind_pure_comp]

/-! ### Modules -/

theorem statement_import (hkind : c.kind = .word "import") (hparen : c.nextKind ≠ .punct .openParen)
    (hdot : c.nextKind ≠ .punct .dot) : statement c = importItem c := by
  simp [statement, hkind, hparen, hdot]

theorem statement_export (hkind : c.kind = .word "export") :
    statement c = exportItem c.current.doc c := by
  simp [statement, hkind]

theorem statement_const (hkind : c.kind = .word "const") :
    statement c = declarations false c.current.doc c := by
  simp [statement, hkind]

theorem exportItem_const (doc : Option String)
    (hc : c.kinds = .word "export" :: .word "const" :: rest) :
    exportItem doc c = declarations true doc c.next := by
  have hnext : c.next.kind = .word "const" := Cursor.nextKind_eq hc
  rw [exportItem, expectWord_bind (Cursor.kind_eq hc), here_bind, eatWord_bind,
    if_neg (by simp [hnext])]
  simp [Cursor.atAnyWord, Cursor.atWord, hnext]

theorem exportItem_default (doc : Option String)
    (hc : c.kinds = .word "export" :: .word "default" :: rest) :
    exportItem doc c = defaultExport c.next.current.span doc c.next.next := by
  have hnext : c.next.kind = .word "default" := Cursor.nextKind_eq hc
  rw [exportItem, expectWord_bind (Cursor.kind_eq hc), here_bind, eatWord_bind, if_pos hnext,
    if_pos rfl]

theorem import_front {bindings : List Binding} (hform : CodecBindings bindings) (source : String) :
    ∃ k more, importClause bindings ++ [.string source] = k :: more ∧ k ≠ .punct .openParen ∧
      k ≠ .punct .dot := by
  rcases codecBindings_cases hform with rfl | ⟨name, rfl⟩ | hothers | ⟨name, others, hothers, rfl⟩
  · exact ⟨_, _, rfl, by simp, by simp⟩
  · exact ⟨_, _, rfl, by simp, by simp⟩
  · obtain ⟨mark, more, hfront, rfl | rfl⟩ := otherText_front hothers
    all_goals
      rw [importClause_others hothers, hfront]
      exact ⟨_, _, rfl, by simp, by simp⟩
  · rw [importClause_default name hothers]
    exact ⟨_, _, rfl, by simp, by simp⟩

/-- A constant is written as one, unless it is the default export. -/
theorem declares_text (d : Declaration) :
    (∃ e, d.name = "default" ∧ d.init = some e ∧ d.exported = true ∧
      (Item.declares d).text = .word "export" :: .word "default" :: e.text) ∨
    (Item.declares d).text = (if d.exported then [.word "export"] else []) ++ d.text := by
  generalize hitem : Item.declares d = item
  unfold Item.text
  split
  · cases hitem
  · next e doc span =>
    obtain rfl := Item.declares.inj hitem
    exact .inl ⟨e, rfl, rfl, rfl, rfl⟩
  · next d' _ =>
    obtain rfl := Item.declares.inj hitem
    exact .inr rfl
  all_goals cases hitem

theorem declaration_text (d : Declaration) : ∃ more, d.text = .word "const" :: more := by
  unfold Declaration.text
  split <;> exact ⟨_, rfl⟩

theorem item_text (item : Item) : ∃ word more, item.text = .word word :: more := by
  cases item with
  | declares d =>
    rcases declares_text d with ⟨e, -, -, -, htext⟩ | htext
    · exact ⟨_, _, htext⟩
    · obtain ⟨more, hconst⟩ := declaration_text d
      rw [htext, hconst]
      split_ifs <;> exact ⟨_, _, rfl⟩
  | _ => exact ⟨_, _, rfl⟩

theorem declares_reads {d : Declaration} (hinit : ∀ e ∈ d.init, Codec e) (hrest : rest ≠ [])
    (hc : c.kinds = (Item.declares d).text ++ .punct .semicolon :: rest) :
    ∃ item' c', statement c = .ok ([item'], c') ∧ c'.kinds = rest ∧
      item'.bare = (Item.declares d).bare := by
  rcases declares_text d with ⟨e, hname, hvalue, hexported, htext⟩ | htext
  · rw [htext] at hc
    have hnext := Cursor.next_kinds (Cursor.next_kinds hc (by simp)) (by simp)
    obtain ⟨e', span, c', hread, hc', hbare⟩ := defaultExport_reads (hinit e hvalue)
      c.next.current.span c.current.doc hrest hnext
    have hstatement := (statement_export (Cursor.kind_eq hc)).trans
      ((exportItem_default c.current.doc hc).trans hread)
    exact ⟨_, c', hstatement, hc', by simp [Item.bare, hname, hvalue, hexported, hbare]⟩
  · obtain ⟨more, hconst⟩ := declaration_text d
    rw [htext, List.append_assoc] at hc
    cases hexported : d.exported with
    | true =>
      rw [hexported, if_pos rfl] at hc
      have hkinds := hc
      rw [hconst] at hkinds
      obtain ⟨init', span, c', hread, hc', hbare⟩ := declarations_reads hinit c.current.doc hrest
        (Cursor.next_kinds hc (by simp))
      rw [hexported] at hread
      have hstatement := (statement_export (Cursor.kind_eq hc)).trans
        ((exportItem_const c.current.doc hkinds).trans hread)
      exact ⟨_, c', hstatement, hc', by simp [Item.bare, hexported, hbare]⟩
    | false =>
      rw [hexported, if_neg Bool.false_ne_true, List.nil_append] at hc
      have hkind : c.kind = .word "const" := by
        rw [hconst] at hc
        exact Cursor.kind_eq hc
      obtain ⟨init', span, c', hread, hc', hbare⟩ := declarations_reads hinit c.current.doc hrest hc
      rw [hexported] at hread
      exact ⟨_, c', (statement_const hkind).trans hread, hc',
        by simp [Item.bare, hexported, hbare]⟩

theorem statement_reads {item : Item} (hcodec : CodecItem item)
    (hfrom : ∀ source others, item ≠ .imports source (.default "from" :: others))
    (hrest : rest ≠ []) (hc : c.kinds = item.text ++ .punct .semicolon :: rest) :
    ∃ item' c', statement c = .ok ([item'], c') ∧ c'.kinds = rest ∧ item'.bare = item.bare := by
  cases hcodec with
  | @imports source bindings hform =>
    obtain ⟨k, more, hfront, hparen, hdot⟩ := import_front hform source
    obtain ⟨c', hread, hc'⟩ := importItem_reads hform
      (fun others h => hfrom source others (by rw [h])) hrest hc
    have hkinds := hc
    rw [Item.text, hfront] at hkinds
    rw [← Cursor.nextKind_eq hkinds] at hparen hdot
    refine ⟨_, c', ?_, hc', rfl⟩
    rw [statement_import (Cursor.kind_eq hc) hparen hdot, hread]
  | declares hinit => exact declares_reads hinit hrest hc
  | exports names source =>
    obtain ⟨c', hread, hc'⟩ := exports_reads c.current.doc hrest hc
    exact ⟨_, c', (statement_export (Cursor.kind_eq hc)).trans hread, hc', rfl⟩
  | exportsAll source name =>
    obtain ⟨c', hread, hc'⟩ := exportsAll_reads c.current.doc hrest hc
    exact ⟨_, c', (statement_export (Cursor.kind_eq hc)).trans hread, hc', rfl⟩

theorem statementsFrom_reads {items : List Item} (hcodec : ∀ item ∈ items, CodecItem item)
    (hfrom : ∀ item ∈ items, ∀ source others, item ≠ .imports source (.default "from" :: others))
    {rounds : ℕ} (hrounds : items.length < rounds) (read : List Item)
    (hc : c.kinds = moduleText items) :
    ∃ items' c', statementsFrom rounds read c = .ok (read ++ items', c') ∧
      items'.map Item.bare = items.map Item.bare := by
  obtain ⟨rounds, rfl⟩ : ∃ n, rounds = n + 1 := ⟨rounds - 1, by omega⟩
  induction items generalizing rounds read c with
  | nil =>
    have hend : c.isEnd = true := by simp [Cursor.isEnd, Cursor.kind_eq hc]
    refine ⟨[], c, ?_, rfl⟩
    rw [statementsFrom, get_bind, hend, if_pos rfl, List.append_nil]
    rfl
  | cons item items ih =>
    have hsplit : c.kinds = item.text ++ .punct .semicolon :: moduleText items := by
      rw [hc]
      simp [moduleText]
    have hmore : moduleText items ≠ [] := by simp [moduleText]
    obtain ⟨hitem, hitems⟩ := List.forall_mem_cons.1 hcodec
    obtain ⟨hitemFrom, hitemsFrom⟩ := List.forall_mem_cons.1 hfrom
    obtain ⟨item', c₁, hread, hc₁, hbare⟩ := statement_reads hitem hitemFrom hmore hsplit
    obtain ⟨rounds, rfl⟩ : ∃ n, rounds = n + 1 := by
      rw [List.length_cons] at hrounds
      exact ⟨rounds - 1, by omega⟩
    obtain ⟨items', c', hlater, hbares⟩ :=
      ih hitems hitemsFrom (read ++ [item']) hc₁ rounds (by simpa using hrounds)
    have hmiddle : c.isEnd = false := by
      obtain ⟨word, more, hword⟩ := item_text item
      rw [hword] at hsplit
      simp [Cursor.isEnd, Cursor.kind_eq hsplit]
    refine ⟨item' :: items', c', ?_, by rw [List.map_cons, hbares, hbare, ← List.map_cons]⟩
    rw [statementsFrom, get_bind, hmiddle, if_neg Bool.false_ne_true, bind_ok hread, hlater,
      List.append_assoc, List.singleton_append]

end Parser

theorem length_le_moduleText (items : List Item) : items.length ≤ (moduleText items).length := by
  induction items with
  | nil => simp
  | cons item items ih =>
    simp only [moduleText, List.flatMap_cons, List.length_append, List.length_cons] at ih ⊢
    omega

theorem ofTokens_kinds {tokens : List Token} {items : List Item}
    (h : tokens.map Token.kind = moduleText items) :
    (Cursor.ofTokens tokens).kinds = moduleText items := by
  have hlast : tokens.getLast?.map Token.kind = some .eof := by
    rw [← List.getLast?_map, h, moduleText, List.getLast?_concat]
  rw [Cursor.ofTokens, if_pos hlast]
  cases tokens with
  | nil => simp at hlast
  | cons first rest => exact h

/-- Parsing the canonical text of a codec module gives the module back, up to places and
documentation, when no module's default export goes by the name `from`. -/
theorem parseTokens_moduleText {items : List Item} (hcodec : ∀ item ∈ items, CodecItem item)
    (hfrom : ∀ item ∈ items, ∀ source others, item ≠ .imports source (.default "from" :: others))
    {tokens : List Token} (htokens : tokens.map Token.kind = moduleText items) :
    ∃ read, parseTokens tokens = .ok read ∧ read.map Item.bare = items.map Item.bare := by
  have hc := ofTokens_kinds htokens
  have hrounds : items.length < (Cursor.ofTokens tokens).bound := by
    have hlen := length_le_moduleText items
    rw [← Cursor.length_kinds, hc]
    omega
  obtain ⟨read, c', hread, hbare⟩ := statementsFrom_reads hcodec hfrom hrounds [] hc
  refine ⟨read, ?_, hbare⟩
  have hstatements : statements (Cursor.ofTokens tokens) = .ok (read, c') := by
    rw [statements, get_bind, hread, List.nil_append]
  show (statements (Cursor.ofTokens tokens)).map Prod.fst = .ok read
  rw [hstatements]
  rfl

/-- A module with an arrow function that is called, an object as its body and a spread argument. -/
def calledArrow : List Item :=
  let body : Expr := .object [.shorthand "x" none default] default
  let callee : Expr := .function ["x"] (.expression body) default
  let args : List Expr := [.spread (.ident "async" default) default]
  [.imports "./m" [.default "type", .named "a" "b"],
    .declares ⟨"default", some (.call callee args default), true, none, default⟩,
    .exports [("a", "as"), ("b", "b")] (some "./n"),
    .exportsAll "./k" none]

theorem parseTokens_calledArrow :
    ∃ read,
      parseTokens ((moduleText calledArrow).map fun k => ⟨k, default, none, false⟩) = .ok read ∧
      read.map Item.bare = calledArrow.map Item.bare := by
  have hcodec : ∀ item ∈ calledArrow, CodecItem item := by
    simp only [calledArrow, List.forall_mem_cons]
    refine ⟨.imports _ (.named (some "type") [("a", "b")]), .declares ?_, .exports _ _,
      .exportsAll _ _, by simp⟩
    intro e he
    obtain rfl := Option.mem_some.1 he
    refine .call _ (.arrow _ _ (.object _ ?_)) ?_
    · simpa using CodecProperty.shorthand "x" none default
    · simpa using CodecElement.spread default (.ident default (by decide))
  refine parseTokens_moduleText hcodec ?_ (by simp [Function.comp_def])
  simp [calledArrow]

/-- The word that ends the bindings of an import is not read as one of them. -/
theorem parseTokens_loses_from :
    ¬ ∀ items : List Item, (∀ item ∈ items, CodecItem item) →
      ∀ tokens : List Token, tokens.map Token.kind = moduleText items →
        ∃ read, parseTokens tokens = .ok read ∧ read.map Item.bare = items.map Item.bare := by
  intro h
  have hcodec : ∀ item ∈ [Item.imports "./m" [.default "from"]], CodecItem item := by
    simpa using CodecItem.imports "./m" (.named (some "from") [])
  obtain ⟨read, hread, -⟩ := h _ hcodec
    ((moduleText [Item.imports "./m" [.default "from"]]).map fun k => ⟨k, default, none, false⟩)
    (by simp [Function.comp_def])
  have hfails : parseTokens
      ((moduleText [Item.imports "./m" [.default "from"]]).map fun k => ⟨k, default, none, false⟩) =
      .error ⟨.expectedString (.word "from"), 0, 0⟩ := rfl
  rw [hfails] at hread
  cases hread

end CodecDocs.Script
