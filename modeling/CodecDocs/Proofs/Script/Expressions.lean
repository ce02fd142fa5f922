import CodecDocs.Proofs.Script.Lookahead
import CodecDocs.Script.ExprParser

/-! Reading expressions of codec modules. Each production reads the canonical text of its form when
the parser for the expressions inside it reads theirs, and the number of tokens bounds the
nesting. What is read is the expression up to places, with the documentation that the tokens of its
text have. -/

namespace CodecDocs.Script

open Token (Kind)
open CodecDocs.Script.Parser

/-! ### Where an expression begins -/

/-- Words with which no expression of a codec module begins. -/
def operatorWords : List String :=
  ["function", "class", "interface", "new", "typeof", "void", "delete", "await"]

/-- The first tokens of expressions of codec modules. -/
inductive Opening : Kind → Prop
  | string (value : String) : Opening (.string value)
  | number (value : Binary64) : Opening (.number value)
  | word {name : String} (h : name ∉ operatorWords) : Opening (.word name)
  | mark {mark : Punct} (h : mark.opens = true) : Opening (.punct mark)

namespace Opening

variable {k : Kind}

theorem ne_mark (h : Opening k) {mark : Punct} (hmark : mark.opens = false) : k ≠ .punct mark := by
  rintro rfl
  cases h with
  | mark h =>
    rw [hmark] at h
    cases h

theorem ne_word (h : Opening k) {name : String} (hname : name ∈ operatorWords) :
    k ≠ .word name := by
  rintro rfl
  cases h with
  | word h => exact h hname

theorem unaryOp_none (h : Opening k) : unaryOp? k = none := by
  cases h with
  | string | number => rfl
  | word h =>
    unfold unaryOp?
    split <;> simp_all [operatorWords]
  | mark h =>
    unfold unaryOp?
    split <;> simp_all [Punct.opens]

end Opening

/-- The text begins as expressions of codec modules do. -/
def Opens (text : List Kind) : Prop := ∃ k more, text = k :: more ∧ Opening k

theorem Opens.append {text : List Kind} (h : Opens text) (rest : List Kind) :
    Opens (text ++ rest) := by
  obtain ⟨k, more, rfl, hk⟩ := h
  exact ⟨k, more ++ rest, rfl, hk⟩

theorem Opens.opening {text rest : List Kind} {c : Cursor} (h : Opens text)
    (hc : c.kinds = text ++ rest) : Opening c.kind := by
  obtain ⟨k, more, rfl, hk⟩ := h
  rw [Cursor.kind_eq hc]
  exact hk

theorem Opens.parens (text : List Kind) : Opens (parens text) := ⟨_, _, rfl, .mark rfl⟩

theorem Opens.asOperand {e : Expr} {text : List Kind} (h : Opens text) :
    Opens (asOperand e text) := by
  unfold Script.asOperand
  split_ifs
  · exact .parens text
  · exact h

theorem Codec.opens {e : Expr} (h : Codec e) : Opens e.text := by
  cases h with
  | string value span => exact ⟨_, _, rfl, .string value⟩
  | number value span => exact ⟨_, _, rfl, .number value⟩
  | bool value span => exact ⟨_, _, rfl, .word (by cases value <;> decide)⟩
  | null span => exact ⟨_, _, rfl, .word (by decide)⟩
  | ident span plain =>
    refine ⟨_, _, rfl, .word fun h => plain ?_⟩
    simp only [operatorWords, expressionWords, List.mem_cons] at h ⊢
    tauto
  | member name span h => exact h.opens.asOperand.append _
  | call span h hargs => exact h.opens.asOperand.append _
  | array span helements => exact ⟨_, _, rfl, .mark rfl⟩
  | object span hproperties => exact ⟨_, _, rfl, .mark rfl⟩
  | arrow params span h => exact ⟨_, _, rfl, .mark rfl⟩

/-- An element of a list begins as an expression does, or with dots. -/
theorem CodecElement.kind_ne {e : Expr} (he : CodecElement e) {mark : Punct}
    (hopens : mark.opens = false) (hdots : mark ≠ .ellipsis) {c : Cursor} {rest : List Kind}
    (hc : c.kinds = e.text ++ rest) : c.kind ≠ .punct mark := by
  cases he with
  | single he => exact (he.opens.opening hc).ne_mark hopens
  | spread =>
    rw [Cursor.kind_eq hc]
    simpa using hdots.symm

namespace Parser

variable {expr : Parser Expr} {c : Cursor} {rest : List Kind}

/-- The parser reads the canonical text of the expression. -/
abbrev ReadsExpr (p : Parser Expr) (e : Expr) : Prop :=
  Reads endMarks p e.text fun c e' => e'.unplaced = e.documented c

/-! ### Lists -/

theorem element_reads {e : Expr} (hcodec : CodecElement e)
    (h : ∀ arg, Codec arg → arg.text.length ≤ e.text.length → ReadsExpr expr arg) :
    ReadsExpr (element expr) e := by
  intro c rest hc hrest
  cases hcodec with
  | single he =>
    have hdots : c.kind ≠ .punct .ellipsis := (he.opens.opening hc).ne_mark rfl
    obtain ⟨e', he', hvalue⟩ := h e he (Nat.le_refl _) c rest hc hrest
    refine ⟨e', ?_, hvalue⟩
    simp only [element, here_bind, eat_bind, if_neg hdots, he', Bool.false_eq_true, if_false]
  | @spread arg span harg =>
    have hdots := Cursor.kind_eq hc
    have hnext := Cursor.next_kinds hc (by simp [hrest.ne_nil])
    obtain ⟨arg', harg', hvalue⟩ := h arg harg (by simp [Expr.text]) c.next rest hnext hrest
    refine ⟨.spread arg' ((c.next.after arg.text.length).spanFrom c.current.span), ?_,
      by simp only [Expr.unplaced, hvalue, Expr.documented]⟩
    simp only [element, here_bind, eat_bind, if_pos hdots, if_true]
    rw [bind_ok harg', spanFrom_bind, pure_apply]
    rfl

theorem argsFrom_loop (expr : Parser Expr) :
    Loop .closeParen (element expr) (fun c => c.kind ≠ .punct .closeParen) (argsFrom expr) where
  stop rounds read c h := by simp [argsFrom, Cursor.atPunct, h]
  step rounds read c a c' hready h := by
    simp only [argsFrom, get_bind, Cursor.atPunct, beq_iff_eq, if_neg hready]
    rw [bind_ok h, eat_bind]
    rfl

theorem elementsFrom_loop (expr : Parser Expr) :
    Loop .closeBracket (element expr)
      (fun c => c.kind ≠ .punct .closeBracket ∧ c.kind ≠ .punct .comma) (elementsFrom expr) where
  stop rounds read c h := by simp [elementsFrom, Cursor.atPunct, h]
  step rounds read c a c' hready h := by
    simp only [elementsFrom, get_bind, eat_bind, Cursor.atPunct, beq_iff_eq, if_neg hready.1,
      if_neg hready.2, Bool.false_eq_true, if_false]
    rw [bind_ok h, eat_bind]
    rfl

theorem args_reads {args : List Expr} (hcodec : ∀ arg ∈ args, CodecElement arg)
    (h : ∀ arg ∈ args, ReadsExpr (element expr) arg)
    (hc : c.kinds = parens (separated (args.map Expr.text)) ++ rest) :
    ∃ read, Parser.args expr c =
        .ok (read, c.after (parens (separated (args.map Expr.text))).length) ∧
      read.map Expr.unplaced = Expr.documenteds args c.next := by
  obtain ⟨read, c', hopen, hread, hclose, hc', hvalues⟩ :=
    (argsFrom_loop expr).reads_group (by decide)
      (fun e he => (h e he).mono (by decide))
      (fun arg harg _ _ hc _ => (hcodec arg harg).kind_ne rfl (by decide) hc) hc
  refine ⟨read, ?_, hvalues.trans (Expr.documenteds_eq args c.next).symm⟩
  rw [Parser.args, expect_bind hopen, get_bind, bind_ok hread, expect_bind hclose, length_parens,
    ← hc']
  rfl

theorem array_reads {elements : List Expr} (span : Span)
    (hcodec : ∀ e ∈ elements, CodecElement e) (h : ∀ e ∈ elements, ReadsExpr (element expr) e)
    (hc : c.kinds = (Expr.array elements span).text ++ rest) :
    ∃ e, Parser.array expr c = .ok (e, c.after (Expr.array elements span).text.length) ∧
      e.unplaced = (Expr.array elements span).documented c := by
  rw [Expr.text, Expr.texts_eq] at hc ⊢
  obtain ⟨read, c', hopen, hread, hclose, hc', hvalues⟩ :=
    (elementsFrom_loop expr).reads_group (by decide)
      (fun e he => (h e he).mono (by decide))
      (fun e he _ _ hc _ => ⟨(hcodec e he).kind_ne rfl (by decide) hc,
        (hcodec e he).kind_ne rfl (by decide) hc⟩) hc
  refine ⟨.array read (c'.next.spanFrom c.current.span), ?_, ?_⟩
  · rw [Parser.array, here_bind, expect_bind hopen, get_bind, bind_ok hread, expect_bind hclose,
      spanFrom_bind, length_brackets, ← hc']
    rfl
  · rw [Expr.unplaced, Expr.unplaceds_eq, hvalues, ← Expr.documenteds_eq, Expr.documented]

/-! ### Objects -/

theorem key_name {name : String} (hc : c.kinds = .word name :: rest) :
    Parser.key expr c = .ok (.name name, c.next) := by
  simp only [Parser.key, get_bind, Cursor.kind_eq hc]
  rfl

theorem key_reads {key : Key} (hcodec : CodecKey key)
    (h : ∀ e, Codec e → e.text.length ≤ key.text.length → ReadsExpr expr e)
    (hc : c.kinds = key.text ++ rest) :
    ∃ key', Parser.key expr c = .ok (key', c.after key.text.length) ∧
      key'.unplaced = key.documented c := by
  cases hcodec with
  | name text => exact ⟨.name text, key_name hc, rfl⟩
  | string | number =>
    refine ⟨_, ?_, rfl⟩
    simp only [Parser.key, get_bind, Cursor.kind_eq hc]
    rfl
  | @computed e he =>
    rw [Key.text, brackets, List.cons_append, List.append_assoc] at hc
    have hnext := Cursor.next_kinds hc (by simp)
    have hlen : e.text.length ≤ (Key.computed e).text.length := by
      rw [Key.text, length_brackets]
      omega
    obtain ⟨e', he', hvalue⟩ := h e he hlen c.next _ hnext ⟨.closeBracket, by decide, rest, rfl⟩
    have hclose := Cursor.kind_eq (Cursor.after_kinds hnext (by simp))
    refine ⟨.computed e', ?_, by rw [Key.unplaced, hvalue, Key.documented]⟩
    simp only [Parser.key, get_bind, Cursor.kind_eq hc, advance_bind]
    rw [bind_ok he', expect_bind hclose, Key.text, length_brackets, ← Cursor.after_group]
    rfl

theorem atModifier_name {name : String} {k : Kind} (hc : c.kinds = .word name :: k :: rest)
    (hk : k = .punct .colon ∨ k = .punct .comma ∨ k = .punct .closeBrace) :
    atModifier c = false := by
  rw [atModifier, Cursor.nextKind_eq hc]
  rcases hk with rfl | rfl | rfl <;> simp

theorem atModifier_other (h : isWordKind c.kind = false) : atModifier c = false := by
  have hword : ∀ word, c.atWord word = false := by
    intro word
    cases hk : c.kind with
    | word name =>
      rw [hk] at h
      cases h
    | _ => simp [Cursor.atWord, hk]
  simp [atModifier, Cursor.atAnyWord, hword]

/-- A key is read as one, and not as dots, a star or a word before a method. -/
theorem key_front {key : Key} (hcodec : CodecKey key) {k : Kind}
    (hk : k = .punct .colon ∨ k = .punct .comma ∨ k = .punct .closeBrace)
    (hc : c.kinds = key.text ++ k :: rest) :
    c.kind ≠ .punct .ellipsis ∧ c.kind ≠ .punct .star ∧ atModifier c = false := by
  have hkind : ∀ first more, c.kinds = first :: more → first ≠ .punct .ellipsis →
      first ≠ .punct .star → isWordKind first = false →
      c.kind ≠ .punct .ellipsis ∧ c.kind ≠ .punct .star ∧ atModifier c = false := by
    rintro first more hfirst hdots hstar hword
    rw [← Cursor.kind_eq hfirst] at hdots hstar hword
    exact ⟨hdots, hstar, atModifier_other hword⟩
  cases hcodec with
  | name text =>
    rw [Cursor.kind_eq hc]
    exact ⟨by simp, by simp, atModifier_name hc hk⟩
  | string | number | computed => exact hkind _ _ hc (by simp) (by simp) rfl

theorem property_reads {p : Property} (hcodec : CodecProperty p)
    (h : ∀ e, Codec e → e.text.length ≤ p.text.length → ReadsExpr expr e) :
    Reads [.comma, .closeBrace] (property expr) p.text
      fun c p' => p'.unplaced = p.documented c := by
  intro c rest hc hrest
  have hends : Ends endMarks rest := hrest.mono (by decide)
  cases hcodec with
  | @keyed key value doc span hkey hvalue =>
    rw [Property.text, List.append_assoc, List.cons_append] at hc
    obtain ⟨hdots, hstar, hmodifier⟩ := key_front hkey (.inl rfl) hc
    have hlen : (Property.keyed key value doc span).text.length =
        key.text.length + (value.text.length + 1) := by
      rw [Property.text, List.length_append, List.length_cons]
    obtain ⟨key', hread, hkeyValue⟩ := key_reads hkey (fun e he hle => h e he (by omega)) hc
    have hcolon := Cursor.after_kinds hc (by simp)
    have hnext := Cursor.next_kinds hcolon (by simp [hends.ne_nil])
    obtain ⟨value', hvalue', hvalueValue⟩ := h value hvalue (by omega) _ rest hnext hends
    set last := (c.after key.text.length).next.after value.text.length
    refine ⟨.keyed key' value' c.current.doc (last.spanFrom c.current.span), ?_,
      by simp only [Property.unplaced, hkeyValue, hvalueValue, Property.documented]⟩
    simp only [property, get_bind, here_bind, eat_bind, if_neg hdots, hmodifier, Bool.false_eq_true,
      if_false, discard_eat_bind, if_neg hstar]
    rw [bind_ok hread, eat_bind, if_pos (Cursor.kind_eq hcolon)]
    simp only [if_true]
    rw [bind_ok hvalue', hlen, ← Cursor.after_after, Cursor.after_succ]
    rfl
  | shorthand name doc span =>
    obtain ⟨mark, hmark, more, rfl⟩ := hrest
    have hcase : mark = .comma ∨ mark = .closeBrace := by simpa using hmark
    -- a word such as `get` is a name here, since no key follows it
    obtain ⟨hdots, hstar, hmodifier⟩ := key_front (.name name) (by simpa using .inr hcase) hc
    have hnext := Cursor.next_kinds hc (by simp)
    refine ⟨.shorthand name c.current.doc (c.next.spanFrom c.current.span), ?_, rfl⟩
    have hkind := Cursor.kind_eq hnext
    simp only [property, get_bind, here_bind, eat_bind, if_neg hdots, hmodifier, Bool.false_eq_true,
      if_false, discard_eat_bind, if_neg hstar]
    rw [bind_ok (key_name hc), eat_bind]
    rcases hcase with rfl | rfl <;> simp [hkind, Cursor.atPunct, -bind_pure_comp] <;> rfl
  | @spread arg doc span harg =>
    have hdots := Cursor.kind_eq hc
    have hnext := Cursor.next_kinds hc (by simp [hends.ne_nil])
    obtain ⟨arg', harg', hvalue⟩ := h arg harg (by simp [Property.text]) c.next rest hnext hends
    set last := c.next.after arg.text.length
    refine ⟨.spread arg' c.current.doc (last.spanFrom c.current.span), ?_,
      by simp only [Property.unplaced, hvalue, Property.documented]⟩
    simp only [property, get_bind, here_bind, eat_bind, if_pos hdots, if_true]
    rw [bind_ok harg']
    rfl

theorem propertiesFrom_loop (expr : Parser Expr) :
    Loop .closeBrace (property expr) (fun c => c.kind ≠ .punct .closeBrace)
      (propertiesFrom expr) where
  stop rounds read c h := by simp [propertiesFrom, Cursor.atPunct, h]
  step rounds read c a c' hready h := by
    simp only [propertiesFrom, get_bind, Cursor.atPunct, beq_iff_eq, if_neg hready]
    rw [bind_ok h, eat_bind]
    rfl

theorem property_kind_ne {p : Property} (hcodec : CodecProperty p) (hc : c.kinds = p.text ++ rest) :
    c.kind ≠ .punct .closeBrace := by
  cases hcodec with
  | keyed doc span hkey hvalue => cases hkey <;> simp [Cursor.kind_eq hc]
  | shorthand | spread => simp [Cursor.kind_eq hc]

theorem object_reads {properties : List Property} (span : Span)
    (hcodec : ∀ p ∈ properties, CodecProperty p)
    (h : ∀ p ∈ properties, Reads [.comma, .closeBrace] (property expr) p.text
      fun c p' => p'.unplaced = p.documented c)
    (hc : c.kinds = (Expr.object properties span).text ++ rest) :
    ∃ e, Parser.object expr c = .ok (e, c.after (Expr.object properties span).text.length) ∧
      e.unplaced = (Expr.object properties span).documented c := by
  rw [Expr.text, Property.texts_eq] at hc ⊢
  obtain ⟨read, c', hopen, hread, hclose, hc', hvalues⟩ :=
    (propertiesFrom_loop expr).reads_group (by decide) h
      (fun p hp _ _ hc _ => property_kind_ne (hcodec p hp) hc) hc
  refine ⟨.object read (c'.next.spanFrom c.current.span), ?_, ?_⟩
  · rw [Parser.object, here_bind, expect_bind hopen, get_bind, bind_ok hread, expect_bind hclose,
      spanFrom_bind, length_braces, ← hc']
    rfl
  · rw [Expr.unplaced, Property.unplaceds_eq, hvalues, ← Property.documenteds_eq, Expr.documented]

/-! ### Arrow functions -/

theorem paramsFrom_loop (expr : Parser Expr) :
    Loop .closeParen (param expr) (fun c => c.kind ≠ .punct .closeParen) (paramsFrom expr) where
  stop rounds read c h := by simp [paramsFrom, Cursor.atPunct, h]
  step rounds read c a c' hready h := by
    simp only [paramsFrom, get_bind, Cursor.atPunct, beq_iff_eq, if_neg hready]
    rw [bind_ok h, eat_bind]
    rfl

theorem skipModifiers_eq {name : String} {mark : Punct}
    (hc : c.kinds = .word name :: .punct mark :: rest) (rounds : ℕ) :
    skipModifiers (rounds + 1) c = .ok ((), c) := by
  simp [skipModifiers, Cursor.nextKind_eq hc, isWordKind]

theorem param_reads (expr : Parser Expr) (name : String) :
    Reads [.comma, .closeParen] (param expr) [.word name] fun _ name' => name' = name := by
  intro c rest hc hrest
  obtain ⟨mark, hmark, more, rfl⟩ := hrest
  have hcase : mark = .comma ∨ mark = .closeParen := by simpa using hmark
  have hnext := Cursor.next_kinds hc (by simp)
  have hkind := Cursor.kind_eq hnext
  refine ⟨name, ?_, rfl⟩
  have hword := Cursor.kind_eq hc
  have hbound : c.bound = c.ahead.length + 1 + 1 := rfl
  rw [param]
  simp only [discard_eat_bind, hword, reduceCtorEq, if_false, get_bind, hbound]
  rw [bind_ok (skipModifiers_eq hc _)]
  have hplain : (c.atPunct .openBrace || c.atPunct .openBracket) = false := by
    simp [Cursor.atPunct, hword]
  rw [get_bind, hplain, if_neg Bool.false_ne_true, bind_ok (identifier_eq hword)]
  rcases hcase with rfl | rfl <;> simp [hkind] <;> rfl

theorem params_reads (expr : Parser Expr) {params : List String}
    (hc : c.kinds = parens (separated (params.map fun p => [.word p])) ++ rest) :
    c.kind = .punct .openParen ∧ Parser.params expr c.next =
      .ok (params, c.after (parens (separated (params.map fun p => [.word p]))).length) := by
  obtain ⟨read, c', hopen, hread, hclose, hc', hview⟩ :=
    (paramsFrom_loop expr).reads_group (by decide) (fun p _ => param_reads expr p)
      (fun p _ _ _ hc _ => by simp [Cursor.kind_eq hc]) hc
  obtain rfl : read = params := by
    rwa [listed_const, List.map_id'] at hview
  refine ⟨hopen, ?_⟩
  rw [Parser.params, get_bind, bind_ok hread, expect_bind hclose, length_parens, ← hc']
  rfl

/-- An arrow function, whatever the text of its body is, as long as the body is read from it. -/
theorem arrow_reads {params : List String} {value : Cursor → Expr} {text : List Kind}
    (hopens : Opens text) (hbrace : text.head? ≠ some (.punct .openBrace))
    (h : Reads endMarks expr text fun c body => body.unplaced = value c) :
    Reads endMarks (arrow expr) (arrowText params ++ text) fun c e =>
      e.unplaced =
        .function params (.expression (value (c.after (arrowText params).length))) default := by
  intro c rest hc hrest
  have hparams : c.kinds = parens (separated (params.map fun p => [.word p])) ++
      .punct .arrow :: (text ++ rest) := by
    rw [hc]
    simp [arrowText]
  obtain ⟨hopen, hread⟩ := params_reads expr hparams
  have harrow := Cursor.after_kinds hparams (by simp)
  have hnext := Cursor.next_kinds harrow (by simp [hrest.ne_nil])
  have hplace : (c.after (parens (separated (params.map fun p => [.word p]))).length).next =
      c.after (arrowText params).length := by
    rw [Cursor.after_next, arrowText, List.length_append, List.length_singleton]
  rw [hplace] at hnext
  obtain ⟨body, hbody, hvalue⟩ := h _ rest hnext hrest
  set last := (c.after (arrowText params).length).after text.length
  refine ⟨.function params (.expression body) (last.spanFrom c.current.span), ?_,
    by simp only [Expr.unplaced, Body.unplaced, hvalue]⟩
  obtain ⟨k, more, rfl, hk⟩ := hopens
  have hbody_kind : (c.after (arrowText params).length).kind ≠ .punct .openBrace := by
    rw [Cursor.kind_eq hnext]
    simpa using hbrace
  rw [arrow, here_bind, discard_eatWord_bind, if_neg (by simp [hopen]), get_bind]
  simp only [hopen]
  rw [expect_bind hopen, bind_ok hread, eat_bind, if_neg (by rw [Cursor.kind_eq harrow]; simp)]
  simp only [Bool.false_eq_true, if_false]
  rw [expect_bind (Cursor.kind_eq harrow), get_bind, hplace,
    if_neg (by simpa [Cursor.atPunct] using hbody_kind), bind_ok (map_ok hbody _),
    List.length_append, ← Cursor.after_after]
  rfl

/-! ### Operands -/

/-- An expression in parentheses. -/
theorem primary_parens {text : List Kind} {result : Cursor → Expr → Prop}
    (h : Reads endMarks expr text result) (hc : c.kinds = parens text ++ rest) :
    ∃ e, primary expr c = .ok (e, c.after (parens text).length) ∧ result c.next e := by
  rw [parens, List.cons_append, List.append_assoc] at hc
  have hnext := Cursor.next_kinds hc (by simp)
  obtain ⟨e, he, hresult⟩ := h c.next _ hnext ⟨.closeParen, by decide, rest, rfl⟩
  have hclose := Cursor.kind_eq (Cursor.after_kinds hnext (by simp))
  refine ⟨e, ?_, hresult⟩
  simp only [primary, get_bind, Cursor.kind_eq hc, advance_bind]
  rw [bind_ok he, expect_bind hclose, length_parens, ← Cursor.after_group]
  rfl

/-- A name that stands for itself. -/
theorem primary_ident {name : String} {k : Kind} (hname : name ∉ expressionWords)
    (hc : c.kinds = .word name :: k :: rest) (hk : k ≠ .word "function") :
    primary expr c = .ok (.ident name c.current.span, c.next) := by
  have hnext : ¬ (name = "async" ∧ c.nextKind = .word "function") := by
    simp [Cursor.nextKind_eq hc, hk]
  simp only [expressionWords, List.mem_cons, not_or] at hname
  simp [primary, Cursor.kind_eq hc, hname, hnext, -bind_pure_comp]

/-- The operand that a chain begins with. -/
theorem primary_reads {seed : Expr} {k : Kind} (hcodec : Codec seed)
    (hsingle : seed.isChain = false)
    (h : ∀ e, Codec e → e.text.length < (asOperand seed seed.text).length → ReadsExpr expr e)
    (hc : c.kinds = asOperand seed seed.text ++ k :: rest) (hk : k ≠ .word "function") :
    ∃ e, primary expr c = .ok (e, c.after (asOperand seed seed.text).length) ∧
      e.unplaced = seed.documented (c.atOperand seed) := by
  cases hcodec with
  | string value span =>
    refine ⟨.string value c.current.span, ?_, rfl⟩
    simp only [primary, get_bind, Cursor.kind_eq hc]
    rfl
  | number value span =>
    refine ⟨.number value c.current.span, ?_, rfl⟩
    simp only [primary, get_bind, Cursor.kind_eq hc]
    rfl
  | bool value span =>
    refine ⟨.bool value c.current.span, ?_, rfl⟩
    have hkind := Cursor.kind_eq hc
    cases value <;> simp [primary, hkind, -bind_pure_comp] <;> rfl
  | null span =>
    refine ⟨.null c.current.span, ?_, rfl⟩
    simp only [primary, get_bind, Cursor.kind_eq hc]
    rfl
  | ident span hname => exact ⟨_, primary_ident hname hc hk, rfl⟩
  | member | call => cases hsingle
  | @array elements span helements =>
    have helement : ∀ e ∈ elements, ReadsExpr (element expr) e := by
      intro e he
      refine element_reads (helements e he) fun arg harg hlen => h arg harg ?_
      have hmem := length_le_of_mem (List.mem_map_of_mem (f := Expr.text) he)
      rw [asOperand, if_neg (by simp [Expr.isFunction]), Expr.text, Expr.texts_eq, length_brackets]
      omega
    obtain ⟨e, he, hvalue⟩ := array_reads span helements helement hc
    refine ⟨e, ?_, hvalue⟩
    simp only [primary, get_bind, Cursor.kind_eq hc]
    exact he
  | @object properties span hproperties =>
    have hproperty : ∀ p ∈ properties, Reads [.comma, .closeBrace] (property expr) p.text
        fun c p' => p'.unplaced = p.documented c := by
      intro p hp
      refine property_reads (hproperties p hp) fun e he hlen => h e he ?_
      have hmem := length_le_of_mem (List.mem_map_of_mem (f := Property.text) hp)
      rw [asOperand, if_neg (by simp [Expr.isFunction]), Expr.text, Property.texts_eq,
        length_braces]
      omega
    obtain ⟨e, he, hvalue⟩ := object_reads span hproperties hproperty hc
    refine ⟨e, ?_, hvalue⟩
    simp only [primary, get_bind, Cursor.kind_eq hc]
    exact he
  | arrow params span hbody =>
    refine primary_parens (h _ (.arrow params span hbody) ?_) hc
    rw [asOperand, Expr.isFunction, if_pos rfl, length_parens]
    omega

/-! ### Chains -/

theorem suffixesFrom_ends (hc : c.kinds = rest) (hrest : Ends endMarks rest) (start : Span)
    (rounds : ℕ) (operand : Expr) :
    suffixesFrom expr start (rounds + 1) operand c = .ok (operand, c) := by
  obtain ⟨mark, hmark, more, rfl⟩ := hrest
  rw [suffixesFrom, get_bind, Cursor.kind_eq hc]
  revert hmark
  cases mark <;> simp [endMarks]

theorem suffixesFrom_member {name : String} (hc : c.kinds = .punct .dot :: .word name :: rest)
    (start : Span) (rounds : ℕ) (operand : Expr) :
    suffixesFrom expr start (rounds + 1) operand c =
      suffixesFrom expr start rounds (.member operand name (c.next.next.spanFrom start))
        c.next.next := by
  have hname := Cursor.nextKind_eq hc
  rw [Cursor.nextKind] at hname
  rw [suffixesFrom, get_bind]
  simp only [Cursor.kind_eq hc, advance_bind, get_bind, Cursor.atPunct, hname, beq_iff_eq,
    reduceCtorEq, if_false, discard_eat_bind]
  rw [bind_ok (identifier_eq hname), spanFrom_bind]

theorem suffixesFrom_call {read : List Expr} {c' : Cursor} (hopen : c.kind = .punct .openParen)
    (hargs : Parser.args expr c = .ok (read, c')) (start : Span) (rounds : ℕ) (operand : Expr) :
    suffixesFrom expr start (rounds + 1) operand c =
      suffixesFrom expr start rounds (.call operand read (c'.spanFrom start)) c' := by
  rw [suffixesFrom, get_bind]
  simp only [hopen]
  rw [bind_ok hargs, spanFrom_bind]

/-- A chain is passed in as many rounds as it has suffixes. -/
theorem suffixesFrom_chain {suffixes : List Suffix}
    (h : ∀ args, .call args ∈ suffixes →
      ∀ arg ∈ args, CodecElement arg ∧ ReadsExpr (element expr) arg)
    (hrest : rest ≠ []) (start : Span) (rounds : ℕ) (operand : Expr)
    (hc : c.kinds = suffixes.flatMap Suffix.text ++ rest) :
    ∃ e, suffixesFrom expr start (rounds + suffixes.length) operand c =
        suffixesFrom expr start rounds e (c.after (suffixes.flatMap Suffix.text).length) ∧
      e.unplaced = chained operand.unplaced c suffixes := by
  induction suffixes generalizing operand c with
  | nil => exact ⟨operand, rfl, rfl⟩
  | cons s suffixes ih =>
    have hlater : ∀ args, .call args ∈ suffixes →
        ∀ arg ∈ args, CodecElement arg ∧ ReadsExpr (element expr) arg :=
      fun args hargs => h args (List.mem_cons_of_mem s hargs)
    rw [List.flatMap_cons, List.append_assoc] at hc
    have hnext := Cursor.after_kinds hc (by simp [hrest])
    rw [List.flatMap_cons, List.length_append, ← Cursor.after_after, List.length_cons,
      ← Nat.add_assoc]
    cases s with
    | member name =>
      obtain ⟨e, he, hvalue⟩ := ih hlater (.member operand name (c.next.next.spanFrom start)) hnext
      refine ⟨e, ?_, hvalue⟩
      rw [suffixesFrom_member hc]
      exact he
    | call args =>
      have hargs := h args List.mem_cons_self
      obtain ⟨read, hread, hvalues⟩ :=
        args_reads (fun arg harg => (hargs arg harg).1) (fun arg harg => (hargs arg harg).2) hc
      set c₁ := c.after (Suffix.call args).text.length
      obtain ⟨e, he, hvalue⟩ := ih hlater (.call operand read (c₁.spanFrom start)) hnext
      refine ⟨e, ?_, ?_⟩
      · rw [suffixesFrom_call (Cursor.kind_eq hc) hread]
        exact he
      · rw [hvalue, Expr.unplaced, Expr.unplaceds_eq, hvalues, chained, Suffix.apply]

theorem length_le_chain (suffixes : List Suffix) :
    suffixes.length ≤ (suffixes.flatMap Suffix.text).length := by
  induction suffixes with
  | nil => exact Nat.le_refl _
  | cons s suffixes ih =>
    have hs : 0 < s.text.length := by cases s <;> simp [Suffix.text, parens]
    rw [List.flatMap_cons, List.length_append, List.length_cons]
    omega

theorem length_lt_of_arg {suffixes : List Suffix} {args : List Expr} {arg : Expr}
    (hmem : .call args ∈ suffixes) (harg : arg ∈ args) :
    arg.text.length < (suffixes.flatMap Suffix.text).length := by
  have hargs := length_le_of_mem (List.mem_map_of_mem (f := Expr.text) harg)
  obtain ⟨before, after, rfl⟩ := List.append_of_mem hmem
  simp only [List.flatMap_append, List.flatMap_cons, List.length_append, Suffix.text, length_parens]
  omega

/-- Up to the text that follows it, an operand is neither an arrow function nor an operator before
one, and with its suffixes it has the value, up to places. -/
structure AtOperand (expr : Parser Expr) (c : Cursor) (text : List Kind) (value : Expr)
    (rest : List Kind) : Prop where
  no_arrow : arrowAhead c.tokens = false
  opening : Opening c.kind
  suffixed_eq : ∃ e rounds, rest.length < rounds ∧
    suffixed expr c = suffixesFrom expr c.current.span rounds e (c.after text.length) ∧
    e.unplaced = value

/-- An operand once its first part is read. -/
theorem suffixed_eq (suffixes : List Suffix) {seed : Expr} {c₁ : Cursor}
    (h : ∀ args, .call args ∈ suffixes →
      ∀ arg ∈ args, CodecElement arg ∧ ReadsExpr (element expr) arg)
    (hrest : rest ≠ []) (hnew : c.kind ≠ .word "new") (hprimary : primary expr c = .ok (seed, c₁))
    (hc₁ : c₁.kinds = suffixes.flatMap Suffix.text ++ rest) :
    ∃ e rounds, rest.length < rounds ∧
      suffixed expr c = suffixesFrom expr c.current.span rounds e
        (c₁.after (suffixes.flatMap Suffix.text).length) ∧
      e.unplaced = chained seed.unplaced c₁ suffixes := by
  obtain ⟨rounds, hrounds⟩ : ∃ n, c₁.bound = rest.length + 1 + n + suffixes.length := by
    have hlen := length_le_chain suffixes
    refine ⟨(suffixes.flatMap Suffix.text).length - suffixes.length, ?_⟩
    rw [← Cursor.length_kinds, hc₁, List.length_append]
    omega
  obtain ⟨e, he, hvalue⟩ :=
    suffixesFrom_chain h hrest c.current.span (rest.length + 1 + rounds) seed hc₁
  refine ⟨e, rest.length + 1 + rounds, by omega, ?_, hvalue⟩
  rw [suffixed, here_bind, get_bind, if_neg (by simpa [Cursor.atWord] using hnew),
    bind_ok hprimary]
  beta_reduce
  rw [get_bind, hrounds, he]

theorem atOperand_parens {e : Expr} (hcodec : Codec e) (h : ReadsExpr expr e)
    (hrest : Follow rest) (hc : c.kinds = parens e.text ++ rest) :
    AtOperand expr c (parens e.text) (e.documented c.next) rest := by
  obtain ⟨seed, hprimary, hseed⟩ := primary_parens h hc
  have hkind : c.kind = .punct .openParen := Cursor.kind_eq hc
  obtain ⟨e', rounds, hrounds, hsuffixed, hvalue⟩ :=
    suffixed_eq [] (by simp) hrest.ne_nil (by simp [hkind]) hprimary
      (Cursor.after_kinds hc hrest.ne_nil)
  exact ⟨arrowAhead_parens_chain [] hcodec.balanced hrest hc, hkind ▸ .mark rfl, e', rounds,
    hrounds, hsuffixed, hvalue.trans hseed⟩

theorem atOperand_chain {e : Expr} (hcodec : Codec e)
    (h : ∀ e', Codec e' → e'.text.length < (asOperand e e.text).length → ReadsExpr expr e')
    (hrest : Follow rest) (hc : c.kinds = asOperand e e.text ++ rest) :
    AtOperand expr c (asOperand e e.text) (e.documented (c.atOperand e)) rest := by
  obtain ⟨hseed, hsingle, hsuffixes, htext, hdocumented⟩ := hcodec.spine
  set seed := e.spine.1
  set suffixes := e.spine.2
  rw [htext, List.length_append] at h
  have hargs : ∀ args, .call args ∈ suffixes →
      ∀ arg ∈ args, CodecElement arg ∧ ReadsExpr (element expr) arg := by
    intro args hmem arg harg
    have helement : CodecElement arg := hsuffixes _ hmem arg harg
    refine ⟨helement, element_reads helement fun e' he' hlen => h e' he' ?_⟩
    have hcall := length_lt_of_arg hmem harg
    omega
  have hinner : ∀ e', Codec e' → e'.text.length < (asOperand seed seed.text).length →
      ReadsExpr expr e' := fun e' he' hlen => h e' he' (by omega)
  rw [htext, List.append_assoc] at hc
  -- the first part of the chain is read whatever mark or word follows it
  obtain ⟨k, more, hfront, -, -, -, hk⟩ := chain_front suffixes hrest
  obtain ⟨seed', hprimary, hvalue⟩ := primary_reads hseed hsingle hinner (hfront ▸ hc) hk
  have hopening : Opening c.kind := hseed.opens.asOperand.opening hc
  obtain ⟨e', rounds, hrounds, hsuffixed, hchain⟩ :=
    suffixed_eq suffixes hargs hrest.ne_nil (hopening.ne_word (by decide)) hprimary
      (Cursor.after_kinds hc (by simp [hrest.ne_nil]))
  refine ⟨arrowAhead_chain hseed hsingle hsuffixes hrest hc, hopening, e', rounds, hrounds, ?_, ?_⟩
  · rw [hsuffixed, htext, List.length_append, Cursor.after_after]
  · rw [hchain, hvalue, hdocumented]

/-! ### Operators -/

theorem climb_ends {operand : Parser Expr} (hc : c.kinds = rest) (hrest : Ends endMarks rest)
    (rounds : ℕ) (start : Span) (least : ℕ) (left : Expr) :
    climb operand (rounds + 1) start least left c = .ok (left, c) := by
  obtain ⟨mark, hmark, more, rfl⟩ := hrest
  have hnone : mark.precedence? = none := by
    revert hmark
    cases mark <;> simp [endMarks, Punct.precedence?]
  rw [climb, get_bind]
  simp [Cursor.atWord, Cursor.kind_eq hc, BinaryOp.ofKind?, BinaryOp.precedence?, hnone]

/-- A text after an expression that leaves its value as it is. -/
structure Passed (tail : List Kind) : Prop where
  follow {rest : List Kind} (hrest : Ends endMarks rest) : Follow (tail ++ rest)
  suffixes {c : Cursor} {rest : List Kind} (hc : c.kinds = tail ++ rest)
    (hrest : Ends endMarks rest) (expr : Parser Expr) (start : Span) (rounds : ℕ) (operand : Expr) :
    suffixesFrom expr start (rounds + 1) operand c = .ok (operand, c)
  operators {c : Cursor} {rest : List Kind} (hc : c.kinds = tail ++ rest)
    (hrest : Ends endMarks rest) (operand : Parser Expr) (rounds : ℕ) (start : Span) (least : ℕ)
    (left : Expr) :
    climb operand (rounds + 2) start least left c = .ok (left, c.after tail.length)

theorem Passed.nil : Passed [] where
  follow hrest := follow_of_ends hrest
  suffixes hc hrest _ start rounds operand := suffixesFrom_ends hc hrest start rounds operand
  operators hc hrest _ rounds start least left := climb_ends hc hrest (rounds + 1) start least left

/-- An operand whose suffixes are read is a whole expression. -/
theorem exprWith_suffixed {e : Expr} {c' c'' : Cursor} (harrow : arrowAhead c.tokens = false)
    (hopening : Opening c.kind) (h : suffixed expr c = .ok (e, c'))
    (hclimb : ∀ rounds, climb (unary expr) (rounds + 2) c.current.span 1 e c' = .ok (e, c''))
    (hc'' : c''.kinds = rest) (hrest : Ends endMarks rest) : exprWith expr c = .ok (e, c'') := by
  have hbound : ∀ c : Cursor, c.bound = c.ahead.length + 1 + 1 := fun _ => rfl
  have hunary : unary expr c = .ok (e, c') := by
    rw [unary, get_bind, hbound, unaryFrom, get_bind, hopening.unaryOp_none]
    exact h
  have hbinary : binary expr 1 c = .ok (e, c'') := by
    rw [binary, get_bind, here_bind, bind_ok hunary]
    exact hclimb c.ahead.length
  obtain ⟨mark, hmark, more, rfl⟩ := hrest
  have hkind := Cursor.kind_eq hc''
  have hassigns : mark.assigns = false ∧ mark ≠ .question := by
    revert hmark
    cases mark <;> simp [endMarks, Punct.assigns]
  have hconditional : conditional expr c = .ok (e, c'') := by
    rw [conditional, here_bind, bind_ok hbinary, eat_bind, if_neg (by simp [hkind, hassigns.2])]
    rfl
  rw [exprWith, get_bind, harrow, if_neg Bool.false_ne_true, here_bind, bind_ok hconditional,
    get_bind]
  simp [hkind, hassigns.1]

/-- An operand and a text that leaves its value as it is are an expression. -/
theorem exprWith_operand {text tail : List Kind} {value : Expr}
    (h : AtOperand expr c text value (tail ++ rest)) (htail : Passed tail)
    (hrest : Ends endMarks rest) (hc : c.kinds = text ++ (tail ++ rest)) :
    ∃ e, exprWith expr c = .ok (e, c.after (text ++ tail).length) ∧ e.unplaced = value := by
  obtain ⟨harrow, hopening, e, rounds, hrounds, hsuffixed, hvalue⟩ := h
  have htailAt := Cursor.after_kinds hc (by simp [hrest.ne_nil])
  obtain ⟨rounds, rfl⟩ : ∃ n, rounds = n + 1 := ⟨rounds - 1, by omega⟩
  rw [htail.suffixes htailAt hrest] at hsuffixed
  refine ⟨e, ?_, hvalue⟩
  rw [List.length_append, ← Cursor.after_after]
  exact exprWith_suffixed harrow hopening hsuffixed
    (fun rounds => htail.operators htailAt hrest _ rounds _ _ e)
    (Cursor.after_kinds htailAt hrest.ne_nil) hrest

/-! ### Whole expressions -/

/-- Texts that an expression is read from, with the place of its own text in them: its own, and
that in parentheses. -/
inductive Form (e : Expr) : List Kind → (Cursor → Cursor) → Prop
  | plain : Form e e.text fun c => c
  | parens : Form e (parens e.text) Cursor.next

theorem asBody_form (e : Expr) : Form e (asBody e.text) fun c => c.atBody e.text := by
  by_cases hbrace : e.text.head? = some (.punct .openBrace)
  · simpa only [asBody, Cursor.atBody, if_pos hbrace] using Form.parens
  · simpa only [asBody, Cursor.atBody, if_neg hbrace] using Form.plain

theorem asBody_opens {e : Expr} (h : Codec e) :
    Opens (asBody e.text) ∧ (asBody e.text).head? ≠ some (.punct .openBrace) := by
  unfold asBody
  split_ifs with hbrace
  · exact ⟨.parens _, by simp [parens]⟩
  · exact ⟨h.opens, hbrace⟩

theorem exprWith_arrow {params : List String} {body : Expr} {tail : List Kind} (span : Span)
    (hcodec : Codec body)
    (h : Reads endMarks expr (asBody body.text ++ tail)
      fun c body' => body'.unplaced = body.documented (c.atBody body.text)) :
    Reads endMarks (exprWith expr) ((Expr.function params (.expression body) span).text ++ tail)
      fun c e => e.unplaced = (Expr.function params (.expression body) span).documented c := by
  have htext : (Expr.function params (.expression body) span).text ++ tail =
      arrowText params ++ (asBody body.text ++ tail) := by
    simp [Expr.text, arrowText]
  intro c rest hc hrest
  rw [htext] at hc ⊢
  have harrow : arrowAhead c.tokens = true := by
    have htokens : c.tokens.map Token.kind =
        parens (separated (params.map fun p => [.word p])) ++
          .punct .arrow :: (asBody body.text ++ tail ++ rest) := by
      rw [← Cursor.kinds, hc]
      simp [arrowText]
    rw [arrowAhead_parens (params_balanced params) htokens (by simp)]
    rfl
  obtain ⟨hopens, hbrace⟩ := asBody_opens hcodec
  have hhead : (asBody body.text ++ tail).head? ≠ some (.punct .openBrace) := by
    obtain ⟨k, more, hbody, -⟩ := hopens
    rw [hbody] at hbrace ⊢
    exact hbrace
  obtain ⟨e, he, hvalue⟩ := arrow_reads (hopens.append tail) hhead h c rest hc hrest
  refine ⟨e, ?_, hvalue⟩
  rw [exprWith, get_bind, harrow, if_pos rfl, he]

theorem Form.length_pos {e : Expr} {text : List Kind} {place : Cursor → Cursor}
    (h : Form e text place) (hcodec : Codec e) : 0 < text.length := by
  cases h with
  | plain =>
    obtain ⟨k, more, htext, -⟩ := hcodec.opens
    simp [htext]
  | parens => simp

/-- As many rounds as the text has tokens suffice. -/
theorem exprTo_reads (depth : ℕ) {e : Expr} (hcodec : Codec e) {text tail : List Kind}
    {place : Cursor → Cursor} (hform : Form e text place) (htail : Passed tail)
    (hlen : text.length ≤ depth) :
    Reads endMarks (exprTo depth) (text ++ tail)
      fun c e' => e'.unplaced = e.documented (place c) := by
  -- an expression inside another one has a shorter text and one round less
  induction depth generalizing e text tail place with
  | zero =>
    have hpos := hform.length_pos hcodec
    omega
  | succ depth ih =>
    have hinner : ∀ e', Codec e' → e'.text.length ≤ depth → ReadsExpr (exprTo depth) e' := by
      intro e' he' hlt
      have hread := ih he' .plain .nil hlt
      rwa [List.append_nil] at hread
    cases hform with
    | plain =>
      cases hfun : e.isFunction with
      | false =>
        have hoperand : asOperand e e.text = e.text := by simp [asOperand, hfun]
        intro c rest hc hrest
        rw [List.append_assoc, ← hoperand] at hc
        have hat := atOperand_chain hcodec
          (fun e' he' hlt => hinner e' he' (by rw [hoperand] at hlt; omega)) (htail.follow hrest) hc
        rw [hoperand, Cursor.atOperand, hfun] at hat
        exact exprWith_operand hat htail hrest (hoperand ▸ hc)
      | true =>
        cases hcodec with
        | @arrow params body span hbody =>
          refine exprWith_arrow span hbody (ih hbody (asBody_form body) htail ?_)
          rw [Expr.text, List.length_append, List.length_cons] at hlen
          omega
        | _ => cases hfun
    | parens =>
      rw [length_parens] at hlen
      intro c rest hc hrest
      rw [List.append_assoc] at hc
      exact exprWith_operand (atOperand_parens hcodec (hinner e hcodec (by omega))
        (htail.follow hrest) hc) htail hrest hc

theorem exprTo_readsExpr {depth : ℕ} {e : Expr} (hcodec : Codec e)
    (hlen : e.text.length ≤ depth) : ReadsExpr (exprTo depth) e := by
  have hread := exprTo_reads depth hcodec .plain .nil hlen
  rwa [List.append_nil] at hread

/-- The canonical text of an expression is read with a text after it that leaves its value as it
is. -/
theorem expr_reads_tail {e : Expr} (hcodec : Codec e) {tail : List Kind} (htail : Passed tail) :
    Reads endMarks Parser.expr (e.text ++ tail) fun c e' => e'.unplaced = e.documented c := by
  intro c rest hc hrest
  have hlen : e.text.length ≤ c.bound := by
    rw [← Cursor.length_kinds, hc, List.length_append, List.length_append]
    omega
  rw [Parser.expr, get_bind]
  exact exprTo_reads c.bound hcodec .plain htail hlen c rest hc hrest

theorem expr_reads {e : Expr} (hcodec : Codec e) : ReadsExpr Parser.expr e := by
  have hread := expr_reads_tail hcodec .nil
  rwa [List.append_nil] at hread

end Parser

end CodecDocs.Script
