import CodecDocs.Proofs.Script.Outcome
import CodecDocs.Proofs.Script.RoundTrip
import CodecDocs.Proofs.Script.Types

/-! Types leave no trace in what is read. A constant has the same value, up to places, whether its
type stands before the value, is asserted after it or is left out, and a call is the same with type
arguments as without them. -/

namespace CodecDocs.Script

open Token (Kind)
open CodecDocs.Script.Parser

namespace Parser

variable {expr : Parser Expr} {c : Cursor} {rest text type : List Kind} {value : Expr}

/-! ### Assertions -/

theorem not_goesOn_of_ends {mark : Punct} (h : mark ∈ endMarks) : Kind.punct mark ∉ typeGoesOn := by
  revert h
  cases mark <;> simp [endMarks, typeGoesOn]

/-- A type that is asserted of an expression leaves its value as it is. -/
theorem passed_assertion {word : String} (hword : word ∈ assertionWords) (htype : TypeText type) :
    Passed (.word word :: type) where
  follow _ := by
    obtain ⟨k, more, rfl, -, hmark⟩ := beginsType_of_read htype.readType
    refine .word hword (fun hk => ?_) _
    cases hmark _ hk
  suffixes hc _ _ _ _ _ := by
    rw [suffixesFrom, get_bind, Cursor.kind_eq hc]
    rfl
  operators {c rest} hc hrest operand rounds start least left := by
    have hat : (c.atWord "as" || c.atWord "satisfies") = true := by
      simpa [assertionWords, Cursor.atWord, Cursor.kind_eq hc] using hword
    have hnext := Cursor.next_kinds hc (by simp [hrest.ne_nil])
    have hconst : c.next.kind ≠ .word "const" := by
      obtain ⟨k, more, rfl, hk, -⟩ := beginsType_of_read htype.readType
      rwa [Cursor.kind_eq hnext]
    have hend := Cursor.after_kinds hnext hrest.ne_nil
    have hskip : skipType c.next = .ok ((), c.next.after type.length) := by
      obtain ⟨mark, hmark, more, rfl⟩ := hrest
      exact skipType_skips htype.readType _ _ _ hnext (not_goesOn_of_ends hmark)
    rw [climb, get_bind, if_pos hat, advance_bind, eatWord_bind, if_neg hconst]
    refine (bind_ok hskip _).trans ?_
    exact climb_ends hend hrest rounds start least left

/-! ### Type arguments -/

theorem typeArguments_eq {inside : List Kind} (h : AngleNeutral inside)
    (hc : c.kinds = angles inside ++ .punct .openParen :: rest) :
    typeArguments c = .ok (true, c.after (angles inside).length) := by
  have hskip := skipAngles_skips h c _ _ hc trivial
  have hattempt : attempt skipAngles c = .ok (some (), c.after (angles inside).length) := by
    rw [attempt, hskip]
  have hopen := Cursor.kind_eq (Cursor.after_kinds hc (by simp))
  rw [typeArguments, get_bind, bind_ok hattempt]
  simp [Cursor.atPunct, hopen]

theorem AtOperand.typeArguments {inside : List Kind} (h : AngleNeutral inside)
    (hat : AtOperand expr c text value (angles inside ++ .punct .openParen :: rest))
    (hc : c.kinds = text ++ (angles inside ++ .punct .openParen :: rest)) :
    AtOperand expr c (text ++ angles inside) value (.punct .openParen :: rest) := by
  obtain ⟨harrow, hopening, e, rounds, hrounds, hsuffixed, hvalue⟩ := hat
  have hangles := Cursor.after_kinds hc (by simp)
  obtain ⟨rounds, rfl⟩ : ∃ n, rounds = n + 1 := ⟨rounds - 1, by omega⟩
  refine ⟨harrow, hopening, e, rounds, ?_, ?_, hvalue⟩
  · rw [angles, List.length_append, List.length_cons] at hrounds
    omega
  · rw [hsuffixed, suffixesFrom, get_bind, Cursor.kind_eq hangles, List.length_append,
      ← Cursor.after_after]
    exact bind_ok (typeArguments_eq h hangles) _

theorem AtOperand.call {args : List Expr} (hcodec : ∀ arg ∈ args, CodecElement arg)
    (h : ∀ arg ∈ args, ReadsExpr (element expr) arg)
    (hat : AtOperand expr c text value (parens (separated (args.map Expr.text)) ++ rest))
    (hc : c.kinds = text ++ (parens (separated (args.map Expr.text)) ++ rest)) :
    AtOperand expr c (text ++ parens (separated (args.map Expr.text)))
      (.call value (Expr.documenteds args (c.after text.length).next) default) rest := by
  obtain ⟨harrow, hopening, e, rounds, hrounds, hsuffixed, hvalue⟩ := hat
  have hparens := Cursor.after_kinds hc (by simp [parens])
  obtain ⟨read, hread, hvalues⟩ := args_reads hcodec h hparens
  obtain ⟨rounds, rfl⟩ : ∃ n, rounds = n + 1 := ⟨rounds - 1, by omega⟩
  rw [Cursor.after_after, ← List.length_append] at hread
  set last := c.after (text ++ parens (separated (args.map Expr.text))).length
  refine ⟨harrow, hopening, .call e read (last.spanFrom c.current.span), rounds, ?_, ?_, ?_⟩
  · rw [List.length_append, length_parens] at hrounds
    omega
  · rw [hsuffixed, suffixesFrom_call (Cursor.kind_eq hparens) hread]
  · rw [Expr.unplaced, Expr.unplaceds_eq, hvalue, hvalues]

/-- A call with type arguments. -/
theorem expr_typedCall {callee : Expr} {args : List Expr} {inside : List Kind}
    (hcallee : Codec callee) (hargs : ∀ arg ∈ args, CodecElement arg) (h : AngleNeutral inside) :
    Reads endMarks Parser.expr
      (asOperand callee callee.text ++ angles inside ++ parens (separated (args.map Expr.text)))
      fun c e => e.unplaced = .call (callee.documented (c.atOperand callee))
        (Expr.documenteds args
          (c.after (asOperand callee callee.text ++ angles inside).length).next) default := by
  intro c rest hc hrest
  obtain ⟨depth, hdepth⟩ : ∃ n, c.bound = n + 1 := ⟨c.ahead.length + 1, rfl⟩
  have hlen : (asOperand callee callee.text).length + (separated (args.map Expr.text)).length ≤
      depth := by
    have hbound := Cursor.length_kinds c
    rw [hc, hdepth] at hbound
    simp only [List.length_append, length_parens, angles, List.length_cons] at hbound
    omega
  have hinner : ∀ e, Codec e → e.text.length ≤ depth → ReadsExpr (exprTo depth) e :=
    fun e he hle => exprTo_readsExpr he hle
  rw [List.append_assoc, List.append_assoc] at hc
  have hoperand := atOperand_chain hcallee (fun e he hlt => hinner e he (by omega))
    (.mark (by decide) _) hc
  have hargument : ∀ arg ∈ args, ReadsExpr (element (exprTo depth)) arg := by
    intro arg harg
    have hmem := length_le_of_mem (List.mem_map_of_mem (f := Expr.text) harg)
    exact element_reads (hargs arg harg) fun e he hle => hinner e he (by omega)
  have hcall := (hoperand.typeArguments h hc).call hargs hargument (by rw [hc]; simp)
  rw [Parser.expr, get_bind, hdepth]
  have hexpr := exprWith_operand hcall .nil hrest (by rw [hc]; simp)
  rwa [List.append_nil] at hexpr

/-! ### Constants -/

/-- The text of a constant up to its value, with a type or without one. -/
inductive ConstantHead (name : String) : List Kind → Prop
  | plain : ConstantHead name [.word "const", .word name, .punct .assign]
  | typed {type : List Kind} (htype : TypeText type) :
    ConstantHead name ([.word "const", .word name, .punct .colon] ++ (type ++ [.punct .assign]))

theorem declarations_constant {name : String} {head : List Kind} {init : Expr} {c' : Cursor}
    (exported : Bool) (doc : Option String) (hhead : ConstantHead name head)
    (hc : c.kinds = head ++ rest) (hinit : Parser.expr (c.after head.length) = .ok (init, c'))
    (hend : c'.kind = .punct .semicolon) :
    ∃ span, declarations exported doc c =
      .ok ([.declares ⟨name, some init, exported, doc, span⟩], c'.next) := by
  cases hhead with
  | plain =>
    have hassign := Cursor.kind_eq (Cursor.next_kinds (Cursor.next_kinds hc (by simp)) (by simp))
    refine ⟨_, declarations_eq exported doc hc (by simp) (if_neg (by simp)) ?_ hend⟩
    rw [if_pos hassign]
    exact map_ok hinit some
  | @typed type htype =>
    rw [List.append_assoc, List.append_assoc] at hc
    have hcolon := Cursor.next_kinds (Cursor.next_kinds hc (by simp)) (by simp)
    have htypeAt := Cursor.next_kinds hcolon (by simp)
    have hskip := skipType_skips htype.readType _ _ _ htypeAt (by decide)
    have hassign := Cursor.kind_eq (Cursor.after_kinds htypeAt (by simp))
    refine ⟨_, declarations_eq exported doc hc (by simp) ((if_pos rfl).trans hskip) ?_ hend⟩
    rw [if_pos hassign, Cursor.after_next]
    refine map_ok ?_ some
    rw [← hinit]
    simp [← Cursor.after_succ]

end Parser

/-- The tokens declare one constant, with the name and, up to places, the value. -/
def Declares (tokens : List Token) (name : String) (value : Expr) : Prop :=
  ∃ d : Declaration, parseTokens tokens = .ok [.declares d] ∧ d.name = name ∧
    d.init.map Expr.unplaced = some value

/-- A module of one constant. -/
theorem parseTokens_constant {tokens : List Token} {items : List Item} {c : Cursor}
    (hconst : (Cursor.ofTokens tokens).kind = .word "const")
    (hread : declarations false (Cursor.ofTokens tokens).current.doc (Cursor.ofTokens tokens) =
      .ok (items, c)) (hend : c.kind = .eof) : parseTokens tokens = .ok items := by
  set start := Cursor.ofTokens tokens
  have hstatement := (statement_const hconst).trans hread
  have hbound : start.bound = start.ahead.length + 1 + 1 := rfl
  have hstatements : statements start = .ok (items, c) := by
    rw [statements, get_bind, hbound, statementsFrom, get_bind,
      if_neg (by simp [Cursor.isEnd, hconst]), bind_ok hstatement, statementsFrom, get_bind,
      if_pos (by simp [Cursor.isEnd, hend])]
    rfl
  show (statements start).map Prod.fst = .ok items
  rw [hstatements]
  rfl

/-- A constant whose value is read, with the place where the value begins. -/
theorem declares_of_reads {name : String} {head text : List Kind} {first later : List Token}
    {value : Cursor → Expr} (hhead : ConstantHead name head) (hfirst : first.map Token.kind = head)
    (hlater : later.map Token.kind = text ++ [.punct .semicolon, .eof])
    (hreads : Reads endMarks Parser.expr text fun c e => e.unplaced = value c) :
    ∃ c : Cursor, c.tokens = later ∧ Declares (first ++ later) name (value c) := by
  have hkinds : (first ++ later).map Token.kind =
      head ++ (text ++ [.punct .semicolon, .eof]) := by
    rw [List.map_append, hfirst, hlater]
  have heof : EofLast (first ++ later) := by
    rw [eofLast_iff, ← List.getLast?_map, hkinds, ← List.append_assoc, List.getLast?_append]
    rfl
  have hne : later ≠ [] := by
    rintro rfl
    simp at hlater
  set start := Cursor.ofTokens (first ++ later)
  have htokens : start.tokens = first ++ later := Cursor.ofTokens_tokens heof
  have hstart : start.kinds = head ++ (text ++ [.punct .semicolon, .eof]) := by
    rw [Cursor.kinds, htokens, hkinds]
  set c := start.after head.length with hplace
  have hvalueAt : c.tokens = later := by
    rw [hplace, ← hfirst, List.length_map]
    exact Cursor.after_tokens htokens hne
  have hc : c.kinds = text ++ [.punct .semicolon, .eof] := by rw [Cursor.kinds, hvalueAt, hlater]
  obtain ⟨init, hinit, hvalue⟩ := hreads c _ hc ⟨.semicolon, by decide, [.eof], rfl⟩
  have hend := Cursor.after_kinds hc (by simp)
  obtain ⟨span, hread⟩ := declarations_constant false start.current.doc hhead hstart hinit
    (Cursor.kind_eq hend)
  have hconst : start.kind = .word "const" := by cases hhead <;> exact Cursor.kind_eq hstart
  have heofAt := Cursor.kind_eq (Cursor.next_kinds hend (by simp))
  exact ⟨c, hvalueAt, _, parseTokens_constant hconst hread heofAt, rfl, congrArg some hvalue⟩

/-! ### Values -/

/-- What a token says apart from its place. -/
def documentedKind (t : Token) : Kind × Option String := (t.kind, t.doc)

theorem map_kind_of_documented {body : List Token} {text : List (Kind × Option String)}
    (h : body.map documentedKind = text) : body.map Token.kind = text.map Prod.fst := by
  rw [← h, List.map_map]
  rfl

theorem map_doc_of_documented {body : List Token} {text : List (Kind × Option String)}
    (h : body.map documentedKind = text) : body.map Token.doc = text.map Prod.snd := by
  rw [← h, List.map_map]
  rfl

theorem agree_of_shows {c d : Cursor} {body more : List Token} {text : List Kind}
    (hbody : body.map Token.kind = text) (hc : c.tokens = body ++ more)
    (hd : d.Shows (body.map Token.doc)) : Cursor.Agree text.length c d := by
  have hagree := Cursor.Agree.of_shows ⟨body, more, hc, rfl⟩ hd
  rwa [List.length_map, ← List.length_map Token.kind, hbody] at hagree

/-- However it is written, a constant has the value that its own tokens give. -/
theorem declares_value {e : Expr} (he : Codec e) {name : String} {head tail : List Kind}
    {first body last : List Token} {d : Cursor} (hhead : ConstantHead name head)
    (htail : Passed tail) (hfirst : first.map Token.kind = head)
    (hbody : body.map Token.kind = e.text)
    (hlast : last.map Token.kind = tail ++ [.punct .semicolon, .eof])
    (hd : d.Shows (body.map Token.doc)) :
    Declares (first ++ body ++ last) name (e.documented d) := by
  have hlater : (body ++ last).map Token.kind = e.text ++ tail ++ [.punct .semicolon, .eof] := by
    rw [List.map_append, hbody, hlast, List.append_assoc]
  obtain ⟨c, hc, hdeclares⟩ := declares_of_reads hhead hfirst hlater (expr_reads_tail he htail)
  rwa [List.append_assoc, ← e.documented_congr (agree_of_shows hbody hc hd)]

/-- A call has the value that the tokens of its parts give, with type arguments or without. -/
theorem declares_call {callee : Expr} {args : List Expr} (hcallee : Codec callee)
    (hargs : ∀ arg ∈ args, CodecElement arg) {name : String} {head between : List Kind}
    {first body types actual last : List Token} {d d' : Cursor}
    (hbetween : between = [] ∨ ∃ inside, AngleNeutral inside ∧ between = angles inside)
    (hhead : ConstantHead name head) (hfirst : first.map Token.kind = head)
    (hbody : body.map Token.kind = asOperand callee callee.text)
    (htypes : types.map Token.kind = between)
    (hactual : actual.map Token.kind = parens (separated (args.map Expr.text)))
    (hlast : last.map Token.kind = [.punct .semicolon, .eof])
    (hd : d.Shows (body.map Token.doc)) (hd' : d'.Shows (actual.map Token.doc)) :
    Declares (first ++ body ++ types ++ actual ++ last) name
      (.call (callee.documented (d.atOperand callee)) (Expr.documenteds args d'.next) default) := by
  have hreads : Reads endMarks Parser.expr
      (asOperand callee callee.text ++ between ++ parens (separated (args.map Expr.text)))
      fun c e => e.unplaced = .call (callee.documented (c.atOperand callee))
        (Expr.documenteds args
          (c.after (asOperand callee callee.text ++ between).length).next) default := by
    rcases hbetween with rfl | ⟨inside, hinside, rfl⟩
    · have hread := expr_reads (.call default hcallee hargs)
      rw [ReadsExpr, Expr.text, Expr.texts_eq] at hread
      rwa [List.append_nil]
    · exact expr_typedCall hcallee hargs hinside
  have hlater : (body ++ types ++ (actual ++ last)).map Token.kind =
      asOperand callee callee.text ++ between ++ parens (separated (args.map Expr.text)) ++
        [.punct .semicolon, .eof] := by
    simp only [List.map_append, hbody, htypes, hactual, hlast, List.append_assoc]
  obtain ⟨c, hc, hdeclares⟩ := declares_of_reads hhead hfirst hlater hreads
  have hne : actual ++ last ≠ [] := by
    intro hnil
    rw [(List.append_eq_nil_iff.1 hnil).2] at hlast
    cases hlast
  have hactualAt := Cursor.after_tokens hc hne
  rw [← List.length_map Token.kind, List.map_append, hbody, htypes] at hactualAt
  rw [List.append_assoc] at hc
  have hfun := callee.documented_congr (agree_of_shows hbody hc hd).atOperand
  have hagree := agree_of_shows hactual hactualAt hd'
  rw [length_parens, ← Expr.texts_eq] at hagree
  have hvalues := Expr.documenteds_congr args (hagree.next (by omega))
  rw [hfun, hvalues] at hdeclares
  simpa only [List.append_assoc] using hdeclares

/-! ### Erasure -/

/-- How a constant is written around its value: without a type, with one before the equality sign,
and with one that is asserted of the value. -/
def constantForms (name : String) (type : List Kind) : List (List Kind × List Kind) :=
  let head : List Kind := [.word "const", .word name, .punct .assign]
  let stop : List Kind := [.punct .semicolon, .eof]
  [(head, stop),
    ([.word "const", .word name, .punct .colon] ++ (type ++ [.punct .assign]), stop),
    (head, .word "as" :: (type ++ stop)),
    (head, .word "satisfies" :: (type ++ stop))]

/-- A type and type arguments leave no trace: passing over the type ends where the tokens after it
begin, and what is read of a value or a call depends on their own tokens only. -/
structure Erased (type : List Kind) (types : List (List Kind)) (e callee : Expr) (args : List Expr)
    (name : String) : Prop where
  stops (c : Cursor) (k : Kind) (rest : List Kind) (hc : c.kinds = type ++ k :: rest)
    (hk : k ∉ typeGoesOn) :
    ∃ c', skipType c = .ok ((), c') ∧ c'.tokens = c.tokens.drop type.length
  constant (text : List (Kind × Option String)) (htext : text.map Prod.fst = e.text) :
    ∃ value : Expr, value.bare = e.bare ∧ ∀ form ∈ constantForms name type,
      ∀ first body last : List Token, first.map Token.kind = form.1 →
        body.map documentedKind = text → last.map Token.kind = form.2 →
        Declares (first ++ body ++ last) name value
  call (operand actual : List (Kind × Option String))
    (hoperand : operand.map Prod.fst = asOperand callee callee.text)
    (hactual : actual.map Prod.fst = parens (separated (args.map Expr.text))) :
    ∃ value : Expr, value.bare = (Expr.call callee args default).bare ∧
      ∀ typeArgs ∈ [[], angles (separated types)], ∀ first body between rest last : List Token,
        first.map Token.kind = [.word "const", .word name, .punct .assign] →
        body.map documentedKind = operand → between.map Token.kind = typeArgs →
        rest.map documentedKind = actual → last.map Token.kind = [.punct .semicolon, .eof] →
        Declares (first ++ body ++ between ++ rest ++ last) name value

/-- Where passing over a type ends, and how each constant and each call is read with it. -/
theorem types_erased {type : List Kind} {types : List (List Kind)} {e callee : Expr}
    {args : List Expr} (htype : TypeText type) (htypes : ∀ t ∈ types, TypeText t) (he : Codec e)
    (hcallee : Codec callee) (hargs : ∀ arg ∈ args, CodecElement arg) (name : String) :
    Erased type types e callee args name where
  stops c k rest hc hk := by
    refine ⟨_, skipType_skips htype.readType c k rest hc hk, ?_⟩
    have hlen : c.tokens.length = type.length + (rest.length + 1) := by
      simpa [Cursor.kinds] using congrArg List.length hc
    have hsplit := (List.take_append_drop type.length c.tokens).symm
    have hafter := Cursor.after_tokens hsplit (by simp; omega)
    rwa [List.length_take_of_le (by omega)] at hafter
  constant text htext := by
    obtain ⟨d, hd⟩ := Cursor.exists_shows (text.map Prod.snd)
    refine ⟨e.documented d, e.bare_documented d, ?_⟩
    intro form hform first body last hfirst hbody hlast
    have hkinds := (map_kind_of_documented hbody).trans htext
    rw [← map_doc_of_documented hbody] at hd
    simp only [constantForms, List.mem_cons, List.not_mem_nil, or_false] at hform
    rcases hform with rfl | rfl | rfl | rfl
    · exact declares_value he .plain .nil hfirst hkinds hlast hd
    · exact declares_value he (.typed htype) .nil hfirst hkinds hlast hd
    · exact declares_value he .plain (passed_assertion (by decide) htype) hfirst hkinds hlast hd
    · exact declares_value he .plain (passed_assertion (by decide) htype) hfirst hkinds hlast hd
  call operand actual hoperand hactual := by
    obtain ⟨d, hd⟩ := Cursor.exists_shows (operand.map Prod.snd)
    obtain ⟨d', hd'⟩ := Cursor.exists_shows (actual.map Prod.snd)
    refine ⟨.call (callee.documented (d.atOperand callee)) (Expr.documenteds args d'.next) default,
      ?_, ?_⟩
    · rw [Expr.bare, Expr.bare_documented, Expr.bares_documenteds, Expr.bare]
    · intro typeArgs htypeArgs first body between rest last hfirst hbody hbetween hrest hlast
      have hneutral : AngleNeutral (separated types) :=
        .separated fun t ht => (htypes t ht).angleNeutral
      have hcases : typeArgs = [] ∨ ∃ inside, AngleNeutral inside ∧ typeArgs = angles inside := by
        rcases List.mem_cons.1 htypeArgs with rfl | hmem
        · exact .inl rfl
        · exact .inr ⟨_, hneutral, List.mem_singleton.1 hmem⟩
      rw [← map_doc_of_documented hbody] at hd
      rw [← map_doc_of_documented hrest] at hd'
      exact declares_call hcallee hargs hcases .plain hfirst
        ((map_kind_of_documented hbody).trans hoperand) hbetween
        ((map_kind_of_documented hrest).trans hactual) hlast hd hd'

/-- The type `readonly Box<(a) => b[]>[] | "none"`. -/
def boxType : List Kind :=
  [.word "readonly", .word "Box"] ++
    angles (parens [.word "a"] ++ [.punct .arrow, .word "b"] ++ brackets []) ++ brackets [] ++
    [.punct .bar, .string "none"]

/-- An object with a documented entry whose name could qualify a method. -/
def documentedEntry : Expr :=
  .object [.keyed (.name "get") (.ident "f" default) (some "The codec") default] default

theorem types_erased_box :
    TypeText boxType ∧ Codec documentedEntry ∧
      Erased boxType [boxType] documentedEntry (.ident "f" default) [documentedEntry] "x" := by
  have hempty : Group .openBracket (brackets []) := ⟨[], .closeBracket, rfl, rfl, by simp, rfl⟩
  have hparams : Group .openParen (parens [.word "a"]) :=
    ⟨[.word "a"], .closeParen, rfl, rfl, by simp, rfl⟩
  have hresult : TypeText ([.word "b"] ++ brackets []) :=
    .operand (@AtomText.mk [] [.word "b"] [brackets []] (by simp) (.name [] (by decide))
      (by simpa using hempty))
  have hfunction : TypeText (parens [.word "a"] ++ .punct .arrow :: ([.word "b"] ++ brackets [])) :=
    .operand (@AtomText.mk [] _ [] (by simp) (.function hparams hresult) (by simp))
  have htype : TypeText boxType :=
    .joined (.inl rfl)
      (@AtomText.mk ["readonly"] _ [brackets []] (by decide)
        (@CoreText.generic "Box" [] [_] (by decide) (by simpa using hfunction))
        (by simpa using hempty))
      (.operand (@AtomText.mk [] _ [] (by simp) (.string "none") (by simp)))
  have hname : Codec (.ident "f" default) := .ident default (by decide)
  have hentry : Codec documentedEntry :=
    .object default (by simpa using .keyed (some "The codec") default (.name "get") hname)
  exact ⟨htype, hentry, types_erased htype (by simpa using htype) hentry hname
    (by simpa using CodecElement.single hentry) "x"⟩

end CodecDocs.Script
