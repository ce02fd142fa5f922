import CodecDocs.Proofs.Script.Statements

/-! Reading a list of tokens ends, and it ends among them. Every production goes on from an index of
the list to one that is not before it, those for expressions, entries, parameters, types and
statements to a later one, and the bounds on the loops and on the nesting are never what fails. -/

namespace CodecDocs.Script

/-- The cursor stands at this index of the tokens. -/
structure Cursor.At (tokens : List Token) (i : ℕ) (c : Cursor) : Prop where
  index_lt : i < tokens.length
  tokens_eq : c.tokens = tokens.drop i

namespace Cursor.At

variable {tokens taken : List Token} {i : ℕ} {c c' : Cursor}

theorem bound_eq (h : c.At tokens i) : c.bound = tokens.length - i + 1 := by
  have hlen := congrArg List.length h.tokens_eq
  rw [Cursor.tokens, List.length_cons, List.length_drop] at hlen
  rw [Cursor.bound, ← hlen]

theorem eofLast (h : c.At tokens i) (hlast : EofLast tokens) : EofLast c.tokens := by
  rw [← List.take_append_drop i tokens, ← h.tokens_eq] at hlast
  exact hlast.of_append (List.cons_ne_nil _ _)

/-- Tokens that are taken lead to a later index. -/
theorem of_takes (h : c.At tokens i) (ht : c.Takes taken c') : c'.At tokens (i + taken.length) := by
  have hdrop : tokens.drop (i + taken.length) = c'.tokens := by
    rw [← List.drop_drop, ← h.tokens_eq, ht.tokens_eq, List.drop_left]
  refine ⟨Nat.lt_of_not_le fun hle => ?_, hdrop.symm⟩
  rw [List.drop_eq_nil_of_le hle] at hdrop
  cases hdrop

end Cursor.At

namespace Parser

/-! ### Productions -/

/-- The productions of the grammar, and where each of them takes a token if it succeeds. The
expressions and types inside them nest at most so deep. -/
inductive Production (depth : ℕ) : {α : Type} → Parser α → (Cursor → Prop) → Prop
  | advance : Production depth advance fun c => c.kind ≠ .eof
  | eat (mark : Punct) : Production depth (eat mark) fun _ => False
  | eatWord (word : String) : Production depth (eatWord word) fun _ => False
  | expect (mark : Punct) : Production depth (expect mark) fun _ => True
  | expectWord (word : String) : Production depth (expectWord word) fun _ => True
  | identifier : Production depth identifier fun _ => True
  | stringLiteral : Production depth stringLiteral fun _ => True
  | exportName : Production depth exportName fun _ => True
  | balanced : Production depth skipBalanced fun _ => True
  | angles : Production depth skipAngles fun _ => True
  | skipStatement : Production depth skipStatement fun c => c.kind ≠ .eof
  | typeAtom : Production depth (typeAtom do typeLead; typeFrom depth) fun _ => True
  | type : Production depth skipType fun _ => True
  | returnType : Production depth skipReturnType fun _ => True
  | param : Production depth (param (exprTo depth)) fun _ => True
  | params : Production depth (params (exprTo depth)) fun _ => True
  | onlyReturn : Production depth (onlyReturn (exprTo depth)) fun _ => False
  | functionBlock : Production depth (functionBlock (exprTo depth)) fun _ => True
  | functionRest : Production depth (functionRest (exprTo depth)) fun _ => True
  | functionExpr : Production depth (functionExpr (exprTo depth)) fun _ => True
  | arrow : Production depth (arrow (exprTo depth)) fun _ => True
  | args : Production depth (args (exprTo depth)) fun _ => True
  | array : Production depth (array (exprTo depth)) fun _ => True
  | key : Production depth (key (exprTo depth)) fun _ => True
  | property : Production depth (property (exprTo depth)) fun _ => True
  | object : Production depth (object (exprTo depth)) fun _ => True
  | primary : Production depth (primary (exprTo depth)) fun _ => True
  | construct : Production depth (construct (exprTo depth)) fun _ => True
  | typeArguments : Production depth typeArguments fun _ => False
  | suffixed : Production depth (suffixed (exprTo depth)) fun _ => True
  | unary : Production depth (unary (exprTo depth)) fun _ => True
  | binary (least : ℕ) : Production depth (binary (exprTo depth) least) fun _ => True
  | conditional : Production depth (conditional (exprTo depth)) fun _ => True
  | nested : Production depth (exprWith (exprTo depth)) fun _ => True
  | expr : Production depth expr fun _ => True
  | importItem : Production depth importItem fun _ => True
  | declarations (exported : Bool) (doc : Option String) :
    Production depth (declarations exported doc) fun c => c.kind ≠ .eof
  | functionItem (exported : Bool) (doc : Option String) :
    Production depth (functionItem exported doc) fun _ => True
  | exportItem (doc : Option String) : Production depth (exportItem doc) fun _ => True
  | statement : Production depth statement fun c => c.kind ≠ .eof
  | statements : Production depth statements fun _ => False

theorem advance_outcome {enough : Prop} (c : Cursor) :
    Outcome enough advance c fun _ taken => c.kind ≠ .eof → taken ≠ [] := by
  show Outcome enough (discard advance >>= fun _ => pure c.current) c _
  exact .advance_any fun taken c' _ hne => .pure (by simpa using hne)

/-- Each production takes tokens, or it fails at one of those that are left. -/
theorem Production.outcome {depth : ℕ} {α : Type} {p : Parser α} {sure : Cursor → Prop}
    (h : Production depth p sure) (c : Cursor) :
    Outcome (c.bound ≤ depth + 1) p c fun _ taken => sure c → taken ≠ [] := by
  have hexpr := exprTo_places depth
  have htype : ∀ c, Outcome (c.bound ≤ depth) (typeLead >>= fun _ => typeFrom depth) c
      fun _ _ => True :=
    fun c => (typeLead_bind_outcome (typeFrom_outcome depth) c).weaken id fun _ _ _ => trivial
  have htakes : ∀ {α : Type} {p : Parser α} {post : α → List Token → Prop},
      Outcome (c.bound ≤ depth + 1) p c post → (∀ a taken, post a taken → taken ≠ []) →
      Outcome (c.bound ≤ depth + 1) p c fun _ taken => True → taken ≠ [] :=
    fun hp hne => hp.weaken id fun a taken hpost _ => hne a taken hpost
  cases h with
  | advance => exact advance_outcome c
  | eat mark => exact Outcome.eat_last.weaken id (by simp)
  | eatWord word => exact Outcome.eatWord_last.weaken id (by simp)
  | expect mark => exact htakes .expect (by simp)
  | expectWord word => exact htakes .expectWord (by simp)
  | identifier => exact htakes .identifier (by simp)
  | stringLiteral => exact htakes .stringLiteral (by simp)
  | exportName => exact htakes .exportName (by simp)
  | balanced => exact htakes (skipBalanced_outcome c) fun _ _ h => h.1
  | angles => exact htakes (skipAngles_outcome c) fun _ _ h => h.1
  | skipStatement => exact skipStatement_outcome c
  | typeAtom => exact htakes (typeAtom_outcome htype c) fun _ _ h => h
  | type => exact htakes (skipType_outcome c) fun _ _ h => h
  | returnType => exact htakes (skipReturnType_outcome c) fun _ _ h => h
  | param => exact htakes (param_outcome hexpr c) fun _ _ h => h
  | params => exact htakes (params_outcome hexpr c) fun _ _ h => h
  | onlyReturn => exact (onlyReturn_outcome hexpr c).weaken id (by simp)
  | functionBlock => exact htakes (functionBlock_outcome hexpr c) fun _ _ h => h.1
  | functionRest => exact htakes (functionRest_outcome hexpr c) fun _ _ h => h.1
  | functionExpr => exact htakes (functionExpr_outcome hexpr c) fun _ _ h => h.ne_nil
  | arrow => exact htakes (arrow_outcome hexpr c) fun _ _ h => h.ne_nil
  | args => exact htakes (args_outcome hexpr c) fun _ _ h => h.1
  | array => exact htakes (array_outcome hexpr c) fun _ _ h => h.ne_nil
  | key => exact htakes (key_outcome hexpr c) fun _ _ h => h.1
  | property => exact htakes (property_outcome hexpr c) fun _ _ h => h.ne_nil
  | object => exact htakes (object_outcome hexpr c) fun _ _ h => h.ne_nil
  | primary => exact htakes (primary_outcome hexpr c) fun _ _ h => h.ne_nil
  | construct => exact htakes (construct_outcome hexpr c) fun _ _ h => h.ne_nil
  | typeArguments => exact (typeArguments_outcome c).weaken id (by simp)
  | suffixed => exact htakes (suffixed_outcome hexpr c) fun _ _ h => h.ne_nil
  | unary => exact htakes (unary_outcome hexpr c) fun _ _ h => h.ne_nil
  | binary least => exact htakes (binary_outcome hexpr least c) fun _ _ h => h.ne_nil
  | conditional => exact htakes (conditional_outcome hexpr c) fun _ _ h => h.ne_nil
  | nested => exact htakes (hexpr.exprWith c) fun _ _ h => h.ne_nil
  | expr => exact htakes (expr_outcome c) fun _ _ h => h.ne_nil
  | importItem => exact htakes (importItem_outcome c) fun _ _ h => h.1
  | declarations exported doc =>
    exact (declarations_outcome exported doc c).weaken id fun _ _ h => h.1
  | functionItem exported doc => exact htakes (functionItem_outcome exported doc c) fun _ _ h => h.1
  | exportItem doc => exact htakes (exportItem_outcome doc c) fun _ _ h => h.1
  | statement => exact (statement_outcome c).weaken id fun _ _ h => h.1
  | statements => exact (statements_outcome c).weaken id (by simp)

end Parser

/-! ### Runs -/

/-- Reading the tokens ends, and no part of it leaves them. -/
structure EndsWithin (tokens : List Token) : Prop where
  /-- The module is read, or it is one of its tokens that cannot be. -/
  items : ∀ e, parseTokens tokens = .error e → e.complaint ≠ .exhausted ∧ e.StandsIn tokens
  expr : ∀ e, parseExpr tokens = .error e → e.complaint ≠ .exhausted ∧ e.StandsIn tokens
  start : (Cursor.ofTokens tokens).At tokens 0
  /-- A production that succeeds goes on to an index that is not before its own. -/
  goesOn : ∀ (depth : ℕ) (α : Type) (p : Parser α) (sure : Cursor → Prop),
    Parser.Production depth p sure → ∀ i c, c.At tokens i → ∀ a c', p c = .ok (a, c') →
      ∃ j, c'.At tokens j ∧ i ≤ j ∧ (sure c → i < j)
  /-- Nested as deep as there are tokens, a production that fails does so at one of those left. -/
  fails : ∀ (depth : ℕ) (α : Type) (p : Parser α) (sure : Cursor → Prop),
    Parser.Production depth p sure → ∀ i c, c.At tokens i → ∀ e, p c = .error e →
      (tokens.length - i ≤ depth → e.complaint ≠ .exhausted) ∧ e.StandsIn (tokens.drop i)
  /-- Where a mark has been seen, it is the token that is taken; an assignment relies on that. -/
  mark : ∀ i c mark, c.At tokens i → c.kind = .punct mark →
    ∃ t, Parser.advance c = .ok (t, c.next) ∧ t.kind = .punct mark

/-- Reading a list of tokens ends within it, whatever they are, if the last one marks the end. -/
theorem endsWithin_of_eofLast {tokens : List Token} (h : EofLast tokens) : EndsWithin tokens := by
  have hc := Cursor.ofTokens_tokens h
  have hlast : EofLast (Cursor.ofTokens tokens).tokens := by rwa [hc]
  have hpos : 0 < tokens.length := by
    rw [← hc]
    exact Nat.succ_pos _
  refine ⟨fun e he => ?_, fun e he => ?_, ⟨hpos, hc⟩, ?_, ?_, fun i c mark _ hmark => ?_⟩
  · have hfail := (@Parser.statements_outcome True (Cursor.ofTokens tokens)).run' hlast |>.2 e he
    rw [hc] at hfail
    exact ⟨hfail.1 trivial, hfail.2⟩
  · have hfail := (@Parser.expr_outcome True (Cursor.ofTokens tokens)).run' hlast |>.2 e he
    rw [hc] at hfail
    exact ⟨hfail.1 trivial, hfail.2⟩
  · intro depth α p sure hp i c hi a c' hok
    obtain ⟨taken, ht, hne⟩ := (hp.outcome c).ok (hi.eofLast h) hok
    refine ⟨i + taken.length, hi.of_takes ht, Nat.le_add_right _ _, fun hsure => ?_⟩
    have hlen := List.length_pos_iff.2 (hne hsure)
    omega
  · intro depth α p sure hp i c hi e he
    obtain ⟨hexhausted, hstands⟩ := (hp.outcome c).error (hi.eofLast h) he
    rw [hi.tokens_eq] at hstands
    exact ⟨fun hdepth => hexhausted (by rw [hi.bound_eq]; omega), hstands⟩
  · exact ⟨c.current, rfl, hmark⟩

/-- A call that is never closed, after type arguments that are not either. -/
def unclosedCall : List Token :=
  [.word "f", .punct .less, .word "a", .punct .openParen, .eof].map
    fun k => ⟨k, default, none, false⟩

theorem endsWithin_unclosedCall : EofLast unclosedCall ∧ EndsWithin unclosedCall := by
  have hlast : EofLast unclosedCall := by decide
  exact ⟨hlast, endsWithin_of_eofLast hlast⟩

end CodecDocs.Script
