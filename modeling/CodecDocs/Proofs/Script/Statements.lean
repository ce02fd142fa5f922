import CodecDocs.Proofs.Script.Productions
import CodecDocs.Script.ItemParser

/-! What the statements of a module take. Every one of them takes a token unless it stands at the
end, so the loop over them ends there; the declarations stand among the tokens in their order. -/

namespace CodecDocs.Script.Parser

variable {enough : Prop} {c c' : Cursor}

/-! ### Imports -/

/-- The names that a list may rename to are single tokens. -/
def TakesOne (rename : Parser String) : Prop :=
  ∀ enough c, Outcome enough rename c fun _ taken => taken = [c.current]

theorem typeName_outcome {rename : Parser String} (hrename : TakesOne rename)
    (hkind : c.kind ≠ .eof) : Outcome enough (typeName rename) c fun _ taken => taken ≠ [] := by
  refine .advance hkind fun c₁ _ => .advance_any fun name c₂ _ _ => ?_
  refine .eatWord (fun _ c₃ _ => ?_) fun _ => .pure (by simp)
  exact .discard ((hrename enough c₃).weaken id (by simp))

theorem renamed_outcome {rename : Parser String} (hrename : TakesOne rename) (c : Cursor) :
    Outcome enough (renamed rename) c fun _ taken => taken ≠ [] := by
  refine Outcome.exportName.bind id fun name own c₁ _ hown => ?_
  refine .eatWord (fun _ c₂ _ => ?_) fun _ => .pure (by simp [hown])
  exact (hrename enough c₂).bind id fun other _ c₃ _ _ => .pure (by simp)

theorem namesFrom_outcome {rename : Parser String} (hrename : TakesOne rename) (bound : ℕ)
    (read : List (String × String)) (c : Cursor) :
    Outcome (c.bound ≤ bound) (namesFrom rename bound read) c fun _ _ => True := by
  induction bound generalizing read c with
  | zero => exact .exhausted
  | succ bound ih =>
    refine .get ?_
    split
    · exact .pure trivial
    extract_lets rest
    have hrest : ∀ (read : List (String × String)) (own : List Token) (c₁ : Cursor),
        c.Takes own c₁ → Outcome (c.bound ≤ bound + 1) (rest read) c₁ fun _ _ => True := by
      intro read own c₁ ht₁
      refine .eat (fun _ c₂ ht₂ => ?_) fun _ => .pure trivial
      exact (ih read c₂).weaken ((ht₁.trans ht₂).bound_le_pred (by simp)) fun _ _ h => h
    split
    · next htype =>
      have hkind : c.kind ≠ .eof := by
        intro heof
        simp [atTypeName, Cursor.atWord, heof] at htype
      refine (typeName_outcome hrename hkind).bind id fun _ own c₁ ht₁ _ => ?_
      rw [pure_bind]
      exact hrest read own c₁ ht₁
    · refine (renamed_outcome hrename c).bind id fun pair own c₁ ht₁ _ => ?_
      rw [pure_bind]
      exact hrest (pair :: read) own c₁ ht₁

theorem names_outcome {rename : Parser String} (hrename : TakesOne rename) (c : Cursor) :
    Outcome enough (names rename) c fun _ _ => True := by
  refine .get ((namesFrom_outcome hrename c.bound [] c).bind (fun _ => Nat.le_refl _)
    fun read own c₁ _ _ => ?_)
  exact Outcome.expect.bind id fun _ _ c₂ _ _ => .pure trivial

theorem defaultBinding_outcome (c : Cursor) :
    Outcome enough defaultBinding c fun _ _ => True := by
  refine .get ?_
  split
  · refine Outcome.identifier.bind id fun name own c₁ _ _ => ?_
    exact .discard_eat fun _ c₂ _ => .pure trivial
  · exact .pure trivial

theorem otherBindings_outcome (c : Cursor) : Outcome enough otherBindings c fun _ _ => True := by
  refine .eat (fun _ c₁ _ => ?_) fun _ => .eat (fun _ c₁ _ => ?_) fun _ => .pure trivial
  · refine Outcome.expectWord.bind id fun _ _ c₂ _ _ => ?_
    exact Outcome.identifier.bind id fun _ _ c₃ _ _ => .pure trivial
  · exact (names_outcome (fun _ _ => .identifier) c₁).bind id fun _ _ c₂ _ _ => .pure trivial

/-- The items declare what stands among the tokens, of which there is one at least. -/
def Declared (items : List Item) (tokens : List Token) : Prop :=
  tokens ≠ [] ∧ InTurn tokens (items.flatMap Item.nodes)

theorem importItem_outcome (c : Cursor) : Outcome enough importItem c Declared := by
  refine Outcome.expectWord.bind id fun _ word c₁ _ hword => .get ?_
  split
  · next hkind =>
    refine .advance (by simp [hkind]) fun c₂ _ => ?_
    exact .discard_eat fun _ c₃ _ => .pure ⟨by simp, .nil _⟩
  split
  · exact (skipStatement_outcome c₁).bind id fun _ _ c₂ _ _ => .pure ⟨by simp [hword], .nil _⟩
  refine (defaultBinding_outcome c₁).bind id fun first _ c₂ _ _ => ?_
  refine (otherBindings_outcome c₂).bind id fun others _ c₃ _ _ => ?_
  refine Outcome.expectWord.bind id fun _ _ c₄ _ _ => ?_
  refine Outcome.stringLiteral.bind id fun source _ c₅ _ _ => .get ?_
  extract_lets rest
  have hrest : ∀ c₆, Outcome enough (rest ()) c₆ fun items _ => items.flatMap Item.nodes = [] :=
    fun c₆ => .discard_eat fun _ c₇ _ => .pure rfl
  split
  · refine .advance_any fun _ c₆ _ _ => ?_
    refine (skipBalanced_outcome c₆).bind id fun _ _ c₇ _ _ => (hrest c₇).weaken id ?_
    exact fun items _ hitems => ⟨by simp [hword], by rw [hitems]; exact .nil _⟩
  · refine (hrest c₅).weaken id ?_
    exact fun items _ hitems => ⟨by simp [hword], by rw [hitems]; exact .nil _⟩

/-! ### Declarations -/

theorem declarationsFrom_outcome (exported : Bool) (doc : Option String) (bound : ℕ)
    (read : List Item) (c : Cursor) :
    Outcome (c.bound ≤ bound) (declarationsFrom exported doc bound read) c fun items taken =>
      ∃ new, items = read.reverse ++ new ∧ InTurn taken (new.flatMap Item.nodes) := by
  induction bound generalizing read c with
  | zero => exact .exhausted
  | succ bound ih =>
    refine .get ?_
    split
    · exact (skipStatement_outcome c).bind id fun _ _ c₁ _ _ => .pure ⟨[], by simp, .nil _⟩
    refine .here (Outcome.identifier.bind id fun name word c₁ ht₁ hword => ?_)
    refine .discard_eat fun bang c₂ ht₂ => ?_
    refine .eat_join (b := ()) (m := fun _ _ => True)
      (fun c₃ _ => (skipType_outcome c₃).weaken id fun _ _ _ => trivial) trivial
      fun _ type c₃ ht₃ _ => ?_
    refine .eat_join (m := fun init taken => InTurn taken (init.toList.map Node.expr))
      (fun c₄ ht₄ => .map ((expr_outcome c₄).weaken id fun e own he => ?_)) (.nil _)
      fun init own c₄ ht₄ hown => .spanFrom ?_
    · exact (InTurn.single he).skip [c₃.current]
    have ht := ht₁.trans (ht₂.trans (ht₃.trans ht₄))
    have hplaced : Placed (word ++ (bang ++ (type ++ own)))
        (.declaration ⟨name, init, exported, doc, c₄.spanFrom c.current.span⟩) := by
      refine .mk (ht.covers (by simp [hword])) ?_
      exact ((hown.skip type).skip bang).skip word
    refine .eat (fun _ c₅ ht₅ => ?_) fun _ => .discard_eat fun mark c₅ _ => .pure ?_
    · refine (ih _ c₅).weaken ((ht.trans ht₅).bound_le_pred (by simp)) ?_
      rintro items more ⟨new, rfl, hnew⟩
      refine ⟨_ :: new, by rw [List.reverse_cons, List.append_assoc, List.singleton_append], ?_⟩
      simpa [Item.nodes] using InTurn.cons hplaced (hnew.skip [c₄.current])
    · refine ⟨[_], List.reverse_cons, ?_⟩
      simpa [Item.nodes] using InTurn.cons hplaced (.nil mark)

theorem declarations_outcome (exported : Bool) (doc : Option String) (c : Cursor) :
    Outcome enough (declarations exported doc) c fun items taken =>
      (c.kind ≠ .eof → taken ≠ []) ∧ InTurn taken (items.flatMap Item.nodes) := by
  refine .advance_any fun word c₁ _ hword => .get ?_
  refine (declarationsFrom_outcome exported doc c₁.bound [] c₁).weaken (fun _ => Nat.le_refl _) ?_
  rintro items more ⟨new, rfl, hnew⟩
  exact ⟨fun hkind => by simp [hword hkind], hnew.skip word⟩

/-- The inner expressions of a function that stands in a statement. -/
theorem expr_places (rounds : ℕ) : Places rounds expr := fun c => expr_outcome c

theorem functionItem_outcome (exported : Bool) (doc : Option String) (c : Cursor) :
    Outcome enough (functionItem exported doc) c Declared := by
  refine .here (Outcome.expectWord.bind id fun _ word c₁ ht₁ hword => ?_)
  refine .discard_eat fun star c₂ ht₂ => ?_
  refine Outcome.identifier.bind id fun name own c₃ ht₃ _ => ?_
  refine (functionRest_outcome (expr_places c₃.bound) c₃).bind (fun _ => Nat.le_succ _)
    fun r rest c₄ ht₄ hrest => .spanFrom (.pure ⟨by simp [hword], ?_⟩)
  have hcovers := (ht₁.trans (ht₂.trans (ht₃.trans (ht₄.trans (.refl _))))).covers (by simp [hword])
  have hbody : InTurn (rest ++ []) r.2.nodes := by simpa using hrest.2
  refine .single (.mk hcovers (.single (.mk hcovers ?_)))
  exact ((hbody.skip own).skip star).skip word

/-! ### Exports -/

theorem defaultExport_outcome {c₀ : Cursor} {before : List Token} (doc : Option String)
    (ht₀ : c₀.Takes before c) (hne : before ≠ []) :
    Outcome enough (defaultExport c₀.current.span doc) c fun items taken =>
      InTurn (before ++ taken) (items.flatMap Item.nodes) := by
  refine .get (.advance_join fun word c₁ ht₁ => .get ?_)
  split
  · refine (functionExpr_outcome (expr_places c₁.bound) c₁).bind (fun _ => Nat.le_succ _)
      fun init own c₂ ht₂ hown => .pure ?_
    exact (((InTurn.single (hown.declaration rfl rfl)).append (.nil [])).skip word).skip before
  split
  · exact (skipStatement_outcome c₁).bind id fun _ _ c₂ _ _ => .pure (.nil _)
  refine (expr_outcome c₁).bind id fun init own c₂ ht₂ hown => ?_
  refine .discard_eat fun mark c₃ ht₃ => .spanFrom (.pure ?_)
  refine .single (.mk ((ht₀.trans (ht₁.trans (ht₂.trans (ht₃.trans (.refl _))))).covers
    (by simp [hne])) ?_)
  exact ((InTurn.cons hown (.nil _)).skip word).skip before

theorem exportItem_outcome (doc : Option String) (c : Cursor) :
    Outcome enough (exportItem doc) c Declared := by
  refine Outcome.expectWord.bind id fun _ word c₁ ht₁ hword => .here ?_
  have hnone : ∀ {items : List Item} {more : List Token}, items.flatMap Item.nodes = [] →
      Declared items (word ++ more) := by
    intro items more hitems
    refine ⟨by simp [hword], ?_⟩
    rw [hitems]
    exact .nil _
  refine .eatWord (fun _ c₂ ht₂ => ?_) fun _ => .get ?_
  · rw [if_pos rfl]
    refine (defaultExport_outcome doc ht₂ (by simp)).weaken id fun items own hown => ?_
    exact ⟨by simp [hword], hown.skip word⟩
  split
  · refine (declarations_outcome true doc c₁).weaken id fun items own hown => ?_
    exact ⟨by simp [hword], hown.2.skip word⟩
  refine .advance_join fun async c₂ ht₂ => .get ?_
  split
  · refine (functionItem_outcome true doc c₂).weaken id fun items own hown => ?_
    exact ⟨by simp [hword], (hown.2.skip async).skip word⟩
  refine .eat (fun _ c₃ _ => ?_) fun _ => .eat (fun _ c₃ _ => ?_) fun _ => ?_
  · refine (names_outcome (fun _ _ => .exportName) c₃).bind id fun read _ c₄ _ _ => ?_
    refine .eatWord_join (m := fun _ _ => True) (fun c₅ _ => .map ?_) trivial
      fun source _ c₅ _ _ => ?_
    · exact Outcome.stringLiteral.weaken id fun _ _ _ => trivial
    · exact .discard_eat fun _ c₆ _ => .pure (hnone rfl)
  · refine .eatWord_join (m := fun _ _ => True) (fun c₄ _ => .map ?_) trivial
      fun name _ c₄ _ _ => ?_
    · exact Outcome.exportName.weaken id fun _ _ _ => trivial
    refine Outcome.expectWord.bind id fun _ _ c₅ _ _ => ?_
    refine Outcome.stringLiteral.bind id fun source _ c₆ _ _ => ?_
    exact .discard_eat fun _ c₇ _ => .pure (hnone rfl)
  · exact (skipStatement_outcome c₂).bind id fun _ _ c₃ _ _ => .pure (hnone rfl)

/-! ### Modules -/

theorem statement_outcome (c : Cursor) :
    Outcome enough statement c fun items taken =>
      (c.kind ≠ .eof → taken ≠ []) ∧ InTurn taken (items.flatMap Item.nodes) := by
  have hskip : Outcome enough (skipStatement >>= fun _ => pure []) c fun items taken =>
      (c.kind ≠ .eof → taken ≠ []) ∧ InTurn taken (items.flatMap Item.nodes) := by
    refine (skipStatement_outcome c).bind id fun _ own c₁ _ hown => .pure ⟨fun hkind => ?_, .nil _⟩
    simpa using hown hkind
  have hdeclared : ∀ {p : Parser (List Item)}, Outcome enough p c Declared →
      Outcome enough p c fun items taken =>
        (c.kind ≠ .eof → taken ≠ []) ∧ InTurn taken (items.flatMap Item.nodes) :=
    fun hp => hp.weaken id fun _ _ h => ⟨fun _ => h.1, h.2⟩
  refine .get (.eat (fun _ c₁ _ => .pure ⟨by simp, .nil _⟩) fun _ => ?_)
  rw [if_neg Bool.false_ne_true]
  split
  · split
    · exact hdeclared (importItem_outcome c)
    · exact hskip
  · exact hdeclared (exportItem_outcome _ c)
  · exact declarations_outcome false _ c
  · exact declarations_outcome false _ c
  · exact declarations_outcome false _ c
  · exact hdeclared (functionItem_outcome false _ c)
  · next hkind =>
    split
    · refine .advance (by simp [hkind]) fun c₁ _ => ?_
      exact (functionItem_outcome false _ c₁).weaken id fun items own hown =>
        ⟨by simp, hown.2.skip [c.current]⟩
    · exact hskip
  · exact hskip

theorem statementsFrom_outcome (bound : ℕ) (read : List Item) (c : Cursor) :
    Outcome (c.bound ≤ bound) (statementsFrom bound read) c fun items taken =>
      ∃ new, items = read ++ new ∧ InTurn taken (new.flatMap Item.nodes) := by
  induction bound generalizing read c with
  | zero => exact .exhausted
  | succ bound ih =>
    refine .get ?_
    split
    · exact .pure ⟨[], by simp, .nil _⟩
    · next hend =>
      have hkind : c.kind ≠ .eof := by simpa [Cursor.isEnd] using hend
      refine (statement_outcome c).bind id fun items own c₁ ht₁ hown => ?_
      refine (ih (read ++ items) c₁).weaken (ht₁.bound_le_pred (hown.1 hkind)) ?_
      rintro all more ⟨new, rfl, hnew⟩
      refine ⟨items ++ new, by simp, ?_⟩
      rw [List.flatMap_append]
      exact hown.2.append hnew

theorem statements_outcome (c : Cursor) :
    Outcome enough statements c fun items taken => InTurn taken (items.flatMap Item.nodes) := by
  refine .get ((statementsFrom_outcome c.bound [] c).weaken (fun _ => Nat.le_refl _) ?_)
  rintro items taken ⟨new, rfl, hnew⟩
  exact hnew

end CodecDocs.Script.Parser
