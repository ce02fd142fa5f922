import CodecDocs.Proofs.Script.Places
import CodecDocs.Proofs.Script.Skipping
import CodecDocs.Script.ExprParser

/-! What each production of the expression grammar takes, and where it puts its result. A production
uses the parser for the expressions inside it only after a token of its own, so with one round more
than that parser needs it never runs out of rounds. -/

namespace CodecDocs.Script.Parser

variable {rounds : ℕ} {expr : Parser Expr} {enough : Prop} {c c' : Cursor}

/-- With so many rounds, the parser gives expressions that stand among the tokens it takes. -/
def Places (rounds : ℕ) (p : Parser Expr) : Prop :=
  ∀ c, Outcome (c.bound ≤ rounds) p c fun e taken => Placed taken (.expr e)

/-- An inner expression after a token of the production. -/
theorem Places.after {taken : List Token} (h : Places rounds expr) (ht : c.Takes taken c')
    (hne : taken ≠ []) :
    Outcome (c.bound ≤ rounds + 1) expr c' fun e more => Placed more (.expr e) :=
  (h c').weaken (ht.bound_le_pred hne) fun _ _ he => he

/-! ### Entries with commas between them -/

/-- A loop over entries with commas between them, up to a closing mark. -/
structure CommaLoop {α : Type} (close : Punct) (entry : Parser α)
    (loop : ℕ → List α → Parser (List α)) : Prop where
  zero : ∀ read, loop 0 read = fail .exhausted
  succ : ∀ bound read, loop (bound + 1) read = do
    if (← get).atPunct close then return read.reverse
    let a ← entry
    if ← eat .comma then loop bound (a :: read) else return (a :: read).reverse

/-- The loop takes its entries one after the other; `nodes` are those of an entry. -/
theorem CommaLoop.outcome {α : Type} {close : Punct} {entry : Parser α}
    {loop : ℕ → List α → Parser (List α)} {nodes : α → List Node}
    (hloop : CommaLoop close entry loop)
    (hentry : ∀ c, Outcome (c.bound ≤ rounds) entry c fun a taken =>
      taken ≠ [] ∧ InTurn taken (nodes a))
    (bound : ℕ) (read : List α) (c : Cursor) :
    Outcome (c.bound ≤ rounds ∧ c.bound ≤ bound) (loop bound read) c fun all taken =>
      ∃ new, all = read.reverse ++ new ∧ InTurn taken (new.flatMap nodes) := by
  induction bound generalizing read c with
  | zero =>
    rw [hloop.zero]
    exact .fail fun h => absurd h.2 Cursor.not_bound_le_zero
  | succ bound ih =>
    rw [hloop.succ]
    refine .get ?_
    split
    · exact .pure ⟨[], by simp, .nil _⟩
    · refine (hentry c).bind And.left fun a own c₁ ht₁ hown => ?_
      refine .eat (fun _ c₂ ht₂ => ?_) fun _ => .pure ⟨[a], by simp, by simpa using hown.2⟩
      have ht := ht₁.trans ht₂
      refine (ih (a :: read) c₂).weaken ?_ ?_
      · exact fun h => ⟨Nat.le_trans ht.bound_le h.1, ht.bound_le_pred (by simp) h.2⟩
      · rintro all more ⟨new, rfl, hnew⟩
        exact ⟨a :: new, by simp, hown.2.append (hnew.skip [c₁.current])⟩

/-! ### Functions -/

theorem skipModifiers_outcome (rounds : ℕ) (c : Cursor) :
    Outcome (c.bound ≤ rounds) (skipModifiers rounds) c fun _ _ => True := by
  induction rounds generalizing c with
  | zero => exact .exhausted
  | succ rounds ih =>
    refine .get ?_
    split
    · next hword =>
      have hany : c.atAnyWord paramWords = true := (Bool.and_eq_true_iff.1 hword).1
      refine .advance (Cursor.kind_ne_eof_of_atAnyWord hany) fun c' ht => ?_
      exact (ih c').weaken (ht.bound_le_pred (by simp)) fun _ _ h => h
    · exact .pure trivial

theorem param_outcome (hexpr : Places rounds expr) (c : Cursor) :
    Outcome (c.bound ≤ rounds + 1) (param expr) c fun _ taken => taken ≠ [] := by
  refine .discard_eat fun dots c₁ ht₁ => .get ?_
  refine (skipModifiers_outcome c₁.bound c₁).bind (fun _ => Nat.le_refl _)
    fun _ words c₂ ht₂ _ => .get ?_
  extract_lets rest
  have hrest : ∀ (name : String) (own : List Token) (c₃ : Cursor), c₂.Takes own c₃ → own ≠ [] →
      Outcome (c.bound ≤ rounds + 1) (rest name) c₃ fun _ more =>
        dots ++ (words ++ (own ++ more)) ≠ [] := by
    intro name own c₃ ht₃ hne
    refine .discard_eat fun mark c₄ ht₄ => ?_
    refine .eat_join (b := ()) (m := fun _ _ => True)
      (fun c₅ _ => (skipType_outcome c₅).weaken id fun _ _ _ => trivial) trivial
      fun _ type c₅ ht₅ _ => ?_
    refine .eat_join (b := ()) (m := fun _ _ => True) (fun c₆ ht₆ => .discard ?_) trivial
      fun _ value c₆ _ _ => .pure (by simp [hne])
    have ht := ht₁.trans (ht₂.trans (ht₃.trans (ht₄.trans (ht₅.trans ht₆))))
    exact (hexpr.after ht (by simp)).weaken id fun _ _ _ => trivial
  split
  · refine (skipBalanced_outcome c₂).bind id fun _ group c₃ ht₃ hgroup => ?_
    rw [pure_bind]
    exact hrest _ group c₃ ht₃ hgroup.1
  · refine Outcome.identifier.bind id fun name word c₃ ht₃ hword => ?_
    exact hrest name word c₃ ht₃ (by simp [hword])

theorem paramsFrom_commaLoop : CommaLoop .closeParen (param expr) (paramsFrom expr) :=
  ⟨fun _ => rfl, fun _ _ => rfl⟩

theorem params_outcome (hexpr : Places rounds expr) (c : Cursor) :
    Outcome (c.bound ≤ rounds + 1) (params expr) c fun _ taken => taken ≠ [] := by
  refine .get ?_
  have hparam : ∀ c, Outcome (c.bound ≤ rounds + 1) (param expr) c fun _ taken =>
      taken ≠ [] ∧ InTurn taken [] :=
    fun c => (param_outcome hexpr c).weaken id fun _ _ h => ⟨h, .nil _⟩
  refine (paramsFrom_commaLoop.outcome hparam c.bound [] c).bind (fun h => ⟨h, Nat.le_refl _⟩)
    fun names own c₁ _ _ => ?_
  exact Outcome.expect.bind id fun _ close c₂ _ hclose => .pure (by simp [hclose])

theorem onlyReturn_outcome (hexpr : Places rounds expr) (c : Cursor) :
    Outcome (c.bound ≤ rounds + 1) (onlyReturn expr) c fun o taken =>
      ∀ value, o = some value → Placed taken (.expr value) := by
  refine Outcome.expect.bind id fun _ brace c₁ ht₁ _ => ?_
  refine .eatWord (fun _ c₂ ht₂ => ?_) fun _ => .pure (by simp)
  refine .get ?_
  split
  · exact .pure (by simp)
  refine (Outcome.attempt (hexpr.after (ht₁.trans ht₂) (by simp))).bind id
    fun o own c₃ ht₃ hown => ?_
  cases o with
  | none => exact .pure (by simp)
  | some value =>
    refine .discard_eat fun mark c₄ _ => ?_
    refine .eat (fun _ c₅ _ => .pure ?_) fun _ => .pure (by simp)
    intro value' heq
    obtain rfl := Option.some.inj heq
    simpa using (hown.widen (brace ++ [c₁.current]) (mark ++ [c₄.current]))

/-- A block that is read as a single return is left after it; any other block is passed over from
its opening bracket. -/
theorem functionBlock_outcome (hexpr : Places rounds expr) (c : Cursor) :
    Outcome (c.bound ≤ rounds + 1) (functionBlock expr) c fun body taken =>
      taken ≠ [] ∧ InTurn taken body.nodes := by
  refine .get ((onlyReturn_outcome hexpr c).bind_ended id fun o taken c' ht htaken hc => ?_)
  cases o with
  | some value =>
    have hvalue := htaken value rfl
    exact ⟨taken, ht, hvalue.ne_nil, .single hvalue⟩
  | none =>
    show Ended _ c _ ((skipBalanced >>= fun _ => pure Body.block) c)
    refine (skipBalanced_outcome c).bind id (fun _ group c₁ _ hgroup => ?_) hc
    exact .pure ⟨by simp [hgroup.1], .nil _⟩

theorem functionRest_outcome (hexpr : Places rounds expr) (c : Cursor) :
    Outcome (c.bound ≤ rounds + 1) (functionRest expr) c fun r taken =>
      taken ≠ [] ∧ InTurn taken r.2.nodes := by
  refine .get ?_
  extract_lets rest
  have hrest : ∀ (own : List Token) (c₁ : Cursor), c.Takes own c₁ →
      Outcome (c.bound ≤ rounds + 1) (rest ()) c₁ fun r more =>
        own ++ more ≠ [] ∧ InTurn (own ++ more) r.2.nodes := by
    intro own c₁ ht₁
    refine Outcome.expect.bind id fun _ opening c₂ ht₂ hopening => ?_
    have hle := (ht₁.trans ht₂).bound_le
    refine (params_outcome hexpr c₂).bind (Nat.le_trans hle) fun names list c₃ ht₃ _ => ?_
    refine .eat_join (b := ()) (m := fun _ _ => True)
      (fun c₄ _ => (skipReturnType_outcome c₄).weaken id fun _ _ _ => trivial) trivial
      fun _ type c₄ ht₄ _ => .get ?_
    have ht := ht₁.trans (ht₂.trans (ht₃.trans ht₄))
    split
    · refine (functionBlock_outcome hexpr c₄).bind (Nat.le_trans ht.bound_le)
        fun body block c₅ _ hblock => .pure ⟨by simp [hopening], ?_⟩
      simpa using hblock.2.skip (own ++ (opening ++ (list ++ type)))
    · exact .discard_eat fun mark c₅ _ => .pure ⟨by simp [hopening], .nil _⟩
  split
  · exact (skipAngles_outcome c).bind id fun _ angles c₁ ht₁ _ => hrest angles c₁ ht₁
  · exact hrest [] c (.refl c)

theorem functionExpr_outcome (hexpr : Places rounds expr) (c : Cursor) :
    Outcome (c.bound ≤ rounds + 1) (functionExpr expr) c fun e taken => Placed taken (.expr e) := by
  refine .here (Outcome.expectWord.bind id fun _ word c₁ ht₁ hword => ?_)
  refine .discard_eat fun star c₂ ht₂ => .get ?_
  refine .advance_join fun name c₃ ht₃ => ?_
  have ht := ht₁.trans (ht₂.trans ht₃)
  refine (functionRest_outcome hexpr c₃).bind (Nat.le_trans ht.bound_le)
    fun r own c₄ ht₄ hown => .spanFrom (.pure ?_)
  refine .mk ((ht₁.trans (ht₂.trans (ht₃.trans (ht₄.trans (.refl _))))).covers (by simp [hword])) ?_
  have hbody : InTurn (own ++ []) r.2.nodes := by simpa using hown.2
  exact ((hbody.skip name).skip star).skip word

theorem arrow_outcome (hexpr : Places rounds expr) (c : Cursor) :
    Outcome (c.bound ≤ rounds + 1) (arrow expr) c fun e taken => Placed taken (.expr e) := by
  refine .here (.discard_eatWord fun word c₁ ht₁ => .get ?_)
  extract_lets rest
  have hrest : ∀ (names : List String) (own : List Token) (c₂ : Cursor), c₁.Takes own c₂ →
      own ≠ [] → Outcome (c.bound ≤ rounds + 1) (rest names) c₂ fun e more =>
        Placed (word ++ (own ++ more)) (.expr e) := by
    intro names own c₂ ht₂ hne
    refine .eat_join (b := ()) (m := fun _ _ => True)
      (fun c₃ _ => (skipReturnType_outcome c₃).weaken id fun _ _ _ => trivial) trivial
      fun _ type c₃ ht₃ _ => ?_
    refine Outcome.expect.bind id fun _ mark c₄ ht₄ _ => .get ?_
    have ht := ht₁.trans (ht₂.trans (ht₃.trans ht₄))
    extract_lets last
    have hlast : ∀ (body : Body) (inner : List Token) (c₅ : Cursor), c₄.Takes inner c₅ →
        InTurn inner body.nodes → Outcome (c.bound ≤ rounds + 1) (last body) c₅ fun e more =>
          Placed (word ++ (own ++ (type ++ (mark ++ (inner ++ more))))) (.expr e) := by
      intro body inner c₅ ht₅ hbody
      refine .spanFrom (.pure ?_)
      rw [List.append_nil]
      refine .mk ((ht₁.trans (ht₂.trans (ht₃.trans (ht₄.trans ht₅)))).covers (by simp [hne])) ?_
      exact (((hbody.skip mark).skip type).skip own).skip word
    split
    · refine (functionBlock_outcome hexpr c₄).bind (Nat.le_trans ht.bound_le)
        fun body inner c₅ ht₅ hinner => ?_
      exact hlast body inner c₅ ht₅ hinner.2
    · refine (Outcome.map (f := Body.expression) ?_).bind id fun body inner c₅ ht₅ hinner =>
        hlast body inner c₅ ht₅ hinner
      exact (hexpr.after ht (by simp [hne])).weaken id fun value inner hvalue => .single hvalue
  split
  · next name hkind =>
    refine .advance (by simp [hkind]) fun c₂ ht₂ => ?_
    rw [pure_bind]
    exact hrest _ [c₁.current] c₂ ht₂ (by simp)
  · refine Outcome.expect.bind id fun _ opening c₂ ht₂ hopening => ?_
    refine (params_outcome hexpr c₂).bind (Nat.le_trans (ht₁.trans ht₂).bound_le)
      fun names list c₃ ht₃ _ => ?_
    have hnames := hrest names (opening ++ list) c₃ (ht₂.trans ht₃) (by simp [hopening])
    exact hnames.weaken id fun e more he => by simpa using he

/-! ### Lists -/

theorem Places.element (hexpr : Places rounds expr) : Places rounds (element expr) := by
  intro c
  refine .here (.eat (fun _ c₁ ht₁ => ?_) fun _ => hexpr c)
  refine (hexpr c₁).bind (Nat.le_trans ht₁.bound_le) fun arg own c₂ ht₂ hown => .spanFrom (.pure ?_)
  refine .mk ((ht₁.trans (ht₂.trans (.refl _))).covers (by simp)) ?_
  exact (InTurn.cons hown (.nil [])).skip [c.current]

theorem argsFrom_commaLoop : CommaLoop .closeParen (element expr) (argsFrom expr) :=
  ⟨fun _ => rfl, fun _ _ => rfl⟩

theorem args_outcome (hexpr : Places rounds expr) (c : Cursor) :
    Outcome (c.bound ≤ rounds + 1) (args expr) c fun es taken =>
      taken ≠ [] ∧ InTurn taken (es.map .expr) := by
  refine Outcome.expect.bind id fun _ opening c₁ ht₁ hopening => .get ?_
  have helement : ∀ c, Outcome (c.bound ≤ rounds) (element expr) c fun e taken =>
      taken ≠ [] ∧ InTurn taken [.expr e] :=
    fun c => (hexpr.element c).weaken id fun _ _ h => ⟨h.ne_nil, .single h⟩
  refine (argsFrom_commaLoop.outcome helement c₁.bound [] c₁).bind
    (fun h => ⟨ht₁.bound_le_pred (by simp [hopening]) h, Nat.le_refl _⟩)
    fun es own c₂ ht₂ hown => ?_
  refine Outcome.expect.bind id fun _ close c₃ _ _ => .pure ⟨by simp [hopening], ?_⟩
  obtain ⟨new, rfl, hnew⟩ := hown
  rw [← List.map_eq_flatMap] at hnew
  simpa using (hnew.append (.nil close)).skip opening

theorem elementsFrom_outcome (hexpr : Places rounds expr) (bound : ℕ) (read : List Expr)
    (c : Cursor) :
    Outcome (c.bound ≤ rounds ∧ c.bound ≤ bound) (elementsFrom expr bound read) c fun es taken =>
      ∃ new, es = read.reverse ++ new ∧ InTurn taken (new.map .expr) := by
  induction bound generalizing read c with
  | zero => exact .fail fun h => absurd h.2 Cursor.not_bound_le_zero
  | succ bound ih =>
    have hlater : ∀ {own : List Token} {c' : Cursor}, c.Takes own c' → own ≠ [] →
        c.bound ≤ rounds ∧ c.bound ≤ bound + 1 → c'.bound ≤ rounds ∧ c'.bound ≤ bound :=
      fun ht hne h => ⟨Nat.le_trans ht.bound_le h.1, ht.bound_le_pred hne h.2⟩
    refine .get ?_
    split
    · exact .pure ⟨[], by simp, .nil _⟩
    refine .eat (fun _ c₁ ht₁ => ?_) fun _ => ?_
    · refine (ih read c₁).weaken (hlater ht₁ (by simp)) ?_
      rintro es more ⟨new, rfl, hnew⟩
      exact ⟨new, rfl, hnew.skip [c.current]⟩
    · refine (hexpr.element c).bind And.left fun item own c₁ ht₁ hown => ?_
      refine .eat (fun _ c₂ ht₂ => ?_) fun _ => .pure ⟨[item], by simp, .cons hown (.nil [])⟩
      refine (ih (item :: read) c₂).weaken (hlater (ht₁.trans ht₂) (by simp)) ?_
      rintro es more ⟨new, rfl, hnew⟩
      exact ⟨item :: new, by simp, .cons hown (hnew.skip [c₁.current])⟩

theorem array_outcome (hexpr : Places rounds expr) (c : Cursor) :
    Outcome (c.bound ≤ rounds + 1) (array expr) c fun e taken => Placed taken (.expr e) := by
  refine .here (Outcome.expect.bind id fun _ opening c₁ ht₁ hopening => .get ?_)
  refine (elementsFrom_outcome hexpr c₁.bound [] c₁).bind
    (fun h => ⟨ht₁.bound_le_pred (by simp [hopening]) h, Nat.le_refl _⟩)
    fun es own c₂ ht₂ hown => ?_
  refine Outcome.expect.bind id fun _ close c₃ ht₃ _ => .spanFrom (.pure ?_)
  obtain ⟨new, rfl, hnew⟩ := hown
  refine .mk ((ht₁.trans (ht₂.trans (ht₃.trans (.refl _)))).covers (by simp [hopening])) ?_
  simpa [Node.parts] using (hnew.append (.nil close)).skip opening

/-! ### Objects -/

theorem key_outcome (hexpr : Places rounds expr) (c : Cursor) :
    Outcome (c.bound ≤ rounds + 1) (key expr) c fun k taken =>
      taken ≠ [] ∧ InTurn taken k.nodes := by
  refine .get ?_
  split
  · next hkind => exact .advance (by simp [hkind]) fun c₁ _ => .pure ⟨by simp, .nil _⟩
  · next hkind => exact .advance (by simp [hkind]) fun c₁ _ => .pure ⟨by simp, .nil _⟩
  · next hkind => exact .advance (by simp [hkind]) fun c₁ _ => .pure ⟨by simp, .nil _⟩
  · next hkind =>
    refine .advance (by simp [hkind]) fun c₁ ht₁ => ?_
    refine (hexpr.after ht₁ (by simp)).bind id fun computed own c₂ _ hown => ?_
    refine Outcome.expect.bind id fun _ close c₃ _ _ => .pure ⟨by simp, ?_⟩
    exact (InTurn.cons hown (.nil _)).skip [c.current]
  · exact .fail (by simp)

theorem property_outcome (hexpr : Places rounds expr) (c : Cursor) :
    Outcome (c.bound ≤ rounds + 1) (property expr) c fun p taken => Placed taken (.property p) := by
  refine .get (.here (.eat (fun _ c₁ ht₁ => ?_) fun _ => .get ?_))
  · refine (hexpr.after ht₁ (by simp)).bind id fun arg own c₂ ht₂ hown => .spanFrom (.pure ?_)
    refine .mk ((ht₁.trans (ht₂.trans (.refl _))).covers (by simp)) ?_
    exact (InTurn.cons hown (.nil [])).skip [c.current]
  · extract_lets modifier rest
    refine .advance_join fun word c₁ ht₁ => .discard_eat fun star c₂ ht₂ => ?_
    have hle := (ht₁.trans ht₂).bound_le
    refine (key_outcome hexpr c₂).bind (Nat.le_trans hle) fun k name c₃ ht₃ hname => ?_
    have ht := ht₁.trans (ht₂.trans ht₃)
    refine .eat (fun _ c₄ ht₄ => ?_) fun _ => .get ?_
    · refine (hexpr.after (ht.trans ht₄) (by simp)).bind id
        fun value own c₅ ht₅ hown => .spanFrom (.pure ?_)
      refine .mk ((ht₁.trans (ht₂.trans (ht₃.trans (ht₄.trans (ht₅.trans (.refl _)))))).covers
        (by simp [hname.1])) ?_
      exact ((hname.2.append ((InTurn.cons hown (.nil [])).skip [c₃.current])).skip star).skip word
    split
    · refine .discard_eat fun mark c₄ ht₄ => ?_
      refine .discard_bind (functionRest_outcome hexpr c₄)
        (Nat.le_trans (ht.trans ht₄).bound_le) fun _ own c₅ ht₅ _ => .spanFrom (.pure ?_)
      exact .mk ((ht₁.trans (ht₂.trans (ht₃.trans (ht₄.trans (ht₅.trans (.refl _)))))).covers
        (by simp [hname.1])) (.nil _)
    split
    · refine .eat_join (b := ()) (m := fun _ _ => True) (fun c₄ ht₄ => .discard ?_) trivial
        fun _ own c₄ ht₄ _ => .spanFrom (.pure ?_)
      · exact (hexpr.after (ht.trans ht₄) (by simp)).weaken id fun _ _ _ => trivial
      · exact .mk ((ht₁.trans (ht₂.trans (ht₃.trans (ht₄.trans (.refl _))))).covers
          (by simp [hname.1])) (.nil _)
    · exact .fail (by simp)

theorem propertiesFrom_commaLoop : CommaLoop .closeBrace (property expr) (propertiesFrom expr) :=
  ⟨fun _ => rfl, fun _ _ => rfl⟩

theorem object_outcome (hexpr : Places rounds expr) (c : Cursor) :
    Outcome (c.bound ≤ rounds + 1) (object expr) c fun e taken => Placed taken (.expr e) := by
  refine .here (Outcome.expect.bind id fun _ opening c₁ ht₁ hopening => .get ?_)
  have hproperty : ∀ c, Outcome (c.bound ≤ rounds + 1) (property expr) c fun p taken =>
      taken ≠ [] ∧ InTurn taken [.property p] :=
    fun c => (property_outcome hexpr c).weaken id fun _ _ h => ⟨h.ne_nil, .single h⟩
  refine (propertiesFrom_commaLoop.outcome hproperty c₁.bound [] c₁).bind
    (fun h => ⟨Nat.le_trans ht₁.bound_le h, Nat.le_refl _⟩) fun ps own c₂ ht₂ hown => ?_
  refine Outcome.expect.bind id fun _ close c₃ ht₃ _ => .spanFrom (.pure ?_)
  obtain ⟨new, rfl, hnew⟩ := hown
  rw [← List.map_eq_flatMap] at hnew
  refine .mk ((ht₁.trans (ht₂.trans (ht₃.trans (.refl _)))).covers (by simp [hopening])) ?_
  simpa [Node.parts] using (hnew.append (.nil close)).skip opening

/-! ### Operands -/

/-- A token that is an operand by itself. -/
theorem single_outcome {e : Expr} (hkind : c.kind ≠ .eof) (hspan : e.span = c.current.span)
    (hparts : (Node.expr e).parts = []) :
    Outcome enough (discard advance >>= fun _ => pure e) c
      fun e taken => Placed taken (.expr e) := by
  refine .advance hkind fun c₁ _ => .pure (.mk ?_ ?_)
  · rw [Node.span, hspan]
    exact covers_single c.current
  · rw [hparts]
    exact .nil _

theorem primary_outcome (hexpr : Places rounds expr) (c : Cursor) :
    Outcome (c.bound ≤ rounds + 1) (primary expr) c fun e taken => Placed taken (.expr e) := by
  refine .get ?_
  dsimp only
  split
  · next hkind => exact single_outcome (by simp [hkind]) rfl rfl
  · next hkind => exact single_outcome (by simp [hkind]) rfl rfl
  · next hkind => exact single_outcome (by simp [hkind]) rfl rfl
  · next hkind => exact single_outcome (by simp [hkind]) rfl rfl
  · next hkind => exact single_outcome (by simp [hkind]) rfl rfl
  · next hkind => exact single_outcome (by simp [hkind]) rfl rfl
  · next hkind => exact single_outcome (by simp [hkind]) rfl rfl
  · exact functionExpr_outcome hexpr c
  · exact .fail (by simp)
  · next hkind =>
    split
    · refine .advance (by simp [hkind]) fun c₁ ht₁ => ?_
      refine (functionExpr_outcome hexpr c₁).weaken (Nat.le_trans ht₁.bound_le) fun e own he => ?_
      exact he.cons c.current
    · exact single_outcome (by simp [hkind]) rfl rfl
  · next hkind =>
    refine .advance (by simp [hkind]) fun c₁ ht₁ => ?_
    refine (hexpr.after ht₁ (by simp)).bind id fun inner own c₂ _ hown => ?_
    refine Outcome.expect.bind id fun _ close c₃ _ _ => .pure ?_
    exact (hown.append _).cons c.current
  · exact array_outcome hexpr c
  · exact object_outcome hexpr c
  · exact .fail (by simp)

/-! ### Suffixes

Tokens have been taken for the operand since the place `c₀`, where the spans of the longer
expressions begin as well. -/

theorem membersFrom_outcome {c₀ : Cursor} {before : List Token} (bound : ℕ) (callee : Expr)
    (c : Cursor) (ht₀ : c₀.Takes before c) (hcallee : Placed before (.expr callee)) :
    Outcome (c.bound ≤ bound) (membersFrom c₀.current.span bound callee) c fun e taken =>
      Placed (before ++ taken) (.expr e) := by
  induction bound generalizing before callee c with
  | zero => exact .exhausted
  | succ bound ih =>
    refine .eat (fun _ c₁ ht₁ => ?_) fun _ => .pure (hcallee.append [])
    refine Outcome.identifier.bind id fun name word c₂ ht₂ _ => .spanFrom ?_
    have ht := ht₀.trans (ht₁.trans ht₂)
    have hmember : Placed (before ++ ([c.current] ++ word))
        (.expr (.member callee name (c₂.spanFrom c₀.current.span))) :=
      .mk (ht.covers (by simp)) (.cons hcallee (.nil _))
    refine (ih _ c₂ ht hmember).weaken ((ht₁.trans ht₂).bound_le_pred (by simp)) ?_
    exact fun e more he => by simpa using he

theorem construct_outcome (hexpr : Places rounds expr) (c : Cursor) :
    Outcome (c.bound ≤ rounds + 1) (construct expr) c fun e taken => Placed taken (.expr e) := by
  refine .here (Outcome.expectWord.bind id fun _ word c₁ ht₁ hword => .get ?_)
  refine (primary_outcome hexpr c₁).bind (Nat.le_trans ht₁.bound_le) fun base own c₂ ht₂ hown => ?_
  have hbase : Placed (word ++ own) (.expr base) := by simpa using hown.widen word []
  have hle : c₂.bound ≤ c₁.bound := ht₂.bound_le
  refine (membersFrom_outcome c₁.bound base c₂ (ht₁.trans ht₂) hbase).bind (fun _ => hle)
    fun callee members c₃ ht₃ hcallee => .get ?_
  extract_lets last rest
  have hlast : ∀ (es : List Expr) (angles list : List Token) (c₄ c₅ : Cursor), c₃.Takes angles c₄ →
      c₄.Takes list c₅ → InTurn list (es.map .expr) →
      Outcome (c.bound ≤ rounds + 1) (last es) c₅ fun e more =>
        Placed (word ++ (own ++ (members ++ (angles ++ (list ++ more))))) (.expr e) := by
    intro es angles list c₄ c₅ ht₄ ht₅ hes
    refine .spanFrom (.pure ?_)
    rw [List.append_nil]
    refine .mk ((ht₁.trans (ht₂.trans (ht₃.trans (ht₄.trans ht₅)))).covers (by simp [hword])) ?_
    simpa [Node.parts] using InTurn.cons hcallee (hes.skip angles)
  have hrest : ∀ (angles : List Token) (c₄ : Cursor), c₃.Takes angles c₄ →
      Outcome (c.bound ≤ rounds + 1) (rest ()) c₄ fun e more =>
        Placed (word ++ (own ++ (members ++ (angles ++ more)))) (.expr e) := by
    intro angles c₄ ht₄
    have ht := ht₁.trans (ht₂.trans (ht₃.trans ht₄))
    refine .get ?_
    split
    · refine (args_outcome hexpr c₄).bind (Nat.le_trans ht.bound_le) fun es list c₅ ht₅ hes => ?_
      exact hlast es angles list c₄ c₅ ht₄ ht₅ hes.2
    · rw [pure_bind]
      exact hlast [] angles [] c₄ c₄ ht₄ (.refl _) (.nil _)
  split
  · exact (skipAngles_outcome c₃).bind id fun _ angles c₄ ht₄ _ => hrest angles c₄ ht₄
  · exact hrest [] c₃ (.refl _)

/-- Type arguments are taken, or nothing is. -/
theorem typeArguments_outcome (c : Cursor) :
    Outcome enough typeArguments c fun read taken => taken ≠ [] ↔ read = true := by
  refine .get ((Outcome.attempt (skipAngles_outcome c)).bind_ended id
    fun o taken c' ht htaken hc => ?_)
  cases o with
  | none => exact ⟨taken, ht, by simp [htaken]⟩
  | some u =>
    show Ended _ c _ ((if c'.atPunct .openParen = true then pure true
      else set c >>= fun _ => pure false : Parser Bool) c')
    split
    · exact ⟨taken, ht, by simp [htaken.1]⟩
    · exact ⟨[], .refl c, by simp⟩

theorem suffixesFrom_outcome (hexpr : Places rounds expr) {c₀ : Cursor} {before : List Token}
    (bound : ℕ) (operand : Expr) (c : Cursor) (ht₀ : c₀.Takes before c)
    (hoperand : Placed before (.expr operand)) :
    Outcome (c.bound ≤ rounds + 1 ∧ c.bound ≤ bound)
      (suffixesFrom expr c₀.current.span bound operand) c fun e taken =>
        Placed (before ++ taken) (.expr e) := by
  induction bound generalizing before operand c with
  | zero => exact .fail fun h => absurd h.2 Cursor.not_bound_le_zero
  | succ bound ih =>
    have hlater : ∀ {own : List Token} {c' : Cursor} {e : Expr}, c.Takes own c' → own ≠ [] →
        Placed (before ++ own) (.expr e) →
        Outcome (c.bound ≤ rounds + 1 ∧ c.bound ≤ bound + 1)
          (suffixesFrom expr c₀.current.span bound e) c' fun e more =>
            Placed (before ++ (own ++ more)) (.expr e) := by
      intro own c' e ht hne he
      refine (ih e c' (ht₀.trans ht) he).weaken ?_ fun e more he => by simpa using he
      exact fun h => ⟨Nat.le_trans ht.bound_le h.1, ht.bound_le_pred hne h.2⟩
    have hcall : ∀ {own : List Token} {c₁ : Cursor}, c.Takes own c₁ →
        Outcome (c.bound ≤ rounds + 1 ∧ c.bound ≤ bound + 1) (do
          let read ← args expr
          suffixesFrom expr c₀.current.span bound
            (.call operand read (← spanFrom c₀.current.span))) c₁ fun e more =>
          Placed (before ++ (own ++ more)) (.expr e) := by
      intro own c₁ ht₁
      refine (args_outcome hexpr c₁).bind (fun h => Nat.le_trans ht₁.bound_le h.1)
        fun es list c₂ ht₂ hes => .spanFrom ?_
      have ht := ht₀.trans (ht₁.trans ht₂)
      have hplaced : Placed (before ++ (own ++ list))
          (.expr (.call operand es (c₂.spanFrom c₀.current.span))) :=
        .mk (ht.covers (by simp [hes.1])) (.cons hoperand (hes.2.skip own))
      exact (hlater (ht₁.trans ht₂) (by simp [hes.1]) hplaced).weaken id
        fun e more he => by simpa using he
    have hdot : c.kind ≠ .eof →
        Outcome (c.bound ≤ rounds + 1 ∧ c.bound ≤ bound + 1) (do
          discard advance
          let c ← get
          if c.atPunct .openParen then
            let read ← args expr
            suffixesFrom expr c₀.current.span bound
              (.call operand read (← spanFrom c₀.current.span))
          else if c.atPunct .openBracket then
            suffixesFrom expr c₀.current.span bound operand
          else
            discard (eat .hash)
            let property ← identifier
            suffixesFrom expr c₀.current.span bound
              (.member operand property (← spanFrom c₀.current.span))) c fun e taken =>
          Placed (before ++ taken) (.expr e) := by
      intro hkind
      refine .advance hkind fun c₁ ht₁ => .get ?_
      split
      · exact hcall ht₁
      split
      · exact hlater ht₁ (by simp) (hoperand.append _)
      refine .discard_eat fun hash c₂ ht₂ => ?_
      refine Outcome.identifier.bind id fun name word c₃ ht₃ _ => .spanFrom ?_
      have ht := ht₁.trans (ht₂.trans ht₃)
      have hmember : Placed (before ++ ([c.current] ++ (hash ++ word)))
          (.expr (.member operand name (c₃.spanFrom c₀.current.span))) :=
        .mk ((ht₀.trans ht).covers (by simp)) (.cons hoperand (.nil _))
      exact (hlater ht (by simp) hmember).weaken id fun e more he => by simpa using he
    refine .get ?_
    split
    · next hkind => exact hdot (by simp [hkind])
    · next hkind => exact hdot (by simp [hkind])
    · next hkind =>
      refine .advance (by simp [hkind]) fun c₁ ht₁ => ?_
      refine (hexpr.after ht₁ (by simp)).bind And.left fun index own c₂ ht₂ hown => ?_
      refine Outcome.expect.bind id fun _ close c₃ ht₃ _ => .spanFrom ?_
      have ht := ht₁.trans (ht₂.trans ht₃)
      have hcovers := (ht₀.trans ht).covers (by simp)
      refine (hlater ht (by simp) ?_).weaken id fun e more he => by simpa using he
      split
      · exact .mk hcovers (.cons hoperand (.nil _))
      · exact .mk hcovers (.cons hoperand ((InTurn.cons hown (.nil _)).skip [c.current]))
    · exact hcall (.refl c)
    · refine (typeArguments_outcome c).bind id fun read own c₁ ht₁ hown => ?_
      split
      · next hread => exact hlater ht₁ (hown.2 hread) (hoperand.append own)
      · exact .pure (hoperand.append _)
    · next hkind =>
      split
      · exact .pure (hoperand.append [])
      · refine .advance (by simp [hkind]) fun c₁ ht₁ => ?_
        exact hlater ht₁ (by simp) (hoperand.append _)
    · exact .pure (hoperand.append [])

theorem suffixed_outcome (hexpr : Places rounds expr) (c : Cursor) :
    Outcome (c.bound ≤ rounds + 1) (suffixed expr) c fun e taken => Placed taken (.expr e) := by
  refine .here (.get ?_)
  extract_lets rest
  have hrest : ∀ (operand : Expr) (own : List Token) (c₁ : Cursor), c.Takes own c₁ →
      Placed own (.expr operand) → Outcome (c.bound ≤ rounds + 1) (rest operand) c₁ fun e more =>
        Placed (own ++ more) (.expr e) := by
    intro operand own c₁ ht₁ hown
    refine .get ((suffixesFrom_outcome hexpr c₁.bound operand c₁ ht₁ hown).weaken ?_ fun _ _ h => h)
    exact fun h => ⟨Nat.le_trans ht₁.bound_le h, Nat.le_refl _⟩
  split
  · exact (construct_outcome hexpr c).bind id hrest
  · exact (primary_outcome hexpr c).bind id hrest

/-! ### Operators -/

theorem unaryFrom_outcome (hexpr : Places rounds expr) (bound : ℕ) (c : Cursor) :
    Outcome (c.bound ≤ rounds + 1 ∧ c.bound ≤ bound) (unaryFrom expr bound) c fun e taken =>
      Placed taken (.expr e) := by
  induction bound generalizing c with
  | zero => exact .fail fun h => absurd h.2 Cursor.not_bound_le_zero
  | succ bound ih =>
    refine .get ?_
    split
    · exact (suffixed_outcome hexpr c).weaken And.left fun _ _ h => h
    · next op hop =>
      have hkind : c.kind ≠ .eof := by
        intro heof
        rw [heof] at hop
        cases hop
      refine .here (.advance hkind fun c₁ ht₁ => ?_)
      refine (ih c₁).bind
        (fun h => ⟨Nat.le_trans ht₁.bound_le h.1, ht₁.bound_le_pred (by simp) h.2⟩)
        fun arg own c₂ ht₂ hown => .spanFrom (.pure ?_)
      have hcovers := (ht₁.trans (ht₂.trans (.refl _))).covers (by simp)
      unfold applyUnary
      split
      · exact .mk hcovers (.nil _)
      · exact .mk hcovers (.nil _)
      · exact .mk hcovers ((InTurn.cons hown (.nil [])).skip [c.current])

theorem unary_outcome (hexpr : Places rounds expr) (c : Cursor) :
    Outcome (c.bound ≤ rounds + 1) (unary expr) c fun e taken => Placed taken (.expr e) :=
  .get ((unaryFrom_outcome hexpr c.bound c).weaken (fun h => ⟨h, Nat.le_refl _⟩) fun _ _ h => h)

/-- Operators after the operand `left`, which has been taken since the place `c₀`. -/
theorem climb_outcome {operand : Parser Expr}
    (hoperand : ∀ c, Outcome (c.bound ≤ rounds) operand c fun e taken => Placed taken (.expr e))
    {c₀ : Cursor} {before : List Token} (bound least : ℕ) (left : Expr) (c : Cursor)
    (ht₀ : c₀.Takes before c) (hleft : Placed before (.expr left)) :
    Outcome (c.bound ≤ rounds ∧ c.bound ≤ bound) (climb operand bound c₀.current.span least left) c
      fun e taken => Placed (before ++ taken) (.expr e) := by
  induction bound generalizing c₀ before least left c with
  | zero => exact .fail fun h => absurd h.2 Cursor.not_bound_le_zero
  | succ bound ih =>
    have hlater : ∀ {own : List Token} {c' : Cursor} {e : Expr}, c.Takes own c' → own ≠ [] →
        Placed (before ++ own) (.expr e) →
        Outcome (c.bound ≤ rounds ∧ c.bound ≤ bound + 1)
          (climb operand bound c₀.current.span least e) c' fun e more =>
            Placed (before ++ (own ++ more)) (.expr e) := by
      intro own c' e ht hne he
      refine (ih least e c' (ht₀.trans ht) he).weaken ?_ fun e more he => by simpa using he
      exact fun h => ⟨Nat.le_trans ht.bound_le h.1, ht.bound_le_pred hne h.2⟩
    refine .get ?_
    split
    · next hword =>
      have hkind : c.kind ≠ .eof := by
        rcases Bool.or_eq_true_iff.1 hword with h | h <;>
        · intro heof
          simp [Cursor.atWord, heof] at h
      refine .advance hkind fun c₁ ht₁ => ?_
      refine .eatWord (fun _ c₂ ht₂ => ?_) fun _ => ?_
      · exact hlater (ht₁.trans ht₂) (by simp) (hleft.append _)
      · refine (skipType_outcome c₁).bind id fun _ type c₂ ht₂ _ => ?_
        exact hlater (ht₁.trans ht₂) (by simp) (hleft.append _)
    · split
      · exact .pure (hleft.append [])
      · next op level hop =>
        have hkind : c.kind ≠ .eof := by
          intro heof
          simp [heof, BinaryOp.ofKind?] at hop
        split
        · exact .pure (hleft.append [])
        refine .advance hkind fun c₁ ht₁ => .here ?_
        have hle := ht₁.bound_le
        refine (hoperand c₁).bind (fun h => Nat.le_trans hle h.1) fun base own c₂ ht₂ hbase => ?_
        refine (ih (level + 1) base c₂ ht₂ hbase).bind ?_ fun right more c₃ ht₃ hright => ?_
        · exact fun h => ⟨Nat.le_trans (ht₁.trans ht₂).bound_le h.1,
            (ht₁.trans ht₂).bound_le_pred (by simp) h.2⟩
        refine .spanFrom ?_
        have ht := ht₁.trans (ht₂.trans ht₃)
        have hbinary : Placed (before ++ ([c.current] ++ (own ++ more)))
            (.expr (.binary op left right (c₃.spanFrom c₀.current.span))) := by
          refine .mk ((ht₀.trans ht).covers (by simp)) (.cons hleft ?_)
          exact (InTurn.single hright).skip [c.current]
        exact (hlater ht (by simp) hbinary).weaken id fun e more he => by simpa using he

theorem binary_outcome (hexpr : Places rounds expr) (least : ℕ) (c : Cursor) :
    Outcome (c.bound ≤ rounds + 1) (binary expr least) c fun e taken => Placed taken (.expr e) := by
  refine .get (.here ((unary_outcome hexpr c).bind id fun left own c₁ ht₁ hleft => ?_))
  refine (climb_outcome (unary_outcome hexpr) c.bound least left c₁ ht₁ hleft).weaken ?_
    fun _ _ h => h
  exact fun h => ⟨Nat.le_trans ht₁.bound_le h, ht₁.bound_le⟩

theorem conditional_outcome (hexpr : Places rounds expr) (c : Cursor) :
    Outcome (c.bound ≤ rounds + 1) (conditional expr) c fun e taken => Placed taken (.expr e) := by
  refine .here ((binary_outcome hexpr 1 c).bind id fun test own c₁ ht₁ htest => ?_)
  refine .eat (fun _ c₂ ht₂ => ?_) fun _ => .pure (htest.append [])
  have ht := ht₁.trans ht₂
  refine (hexpr.after ht (by simp)).bind id fun yes first c₃ ht₃ hyes => ?_
  refine Outcome.expect.bind id fun _ colon c₄ ht₄ _ => ?_
  refine (hexpr.after (ht.trans (ht₃.trans ht₄)) (by simp)).bind id
    fun no second c₅ ht₅ hno => .spanFrom (.pure ?_)
  refine .mk ((ht₁.trans (ht₂.trans (ht₃.trans (ht₄.trans (ht₅.trans (.refl _)))))).covers
    (by simp)) (.cons htest (.skip ?_ [c₁.current]))
  exact .cons hyes ((InTurn.cons hno (.nil [])).skip colon)

theorem Places.exprWith (hexpr : Places rounds expr) : Places (rounds + 1) (exprWith expr) := by
  intro c
  refine .get ?_
  split
  · exact arrow_outcome hexpr c
  refine .here ((conditional_outcome hexpr c).bind id fun left own c₁ ht₁ hleft => .get ?_)
  split
  · next mark hkind =>
    split
    · refine .advance (by simp [hkind]) fun c₂ ht₂ => ?_
      refine (hexpr.after (ht₁.trans ht₂) (by simp)).bind id
        fun right more c₃ ht₃ hright => .spanFrom (.pure ?_)
      refine .mk ((ht₁.trans (ht₂.trans (ht₃.trans (.refl _)))).covers (by simp)) ?_
      exact .cons hleft ((InTurn.cons hright (.nil [])).skip [c₁.current])
    · exact .pure (hleft.append [])
  · exact .pure (hleft.append [])

theorem exprTo_places (depth : ℕ) : Places depth (exprTo depth) := by
  induction depth with
  | zero => exact fun c => .exhausted
  | succ depth ih => exact ih.exprWith

theorem expr_outcome (c : Cursor) :
    Outcome enough Parser.expr c fun e taken => Placed taken (.expr e) :=
  .get ((exprTo_places c.bound c).weaken (fun _ => Nat.le_refl _) fun _ _ h => h)

end CodecDocs.Script.Parser
