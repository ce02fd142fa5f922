import CodecDocs.Proofs.Script.Brackets
import CodecDocs.Proofs.Script.Outcome
import CodecDocs.Script.Skipping

/-! What is passed over: groups, type arguments, statements and types. Each of them ends after
finitely many rounds, and a group is left with the brackets open that were open before it. -/

namespace CodecDocs.Script.Parser

open Token (Kind)

variable {enough : Prop} {c c' : Cursor}

/-! ### Groups -/

/-- The text of a group that has been entered `depth` times: where its brackets fit, it closes the
brackets that the group has opened, and none else. -/
def LeavesGroup (depth : ℕ) (text : List Kind) : Prop :=
  ∀ inner outer opened, inner.length = depth → openAfter (inner ++ outer) text = some opened →
    opened = outer

theorem leavesGroup_nil : LeavesGroup 0 [] := by
  intro inner outer opened hinner h
  obtain rfl := List.length_eq_zero_iff.1 hinner
  exact (Option.some.inj h).symm

/-- One more token of a group; only a bracket that opens it is taken at depth zero. -/
theorem LeavesGroup.cons {depth : ℕ} {k : Kind} {text : List Kind}
    (h : LeavesGroup (depthAfter depth k) text)
    (hdepth : depth ≠ 0 ∨ ∃ mark, k = .punct mark ∧ mark.opens = true) :
    LeavesGroup depth (k :: text) := by
  intro inner outer opened hinner hopen
  rw [openAfter_cons, Option.bind_eq_some_iff] at hopen
  obtain ⟨middle, hmiddle, hopened⟩ := hopen
  by_cases hbracket : ∃ mark, k = .punct mark ∧ (mark.opens = true ∨ mark.closes = true)
  · obtain ⟨mark, rfl, hmark⟩ := hbracket
    by_cases hopens : mark.opens = true
    · rw [nextOpen_opens hopens] at hmiddle
      obtain rfl := Option.some.inj hmiddle
      exact h (mark :: inner) outer opened (by simp [depthAfter, hopens, hinner]) hopened
    · have hcloses := hmark.resolve_left hopens
      rw [Bool.not_eq_true] at hopens
      obtain ⟨first, hfirst, -⟩ := nextOpen_closes hopens hcloses hmiddle
      have hne : depth ≠ 0 := hdepth.resolve_right (by simp [hopens])
      cases inner with
      | nil => exact absurd hinner.symm hne
      | cons bracket inner =>
        obtain ⟨-, rfl⟩ := List.cons.inj hfirst
        refine h inner outer opened ?_ hopened
        rw [List.length_cons] at hinner
        simp only [depthAfter, hopens, hcloses, Bool.false_eq_true, if_false, if_true]
        omega
  · have hother : ∀ mark, k = .punct mark → mark.opens = false ∧ mark.closes = false := by
      intro mark hk
      simpa using fun h => hbracket ⟨mark, hk, h⟩
    rw [nextOpen_other hother] at hmiddle
    obtain rfl := Option.some.inj hmiddle
    refine h inner outer opened ?_ hopened
    cases k with
    | punct mark => simp [depthAfter, hother mark rfl, hinner]
    | _ => exact hinner

theorem balancedFrom_outcome (rounds depth : ℕ) (c : Cursor) :
    Outcome (c.bound ≤ rounds) (balancedFrom rounds depth) c fun _ taken => taken ≠ [] ∧
      (depth ≠ 0 ∨ (∃ mark, c.kind = .punct mark ∧ mark.opens = true) →
        LeavesGroup depth (taken.map Token.kind)) := by
  induction rounds generalizing depth c with
  | zero => exact .exhausted
  | succ rounds ih =>
    refine .get ?_
    dsimp only
    split
    · exact .fail_bind (by simp)
    · next heof =>
      refine .advance heof fun c' ht => ?_
      split
      · next hdepth =>
        refine .pure ⟨by simp, fun h => LeavesGroup.cons ?_ h⟩
        exact hdepth ▸ leavesGroup_nil
      · next hdepth =>
        refine (ih _ c').weaken (ht.bound_le_pred (by simp)) fun _ taken htaken => ?_
        exact ⟨by simp, fun h => (htaken.2 (.inl hdepth)).cons h⟩

theorem skipBalanced_outcome (c : Cursor) :
    Outcome enough skipBalanced c fun _ taken => taken ≠ [] ∧
      ((∃ mark, c.kind = .punct mark ∧ mark.opens = true) →
        LeavesGroup 0 (taken.map Token.kind)) := by
  refine .get ((balancedFrom_outcome c.bound 0 c).weaken (fun _ => Nat.le_refl _)
    fun _ taken h => ?_)
  exact ⟨h.1, fun hopens => h.2 (.inr hopens)⟩

/-- Where its brackets fit, the text leaves none of them open. -/
def LeavesNone (text : List Kind) : Prop :=
  ∀ opened, openAfter [] text = some opened → opened = []

theorem LeavesGroup.leavesNone {text : List Kind} (h : LeavesGroup 0 text) : LeavesNone text :=
  fun opened => h [] [] opened rfl

theorem LeavesNone.append {text more : List Kind} (h : LeavesNone text) (hmore : LeavesNone more) :
    LeavesNone (text ++ more) := by
  intro opened hopened
  rw [openAfter_append, Option.bind_eq_some_iff] at hopened
  obtain ⟨middle, hmiddle, hopened⟩ := hopened
  obtain rfl := h middle hmiddle
  exact hmore opened hopened

/-- A token that opens no group. -/
theorem leavesNone_single {k : Kind} (h : ∀ mark, k = .punct mark → mark.opens = false) :
    LeavesNone [k] := by
  intro opened hopened
  rw [openAfter_cons, Option.bind_eq_some_iff] at hopened
  obtain ⟨middle, hmiddle, hopened⟩ := hopened
  obtain rfl := Option.some.inj hopened
  by_cases hcloses : ∃ mark, k = .punct mark ∧ mark.closes = true
  · obtain ⟨mark, rfl, hcloses⟩ := hcloses
    obtain ⟨inner, hinner, -⟩ := nextOpen_closes (h mark rfl) hcloses hmiddle
    cases hinner
  · have hother : ∀ mark, k = .punct mark → mark.opens = false ∧ mark.closes = false :=
      fun mark hk => ⟨h mark hk, by simpa using fun hmark => hcloses ⟨mark, hk, hmark⟩⟩
    rw [nextOpen_other hother] at hmiddle
    exact (Option.some.inj hmiddle).symm

/-- Type arguments end with no bracket open, unless one of their closing brackets does not fit. -/
theorem anglesFrom_outcome (rounds depth : ℕ) (c : Cursor) :
    Outcome (c.bound ≤ rounds) (anglesFrom rounds depth) c fun _ taken =>
      taken ≠ [] ∧ LeavesNone (taken.map Token.kind) := by
  induction rounds generalizing depth c with
  | zero => exact .exhausted
  | succ rounds ih =>
    have hlater : ∀ {taken : List Token} {c' : Cursor} (depth : ℕ), c.Takes taken c' → taken ≠ [] →
        LeavesNone (taken.map Token.kind) →
        Outcome (c.bound ≤ rounds + 1) (anglesFrom rounds depth) c' fun _ more =>
          taken ++ more ≠ [] ∧ LeavesNone ((taken ++ more).map Token.kind) := by
      intro taken c' depth ht hne hnone
      refine (ih depth c').weaken (ht.bound_le_pred hne) fun _ more hmore => ?_
      rw [List.map_append]
      exact ⟨by simp [hne], hnone.append hmore.2⟩
    have hgroup : (∃ mark, c.kind = .punct mark ∧ mark.opens = true) →
        Outcome (c.bound ≤ rounds + 1) (skipBalanced >>= fun _ => anglesFrom rounds depth) c
          fun _ taken => taken ≠ [] ∧ LeavesNone (taken.map Token.kind) := by
      intro hopens
      refine (skipBalanced_outcome c).bind id fun _ taken c' ht htaken => ?_
      exact hlater depth ht htaken.1 (htaken.2 hopens).leavesNone
    refine .get ?_
    split
    · exact .fail (by simp)
    · exact .fail (by simp)
    · next h => exact hgroup ⟨_, h, rfl⟩
    · next h => exact hgroup ⟨_, h, rfl⟩
    · next h => exact hgroup ⟨_, h, rfl⟩
    · next heof _ hparen hbracket hbrace =>
      have hsingle : LeavesNone [c.kind] := by
        refine leavesNone_single fun mark hk => Bool.eq_false_iff.2 fun hopens => ?_
        rcases Punct.eq_of_opens hopens with rfl | rfl | rfl
        · exact hparen hk
        · exact hbracket hk
        · exact hbrace hk
      refine .advance heof fun c' ht => ?_
      dsimp only
      generalize (if c.kind = _ then _ else _ : ℕ) = depth
      split
      · exact .pure ⟨by simp, hsingle⟩
      · exact hlater _ ht (by simp) hsingle

theorem skipAngles_outcome (c : Cursor) :
    Outcome enough skipAngles c fun _ taken =>
      taken ≠ [] ∧ LeavesNone (taken.map Token.kind) :=
  .get ((anglesFrom_outcome c.bound 0 c).weaken (fun _ => Nat.le_refl _) fun _ _ h => h)

/-! ### Statements -/

theorem statementFrom_outcome (rounds depth : ℕ) (first : Bool) (c : Cursor) :
    Outcome (c.bound ≤ rounds) (statementFrom rounds depth first) c fun _ taken =>
      first = true → c.kind ≠ .eof → taken ≠ [] := by
  induction rounds generalizing depth first c with
  | zero => exact .exhausted
  | succ rounds ih =>
    refine .get ?_
    split_ifs with hend hsemicolon hbegins
    · exact .pure fun _ h => absurd (by simpa [Cursor.isEnd] using hend) h
    · have hkind : c.kind ≠ .eof := by simpa [Cursor.isEnd] using hend
      exact .advance hkind fun c' _ => .pure (by simp)
    · exact .pure fun h => absurd h (by simpa using hbegins.2.1)
    · have hkind : c.kind ≠ .eof := by simpa [Cursor.isEnd] using hend
      refine .advance hkind fun c' ht => ?_
      exact (ih _ _ c').weaken (ht.bound_le_pred (by simp)) (by simp)

theorem skipStatement_outcome (c : Cursor) :
    Outcome enough skipStatement c fun _ taken => c.kind ≠ .eof → taken ≠ [] :=
  .get ((statementFrom_outcome c.bound 0 true c).weaken (fun _ => Nat.le_refl _) fun _ _ h => h rfl)

/-! ### Types -/

theorem skipWords_outcome (words : List String) (rounds : ℕ) (c : Cursor) :
    Outcome (c.bound ≤ rounds) (skipWords words rounds) c fun _ _ => True := by
  induction rounds generalizing c with
  | zero => exact .exhausted
  | succ rounds ih =>
    refine .get ?_
    split_ifs with hword
    · refine .advance (Cursor.kind_ne_eof_of_atAnyWord hword) fun c' ht => ?_
      exact (ih c').weaken (ht.bound_le_pred (by simp)) fun _ _ h => h
    · exact .pure trivial

theorem dottedFrom_outcome (rounds : ℕ) (c : Cursor) :
    Outcome (c.bound ≤ rounds) (dottedFrom rounds) c fun _ _ => True := by
  induction rounds generalizing c with
  | zero => exact .exhausted
  | succ rounds ih =>
    refine .eat (fun _ c' ht => ?_) fun _ => .pure trivial
    refine .advance_any fun taken c'' ht' _ => ?_
    exact (ih c'').weaken ((ht.trans ht').bound_le_pred (by simp)) fun _ _ h => h

theorem bracketsFrom_outcome (rounds : ℕ) (c : Cursor) :
    Outcome (c.bound ≤ rounds) (bracketsFrom rounds) c fun _ _ => True := by
  induction rounds generalizing c with
  | zero => exact .exhausted
  | succ rounds ih =>
    refine .get ?_
    split_ifs
    · refine (skipBalanced_outcome c).bind id fun _ taken c' ht htaken => ?_
      exact (ih c').weaken (ht.bound_le_pred htaken.1) fun _ _ h => h
    · exact .pure trivial

theorem typeLead_outcome (c : Cursor) : Outcome enough typeLead c fun _ _ => True := by
  refine .discard_eat fun taken c' _ => ?_
  exact .discard .eat_last

/-- An operand of a type; `type` is used only after a token has been taken. -/
theorem typeAtom_outcome {type : Parser Unit} {rounds : ℕ}
    (htype : ∀ c, Outcome (c.bound ≤ rounds) type c fun _ _ => True) (c : Cursor) :
    Outcome (c.bound ≤ rounds + 1) (typeAtom type) c fun _ taken => taken ≠ [] := by
  have hname : ∀ {words : List Token} {c₁ : Cursor}, c.Takes words c₁ → c₁.kind ≠ .eof →
      Outcome (c.bound ≤ rounds + 1)
        (discard advance >>= fun _ => get >>= fun c => dottedFrom c.bound >>= fun _ =>
          get >>= fun c => if c.atPunct .less = true then skipAngles else pure ())
        c₁ fun _ more => words ++ more ≠ [] := by
    intro words c₁ ht₁ hkind
    refine .advance hkind fun c₂ _ => .get ?_
    refine (dottedFrom_outcome c₂.bound c₂).bind (fun _ => Nat.le_refl _) fun _ dots c₃ _ _ => ?_
    refine .get ?_
    split
    · exact (skipAngles_outcome c₃).weaken id (by simp)
    · exact .pure (by simp)
  refine .get ?_
  refine (skipWords_outcome typePrefixes c.bound c).bind (fun _ => Nat.le_refl _)
    fun _ words c₁ ht₁ _ => ?_
  refine .get ?_
  split
  · refine (skipBalanced_outcome c₁).bind id fun _ group c₂ ht₂ hgroup => ?_
    refine .eat (fun _ c₃ ht₃ => ?_) fun _ => .pure (by simp [hgroup.1])
    exact (htype c₃).weaken ((ht₁.trans (ht₂.trans ht₃)).bound_le_pred (by simp)) (by simp)
  · refine (skipAngles_outcome c₁).bind id fun _ angles c₂ ht₂ hangles => ?_
    refine (skipBalanced_outcome c₂).bind id fun _ group c₃ ht₃ _ => ?_
    refine Outcome.expect.bind id fun _ arrow c₄ ht₄ _ => ?_
    have ht := ht₁.trans (ht₂.trans (ht₃.trans ht₄))
    exact (htype c₄).weaken (ht.bound_le_pred (by simp [hangles.1])) (by simp [hangles.1])
  · exact (skipBalanced_outcome c₁).weaken id fun _ group hgroup => by simp [hgroup.1]
  · exact (skipBalanced_outcome c₁).weaken id fun _ group hgroup => by simp [hgroup.1]
  · next hkind =>
    refine .advance (by simp [hkind]) fun c₂ _ => ?_
    rw [← bind_pure (discard advance)]
    exact .advance_any fun taken c₃ _ _ => .pure (by simp)
  · next hkind => exact hname ht₁ (by simp [hkind])
  · next hkind => exact hname ht₁ (by simp [hkind])
  · next hkind => exact hname ht₁ (by simp [hkind])
  · next hkind => exact hname ht₁ (by simp [hkind])
  · exact .fail (by simp)

theorem typeLead_bind_outcome {type : Parser Unit} {rounds : ℕ}
    (htype : ∀ c, Outcome (c.bound ≤ rounds) type c fun _ taken => taken ≠ []) (c : Cursor) :
    Outcome (c.bound ≤ rounds) (typeLead >>= fun _ => type) c fun _ taken => taken ≠ [] := by
  refine (typeLead_outcome c).bind id fun _ lead c' ht _ => ?_
  exact (htype c').weaken (Nat.le_trans ht.bound_le) fun _ _ hne => by simp [hne]

theorem typeFrom_outcome (rounds : ℕ) (c : Cursor) :
    Outcome (c.bound ≤ rounds) (typeFrom rounds) c fun _ taken => taken ≠ [] := by
  induction rounds generalizing c with
  | zero => exact .exhausted
  | succ rounds ih =>
    have htype : ∀ c, Outcome (c.bound ≤ rounds) (typeLead >>= fun _ => typeFrom rounds) c
        fun _ _ => True :=
      fun c => (typeLead_bind_outcome ih c).weaken id fun _ _ _ => trivial
    refine (typeAtom_outcome htype c).bind id fun _ atom c₁ ht₁ hne => ?_
    refine .get ((bracketsFrom_outcome c₁.bound c₁).bind (fun _ => Nat.le_refl _)
      fun _ brackets c₂ ht₂ _ => ?_)
    have ht := ht₁.trans ht₂
    have hlater : ∀ {taken : List Token} {c' : Cursor}, c₂.Takes taken c' →
        c.bound ≤ rounds + 1 → c'.bound ≤ rounds :=
      fun ht' => (ht.trans ht').bound_le_pred (by simp [hne])
    refine .eatWord (fun _ c₃ ht₃ => ?_) fun _ => ?_
    · refine (typeAtom_outcome htype c₃).bind (fun h => Nat.le_succ_of_le (hlater ht₃ h))
        fun _ base c₄ ht₄ _ => ?_
      refine Outcome.expect.bind id fun _ _ c₅ ht₅ _ => ?_
      have ht' := ht₃.trans (ht₄.trans ht₅)
      refine (htype c₅).bind (hlater ht') fun _ yes c₆ ht₆ _ => ?_
      refine Outcome.expect.bind id fun _ _ c₇ ht₇ _ => ?_
      exact (htype c₇).weaken (hlater (ht'.trans (ht₆.trans ht₇))) (by simp [hne])
    · refine .eat (fun _ c₃ ht₃ => ?_) fun _ => ?_
      · exact (ih c₃).weaken (hlater ht₃) (by simp [hne])
      refine .eat (fun _ c₃ ht₃ => ?_) fun _ => .pure (by simp [hne])
      exact (ih c₃).weaken (hlater ht₃) (by simp [hne])

theorem skipType_outcome (c : Cursor) :
    Outcome enough skipType c fun _ taken => taken ≠ [] :=
  .get ((typeLead_bind_outcome (typeFrom_outcome c.bound) c).weaken (fun _ => Nat.le_refl _)
    fun _ _ h => h)

theorem skipReturnType_outcome (c : Cursor) :
    Outcome enough skipReturnType c fun _ taken => taken ≠ [] := by
  refine (skipType_outcome c).bind id fun _ type c₁ _ hne => ?_
  refine .eatWord (fun _ c₂ _ => ?_) fun _ => .pure (by simp [hne])
  exact (skipType_outcome c₂).weaken id (by simp)

end CodecDocs.Script.Parser
