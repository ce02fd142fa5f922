import CodecDocs.Proofs.Script.Skipping

/-! Type arguments that are passed over. They never end inside a group that began in them, but
nothing keeps them inside the group in which they began themselves: a closing bracket outside of
their own groups counts as one more of their tokens. -/

namespace CodecDocs.Script.Parser

/-- The brackets of type arguments belong together exactly if each closing bracket among them fits,
so that none of them closes a group that was opened before. -/
theorem skipAngles_paired_iff {c c' : Cursor} (hc : EofLast c.tokens)
    (h : skipAngles c = .ok ((), c')) :
    ∃ taken, c.Takes taken c' ∧
      (Paired (taken.map Token.kind) ↔ ClosesFit (taken.map Token.kind)) := by
  obtain ⟨taken, ht, -, hnone⟩ := (@skipAngles_outcome True c).ok hc h
  refine ⟨taken, ht, fun hpaired => closesFit_of_openAfter hpaired, fun hfit => ?_⟩
  obtain ⟨opened, hopened⟩ := hfit.exists_openAfter
  rw [Paired, hopened, hnone opened hopened]

/-- The type arguments of `f<(a) => b>(c)`. -/
def functionArgument : Cursor :=
  .ofTokens <| [.punct .less, .punct .openParen, .word "a", .punct .closeParen, .punct .arrow,
    .word "b", .punct .greater, .punct .openParen, .word "c", .punct .closeParen, .eof].map
    fun k => ⟨k, default, none, false⟩

theorem skipAngles_functionArgument :
    EofLast functionArgument.tokens ∧ ∃ c', skipAngles functionArgument = .ok ((), c') ∧
      ∃ taken, functionArgument.Takes taken c' ∧
        (Paired (taken.map Token.kind) ↔ ClosesFit (taken.map Token.kind)) := by
  have hlast : EofLast functionArgument.tokens := by decide
  exact ⟨hlast, _, rfl, skipAngles_paired_iff hlast rfl⟩

/-- The comparison of `g(a < b) > (c)`, from its sign on. -/
def comparison : Cursor :=
  .ofTokens <| [.punct .less, .word "b", .punct .closeParen, .punct .greater, .punct .openParen,
    .word "c", .punct .closeParen, .eof].map fun k => ⟨k, default, none, false⟩

/-- A comparison is passed over together with the bracket that closes the group around it. -/
theorem skipAngles_leaves_group :
    ¬ ∀ (c c' : Cursor) (taken : List Token), EofLast c.tokens → c.kind = .punct .less →
      skipAngles c = .ok ((), c') → c.Takes taken c' → Paired (taken.map Token.kind) := by
  intro h
  have hpaired := h comparison _ (comparison.tokens.take 4) (by decide) rfl rfl ⟨rfl, rfl⟩
  exact absurd hpaired (by decide)

end CodecDocs.Script.Parser
