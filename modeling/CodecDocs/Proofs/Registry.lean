import CodecDocs.Config.Basic
import CodecDocs.Proofs.Schema.Sound
import CodecDocs.Registry.Builtin

/-! The combinators of a registry. Those that are built in and those that a configuration adds give
schemas of their own without references, so that all references come from the arguments. -/

namespace CodecDocs

/-- The schemas that a combinator brings along. -/
def Rule.own : Rule → List Schema
  | .fixed schema | .either _ schema => [schema]
  | _ => []

def Rule.isHost : Rule → Bool
  | .host _ => true
  | _ => false

/-- What a combinator brings along refers to nothing, and it is none of a host's, of whose schemas
nothing is known. -/
def Rule.Plain (rule : Rule) : Prop :=
  (∀ schema ∈ rule.own, schema.Closed) ∧ rule.isHost = false

instance (rule : Rule) : Decidable rule.Plain :=
  inferInstanceAs (Decidable ((∀ schema ∈ rule.own, schema.Closed) ∧ rule.isHost = false))

namespace Registry

def Plain (r : Registry) : Prop := ∀ e ∈ r.entries, e.2.rule.Plain

instance (r : Registry) : Decidable r.Plain :=
  inferInstanceAs (Decidable (∀ e ∈ r.entries, e.2.rule.Plain))

theorem Plain.register {r : Registry} (h : r.Plain) {rule : Rule} (hr : rule.Plain)
    (package name : String) : (r.register package name rule).Plain := by
  intro e he
  rcases Table.mem_of_mem_insert he with he | rfl
  · exact h e he
  · exact hr

theorem Plain.resolve? {r : Registry} (h : r.Plain) {package name : String} {c : Combinator}
    (hc : r.resolve? package name = some c) : c.rule.Plain := h _ (Table.mem_of_get? hc)

theorem Plain.alias? {r r' : Registry} (h : r.Plain)
    {package name targetPackage targetName : String}
    (hr : r.alias? package name targetPackage targetName = some r') : r'.Plain := by
  obtain ⟨c, hc, rfl⟩ := Option.map_eq_some_iff.mp hr
  exact h.register (h.resolve? hc) package name

theorem plain_builtin : builtin.Plain := by decide

end Registry

/-! ### Configurations -/

/-- A schema of a configuration is a primitive or all values. -/
theorem FixedSchema.closed_schema {f : FixedSchema} {schema : Schema} (h : f.schema = .ok schema) :
    schema.Closed := by
  unfold FixedSchema.schema at h
  split at h
  · cases h
    exact Schema.sound_any _
  · cases h
  · cases h
    exact Schema.sound_primitive _ _ _
  · next kind values _ _ =>
    cases hv : values.mapM literal with
    | error e =>
      rw [hv] at h
      cases h
    | ok literals =>
      rw [hv] at h
      cases h
      exact Schema.sound_primitive _ _ _

namespace Config

open Registry

theorem plain_addSchema {r r' : Registry} {entry : Entry} (hr : r.Plain)
    (h : addSchema r entry = .ok r') : r'.Plain := by
  obtain ⟨⟨package, name⟩, fixed | target⟩ := entry
  · simp only [addSchema] at h
    cases hf : fixed.schema with
    | error e =>
      rw [hf] at h
      cases h
    | ok schema =>
      rw [hf] at h
      cases h
      refine hr.register ?_ package name
      simpa [Rule.Plain, Rule.own, Rule.isHost] using FixedSchema.closed_schema hf
  · cases h
    exact hr

theorem plain_addAlias {r r' : Registry} {entry : Entry} (hr : r.Plain)
    (h : addAlias r entry = .ok r') : r'.Plain := by
  obtain ⟨⟨package, name⟩, fixed | target⟩ := entry
  · cases h
    exact hr
  · simp only [addAlias] at h
    split at h
    · cases h
    · split at h
      · next ha =>
        cases h
        exact hr.alias? ha
      · cases h

theorem plain_addEach (add : Registry → Entry → Except Refusal Registry)
    (hadd : ∀ {r r' entry}, r.Plain → add r entry = .ok r' → r'.Plain) (entries : List Entry)
    {r : Registry} (hr : r.Plain) : (addEach add entries r).1.Plain := by
  induction entries generalizing r with
  | nil => exact hr
  | cons entry entries ih =>
    rw [addEach]
    split
    · next h => exact ih (hadd hr h)
    · exact hr

/-- A configuration adds plain combinators, also where it is refused in the end. -/
theorem plain_apply (c : Config) {r : Registry} (hr : r.Plain) : (c.apply r).1.Plain := by
  have hfirst := plain_addEach addSchema plain_addSchema c.entries hr
  rw [apply]
  split
  · next r' heq =>
    rw [heq] at hfirst
    exact plain_addEach addAlias plain_addAlias c.entries hfirst
  · exact hfirst

end Config

/-- The combinators that are built in, as they are or as a configuration extends them. -/
def Registry.Standard (r : Registry) : Prop :=
  r = builtin ∨ ∃ c : Config, r = (c.apply builtin).1

theorem Registry.Standard.plain {r : Registry} (h : r.Standard) : r.Plain := by
  rcases h with rfl | ⟨c, rfl⟩
  · exact plain_builtin
  · exact c.plain_apply plain_builtin

end CodecDocs
