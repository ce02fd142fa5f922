import CodecDocs.Wire
import CodecDocs.Proofs.Schema.Nodes

/-! Laws of the wire form. It is put together from the wire forms of a schema's children, and it
knows a worklist only by the tokens of the names that the schema refers to. -/

namespace CodecDocs.Wire

/-! ### Lists and properties -/

theorem memberFields_eq (w : Worklist) (ms : List Schema) :
    memberFields w ms = ms.map (schemaFields w) := by
  induction ms with
  | nil => rfl
  | cons m ms ih => rw [memberFields, ih, List.map_cons]

theorem propertyFields_eq (w : Worklist) (ps : List (String × Schema)) :
    propertyFields w ps =
      ps.filterMap fun p => (schemaFields w p.2).map fun fields => (p.1, .object fields) := by
  induction ps with
  | nil => rfl
  | cons p ps ih =>
    rw [propertyFields, List.filterMap_cons, ih]
    cases schemaFields w p.2 <;> rfl

/-! ### Tokens -/

/-- A reference is written with its token. -/
theorem schemaFields_reference {w : Worklist} {name : String} {origin : Origin} {token : String}
    (h : w.token? (name, origin) = some token) (notes : Notes) :
    schemaFields w (.reference name origin notes) =
      some (applyNotes (referenceFields token notes) notes) := by
  simp only [schemaFields, h, Option.getD_some]

/-- Worklists that give the same tokens to what a schema refers to give it the same wire form. -/
theorem schemaFields_congr {w u : Worklist} {s : Schema}
    (h : ∀ target, s.Refers target → w.token? target = u.token? target) :
    schemaFields w s = schemaFields u s := by
  induction s using Schema.induction_children with
  | step s ih =>
    have hc : ∀ c ∈ s.children, schemaFields w c = schemaFields u c := fun c hc =>
      ih c hc fun target ht => h target (Schema.refers_iff.mpr (.inr ⟨c, hc, ht⟩))
    cases s with
    | primitive | any | undefined => simp only [schemaFields]
    | reference name origin n =>
      have := h (name, origin) ⟨n, Schema.self_mem_nodes _⟩
      simp only [schemaFields, this]
    | array s n => simp only [schemaFields, hc s (by simp)]
    | record d c n => simp only [schemaFields, hc c (by simp)]
    | union ms n | intersection ms n | tuple ms n =>
      have hms : ms.map (schemaFields w) = ms.map (schemaFields u) := List.map_congr_left hc
      simp only [schemaFields, memberFields_eq, hms]
    | object ps rs n =>
      have hps : propertyFields w ps = propertyFields u ps := by
        rw [propertyFields_eq, propertyFields_eq]
        refine List.filterMap_congr fun p hp => ?_
        rw [hc p.2 (List.mem_map_of_mem hp)]
      simp only [schemaFields, hps]

end CodecDocs.Wire
