import CodecDocs.Proofs.Schema.Equality
import CodecDocs.Proofs.Schema.Properties
import CodecDocs.Proofs.Worklist

/-! What a canonical schema refers to. Canonicalization invents no reference, and it loses none
unless objects of an intersection are folded: what it drops has no references, or equals a member
that stays before it. Visiting what a schema refers to then comes to the same worklist as visiting
what its canonical form refers to. -/

namespace CodecDocs

namespace Schema

open Worklist (SameVisits)

/-! ### Nothing is invented -/

theorem refers_iff_children {s : Schema} (h : ∀ name origin notes, s ≠ .reference name origin notes)
    {t : Target} : s.Refers t ↔ ∃ c ∈ s.children, c.Refers t := by
  rw [refers_iff, or_iff_right fun ⟨n, hn⟩ => h _ _ n hn]

theorem occurs_refers (t : Target) : Occurs (fun s => s.Refers t) fun p => p.2.Refers t where
  withNotes := refers_withNotes.mp
  union := refers_iff_children (by simp)
  intersection := refers_iff_children (by simp)
  object {ps rs n} := by
    rw [refers_iff_children (by simp), children_object]
    simp only [List.mem_map, exists_exists_and_eq_and]
  primitive := by simp [refers_iff_children (s := .primitive ..) (by simp)]
  undefined := by simp [refers_iff_children (s := .undefined _) (by simp)]

/-- Whatever a canonical schema refers to, the schema that was given does. -/
theorem refers_of_canonical {s : Schema} {t : Target} (h : s.canonical.Refers t) : s.Refers t := by
  induction s using induction_children with
  | step s ih =>
    have hinner : (∃ c ∈ s.children.map canonical, c.Refers t) → s.Refers t := by
      rintro ⟨_, hmem, ht⟩
      obtain ⟨c, hc, rfl⟩ := List.mem_map.mp hmem
      exact refers_iff.mpr (.inr ⟨c, hc, ih c hc ht⟩)
    cases s with
    | primitive | reference | any | undefined => exact h
    | array s n =>
      rw [canonical_array] at h
      exact hinner ((refers_iff_children (by simp)).mp h)
    | record d c n =>
      rw [canonical_record] at h
      rw [← children_canonical_record, canonical_record] at hinner
      exact hinner ((refers_iff_children (by simp)).mp h)
    | tuple ms n =>
      rw [canonical_tuple] at h
      exact hinner ((refers_iff_children (by simp)).mp h)
    | union ms n =>
      rw [canonical_union] at h
      exact hinner ((occurs_refers t).of_unionOf h)
    | intersection ms n =>
      rw [canonical_intersection] at h
      exact hinner ((occurs_refers t).of_intersectionOf h)
    | object ps rs n =>
      rw [canonical_object, objectFrom_eq] at h
      obtain ⟨q, hq, ht⟩ := (occurs_refers t).object.mp h
      obtain ⟨u, hu, hut⟩ := mem_kept.mp hq
      obtain ⟨p, hp, he⟩ := List.mem_map.mp hu
      obtain ⟨-, rfl⟩ := Prod.mk.inj he
      exact hinner ⟨_, List.mem_map_of_mem (List.mem_map_of_mem hp),
        (occurs_refers t).of_present? hut ht⟩

/-! ### References of the passes -/

theorem references_withNotes (n : Notes) (s : Schema) :
    (s.withNotes n).references = s.references := by
  cases s with
  | record d c m => cases d <;> rfl
  | _ => rfl

theorem references_collapseUnion (ms : List Schema) (n : Notes) :
    (collapseUnion ms n).references = ms.flatMap references := by
  unfold collapseUnion
  split
  · rfl
  · rw [inPlaceOf, references_withNotes, List.flatMap_singleton]
  · rw [references, memberReferences_eq]

theorem references_flattenUnion (n : Notes) (ms : List Schema) :
    (flattenUnion n ms).2.flatMap references = ms.flatMap references := by
  induction ms generalizing n with
  | nil => rfl
  | cons m ms ih =>
    cases m with
    | union inner k =>
      rw [flattenUnion_cons_union, List.flatMap_append, ih, List.flatMap_cons, references,
        memberReferences_eq]
    | _ => rw [flattenUnion_cons rfl, List.flatMap_cons, ih, List.flatMap_cons]

theorem references_mergePrimitives (ms : List Schema) :
    (mergePrimitives ms).flatMap references = ms.flatMap references := by
  suffices ∀ acc, (ms.foldl mergeInto acc).flatMap references = (acc ++ ms).flatMap references from
    this []
  induction ms with
  | nil => simp
  | cons m ms ih =>
    intro acc
    rw [List.foldl_cons, ih]
    rcases mergeInto_cases acc m with
      ⟨he, -⟩ | ⟨kind, vs, n', pre, ws, n, post, rfl, -, rfl, -, he⟩ <;> rw [he]
    · simp
    -- neither primitive refers to anything
    · simp [references]

/-- Every child of a schema equals one of an equal schema. -/
theorem exists_child_same {s t c : Schema} (h : s.same t = true) (hc : c ∈ s.children) :
    ∃ d ∈ t.children, c.same d = true := by
  cases s with
  | primitive | reference | any | undefined => cases hc
  | array s n =>
    cases t <;> simp only [same, Bool.and_eq_true, Bool.false_eq_true] at h
    obtain rfl := List.mem_singleton.mp hc
    exact ⟨_, List.mem_cons_self, h.1⟩
  | object ps rs n =>
    cases t <;> simp only [same, Bool.and_eq_true, Bool.false_eq_true] at h
    obtain ⟨p, hp, rfl⟩ := List.mem_map.mp hc
    obtain ⟨u, hu, hsame⟩ := sameFields_iff.mp h.1.1.2 p hp
    exact ⟨u, List.mem_map_of_mem (Table.mem_of_get? hu), hsame⟩
  | record d e n =>
    cases t with
    | record d' e' m =>
      cases d <;> cases d' <;> simp only [same, Bool.and_eq_true, Bool.false_eq_true] at h
      · obtain rfl := List.mem_singleton.mp hc
        exact ⟨e', by simp, h.1⟩
      · rcases List.mem_pair.mp hc with rfl | rfl
        · exact ⟨_, by simp, h.1.1⟩
        · exact ⟨e', by simp, h.1.2⟩
    | _ => cases d <;> simp [same] at h
  | union ms n | intersection ms n | tuple ms n =>
    cases t <;> simp only [same, Bool.and_eq_true, Bool.false_eq_true] at h
    exact exists_right_of_forall₂ (sameMembers_iff.mp h.1) hc

/-- A schema refers to all that an equal one refers to. -/
theorem Refers.of_same {s u : Schema} {t : Target} (ht : s.Refers t) (h : s.same u = true) :
    u.Refers t := by
  induction s using induction_children generalizing u with
  | step s ih =>
    rcases refers_iff.mp ht with ⟨n, rfl⟩ | ⟨c, hc, ht⟩
    · cases u <;> simp only [same, Bool.and_eq_true, beq_iff_eq, Bool.false_eq_true] at h
      obtain ⟨⟨rfl, rfl⟩, -⟩ := h
      exact refers_iff.mpr (.inl ⟨_, rfl⟩)
    · obtain ⟨d, hd, hsame⟩ := exists_child_same h hc
      exact refers_iff.mpr (.inr ⟨d, hd, ih c hc ht hsame⟩)

theorem sameVisits_distinct (ms : List Schema) :
    SameVisits ((distinct ms).flatMap references) (ms.flatMap references) := by
  suffices ∀ acc, SameVisits ((ms.foldl keepNew acc).flatMap references)
      ((acc ++ ms).flatMap references) from this []
  induction ms with
  | nil =>
    intro acc
    rw [List.append_nil]
    exact .refl _
  | cons m ms ih =>
    intro acc
    rw [List.foldl_cons]
    refine (ih _).trans ?_
    rcases keepNew_cases acc m with ⟨he, a, ha, hsame⟩ | ⟨he, -⟩ <;> rw [he]
    -- all that the repetition refers to has been visited with the first member
    · have hsub : m.references ⊆ acc.flatMap references := fun t ht =>
        List.mem_flatMap.mpr ⟨a, ha, mem_references.mpr ((mem_references.mp ht).of_same hsame)⟩
      rw [List.flatMap_append, List.flatMap_append, List.flatMap_cons, ← List.append_assoc]
      exact (SameVisits.append_of_subset hsub).append (.refl _)
    · rw [List.append_assoc, List.singleton_append]
      exact .refl _

theorem sameVisits_unionOf (ms : List Schema) (n : Notes) :
    SameVisits (unionOf ms n).references (ms.flatMap references) := by
  have hvisits := sameVisits_distinct (mergePrimitives (flattenUnion n ms).2)
  rw [references_mergePrimitives, references_flattenUnion] at hvisits
  rwa [← references_collapseUnion _ (flattenUnion n ms).1] at hvisits

theorem flatMap_references_filter (ms : List Schema) :
    (ms.filter fun m => !m.isUndefined).flatMap references = ms.flatMap references := by
  induction ms with
  | nil => rfl
  | cons m ms ih =>
    cases m with
    | undefined n => exact ih
    | _ => rw [List.filter_cons_of_pos rfl, List.flatMap_cons, ih, List.flatMap_cons]

/-- What is left of a property refers to what the property does. -/
theorem references_present? (s : Schema) :
    ((present? s).toList.flatMap references) = s.references := by
  cases s with
  | undefined => rfl
  | union ms n =>
    rw [present?]
    split_ifs
    · rw [Option.toList_some, List.flatMap_singleton, references_collapseUnion,
        flatMap_references_filter, references, memberReferences_eq]
    · exact List.flatMap_singleton _ _
  | _ => exact List.flatMap_singleton _ _

theorem references_objectFrom (ps : Table String Schema) (rs : Names) (n : Notes) :
    (objectFrom ps rs n).references = (ps.map Prod.snd).flatMap references := by
  rw [objectFrom_eq, references, fieldReferences_eq]
  induction ps with
  | nil => rfl
  | cons p ps ih =>
    rw [List.map_cons, List.flatMap_cons, ← references_present? p.2, ← ih]
    cases h : present? p.2 with
    | none => rw [kept_cons_none h]; rfl
    | some t => rw [kept_cons_some h]; simp

/-! ### Nothing is lost -/

def isIntersection : Schema → Bool
  | .intersection .. => true
  | _ => false

theorem sameVisits_canonical {s : Schema} (h : ∀ u ∈ s.nodes, u.isIntersection = false) :
    SameVisits s.canonical.references s.references := by
  induction s using induction_children with
  | step s ih =>
    obtain ⟨hs, hchildren⟩ := forall_nodes.mp h
    have hinner : SameVisits ((s.children.map canonical).flatMap references)
        (s.children.flatMap references) := by
      rw [List.flatMap_map]
      exact .flatMap fun c hc => ih c hc (hchildren c hc)
    cases s with
    | primitive | reference | any | undefined => exact .refl _
    | array s n => simpa [references, canonical_array] using hinner
    | record d c n =>
      rw [← children_canonical_record, canonical_record] at hinner
      rwa [canonical_record, references_of_children (by simp),
        references_of_children (s := .record d c n) (by simp)]
    | tuple ms n =>
      rw [canonical_tuple, references_of_children (by simp), references_of_children (by simp)]
      exact hinner
    | union ms n =>
      rw [canonical_union, references_of_children (s := .union ms n) (by simp)]
      exact (sameVisits_unionOf _ n).trans hinner
    | intersection ms n => cases hs
    | object ps rs n =>
      rw [canonical_object, references_objectFrom, references_of_children (s := .object ps rs n)
        (by simp)]
      simpa [List.map_map, Function.comp_def] using hinner

/-- Canonicalization invents no reference, and without intersections it loses none: visiting what
the canonical schema refers to has the same effect on every worklist, names, order and tokens, as
visiting what the schema refers to. -/
theorem canonical_keeps_references (s : Schema) :
    (∀ t, s.canonical.Refers t → s.Refers t) ∧
      ((∀ u ∈ s.nodes, u.isIntersection = false) →
        (∀ t, s.Refers t → s.canonical.Refers t) ∧
          ∀ w : Worklist, w.visitAll s.canonical = w.visitAll s) := by
  refine ⟨fun t => refers_of_canonical, fun h => ?_⟩
  have hvisits := sameVisits_canonical h
  refine ⟨fun t ht => ?_, hvisits⟩
  exact mem_references.mp (hvisits.mem_iff.mpr (mem_references.mpr ht))

/-- A choice with a name in it twice, and two objects that differ in the order of their properties
and in a property that may only be absent. -/
def sharedParts : Schema :=
  let name := fun text => reference text (.source "a.ts") .none
  let missing := undefined .none
  let tag := union [name "Tag", missing] .none
  .union [.union [name "Node", ofPrimitive .string] .none,
    .object [("link", name "Node"), ("tag", tag), ("old", missing)] ["link"] .none,
    .object [("tag", tag), ("link", name "Node")] ["link"] .none,
    literal (.string "none"), name "Node"] .none

theorem sharedParts_keeps_references :
    sharedParts.canonical.references.length = 3 ∧ sharedParts.references.length = 6 ∧
      (∀ u ∈ sharedParts.nodes, u.isIntersection = false) ∧
        (∀ t, sharedParts.canonical.Refers t ↔ sharedParts.Refers t) ∧
          ∀ w : Worklist, w.visitAll sharedParts.canonical = w.visitAll sharedParts := by
  have hnone : ∀ u ∈ sharedParts.nodes, u.isIntersection = false := by decide
  have hkept := canonical_keeps_references sharedParts
  exact ⟨by decide, by decide, hnone, fun t => ⟨hkept.1 t, (hkept.2 hnone).1 t⟩,
    (hkept.2 hnone).2⟩

/-- Of two properties of one name in an intersection the later one stays. -/
example : (intersection [closedObject [("id", reference "Id" (.source "a.ts") .none)] .none,
    closedObject [("id", reference "Key" (.source "a.ts") .none)] .none] .none).canonical.references
      = [("Key", .source "a.ts")] := rfl

end Schema

end CodecDocs
