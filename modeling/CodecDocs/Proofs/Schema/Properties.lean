import CodecDocs.Proofs.Schema.NormalForm

/-! Where the properties of canonical objects come from. No pass of canonicalization invents a
property: each one that an object inside a canonical schema has is what is left of a property of the
same name in the schema that was given. A canonical property is never a union with an `undefined`
member, and one that is `undefined` itself goes back to a union of nothing but such members. -/

namespace CodecDocs.Schema

/-! ### What the passes pass on -/

/-- Something to be found at some depth of a schema, whatever the notes: through the members of
unions and intersections and, as `Y`, in the properties of objects. -/
structure Occurs (X : Schema → Prop) (Y : String × Schema → Prop) : Prop where
  withNotes : ∀ {n s}, X (s.withNotes n) → X s
  union : ∀ {ms n}, X (.union ms n) ↔ ∃ m ∈ ms, X m
  intersection : ∀ {ms n}, X (.intersection ms n) ↔ ∃ m ∈ ms, X m
  object : ∀ {ps rs n}, X (.object ps rs n) ↔ ∃ p ∈ ps, Y p
  primitive : ∀ {kind values n}, ¬ X (.primitive kind values n)
  undefined : ∀ {n}, ¬ X (.undefined n)

namespace Occurs

variable {X : Schema → Prop} {Y : String × Schema → Prop} (h : Occurs X Y)

include h

theorem of_collapseUnion {ms : List Schema} {n : Notes} (hx : X (collapseUnion ms n)) :
    ∃ m ∈ ms, X m := by
  unfold collapseUnion at hx
  split at hx
  · exact absurd (h.withNotes hx) h.undefined
  · exact ⟨_, List.mem_cons_self, h.withNotes hx⟩
  · exact h.union.mp hx

theorem of_unionOf {ms : List Schema} {n : Notes} (hx : X (unionOf ms n)) : ∃ m ∈ ms, X m := by
  obtain ⟨m, hm, hx⟩ := h.of_collapseUnion hx
  rcases mem_mergePrimitives ((distinct_sublist _).subset hm) with hm | ⟨_, _, _, _, rfl, -⟩
  · rcases mem_flattenUnion.mp hm with ⟨hm, -⟩ | ⟨inner, k, hu, hm⟩
    · exact ⟨m, hm, hx⟩
    · exact ⟨_, hu, h.union.mpr ⟨m, hm, hx⟩⟩
  · exact absurd hx h.primitive

theorem of_foldl_mergeObject {ms : List Schema} {parts : Table String Schema × Names}
    {p : String × Schema} (hp : p ∈ (ms.foldl mergeObject parts).1) (hy : Y p) :
    p ∈ parts.1 ∨ ∃ m ∈ ms, X m := by
  induction ms generalizing parts with
  | nil => exact .inl hp
  | cons m ms ih =>
    rcases ih hp with hp | ⟨x, hx, hX⟩
    · cases m with
      | object ps rs n =>
        rcases Table.mem_of_mem_extend hp with hp | hp
        · exact .inl hp
        · exact .inr ⟨_, List.mem_cons_self, h.object.mpr ⟨p, hp, hy⟩⟩
      | _ => exact .inl hp
    · exact .inr ⟨x, List.mem_cons_of_mem _ hx, hX⟩

theorem of_foldObjects {ms : List Schema} {m : Schema} (hm : m ∈ foldObjects ms) (hx : X m) :
    ∃ x ∈ ms, X x := by
  rcases exists_first_object ms with h' | ⟨pre, ps, rs, n, post, rfl, h'⟩
  · rw [foldObjects_of_none h'] at hm
    exact ⟨m, hm, hx⟩
  · rw [foldObjects_append h'] at hm
    simp only [List.mem_append, List.mem_cons, List.mem_filter] at hm
    rcases hm with hm | rfl | ⟨hm, -⟩
    · exact ⟨m, by simp [hm], hx⟩
    · obtain ⟨p, hp, hy⟩ := h.object.mp hx
      rcases h.of_foldl_mergeObject hp hy with hp | ⟨x, hxp, hX⟩
      · exact ⟨.object ps rs n, by simp, h.object.mpr ⟨p, hp, hy⟩⟩
      · exact ⟨x, by simp [hxp], hX⟩
    · exact ⟨m, by simp [hm], hx⟩

theorem of_intersectionOf {ms : List Schema} {n : Notes} (hx : X (intersectionOf ms n)) :
    ∃ m ∈ ms, X m := by
  have hfolded : ∃ m ∈ foldObjects (flattenIntersection ms), X m := by
    unfold intersectionOf at hx
    split at hx
    · next m hm => exact ⟨m, by simp [hm], h.withNotes hx⟩
    · exact h.intersection.mp hx
  obtain ⟨m, hm, hx⟩ := hfolded
  obtain ⟨m, hm, hx⟩ := h.of_foldObjects hm hx
  rcases mem_flattenIntersection.mp hm with ⟨hm, -⟩ | ⟨x, hxm, ho, hm⟩
  · exact ⟨m, hm, hx⟩
  · obtain ⟨first, inner, k, rfl, -⟩ := isOpen_iff.mp ho
    exact ⟨_, hxm, h.intersection.mpr ⟨m, hm, hx⟩⟩

theorem of_present? {s t : Schema} (ht : present? s = some t) (hx : X t) : X s := by
  cases s with
  | undefined => simp [present?] at ht
  | union ms n =>
    simp only [present?] at ht
    split_ifs at ht <;> cases ht
    · obtain ⟨m, hm, hx⟩ := h.of_collapseUnion hx
      exact h.union.mpr ⟨m, List.mem_of_mem_filter hm, hx⟩
    · exact hx
  | _ => cases ht; exact hx

end Occurs

/-! ### Properties at every depth -/

/-- The properties of a schema that is an object. -/
def ownProperties : Schema → Table String Schema
  | .object properties _ _ => properties
  | .primitive .. | .array .. | .record .. | .union .. | .intersection .. | .tuple ..
  | .reference .. | .any _ | .undefined _ => []

/-- Some object inside of a schema has the property. -/
def HasProperty (s : Schema) (p : String × Schema) : Prop := ∃ t ∈ s.nodes, p ∈ t.ownProperties

theorem hasProperty_iff {s : Schema} {p : String × Schema} :
    s.HasProperty p ↔ p ∈ s.ownProperties ∨ ∃ c ∈ s.children, c.HasProperty p := by
  constructor
  · rintro ⟨t, ht, hp⟩
    rcases mem_nodes.mp ht with rfl | ⟨c, hc, ht⟩
    · exact .inl hp
    · exact .inr ⟨c, hc, t, ht, hp⟩
  · rintro (hp | ⟨c, hc, t, ht, hp⟩)
    · exact ⟨s, s.self_mem_nodes, hp⟩
    · exact ⟨t, mem_nodes_of_child hc ht, hp⟩

/-- In what is no object the properties are those of the children. -/
theorem hasProperty_of_own_nil {s : Schema} (h : s.ownProperties = []) {p : String × Schema} :
    s.HasProperty p ↔ ∃ c ∈ s.children, c.HasProperty p := by
  rw [hasProperty_iff, h, or_iff_right List.not_mem_nil]

theorem HasProperty.of_child {s c : Schema} {p : String × Schema} (h : c.HasProperty p)
    (hc : c ∈ s.children) : s.HasProperty p := hasProperty_iff.mpr (.inr ⟨c, hc, h⟩)

theorem hasProperty_object {ps : List (String × Schema)} {rs : List String} {n : Notes}
    {q : String × Schema} :
    (object ps rs n).HasProperty q ↔ ∃ p ∈ ps, p = q ∨ p.2.HasProperty q := by
  rw [hasProperty_iff, children_object]
  constructor
  · rintro (hq | ⟨_, hc, h⟩)
    · exact ⟨q, hq, .inl rfl⟩
    · obtain ⟨p, hp, rfl⟩ := List.mem_map.mp hc
      exact ⟨p, hp, .inr h⟩
  · rintro ⟨p, hp, rfl | h⟩
    · exact .inl hp
    · exact .inr ⟨p.2, List.mem_map_of_mem hp, h⟩

theorem occurs_hasProperty (q : String × Schema) :
    Occurs (fun s => s.HasProperty q) fun p => p = q ∨ p.2.HasProperty q where
  withNotes {n s} hq := by
    have hown : (s.withNotes n).ownProperties = s.ownProperties := by cases s <;> rfl
    rwa [hasProperty_iff, hown, children_withNotes, ← hasProperty_iff] at hq
  union := hasProperty_of_own_nil rfl
  intersection := hasProperty_of_own_nil rfl
  object := hasProperty_object
  primitive := by simp [hasProperty_of_own_nil (s := .primitive ..) rfl]
  undefined := by simp [hasProperty_of_own_nil (s := .undefined _) rfl]

/-! ### Properties of canonical schemas -/

/-- A canonical property is what is left of a property with the same name. -/
def Stems (s : Schema) (q : String × Schema) : Prop :=
  ∃ p, s.HasProperty p ∧ p.1 = q.1 ∧ present? p.2.canonical = some q.2

theorem Stems.of_child {s c : Schema} {q : String × Schema} (h : c.Stems q)
    (hc : c ∈ s.children) : s.Stems q := by
  obtain ⟨p, hp, hq⟩ := h
  exact ⟨p, hp.of_child hc, hq⟩

/-- Every property inside a canonical schema stems from one inside the schema that was given. -/
theorem stems_of_canonical {s : Schema} {q : String × Schema} (h : s.canonical.HasProperty q) :
    s.Stems q := by
  induction s using induction_children with
  | step s ih =>
    have hinner : (∃ c ∈ s.children.map canonical, c.HasProperty q) → s.Stems q := by
      rintro ⟨_, hmem, hq⟩
      obtain ⟨c, hc, rfl⟩ := List.mem_map.mp hmem
      exact (ih c hc hq).of_child hc
    cases s with
    | primitive | reference | any | undefined =>
      obtain ⟨c, hc, -⟩ := (hasProperty_of_own_nil rfl).mp h
      cases hc
    | array s n => exact hinner ((hasProperty_of_own_nil rfl).mp h)
    | record d c n =>
      rw [canonical_record] at h
      rw [← children_canonical_record, canonical_record] at hinner
      exact hinner ((hasProperty_of_own_nil rfl).mp h)
    | tuple ms n =>
      rw [canonical_tuple] at h
      exact hinner ((hasProperty_of_own_nil rfl).mp h)
    | union ms n =>
      rw [canonical_union] at h
      exact hinner ((occurs_hasProperty q).of_unionOf h)
    | intersection ms n =>
      rw [canonical_intersection] at h
      exact hinner ((occurs_hasProperty q).of_intersectionOf h)
    | object ps rs n =>
      rw [canonical_object, objectFrom_eq, hasProperty_object] at h
      obtain ⟨⟨name, t⟩, ht, hq⟩ := h
      obtain ⟨u, hu, hut⟩ := mem_kept.mp ht
      obtain ⟨p, hp, he⟩ := List.mem_map.mp hu
      obtain ⟨rfl, rfl⟩ := Prod.mk.inj he
      have hchild : p.2 ∈ (object ps rs n).children := List.mem_map_of_mem hp
      rcases hq with rfl | hq
      · exact ⟨p, hasProperty_object.mpr ⟨p, hp, .inl rfl⟩, rfl, hut⟩
      · exact (ih _ hchild ((occurs_hasProperty q).of_present? hut hq)).of_child hchild

/-- A union of nothing but `undefined`. -/
def isVacuous : Schema → Bool
  | .union members _ => members.all isUndefined
  | .primitive .. | .array .. | .object .. | .record .. | .intersection .. | .tuple ..
  | .reference .. | .any _ | .undefined _ => false

/-- Only of a union of nothing but `undefined` is something left that is `undefined`. -/
theorem isVacuous_of_present? {s t : Schema} (h : present? s = some t)
    (ht : t.isUndefined = true) : s.isVacuous = true := by
  cases s with
  | undefined => simp [present?] at h
  | union ms n =>
    simp only [present?] at h
    split_ifs at h <;> cases h
    · refine List.all_eq_true.mpr fun m hm => ?_
      by_contra hu
      -- a member that is not `undefined` would be left over
      have hkept : m ∈ ms.filter fun m => !m.isUndefined := by simpa [hm] using hu
      unfold collapseUnion at ht
      split at ht
      · next hnil => simp [hnil] at hkept
      · next x hx =>
        rw [hx, List.mem_singleton] at hkept
        rw [isUndefined_inPlaceOf, ← hkept] at ht
        exact hu ht
      · cases ht
    · cases ht
  | _ => cases h; cases ht

/-- No property inside a canonical schema is a union with an `undefined` member. None is `undefined`
either, unless the schema has a property whose canonical form is a union of nothing else. -/
theorem no_optional_property (s : Schema) :
    (∀ q, s.canonical.HasProperty q → ∀ ms n, q.2 = .union ms n →
      ∀ m ∈ ms, m.isUndefined = false) ∧
    ((∀ p, s.HasProperty p → p.2.canonical.isVacuous = false) →
      ∀ q, s.canonical.HasProperty q → q.2.isUndefined = false) := by
  constructor
  · intro q hq ms n hu m hm
    obtain ⟨p, -, -, hp⟩ := stems_of_canonical hq
    have hundefined := (normal_present? (normal_canonical p.2) hp).2
    by_contra hm'
    have hoptional : q.2.isOptional = true := by
      rw [hu]
      exact List.any_eq_true.mpr ⟨m, hm, by simpa using hm'⟩
    rw [hu] at hundefined hoptional
    cases hundefined hoptional
  · intro hs q hq
    obtain ⟨p, hp, -, hpq⟩ := stems_of_canonical hq
    by_contra hu
    have := isVacuous_of_present? hpq (by simpa using hu)
    rw [hs p hp] at this
    cases this

/-- Optional properties behind an array, a union in a union and an intersection of objects. -/
def optionalParts : Schema :=
  .array (.intersection
    [.object [("a", .union [.union [ofPrimitive .string, .undefined .none] .none,
        .undefined ⟨none, [("x", .null)]⟩] .none), ("b", .union [.undefined .none] .none)]
      ["a", "b"] .none,
    .object [("c", .object [("d", .intersection [.union [refer "R" (.source "m"),
      .undefined .none] .none] .none)] ["d"] .none)] ["c"] .none] .none) .none

theorem no_optional_property_parts :
    (∀ p, optionalParts.HasProperty p → p.2.canonical.isVacuous = false) ∧
      optionalParts.canonical.HasProperty ("d", refer "R" (.source "m")) ∧
      ∀ q, optionalParts.canonical.HasProperty q → q.2.isUndefined = false := by
  have hall : ∀ t ∈ optionalParts.nodes, ∀ p ∈ t.ownProperties,
      p.2.canonical.isVacuous = false := by decide +kernel
  have hs : ∀ p, optionalParts.HasProperty p → p.2.canonical.isVacuous = false :=
    fun p ⟨t, ht, hp⟩ => hall t ht p hp
  refine ⟨hs, ⟨.object [("d", refer "R" (.source "m"))] [] .none, ?_, List.mem_cons_self⟩,
    (no_optional_property optionalParts).2 hs⟩
  exact List.mem_of_getElem? (i := 3) rfl

theorem canonical_keeps_vacuous_property :
    ¬ ∀ q, undefinedTwice.canonical.HasProperty q → q.2.isUndefined = false ∧
      ∀ ms n, q.2 = .union ms n → ∀ m ∈ ms, m.isUndefined = false := by
  have hc : undefinedTwice.canonical = .object [("a", .undefined .none)] [] .none := rfl
  have hp : undefinedTwice.canonical.HasProperty ("a", .undefined .none) :=
    hc ▸ ⟨_, self_mem_nodes _, List.mem_cons_self⟩
  intro h
  cases (h _ hp).1

end CodecDocs.Schema
