import CodecDocs.Proofs.Schema.Keyed

/-! The normal form of schemas, said of each node by itself: what a union, an intersection and an
object look like after canonicalization. Canonical schemas are normal, and canonicalization leaves a
normal schema alone unless an object in it has a property that is `undefined`. -/

namespace CodecDocs.Schema

/-- What canonicalization brings about at a node. -/
def OwnNormal : Schema → Prop
  | .union members _ => 2 ≤ members.length ∧ (∀ m ∈ members, m.isUnion = false) ∧
    PlainOnce members ∧ Differing members
  | .intersection members _ => members.length ≠ 1 ∧ (∀ m ∈ members, m.isOpen = false) ∧
    ObjectOnce members
  | .object properties required _ => (∀ name ∈ required, name ∈ Table.keys properties) ∧
    ∀ p ∈ properties, p.2.isOptional = true → p.2.isUndefined = true
  | .primitive .. | .array .. | .record .. | .tuple .. | .reference .. | .any _
  | .undefined _ => True

/-- Every node has the form that canonicalization brings about. -/
def Normal (s : Schema) : Prop := ∀ t ∈ s.nodes, t.OwnNormal

theorem normal_iff {s : Schema} : s.Normal ↔ s.OwnNormal ∧ ∀ c ∈ s.children, c.Normal :=
  forall_nodes

theorem Normal.own {s : Schema} (h : s.Normal) : s.OwnNormal := (normal_iff.mp h).1

theorem Normal.child {s c : Schema} (h : s.Normal) (hc : c ∈ s.children) : c.Normal :=
  (normal_iff.mp h).2 c hc

theorem ownNormal_withNotes {n : Notes} {s : Schema} :
    (s.withNotes n).OwnNormal ↔ s.OwnNormal := by cases s <;> rfl

theorem Normal.inPlaceOf {s : Schema} (h : s.Normal) (n : Notes) : (inPlaceOf n s).Normal :=
  normal_iff.mpr ⟨ownNormal_withNotes.mpr h.own, fun c hc => h.child (by simpa using hc)⟩

theorem normal_undefined (n : Notes) : (Schema.undefined n).Normal :=
  normal_iff.mpr ⟨trivial, by simp⟩

theorem normal_primitive (kind : Primitive) (values : Option (List Literal)) (n : Notes) :
    (Schema.primitive kind values n).Normal := normal_iff.mpr ⟨trivial, by simp⟩

/-! ### Unions -/

theorem normal_collapseUnion {ms : List Schema} (hms : ∀ m ∈ ms, m.Normal)
    (hu : ∀ m ∈ ms, m.isUnion = false) (hp : PlainOnce ms) (hd : Differing ms) (n : Notes) :
    (collapseUnion ms n).Normal := by
  unfold collapseUnion
  split
  · exact (normal_undefined _).inPlaceOf n
  · exact (hms _ List.mem_cons_self).inPlaceOf n
  · next h0 h1 =>
    refine normal_iff.mpr ⟨⟨?_, hu, hp, hd⟩, hms⟩
    match ms, h0, h1 with
    | [], h0, _ => exact absurd rfl h0
    | [m], _, h1 => exact absurd rfl (h1 m)
    | _ :: _ :: _, _, _ => simp

theorem normal_unionOf {ms : List Schema} (h : ∀ m ∈ ms, m.Normal) (n : Notes) :
    (unionOf ms n).Normal := by
  -- the members of a normal union are no unions, so one level of flattening is enough
  have hflat : ∀ m ∈ (flattenUnion n ms).2, m.Normal ∧ m.isUnion = false := by
    intro m hm
    rcases mem_flattenUnion.mp hm with ⟨hm, hu⟩ | ⟨inner, k, hk, hm⟩
    · exact ⟨h m hm, hu⟩
    · exact ⟨(h _ hk).child hm, (h _ hk).own.2.1 m hm⟩
  have hmerged : ∀ m ∈ mergePrimitives (flattenUnion n ms).2, m.Normal ∧ m.isUnion = false := by
    intro m hm
    rcases mem_mergePrimitives hm with hm | ⟨kind, values, old, k, rfl, -⟩
    · exact hflat m hm
    · exact ⟨normal_primitive _ _ _, rfl⟩
  have hsub := distinct_sublist (mergePrimitives (flattenUnion n ms).2)
  exact normal_collapseUnion (fun m hm => (hmerged m (hsub.subset hm)).1)
    (fun m hm => (hmerged m (hsub.subset hm)).2)
    ((plainOnce_mergePrimitives _).sublist hsub) (differing_distinct _) _

theorem unionOf_of_normal {ms : List Schema} {n : Notes} (h : (Schema.union ms n).OwnNormal) :
    unionOf ms n = .union ms n := by
  obtain ⟨hl, hu, hp, hd⟩ := h
  unfold unionOf
  rw [flattenUnion_of_flat n hu]
  simp only [mergePrimitives_of_plainOnce hp, distinct_of_differing hd]
  match ms, hl with
  | _ :: _ :: _, _ => rfl

/-! ### Objects -/

theorem isOptional_of_not_union {s : Schema} (h : s.isUnion = false) :
    s.isOptional = s.isUndefined := by
  cases s with
  | union => cases h
  | _ => rfl

theorem isOptional_collapseUnion {ms : List Schema} (hu : ∀ m ∈ ms, m.isUnion = false)
    (hm : ∀ m ∈ ms, m.isUndefined = false) {n : Notes}
    (h : (collapseUnion ms n).isOptional = true) : (collapseUnion ms n).isUndefined = true := by
  unfold collapseUnion at h ⊢
  split at h
  · rfl
  · next m =>
    have hm' : (inPlaceOf n m).isUnion = false := by
      rw [inPlaceOf, isUnion_withNotes]
      exact hu m List.mem_cons_self
    rwa [isOptional_of_not_union hm'] at h
  · obtain ⟨m, hmem, hund⟩ := List.any_eq_true.mp h
    simp [hm m hmem] at hund

theorem normal_present? {s t : Schema} (hs : s.Normal) (h : present? s = some t) :
    t.Normal ∧ (t.isOptional = true → t.isUndefined = true) := by
  cases s with
  | undefined => simp [present?] at h
  | union ms n =>
    obtain ⟨-, hu, hp, hd⟩ := hs.own
    simp only [present?] at h
    split_ifs at h with ho <;> cases h
    · have hsub := List.filter_sublist (l := ms) (p := fun m => !m.isUndefined)
      have hu' := fun m (hm : m ∈ _) => hu m (hsub.subset hm)
      exact ⟨normal_collapseUnion (fun m hm => hs.child (hsub.subset hm)) hu'
        (hp.sublist hsub) (hd.sublist hsub) n, isOptional_collapseUnion hu' (by simp)⟩
    · exact ⟨hs, fun h => absurd h ho⟩
  | _ => cases h; exact ⟨hs, fun h => by simp [isOptional] at h⟩

theorem normal_objectFrom {ps : Table String Schema} (h : ∀ p ∈ ps, p.2.Normal) (rs : Names)
    (n : Notes) : (objectFrom ps rs n).Normal := by
  rw [objectFrom_eq]
  refine normal_iff.mpr ⟨⟨fun name hname => ?_, fun p hp => ?_⟩, List.forall_mem_map.mpr ?_⟩
  · exact Table.has_iff.mp (List.of_mem_filter hname)
  · obtain ⟨s, hs, ht⟩ := mem_kept.mp hp
    exact (normal_present? (h _ hs) ht).2
  · intro p hp
    obtain ⟨s, hs, ht⟩ := mem_kept.mp hp
    exact (normal_present? (h _ hs) ht).1

/-- No property of an object is `undefined`. -/
def Substantial : Schema → Prop
  | .object properties _ _ => ∀ p ∈ properties, p.2.isUndefined = false
  | .primitive .. | .array .. | .record .. | .union .. | .intersection .. | .tuple ..
  | .reference .. | .any _ | .undefined _ => True

instance : DecidablePred Substantial
  | .object properties _ _ =>
    inferInstanceAs (Decidable (∀ p ∈ properties, p.2.isUndefined = false))
  | .primitive .. | .array .. | .record .. | .union .. | .intersection .. | .tuple ..
  | .reference .. | .any _ | .undefined _ => .isTrue trivial

/-- An object with a property that is `undefined`, with and without a note. Nothing is left of the
union, and the property stays as `undefined`. -/
def undefinedTwice : Schema :=
  .object [("a", .union [.undefined .none, .undefined ⟨none, [("x", .null)]⟩] .none)] ["a"] .none

theorem present?_of_not_optional {s : Schema} (h : s.isOptional = false) : present? s = some s := by
  cases s with
  | undefined => cases h
  | union ms n =>
    have h' : ms.any isUndefined = false := h
    simp [present?, h']
  | _ => rfl

theorem kept_of_not_optional {ps : Table String Schema} (h : ∀ p ∈ ps, p.2.isOptional = false) :
    kept ps = ps := by
  induction ps with
  | nil => rfl
  | cons p ps ih =>
    rw [List.forall_mem_cons] at h
    rw [kept_cons_some (present?_of_not_optional h.1), ih h.2]

theorem objectFrom_of_normal {ps : Table String Schema} {rs : Names} {n : Notes}
    (h : (Schema.object ps rs n).OwnNormal) (hs : (Schema.object ps rs n).Substantial) :
    objectFrom ps rs n = .object ps rs n := by
  have hopt : ∀ p ∈ ps, p.2.isOptional = false := by
    intro p hp
    by_contra ho
    have := h.2 p hp (by simpa using ho)
    simp [hs p hp] at this
  have hnone : (ps.filter fun p => isOptional p.2) = [] :=
    List.filter_eq_nil_iff.mpr fun p hp => by simp [hopt p hp]
  have hreq : keptRequired ps rs = rs := by
    unfold keptRequired
    rw [kept_of_not_optional hopt, hnone, List.filter_filter]
    exact List.filter_eq_self.mpr fun name hname => by simpa using h.1 name hname
  rw [objectFrom_eq, kept_of_not_optional hopt, hreq]

/-! ### Intersections -/

theorem normal_object {ps : List (String × Schema)} {rs : List String} {n : Notes} :
    (Schema.object ps rs n).Normal ↔
      (Schema.object ps rs n).OwnNormal ∧ ∀ p ∈ ps, p.2.Normal := by
  rw [normal_iff, children_object, List.forall_mem_map]

theorem normal_mergeObject {parts : Table String Schema × Names} {n : Notes}
    (h : (Schema.object parts.1 parts.2 n).Normal) {m : Schema} (hm : m.Normal) :
    (Schema.object (mergeObject parts m).1 (mergeObject parts m).2 n).Normal := by
  cases m with
  | object ps rs k =>
    rw [normal_object] at h hm ⊢
    refine ⟨⟨fun name hname => ?_, fun p hp => ?_⟩, fun p hp => ?_⟩
    · rw [mergeObject, Table.mem_keys_extend]
      exact (Names.mem_addAll.mp hname).imp (h.1.1 name) (hm.1.1 name)
    · exact (Table.mem_of_mem_extend hp).elim (h.1.2 p) (hm.1.2 p)
    · exact (Table.mem_of_mem_extend hp).elim (h.2 p) (hm.2 p)
  | _ => exact h

theorem normal_foldl_mergeObject {ms : List Schema} (hms : ∀ m ∈ ms, m.Normal)
    {parts : Table String Schema × Names} {n : Notes}
    (h : (Schema.object parts.1 parts.2 n).Normal) :
    (Schema.object (ms.foldl mergeObject parts).1 (ms.foldl mergeObject parts).2 n).Normal := by
  induction ms generalizing parts with
  | nil => exact h
  | cons m ms ih =>
    exact ih (fun x hx => hms x (List.mem_cons_of_mem _ hx))
      (normal_mergeObject h (hms m List.mem_cons_self))

theorem normal_foldObjects {ms : List Schema} (h : ∀ m ∈ ms, m.Normal ∧ m.isOpen = false) :
    ∀ m ∈ foldObjects ms, m.Normal ∧ m.isOpen = false := by
  rcases exists_first_object ms with h' | ⟨pre, ps, rs, n, post, rfl, h'⟩
  · rwa [foldObjects_of_none h']
  · rw [foldObjects_append h']
    intro m hm
    simp only [List.mem_append, List.mem_cons, List.mem_filter] at hm
    rcases hm with hm | rfl | ⟨hm, -⟩
    · exact h m (by simp [hm])
    · exact ⟨normal_foldl_mergeObject (fun m hm => (h m (by simp [hm])).1)
        (h (.object ps rs n) (by simp)).1, rfl⟩
    · exact h m (by simp [hm])

theorem normal_intersectionOf {ms : List Schema} (h : ∀ m ∈ ms, m.Normal) (n : Notes) :
    (intersectionOf ms n).Normal := by
  have hflat : ∀ m ∈ flattenIntersection ms, m.Normal ∧ m.isOpen = false := by
    intro m hm
    rcases mem_flattenIntersection.mp hm with ⟨hm, ho⟩ | ⟨x, hx, ho, hm⟩
    · exact ⟨h m hm, ho⟩
    · obtain ⟨first, inner, k, rfl, -⟩ := isOpen_iff.mp ho
      exact ⟨(h _ hx).child hm, (h _ hx).own.2.1 m hm⟩
  have hfold := normal_foldObjects hflat
  have hone := objectOnce_foldObjects (flattenIntersection ms)
  unfold intersectionOf
  split
  · next m hm => exact (hfold m (by simp [hm])).1.inPlaceOf n
  · next hl =>
    refine normal_iff.mpr ⟨⟨?_, fun m hm => (hfold m hm).2, hone⟩, fun m hm => (hfold m hm).1⟩
    intro h1
    obtain ⟨m, hm⟩ := List.length_eq_one_iff.mp h1
    exact hl m hm

theorem intersectionOf_of_normal {ms : List Schema} {n : Notes}
    (h : (Schema.intersection ms n).OwnNormal) : intersectionOf ms n = .intersection ms n := by
  obtain ⟨hl, ho, hone⟩ := h
  unfold intersectionOf
  rw [flattenIntersection_of_closed ho, foldObjects_of_objectOnce hone]
  split
  · exact absurd rfl hl
  · rfl

/-! ### The whole -/

/-- Canonical schemas are normal. -/
theorem normal_canonical (s : Schema) : s.canonical.Normal := by
  induction s using induction_children with
  | step s ih =>
    have hc : ∀ c ∈ s.children.map canonical, c.Normal := List.forall_mem_map.mpr ih
    cases s with
    | primitive | reference | any | undefined =>
      exact normal_iff.mpr ⟨trivial, by simp [children, canonical]⟩
    | array s n => exact normal_iff.mpr ⟨trivial, hc⟩
    | record d c n =>
      refine normal_iff.mpr ⟨?_, ?_⟩
      · rw [canonical_record]
        trivial
      · rwa [children_canonical_record]
    | tuple ms n =>
      rw [canonical_tuple]
      exact normal_iff.mpr ⟨trivial, hc⟩
    | object ps rs n =>
      rw [canonical_object]
      refine normal_objectFrom (List.forall_mem_map.mpr fun p hp => ?_) rs n
      exact hc _ (List.mem_map_of_mem (List.mem_map_of_mem hp))
    | union ms n =>
      rw [canonical_union]
      exact normal_unionOf hc n
    | intersection ms n =>
      rw [canonical_intersection]
      exact normal_intersectionOf hc n

theorem map_canonical_of_fixed {ms : List Schema} (h : ∀ m ∈ ms, m.canonical = m) :
    ms.map canonical = ms :=
  (List.map_congr_left h).trans (List.map_id' ms)

/-- Canonicalization leaves a normal schema without `undefined` properties alone. -/
theorem canonical_of_normal {s : Schema} (h : s.Normal) (hs : ∀ t ∈ s.nodes, t.Substantial) :
    s.canonical = s := by
  induction s using induction_children with
  | step s ih =>
    have hc : ∀ c ∈ s.children, c.canonical = c := fun c hc =>
      ih c hc (h.child hc) ((forall_nodes.mp hs).2 c hc)
    cases s with
    | primitive | reference | any | undefined => rfl
    | array s n => rw [canonical_array, hc s (by simp)]
    | record d c n =>
      cases d with
      | none => rw [canonical_record, hc c (by simp), Option.map_none]
      | some d => rw [canonical_record, hc c (by simp), Option.map_some, hc d (by simp)]
    | tuple ms n =>
      have hms : ms.map canonical = ms := map_canonical_of_fixed hc
      rw [canonical_tuple, hms]
    | union ms n =>
      have hms : ms.map canonical = ms := map_canonical_of_fixed hc
      rw [canonical_union, hms, unionOf_of_normal h.own]
    | intersection ms n =>
      have hms : ms.map canonical = ms := map_canonical_of_fixed hc
      rw [canonical_intersection, hms, intersectionOf_of_normal h.own]
    | object ps rs n =>
      have hps : (ps.map fun p => (p.1, p.2.canonical)) = ps := by
        refine (List.map_congr_left fun p hp => ?_).trans (List.map_id' ps)
        rw [hc p.2 (List.mem_map_of_mem hp)]
      rw [canonical_object, hps, objectFrom_of_normal h.own (hs _ (self_mem_nodes _))]

end CodecDocs.Schema
