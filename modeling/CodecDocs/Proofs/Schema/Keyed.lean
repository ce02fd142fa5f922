import CodecDocs.Proofs.Schema.Passes

/-! Schemas whose tables are tables: no object has two properties of one name, no name is required
twice, and no annotation and no field of a JSON value inside of one is written twice.
Canonicalization keeps schemas so. -/

namespace CodecDocs

namespace Json

mutual

/-- Whether no object inside of a value has two fields of one name. -/
def isKeyed : Json → Bool
  | .array items => keyedItems items
  | .object fields => decide (Table.Distinct fields) && keyedFields fields
  | .null | .bool _ | .number _ | .string _ => true

def keyedItems : List Json → Bool
  | [] => true
  | item :: items => item.isKeyed && keyedItems items

def keyedFields : List (String × Json) → Bool
  | [] => true
  | (_, value) :: fields => value.isKeyed && keyedFields fields

end

/-- Induction on values, with a hypothesis for each item and each field. -/
@[elab_as_elim, induction_eliminator]
theorem induction {motive : Json → Prop} (null : motive .null) (bool : ∀ b, motive (.bool b))
    (number : ∀ n, motive (.number n)) (string : ∀ s, motive (.string s))
    (array : ∀ items, (∀ j ∈ items, motive j) → motive (.array items))
    (object : ∀ fields, (∀ p ∈ fields, motive p.2) → motive (.object fields)) (j : Json) :
    motive j := by
  refine @Json.rec motive (fun js => ∀ j ∈ js, motive j) (fun ps => ∀ p ∈ ps, motive p.2)
    (fun p => motive p.2) null bool number string array object ?_ ?_ ?_ ?_ ?_ j
  · simp
  · intro j js hj hjs x hx
    rcases List.mem_cons.mp hx with rfl | hx
    · exact hj
    · exact hjs x hx
  · simp
  · intro p ps hp hps q hq
    rcases List.mem_cons.mp hq with rfl | hq
    · exact hp
    · exact hps q hq
  · intro _ j hj
    exact hj

theorem keyedItems_iff {items : List Json} :
    keyedItems items = true ↔ ∀ j ∈ items, j.isKeyed = true := by
  induction items with
  | nil => simp [keyedItems]
  | cons j js ih => simp [keyedItems, ih]

theorem keyedFields_iff {fields : List (String × Json)} :
    keyedFields fields = true ↔ ∀ p ∈ fields, p.2.isKeyed = true := by
  induction fields with
  | nil => simp [keyedFields]
  | cons p ps ih => simp [keyedFields, ih]

end Json

namespace Notes

/-- No annotation is written twice, and no field inside of one. -/
def Keyed (n : Notes) : Prop :=
  n.annotations.Distinct ∧ ∀ p ∈ n.annotations, p.2.isKeyed = true

instance (n : Notes) : Decidable n.Keyed :=
  inferInstanceAs (Decidable (n.annotations.Distinct ∧ ∀ p ∈ n.annotations, p.2.isKeyed = true))

theorem keyed_none : Notes.none.Keyed := ⟨Table.distinct_nil, by simp [none]⟩

theorem Keyed.under {inner outer : Notes} (hi : inner.Keyed) (ho : outer.Keyed) :
    (inner.under outer).Keyed :=
  ⟨hi.1.extend _, fun p hp => (Table.mem_of_mem_extend hp).elim (hi.2 p) (ho.2 p)⟩

theorem Keyed.fill {outer inner : Notes} (ho : outer.Keyed) (hi : inner.Keyed) :
    (outer.fill inner).Keyed :=
  ⟨ho.1.fill _, fun p hp => (Table.mem_of_mem_fill hp).elim (ho.2 p) (hi.2 p)⟩

end Notes

namespace Schema

/-- The tables of a schema itself, without those inside of it, have no key twice. -/
def OwnKeyed : Schema → Prop
  | .object properties required notes =>
    Table.Distinct properties ∧ required.Nodup ∧ notes.Keyed
  | .primitive _ _ notes | .array _ notes | .record _ _ notes | .union _ notes
  | .intersection _ notes | .tuple _ notes | .reference _ _ notes | .any notes
  | .undefined notes => notes.Keyed

instance : DecidablePred OwnKeyed
  | .object properties required notes =>
    inferInstanceAs (Decidable (Table.Distinct properties ∧ required.Nodup ∧ notes.Keyed))
  | .primitive _ _ notes | .array _ notes | .record _ _ notes | .union _ notes
  | .intersection _ notes | .tuple _ notes | .reference _ _ notes | .any notes
  | .undefined notes => inferInstanceAs (Decidable notes.Keyed)

/-- No table in a schema has a key twice. -/
def Keyed (s : Schema) : Prop := ∀ t ∈ s.nodes, t.OwnKeyed

instance (s : Schema) : Decidable s.Keyed := inferInstanceAs (Decidable (∀ t ∈ s.nodes, t.OwnKeyed))

theorem keyed_iff {s : Schema} : s.Keyed ↔ s.OwnKeyed ∧ ∀ c ∈ s.children, c.Keyed := forall_nodes

theorem Keyed.own {s : Schema} (h : s.Keyed) : s.OwnKeyed := (keyed_iff.mp h).1

theorem Keyed.child {s c : Schema} (h : s.Keyed) (hc : c ∈ s.children) : c.Keyed :=
  (keyed_iff.mp h).2 c hc

theorem OwnKeyed.notes {s : Schema} (h : s.OwnKeyed) : s.notes.Keyed := by
  cases s with
  | object => exact h.2.2
  | _ => exact h

theorem OwnKeyed.withNotes {s : Schema} (h : s.OwnKeyed) {n : Notes} (hn : n.Keyed) :
    (s.withNotes n).OwnKeyed := by
  cases s with
  | object => exact ⟨h.1, h.2.1, hn⟩
  | _ => exact hn

theorem Keyed.inPlaceOf {s : Schema} (h : s.Keyed) {n : Notes} (hn : n.Keyed) :
    (inPlaceOf n s).Keyed :=
  keyed_iff.mpr ⟨h.own.withNotes (h.own.notes.under hn), fun c hc =>
    h.child (by simpa using hc)⟩

/-! ### Unions -/

theorem keyed_union {ms : List Schema} {n : Notes} :
    (Schema.union ms n).Keyed ↔ n.Keyed ∧ ∀ m ∈ ms, m.Keyed := keyed_iff

theorem keyed_undefined : (Schema.undefined .none).Keyed :=
  keyed_iff.mpr ⟨Notes.keyed_none, by simp⟩

theorem keyed_primitive {kind : Primitive} {values : Option (List Literal)} {n : Notes} :
    (Schema.primitive kind values n).Keyed ↔ n.Keyed := by
  rw [keyed_iff]
  exact ⟨And.left, fun h => ⟨h, by simp⟩⟩

theorem keyed_collapseUnion {ms : List Schema} {n : Notes} (hn : n.Keyed)
    (h : ∀ m ∈ ms, m.Keyed) : (collapseUnion ms n).Keyed := by
  unfold collapseUnion
  split
  · exact keyed_undefined.inPlaceOf hn
  · exact (h _ List.mem_cons_self).inPlaceOf hn
  · exact keyed_union.mpr ⟨hn, h⟩

theorem keyed_flattenUnion {ms : List Schema} (h : ∀ m ∈ ms, m.Keyed) {n : Notes}
    (hn : n.Keyed) : (flattenUnion n ms).1.Keyed ∧ ∀ m ∈ (flattenUnion n ms).2, m.Keyed := by
  constructor
  · induction ms generalizing n with
    | nil => exact hn
    | cons m ms ih =>
      have hms : ∀ x ∈ ms, x.Keyed := fun x hx => h x (List.mem_cons_of_mem _ hx)
      have hm := h m List.mem_cons_self
      cases m with
      | union inner k => exact ih hms (hn.fill hm.own)
      | _ => exact ih hms hn
  · intro m hm
    rcases mem_flattenUnion.mp hm with ⟨hm, -⟩ | ⟨inner, k, hu, hm⟩
    · exact h m hm
    · exact (h _ hu).child hm

theorem keyed_mergePrimitives {ms : List Schema} (h : ∀ m ∈ ms, m.Keyed) :
    ∀ m ∈ mergePrimitives ms, m.Keyed := by
  intro m hm
  rcases mem_mergePrimitives hm with hm | ⟨kind, values, old, n, rfl, ho⟩
  · exact h m hm
  · exact keyed_primitive.mpr (keyed_primitive.mp (h _ ho))

theorem keyed_unionOf {ms : List Schema} (h : ∀ m ∈ ms, m.Keyed) {n : Notes} (hn : n.Keyed) :
    (unionOf ms n).Keyed := by
  obtain ⟨hfst, hsnd⟩ := keyed_flattenUnion h hn
  refine keyed_collapseUnion hfst fun m hm => ?_
  exact keyed_mergePrimitives hsnd m ((distinct_sublist _).subset hm)

/-! ### Objects and intersections -/

theorem keyed_object {ps : List (String × Schema)} {rs : List String} {n : Notes} :
    (Schema.object ps rs n).Keyed ↔
      (Table.Distinct ps ∧ rs.Nodup ∧ n.Keyed) ∧ ∀ p ∈ ps, p.2.Keyed := by
  rw [keyed_iff, children_object, List.forall_mem_map]
  rfl

theorem keyed_mergeObject {parts : Table String Schema × Names}
    (h : (Schema.object parts.1 parts.2 .none).Keyed) {m : Schema} (hm : m.Keyed) :
    (Schema.object (mergeObject parts m).1 (mergeObject parts m).2 .none).Keyed := by
  cases m with
  | object ps rs n =>
    rw [keyed_object] at h hm ⊢
    refine ⟨⟨h.1.1.extend ps, Names.nodup_addAll h.1.2.1 rs, h.1.2.2⟩, fun p hp => ?_⟩
    exact (Table.mem_of_mem_extend hp).elim (h.2 p) (hm.2 p)
  | _ => exact h

theorem keyed_foldl_mergeObject {ms : List Schema} (hms : ∀ m ∈ ms, m.Keyed)
    (parts : Table String Schema × Names) (h : (Schema.object parts.1 parts.2 .none).Keyed) :
    (Schema.object (ms.foldl mergeObject parts).1 (ms.foldl mergeObject parts).2 .none).Keyed := by
  induction ms generalizing parts with
  | nil => exact h
  | cons m ms ih =>
    exact ih (fun x hx => hms x (List.mem_cons_of_mem _ hx)) _
      (keyed_mergeObject h (hms m List.mem_cons_self))

theorem keyed_foldObjects {ms : List Schema} (h : ∀ m ∈ ms, m.Keyed) :
    ∀ m ∈ foldObjects ms, m.Keyed := by
  rcases exists_first_object ms with h' | ⟨pre, ps, rs, n, post, rfl, h'⟩
  · rwa [foldObjects_of_none h']
  · rw [foldObjects_append h']
    have hfirst := keyed_object.mp (h (.object ps rs n) (by simp))
    have hpost : ∀ m ∈ post, m.Keyed := fun m hm => h m (by simp [hm])
    have hmerged := keyed_object.mp (keyed_foldl_mergeObject hpost (ps, rs)
      (keyed_object.mpr ⟨⟨hfirst.1.1, hfirst.1.2.1, Notes.keyed_none⟩, hfirst.2⟩))
    intro m hm
    simp only [List.mem_append, List.mem_cons, List.mem_filter] at hm
    rcases hm with hm | rfl | ⟨hm, -⟩
    · exact h m (by simp [hm])
    · exact keyed_object.mpr ⟨⟨hmerged.1.1, hmerged.1.2.1, hfirst.1.2.2⟩, hmerged.2⟩
    · exact hpost m hm

theorem keyed_intersectionOf {ms : List Schema} (h : ∀ m ∈ ms, m.Keyed) {n : Notes}
    (hn : n.Keyed) : (intersectionOf ms n).Keyed := by
  have hflat : ∀ m ∈ flattenIntersection ms, m.Keyed := by
    intro m hm
    rcases mem_flattenIntersection.mp hm with ⟨hm, -⟩ | ⟨x, hx, -, hm⟩
    · exact h m hm
    · exact (h x hx).child hm
  have hfold := keyed_foldObjects hflat
  unfold intersectionOf
  split
  · next m hm => exact (hfold m (by simp [hm])).inPlaceOf hn
  · exact keyed_iff.mpr ⟨hn, hfold⟩

theorem keyed_present? {s t : Schema} (hs : s.Keyed) (h : present? s = some t) : t.Keyed := by
  cases s with
  | undefined => simp [present?] at h
  | union ms n =>
    simp only [present?] at h
    split_ifs at h <;> cases h
    · exact keyed_collapseUnion hs.own fun m hm => hs.child (List.mem_of_mem_filter hm)
    · exact hs
  | _ => cases h; exact hs

/-- The properties that canonicalization keeps. -/
def kept (properties : Table String Schema) : Table String Schema :=
  properties.filterMap fun (name, s) => (present? s).map (name, ·)

/-- The required names that canonicalization keeps. -/
def keptRequired (properties : Table String Schema) (required : Names) : Names :=
  (required.filter fun name =>
    !((properties.filter fun (_, s) => isOptional s).map Prod.fst).contains name).filter
      (kept properties).has

theorem objectFrom_eq (properties : Table String Schema) (required : Names) (notes : Notes) :
    objectFrom properties required notes =
      .object (kept properties) (keptRequired properties required) notes := rfl

theorem kept_cons_none {p : String × Schema} (h : present? p.2 = none)
    (ps : Table String Schema) : kept (p :: ps) = kept ps := by
  simp [kept, h]

theorem kept_cons_some {p : String × Schema} {t : Schema} (h : present? p.2 = some t)
    (ps : Table String Schema) : kept (p :: ps) = (p.1, t) :: kept ps := by
  simp [kept, h]

theorem mem_kept {properties : Table String Schema} {k : String} {t : Schema} :
    (k, t) ∈ kept properties ↔ ∃ s, (k, s) ∈ properties ∧ present? s = some t := by
  simp only [kept, List.mem_filterMap, Prod.exists, Option.map_eq_some_iff, Prod.mk.injEq]
  constructor
  · rintro ⟨name, s, hp, u, hu, rfl, rfl⟩
    exact ⟨s, hp, hu⟩
  · rintro ⟨s, hp, hs⟩
    exact ⟨k, s, hp, t, hs, rfl, rfl⟩

theorem keys_kept_sublist (properties : Table String Schema) :
    (kept properties).keys.Sublist properties.keys := by
  induction properties with
  | nil => exact List.Sublist.slnil
  | cons p ps ih =>
    cases hp : present? p.2 with
    | none =>
      rw [kept_cons_none hp]
      exact ih.cons p.1
    | some t =>
      rw [kept_cons_some hp]
      exact ih.cons_cons p.1

theorem keyed_objectFrom {ps : Table String Schema} {rs : Names} {n : Notes}
    (h : (Schema.object ps rs n).Keyed) : (objectFrom ps rs n).Keyed := by
  rw [keyed_object] at h
  rw [objectFrom_eq]
  refine keyed_object.mpr ⟨⟨h.1.1.sublist (keys_kept_sublist ps),
    (h.1.2.1.filter _).filter _, h.1.2.2⟩, fun p hp => ?_⟩
  obtain ⟨s, hs, ht⟩ := mem_kept.mp hp
  exact keyed_present? (h.2 _ hs) ht

/-! ### The whole -/

theorem distinct_canonical {ps : Table String Schema} (h : ps.Distinct) :
    Table.Distinct (ps.map fun p => (p.1, p.2.canonical)) := by
  simpa [Table.Distinct, Table.keys, Function.comp_def] using h

/-- Canonicalization keeps tables tables. -/
theorem Keyed.canonical {s : Schema} (h : s.Keyed) : s.canonical.Keyed := by
  induction s using induction_children with
  | step s ih =>
    have hc : ∀ c ∈ s.children.map Schema.canonical, c.Keyed :=
      List.forall_mem_map.mpr fun c hc => ih c hc (h.child hc)
    cases s with
    | primitive | reference | any | undefined => exact h
    | array s n => exact keyed_iff.mpr ⟨h.own, hc⟩
    | record d c n =>
      refine keyed_iff.mpr ⟨?_, ?_⟩
      · rw [canonical_record]
        exact h.own
      · rwa [children_canonical_record]
    | tuple ms n =>
      rw [canonical_tuple]
      exact keyed_iff.mpr ⟨h.own, hc⟩
    | object ps rs n =>
      rw [canonical_object]
      refine keyed_objectFrom (keyed_object.mpr ⟨⟨distinct_canonical h.own.1, h.own.2⟩, ?_⟩)
      exact List.forall_mem_map.mpr fun p hp =>
        hc _ (List.mem_map_of_mem (List.mem_map_of_mem hp))
    | union ms n =>
      rw [canonical_union]
      exact keyed_unionOf hc h.own
    | intersection ms n =>
      rw [canonical_intersection]
      exact keyed_intersectionOf hc h.own

end Schema

end CodecDocs
