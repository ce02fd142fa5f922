import CodecDocs.Proofs.Schema.Acceptance
import CodecDocs.Proofs.Schema.NormalForm

/-! Canonicalization keeps the meaning of schemas. Every pass is followed through acceptance: what
flattening, merging, removal of repetitions, folding and the treatment of optional properties do to
the values that are accepted. Folding needs objects without common properties; a value that the
canonical form accepts is accepted by the schema unless a union is empty or a property vanishes. -/

namespace CodecDocs.Schema

variable {known : String → Origin → Datum → Prop} {v : Datum}

/-! ### Unions -/

theorem listed_mergeValues {a b : Option (List Literal)} :
    Listed (mergeValues a b) v ↔ Listed a v ∨ Listed b v := by
  have values : ∀ more acc : List Literal,
      (∃ l ∈ more.foldl (fun acc x => if acc.any x.same then acc else acc ++ [x]) acc,
        v.is l = true) ↔ (∃ l ∈ acc, v.is l = true) ∨ ∃ l ∈ more, v.is l = true := by
    intro more
    induction more with
    | nil => simp
    | cons x more ih =>
      intro acc
      rw [List.foldl_cons, ih, List.exists_mem_cons_iff, ← or_assoc]
      refine or_congr_left ?_
      split_ifs with hx
      · obtain ⟨y, hy, hxy⟩ := List.any_eq_true.mp hx
        exact ⟨Or.inl, fun h => h.elim id fun hv => ⟨y, hy, Datum.is_of_same hxy hv⟩⟩
      · simp [or_and_right, exists_or]
  cases a with
  | none => simp [mergeValues, Listed]
  | some ls =>
    cases b with
    | none => simp [mergeValues, Listed]
    | some ms => simpa [mergeValues, Listed] using values ms ls

theorem exists_accepts_mergeInto {acc : List Schema} {x : Schema} :
    (∃ m ∈ mergeInto acc x, Accepts known m v) ↔
      (∃ m ∈ acc, Accepts known m v) ∨ Accepts known x v := by
  rcases mergeInto_cases acc x with ⟨he, -⟩ | ⟨kind, vs, k, pre, ws, n, post, rfl, -, rfl, -, he⟩
  · simp [he, or_and_right, exists_or]
  · have hmerge : Accepts known (.primitive kind (mergeValues ws vs) n) v ↔
        Accepts known (.primitive kind ws n) v ∨ Accepts known (.primitive kind vs k) v := by
      simp only [Accepts, listed_mergeValues]
      tauto
    simp only [he, List.mem_append, List.mem_cons, or_and_right, exists_or, exists_eq_left, hmerge,
      or_assoc]
    exact or_congr_right (or_congr_right or_comm)

theorem exists_accepts_mergePrimitives {ms : List Schema} :
    (∃ m ∈ mergePrimitives ms, Accepts known m v) ↔ ∃ m ∈ ms, Accepts known m v := by
  suffices ∀ acc, (∃ m ∈ ms.foldl mergeInto acc, Accepts known m v) ↔
      (∃ m ∈ acc, Accepts known m v) ∨ ∃ m ∈ ms, Accepts known m v by
    simpa [mergePrimitives] using this []
  induction ms with
  | nil => simp
  | cons m ms ih =>
    intro acc
    rw [List.foldl_cons, ih, exists_accepts_mergeInto, List.exists_mem_cons_iff, or_assoc]

theorem exists_accepts_flattenUnion {ms : List Schema} {n : Notes} :
    (∃ m ∈ (flattenUnion n ms).2, Accepts known m v) ↔ ∃ m ∈ ms, Accepts known m v := by
  constructor
  · rintro ⟨m, hm, hv⟩
    rcases mem_flattenUnion.mp hm with ⟨hm, -⟩ | ⟨inner, k, hu, hm⟩
    · exact ⟨m, hm, hv⟩
    · exact ⟨_, hu, accepts_union.mpr ⟨m, hm, hv⟩⟩
  · rintro ⟨m, hm, hv⟩
    cases hu : m.isUnion with
    | false => exact ⟨m, mem_flattenUnion.mpr (.inl ⟨hm, hu⟩), hv⟩
    | true =>
      cases m with
      | union inner k =>
        obtain ⟨x, hx, hv⟩ := accepts_union.mp hv
        exact ⟨x, mem_flattenUnion.mpr (.inr ⟨inner, k, hm, hx⟩), hv⟩
      | _ => cases hu

theorem exists_accepts_distinct {ms : List Schema} (h : ∀ m ∈ ms, m.Keyed) :
    (∃ m ∈ distinct ms, Accepts known m v) ↔ ∃ m ∈ ms, Accepts known m v := by
  constructor
  · rintro ⟨m, hm, hv⟩
    exact ⟨m, (distinct_sublist ms).subset hm, hv⟩
  · rintro ⟨m, hm, hv⟩
    rcases exists_distinct_same hm with hm' | ⟨a, ha, hs⟩
    · exact ⟨m, hm', hv⟩
    · exact ⟨a, ha, accepts_of_same (h m hm) hs hv⟩

theorem accepts_collapseUnion {ms : List Schema} (h : ms ≠ []) {n : Notes} :
    Accepts known (collapseUnion ms n) v ↔ ∃ m ∈ ms, Accepts known m v := by
  unfold collapseUnion
  split
  · exact absurd rfl h
  · simp
  · exact accepts_union

theorem mergePrimitives_ne_nil {ms : List Schema} (h : ms ≠ []) : mergePrimitives ms ≠ [] := by
  have step : ∀ acc x, mergeInto acc x ≠ [] := by
    intro acc x
    rcases mergeInto_cases acc x with ⟨he, -⟩ | ⟨_, _, _, _, _, _, _, -, -, -, -, he⟩ <;> simp [he]
  have run : ∀ (ms acc : List Schema), acc ≠ [] → ms.foldl mergeInto acc ≠ [] := by
    intro ms
    induction ms with
    | nil => exact fun _ h => h
    | cons m ms ih => exact fun acc _ => ih _ (step acc m)
  cases ms with
  | nil => exact absurd rfl h
  | cons m ms => exact run ms _ (step [] m)

theorem distinct_ne_nil {ms : List Schema} (h : ms ≠ []) : distinct ms ≠ [] := by
  obtain ⟨m, hm⟩ := List.exists_mem_of_ne_nil ms h
  rcases exists_distinct_same hm with hm | ⟨a, ha, -⟩
  · exact List.ne_nil_of_mem hm
  · exact List.ne_nil_of_mem ha

/-- The union of normal members means what the members mean, if there is one. -/
theorem accepts_unionOf {ms : List Schema} (hms : ∀ m ∈ ms, m.Keyed ∧ m.Normal) (h : ms ≠ [])
    {n : Notes} (hn : n.Keyed) :
    Accepts known (unionOf ms n) v ↔ ∃ m ∈ ms, Accepts known m v := by
  have hflat : (flattenUnion n ms).2 ≠ [] := by
    obtain ⟨m, hm⟩ := List.exists_mem_of_ne_nil ms h
    cases hu : m.isUnion with
    | false => exact List.ne_nil_of_mem (mem_flattenUnion.mpr (.inl ⟨hm, hu⟩))
    | true =>
      cases m with
      | union inner k =>
        -- a normal union has members
        obtain ⟨x, hx⟩ : ∃ x, x ∈ inner := by
          have := (hms _ hm).2.own.1
          exact List.exists_mem_of_length_pos (by omega)
        exact List.ne_nil_of_mem (mem_flattenUnion.mpr (.inr ⟨inner, k, hm, hx⟩))
      | _ => cases hu
  have hkeyed := keyed_mergePrimitives (keyed_flattenUnion (fun m hm => (hms m hm).1) hn).2
  calc Accepts known (unionOf ms n) v
      ↔ ∃ m ∈ distinct (mergePrimitives (flattenUnion n ms).2), Accepts known m v :=
        accepts_collapseUnion (distinct_ne_nil (mergePrimitives_ne_nil hflat))
    _ ↔ ∃ m ∈ mergePrimitives (flattenUnion n ms).2, Accepts known m v :=
        exists_accepts_distinct hkeyed
    _ ↔ ∃ m ∈ (flattenUnion n ms).2, Accepts known m v := exists_accepts_mergePrimitives
    _ ↔ ∃ m ∈ ms, Accepts known m v := exists_accepts_flattenUnion

/-! ### Optional properties -/

theorem accepts_undefined_of_isOptional {s : Schema} (h : s.isOptional = true) :
    Accepts known s .undefined := by
  cases s with
  | undefined => simp
  | union ms n =>
    obtain ⟨m, hm, hu⟩ := List.any_eq_true.mp h
    refine accepts_union.mpr ⟨m, hm, ?_⟩
    cases m with
    | undefined => simp
    | _ => cases hu
  | _ => cases h

/-- What is left of a property accepts what the property accepts, except for `undefined`. -/
theorem accepts_present? {s t : Schema} (h : present? s = some t) (hv : Accepts known s v) :
    v = .undefined ∨ Accepts known t v := by
  cases ho : s.isOptional with
  | false =>
    rw [present?_of_not_optional ho] at h
    cases h
    exact .inr hv
  | true =>
    cases s with
    | union ms n =>
      have ho' : ms.any isUndefined = true := ho
      simp only [present?, ho', if_true, Option.some.injEq] at h
      obtain ⟨m, hm, hv⟩ := accepts_union.mp hv
      cases hu : m.isUndefined with
      | true =>
        cases m with
        | undefined => exact .inl (accepts_undefined.mp hv)
        | _ => cases hu
      | false =>
        have hrest : m ∈ ms.filter fun m => !m.isUndefined := by simp [hm, hu]
        rw [← h, accepts_collapseUnion (List.ne_nil_of_mem hrest)]
        exact .inr ⟨m, hrest, hv⟩
    | undefined => simp [present?] at h
    | _ => cases ho

theorem accepts_of_present? {s t : Schema} (h : present? s = some t) (hv : Accepts known t v) :
    Accepts known s v := by
  cases ho : s.isOptional with
  | false =>
    rw [present?_of_not_optional ho] at h
    cases h
    exact hv
  | true =>
    cases s with
    | union ms n =>
      have ho' : ms.any isUndefined = true := ho
      simp only [present?, ho', if_true, Option.some.injEq] at h
      subst h
      by_cases hrest : (ms.filter fun m => !m.isUndefined) = []
      · -- nothing but `undefined` is left, and that the union accepts
        rw [hrest] at hv
        simp only [collapseUnion, accepts_inPlaceOf, accepts_undefined] at hv
        rw [hv]
        exact accepts_undefined_of_isOptional ho
      · obtain ⟨m, hm, hv⟩ := (accepts_collapseUnion hrest).mp hv
        exact accepts_union.mpr ⟨m, List.mem_of_mem_filter hm, hv⟩
    | undefined => simp [present?] at h
    | _ => cases ho

theorem mem_keptRequired {ps : Table String Schema} (hd : ps.Distinct) {k : String} {s : Schema}
    (hk : (k, s) ∈ ps) (rs : Names) :
    k ∈ keptRequired ps rs ↔ k ∈ rs ∧ s.isOptional = false ∧ k ∈ (kept ps).keys := by
  have hopt : k ∈ (ps.filter fun p => isOptional p.2).map Prod.fst ↔ s.isOptional = true := by
    rw [List.mem_map]
    constructor
    · rintro ⟨p, hp, rfl⟩
      rw [List.mem_filter] at hp
      have h1 := Table.get?_of_mem hd hk
      rw [Table.get?_of_mem hd hp.1, Option.some.injEq] at h1
      exact h1 ▸ hp.2
    · intro ho
      exact ⟨(k, s), List.mem_filter.mpr ⟨hk, ho⟩, rfl⟩
  unfold keptRequired
  rw [List.mem_filter, List.mem_filter, Table.has_iff, Bool.not_eq_true', ← Bool.not_eq_true,
    List.contains_iff_mem, hopt, Bool.not_eq_true, and_assoc]

/-- A property that is kept fits the same objects as before. -/
theorem fits_kept {ps : Table String Schema} (hd : ps.Distinct) {k : String} {s t : Schema}
    (hk : (k, s) ∈ ps) (ht : present? s = some t) {rs : Names} {fs : List (String × Datum)} :
    Fits known (keptRequired ps rs) fs (k, t) ↔ Fits known rs fs (k, s) := by
  have hkeys : k ∈ (kept ps).keys := Table.mem_keys_of_mem (mem_kept.mpr ⟨s, hk, ht⟩)
  unfold Fits
  rw [mem_keptRequired hd hk]
  constructor
  · rintro (⟨hu, hr⟩ | hv)
    · cases ho : s.isOptional with
      | false => exact .inl ⟨hu, fun h => hr ⟨h, ho, hkeys⟩⟩
      | true =>
        rw [hu]
        exact .inr (accepts_undefined_of_isOptional ho)
    · exact .inr (accepts_of_present? ht hv)
  · rintro (⟨hu, hr⟩ | hv)
    · exact .inl ⟨hu, fun h => hr h.1⟩
    · cases ho : s.isOptional with
      | false =>
        rw [present?_of_not_optional ho, Option.some.injEq] at ht
        exact .inr (ht ▸ hv)
      | true =>
        refine (accepts_present? ht hv).imp_left fun hu => ⟨hu, fun h => ?_⟩
        exact absurd h.2.1 (by simp)

theorem accepts_objectFrom {ps : Table String Schema} (hd : ps.Distinct) {rs : Names} {n : Notes}
    (hv : Accepts known (.object ps rs n) v) : Accepts known (objectFrom ps rs n) v := by
  rw [objectFrom_eq, accepts_object]
  obtain ⟨fs, rfl, hfs⟩ := accepts_object.mp hv
  refine ⟨fs, rfl, fun p hp => ?_⟩
  obtain ⟨s, hs, ht⟩ := mem_kept.mp hp
  exact (fits_kept hd hs ht).mpr (hfs _ hs)

theorem exists_present? {s : Schema} (h : s.isUndefined = false) : ∃ t, present? s = some t := by
  cases s with
  | undefined => cases h
  | union ms n =>
    simp only [present?]
    split_ifs <;> exact ⟨_, rfl⟩
  | _ => exact ⟨_, rfl⟩

theorem accepts_of_objectFrom {ps : Table String Schema} (hd : ps.Distinct)
    (hps : ∀ p ∈ ps, p.2.isUndefined = false) {rs : Names} {n : Notes}
    (hv : Accepts known (objectFrom ps rs n) v) : Accepts known (.object ps rs n) v := by
  rw [objectFrom_eq] at hv
  obtain ⟨fs, rfl, hfs⟩ := accepts_object.mp hv
  refine accepts_object.mpr ⟨fs, rfl, fun p hp => ?_⟩
  obtain ⟨t, ht⟩ := exists_present? (hps p hp)
  exact (fits_kept hd hp ht).mp (hfs _ (mem_kept.mpr ⟨p.2, hp, ht⟩))

/-! ### Intersections -/

theorem accepts_flattenIntersection {ms : List Schema} :
    (∀ m ∈ flattenIntersection ms, Accepts known m v) ↔ ∀ m ∈ ms, Accepts known m v := by
  constructor
  · intro h m hm
    cases ho : m.isOpen with
    | false => exact h m (mem_flattenIntersection.mpr (.inl ⟨hm, ho⟩))
    | true =>
      have hinner : ∀ x ∈ m.children, Accepts known x v := fun x hx =>
        h x (mem_flattenIntersection.mpr (.inr ⟨m, hm, ho, hx⟩))
      obtain ⟨first, inner, n, rfl, -⟩ := isOpen_iff.mp ho
      exact accepts_intersection.mpr hinner
  · intro h m hm
    rcases mem_flattenIntersection.mp hm with ⟨hm, -⟩ | ⟨x, hx, ho, hm⟩
    · exact h m hm
    · obtain ⟨first, inner, n, rfl, -⟩ := isOpen_iff.mp ho
      exact accepts_intersection.mp (h _ hx) m hm

/-- The names of an object's properties. -/
def propertyNames : Schema → List String
  | .object properties _ _ => Table.keys properties
  | _ => []

/-- No two schemas have a property of the same name. -/
def Apart (ms : List Schema) : Prop :=
  ms.Pairwise fun a b => ∀ name ∈ a.propertyNames, name ∉ b.propertyNames

instance (ms : List Schema) : Decidable (Apart ms) :=
  inferInstanceAs (Decidable
    (ms.Pairwise fun a b => ∀ name ∈ a.propertyNames, name ∉ b.propertyNames))

/-- Adding the properties of an object without common ones is asking for both. -/
theorem accepts_mergeObject {parts : Table String Schema × Names} {n : Notes}
    (hp : (Schema.object parts.1 parts.2 n).Normal) {m : Schema} (hk : m.Keyed) (hm : m.Normal)
    (hd : parts.1.keys.Disjoint m.propertyNames) :
    Accepts known (.object (mergeObject parts m).1 (mergeObject parts m).2 n) v ↔
      Accepts known (.object parts.1 parts.2 n) v ∧ (m.isObject = true → Accepts known m v) := by
  cases m with
  | object ps rs k =>
    have hleft : ∀ p ∈ parts.1, ∀ fs, Fits known (Names.addAll parts.2 rs) fs p ↔
        Fits known parts.2 fs p := by
      intro p hp fs
      have hr : p.1 ∉ rs := fun hr => hd (Table.mem_keys_of_mem hp) (hm.own.1 _ hr)
      simp only [Fits, Names.mem_addAll, hr, or_false]
    have hright : ∀ p ∈ ps, ∀ fs, Fits known (Names.addAll parts.2 rs) fs p ↔
        Fits known rs fs p := by
      intro p hps fs
      have hr : p.1 ∉ parts.2 := fun hr => hd (hp.own.1 _ hr) (Table.mem_keys_of_mem hps)
      simp only [Fits, Names.mem_addAll, hr, false_or]
    simp only [mergeObject, Table.extend_of_disjoint hk.own.1 hd, accepts_object, isObject,
      forall_const, List.forall_mem_append]
    constructor
    · rintro ⟨fs, rfl, hl, hr⟩
      exact ⟨⟨fs, rfl, fun p hp => (hleft p hp fs).mp (hl p hp)⟩,
        ⟨fs, rfl, fun p hp => (hright p hp fs).mp (hr p hp)⟩⟩
    · rintro ⟨⟨fs, rfl, hl⟩, ⟨gs, he, hr⟩⟩
      cases he
      exact ⟨fs, rfl, fun p hp => (hleft p hp fs).mpr (hl p hp),
        fun p hp => (hright p hp fs).mpr (hr p hp)⟩
  | _ => simp [mergeObject, isObject]

theorem accepts_foldl_mergeObject {ms : List Schema} (hms : ∀ m ∈ ms, m.Keyed ∧ m.Normal)
    (ha : Apart ms) (parts : Table String Schema × Names) {n : Notes}
    (hp : (Schema.object parts.1 parts.2 n).Normal)
    (hd : ∀ m ∈ ms, parts.1.keys.Disjoint m.propertyNames) :
    Accepts known (.object (ms.foldl mergeObject parts).1 (ms.foldl mergeObject parts).2 n) v ↔
      Accepts known (.object parts.1 parts.2 n) v ∧
        ∀ m ∈ ms, m.isObject = true → Accepts known m v := by
  induction ms generalizing parts with
  | nil => simp
  | cons m ms ih =>
    rw [List.forall_mem_cons] at hms hd
    have ha' := List.pairwise_cons.mp ha
    -- the names that the merged object has are those of both parts
    have hd' : ∀ x ∈ ms, (mergeObject parts m).1.keys.Disjoint x.propertyNames := by
      intro x hx name hname
      cases m with
      | object ps rs k =>
        rcases Table.mem_keys_extend.mp hname with h | h
        · exact hd.2 x hx h
        · exact ha'.1 x hx name h
      | _ => exact hd.2 x hx hname
    rw [List.foldl_cons, ih hms.2 ha'.2 _ (normal_mergeObject hp hms.1.2) hd',
      accepts_mergeObject hp hms.1.1 hms.1.2 hd.1, List.forall_mem_cons, and_assoc]

/-- The objects of an intersection mean the same as one, when no two have a common property. -/
theorem accepts_foldObjects {ms : List Schema} (hms : ∀ m ∈ ms, m.Keyed ∧ m.Normal)
    (ha : Apart ms) :
    (∀ m ∈ foldObjects ms, Accepts known m v) ↔ ∀ m ∈ ms, Accepts known m v := by
  rcases exists_first_object ms with h | ⟨pre, ps, rs, n, post, rfl, h⟩
  · rw [foldObjects_of_none h]
  · rw [List.forall_mem_append, List.forall_mem_cons] at hms
    obtain ⟨-, hpost, -⟩ := List.pairwise_append.mp ha
    have hpost' := List.pairwise_cons.mp hpost
    rw [foldObjects_append h, List.forall_mem_append, List.forall_mem_cons,
      accepts_foldl_mergeObject hms.2.2 hpost'.2 (ps, rs) hms.2.1.2
        fun m hm name => hpost'.1 m hm name,
      List.forall_mem_append, List.forall_mem_cons, and_assoc]
    refine and_congr_right' (and_congr_right' ⟨fun ⟨hobj, hrest⟩ m hm => ?_, fun h => ⟨?_, ?_⟩⟩)
    · cases ho : m.isObject with
      | true => exact hobj m hm ho
      | false => exact hrest m (List.mem_filter.mpr ⟨hm, by simp [ho]⟩)
    · exact fun m hm _ => h m hm
    · exact fun m hm => h m (List.mem_of_mem_filter hm)

theorem accepts_intersectionOf {ms : List Schema} (hms : ∀ m ∈ ms, m.Keyed ∧ m.Normal)
    (ha : Apart (flattenIntersection ms)) {n : Notes} :
    Accepts known (intersectionOf ms n) v ↔ ∀ m ∈ ms, Accepts known m v := by
  have hflat : ∀ m ∈ flattenIntersection ms, m.Keyed ∧ m.Normal := by
    intro m hm
    rcases mem_flattenIntersection.mp hm with ⟨hm, -⟩ | ⟨x, hx, -, hm⟩
    · exact hms m hm
    · exact ⟨(hms x hx).1.child hm, (hms x hx).2.child hm⟩
  rw [← accepts_flattenIntersection, ← accepts_foldObjects hflat ha]
  unfold intersectionOf
  split
  · next m hm => simp [hm]
  · exact accepts_intersection

/-! ### The whole -/

/-- The objects that are folded together at a node have no common property. -/
def FoldsApart : Schema → Prop
  | .intersection members _ => Apart (flattenIntersection (members.map canonical))
  | .primitive .. | .array .. | .object .. | .record .. | .union .. | .tuple .. | .reference ..
  | .any _ | .undefined _ => True

instance : DecidablePred FoldsApart
  | .intersection members _ =>
    inferInstanceAs (Decidable (Apart (flattenIntersection (members.map canonical))))
  | .primitive .. | .array .. | .object .. | .record .. | .union .. | .tuple .. | .reference ..
  | .any _ | .undefined _ => .isTrue trivial

theorem canonical_keyed_normal {ms : List Schema} (h : ∀ m ∈ ms, m.Keyed) :
    ∀ m ∈ ms.map canonical, m.Keyed ∧ m.Normal :=
  List.forall_mem_map.mpr fun m hm => ⟨(h m hm).canonical, normal_canonical m⟩

theorem accepts_canonical_step {s : Schema} (hk : s.Keyed) (ha : s.FoldsApart)
    (ih : ∀ c ∈ s.children, ∀ v, Accepts known c v → Accepts known c.canonical v)
    (hv : Accepts known s v) : Accepts known s.canonical v := by
  cases s with
  | primitive | reference | any | undefined => exact hv
  | array s n =>
    rw [Accepts] at hv
    obtain ⟨vs, rfl, hvs⟩ := hv
    rw [canonical_array, Accepts]
    exact ⟨vs, rfl, fun x hx => ih s (by simp) x (hvs x hx)⟩
  | record d c n =>
    rw [Accepts] at hv
    obtain ⟨fs, rfl, hfs⟩ := hv
    rw [canonical_record, Accepts]
    exact ⟨fs, rfl, fun f hf => ih c (by simp) f.2 (hfs f hf)⟩
  | tuple ms n =>
    obtain ⟨vs, rfl, hvs⟩ := accepts_tuple.mp hv
    rw [canonical_tuple, accepts_tuple]
    exact ⟨vs, rfl, List.forall₂_map_left_iff.mpr
      (forall₂_imp_of_mem hvs fun m hm x hx => ih m hm x hx)⟩
  | object ps rs n =>
    obtain ⟨fs, rfl, hfs⟩ := accepts_object.mp hv
    rw [canonical_object]
    refine accepts_objectFrom (distinct_canonical hk.own.1) (accepts_object.mpr ⟨fs, rfl, ?_⟩)
    exact List.forall_mem_map.mpr fun p hp =>
      (hfs p hp).imp_right (ih p.2 (List.mem_map_of_mem hp) _)
  | union ms n =>
    obtain ⟨m, hm, hv⟩ := accepts_union.mp hv
    have hms := canonical_keyed_normal (keyed_iff.mp hk).2
    rw [children_union] at hms
    rw [canonical_union, accepts_unionOf hms
      (List.ne_nil_of_mem (List.mem_map_of_mem hm)) hk.own]
    exact ⟨m.canonical, List.mem_map_of_mem hm, ih m hm v hv⟩
  | intersection ms n =>
    have hms := canonical_keyed_normal (keyed_iff.mp hk).2
    rw [children_intersection] at hms
    rw [canonical_intersection, accepts_intersectionOf hms ha, List.forall_mem_map]
    exact fun m hm => ih m hm v (accepts_intersection.mp hv m hm)

/-- A union has members, and no property of an object is gone in canonical form. -/
def Lossless : Schema → Prop
  | .union members _ => members ≠ []
  | .object properties _ _ => ∀ p ∈ properties, p.2.canonical.isUndefined = false
  | .primitive .. | .array .. | .record .. | .intersection .. | .tuple .. | .reference ..
  | .any _ | .undefined _ => True

instance : DecidablePred Lossless
  | .union members _ => inferInstanceAs (Decidable (members ≠ []))
  | .object properties _ _ =>
    inferInstanceAs (Decidable (∀ p ∈ properties, p.2.canonical.isUndefined = false))
  | .primitive .. | .array .. | .record .. | .intersection .. | .tuple .. | .reference ..
  | .any _ | .undefined _ => .isTrue trivial

theorem accepts_of_canonical_step {s : Schema} (hk : s.Keyed) (ha : s.FoldsApart)
    (hl : s.Lossless) (ih : ∀ c ∈ s.children, ∀ v, Accepts known c.canonical v → Accepts known c v)
    (hv : Accepts known s.canonical v) : Accepts known s v := by
  cases s with
  | primitive | reference | any | undefined => exact hv
  | array s n =>
    rw [canonical_array, Accepts] at hv
    obtain ⟨vs, rfl, hvs⟩ := hv
    rw [Accepts]
    exact ⟨vs, rfl, fun x hx => ih s (by simp) x (hvs x hx)⟩
  | record d c n =>
    rw [canonical_record, Accepts] at hv
    obtain ⟨fs, rfl, hfs⟩ := hv
    rw [Accepts]
    exact ⟨fs, rfl, fun f hf => ih c (by simp) f.2 (hfs f hf)⟩
  | tuple ms n =>
    rw [canonical_tuple, accepts_tuple] at hv
    obtain ⟨vs, rfl, hvs⟩ := hv
    refine accepts_tuple.mpr ⟨vs, rfl, ?_⟩
    exact forall₂_imp_of_mem (List.forall₂_map_left_iff.mp hvs) fun m hm x hx => ih m hm x hx
  | object ps rs n =>
    rw [canonical_object] at hv
    have hv' := accepts_of_objectFrom (distinct_canonical hk.own.1) (List.forall_mem_map.mpr hl) hv
    obtain ⟨fs, rfl, hfs⟩ := accepts_object.mp hv'
    refine accepts_object.mpr ⟨fs, rfl, fun p hp => ?_⟩
    exact (List.forall_mem_map.mp hfs p hp).imp_right (ih p.2 (List.mem_map_of_mem hp) _)
  | union ms n =>
    have hms := canonical_keyed_normal (keyed_iff.mp hk).2
    rw [children_union] at hms
    have hne : ms.map canonical ≠ [] := mt List.map_eq_nil_iff.mp hl
    rw [canonical_union, accepts_unionOf hms hne hk.own] at hv
    obtain ⟨c, hc, hv⟩ := hv
    obtain ⟨m, hm, rfl⟩ := List.mem_map.mp hc
    exact accepts_union.mpr ⟨m, hm, ih m hm v hv⟩
  | intersection ms n =>
    have hms := canonical_keyed_normal (keyed_iff.mp hk).2
    rw [children_intersection] at hms
    rw [canonical_intersection, accepts_intersectionOf hms ha, List.forall_mem_map] at hv
    exact accepts_intersection.mpr fun m hm => ih m hm v (hv m hm)

/-- Canonicalization keeps what a schema accepts, where the objects that it folds are apart; it adds
nothing, where no union is empty and no property vanishes. -/
theorem canonical_keeps_acceptance (known : String → Origin → Datum → Prop) {s : Schema}
    (hk : s.Keyed) (ha : ∀ t ∈ s.nodes, t.FoldsApart) :
    (∀ v, Accepts known s v → Accepts known s.canonical v) ∧
      ((∀ t ∈ s.nodes, t.Lossless) → ∀ v, Accepts known s.canonical v → Accepts known s v) := by
  constructor
  · induction s using induction_children with
    | step s ih =>
      have hchild := (forall_nodes.mp ha).2
      intro v
      exact accepts_canonical_step hk (ha s (self_mem_nodes s)) fun c hc =>
        ih c hc (hk.child hc) (hchild c hc)
  · intro hl
    induction s using induction_children with
    | step s ih =>
      have hchild := (forall_nodes.mp ha).2
      have hlchild := (forall_nodes.mp hl).2
      intro v
      exact accepts_of_canonical_step hk (ha s (self_mem_nodes s)) (hl s (self_mem_nodes s))
        fun c hc => ih c hc (hk.child hc) (hchild c hc) (hlchild c hc)

/-- Two objects, one with an optional property and one with a nested union of literals. -/
def nameAndState : Schema :=
  .intersection
    [.object [("name", .union [.undefined .none, .primitive .string none .none] .none)] ["name"]
      .none,
     .object [("state", .union [.union [.primitive .string (some [.string "on"]) .none,
        .reference "State" (.package "states") .none] .none,
        .primitive .string (some [.string "off"]) .none] .none)] ["state"] .none] .none

/-- The form changes, the meaning does not. -/
theorem canonical_keeps_acceptance_example :
    nameAndState.canonical.same nameAndState = false ∧
      ∀ known v, Accepts known nameAndState.canonical v ↔ Accepts known nameAndState v := by
  refine ⟨by decide, fun known v => ?_⟩
  have h := canonical_keeps_acceptance known (s := nameAndState) (by decide) (by decide)
  exact ⟨h.2 (by decide) v, h.1 v⟩

end CodecDocs.Schema
