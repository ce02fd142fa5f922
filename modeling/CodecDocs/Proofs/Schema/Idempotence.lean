import CodecDocs.Proofs.Schema.Equality
import CodecDocs.Proofs.Schema.NormalForm
import Mathlib

/-! When canonicalization is done after one pass. It never makes a schema larger, and it makes every
schema smaller in which an object has an `undefined` property; equal schemas are equally large. So
the canonical form of a canonical schema is that schema exactly if no such property is left in it.
-/

namespace CodecDocs.Schema

/-- The number of nodes. -/
def weight (s : Schema) : ℕ := s.nodes.length

/-- The number of nodes in a list of schemas. -/
def totalWeight (ms : List Schema) : ℕ := (ms.map weight).sum

@[simp] theorem totalWeight_nil : totalWeight [] = 0 := rfl

@[simp] theorem totalWeight_cons (m : Schema) (ms : List Schema) :
    totalWeight (m :: ms) = weight m + totalWeight ms := by simp [totalWeight]

@[simp] theorem totalWeight_append (ms ns : List Schema) :
    totalWeight (ms ++ ns) = totalWeight ms + totalWeight ns := by simp [totalWeight]

theorem weight_eq (s : Schema) : weight s = totalWeight s.children + 1 := by
  rw [weight, nodes_eq, List.length_cons, List.length_flatMap]
  rfl

@[simp] theorem weight_withNotes (n : Notes) (s : Schema) : weight (s.withNotes n) = weight s := by
  rw [weight_eq, weight_eq s, children_withNotes]

@[simp] theorem weight_inPlaceOf (n : Notes) (s : Schema) : weight (inPlaceOf n s) = weight s :=
  weight_withNotes _ s

theorem weight_pos (s : Schema) : 0 < weight s := by rw [weight_eq]; omega

theorem totalWeight_le_of_sublist {ms ns : List Schema} (h : ms.Sublist ns) :
    totalWeight ms ≤ totalWeight ns :=
  (h.map weight).sum_le_sum fun _ _ => Nat.zero_le _

/-! ### The passes -/

theorem totalWeight_flattenUnion_le (ms : List Schema) (n : Notes) :
    totalWeight (flattenUnion n ms).2 ≤ totalWeight ms := by
  induction ms generalizing n with
  | nil => simp [flattenUnion]
  | cons m ms ih =>
    cases m with
    | union inner k =>
      have := ih (n.fill k)
      rw [flattenUnion_cons_union, totalWeight_append, totalWeight_cons, weight_eq, children_union]
      omega
    | _ =>
      have := ih n
      rw [flattenUnion_cons rfl, totalWeight_cons, totalWeight_cons]
      omega

theorem totalWeight_mergePrimitives_le (ms : List Schema) :
    totalWeight (mergePrimitives ms) ≤ totalWeight ms := by
  suffices ∀ acc, totalWeight (ms.foldl mergeInto acc) ≤ totalWeight acc + totalWeight ms by
    simpa [mergePrimitives] using this []
  induction ms with
  | nil => simp
  | cons m ms ih =>
    intro acc
    have hstep : totalWeight (mergeInto acc m) ≤ totalWeight acc + weight m := by
      rcases mergeInto_cases acc m with ⟨he, -⟩ | ⟨kind, vs, k, pre, ws, n, post, -, -, rfl, -, he⟩
      · simp [he]
      · simp [he, weight_eq (.primitive _ _ _)]
    have := ih (mergeInto acc m)
    rw [List.foldl_cons, totalWeight_cons]
    omega

theorem weight_collapseUnion_le (ms : List Schema) (n : Notes) :
    weight (collapseUnion ms n) ≤ totalWeight ms + 1 := by
  unfold collapseUnion
  split
  · simp [weight_eq (.undefined _)]
  · simp
  · rw [weight_eq, children_union]

theorem weight_unionOf_le (ms : List Schema) (n : Notes) :
    weight (unionOf ms n) ≤ totalWeight ms + 1 := by
  refine (weight_collapseUnion_le _ _).trans (Nat.add_le_add_right ?_ 1)
  calc totalWeight (distinct (mergePrimitives (flattenUnion n ms).2))
      ≤ totalWeight (mergePrimitives (flattenUnion n ms).2) :=
        totalWeight_le_of_sublist (distinct_sublist _)
    _ ≤ totalWeight (flattenUnion n ms).2 := totalWeight_mergePrimitives_le _
    _ ≤ totalWeight ms := totalWeight_flattenUnion_le ms n

theorem totalWeight_flattenIntersection_le (ms : List Schema) :
    totalWeight (flattenIntersection ms) ≤ totalWeight ms := by
  induction ms with
  | nil => simp [flattenIntersection]
  | cons m ms ih =>
    cases hm : m.isOpen with
    | true =>
      obtain ⟨first, inner, n, rfl, hn⟩ := isOpen_iff.mp hm
      rw [flattenIntersection_cons_open _ _ hn, totalWeight_append,
        totalWeight_cons (intersection _ _), weight_eq (intersection _ _), children_intersection]
      omega
    | false =>
      rw [flattenIntersection_cons hm, totalWeight_cons, totalWeight_cons]
      omega

theorem totalWeight_insert_le (t : Table String Schema) (k : String) (s : Schema) :
    totalWeight ((t.insert k s).map Prod.snd) ≤ totalWeight (t.map Prod.snd) + weight s := by
  induction t with
  | nil => simp [Table.insert]
  | cons p t ih =>
    simp only [Table.insert]
    split_ifs with hk
    · simp only [List.map_cons, totalWeight_cons]
      omega
    · simp only [List.map_cons, totalWeight_cons]
      omega

theorem totalWeight_extend_le (t u : Table String Schema) :
    totalWeight ((t.extend u).map Prod.snd) ≤
      totalWeight (t.map Prod.snd) + totalWeight (u.map Prod.snd) := by
  induction u generalizing t with
  | nil => simp
  | cons p u ih =>
    have hfirst := totalWeight_insert_le t p.1 p.2
    have hrest := ih (t.insert p.1 p.2)
    simp only [Table.extend_cons, List.map_cons, totalWeight_cons]
    omega

/-- The nodes that move into the first object leave the objects that they come from. -/
theorem totalWeight_foldl_mergeObject_le (ms : List Schema)
    (parts : Table String Schema × Names) :
    totalWeight ((ms.foldl mergeObject parts).1.map Prod.snd) +
        totalWeight (ms.filter fun m => !m.isObject) ≤
      totalWeight (parts.1.map Prod.snd) + totalWeight ms := by
  induction ms generalizing parts with
  | nil => simp
  | cons m ms ih =>
    have hrest := ih (mergeObject parts m)
    rw [List.foldl_cons, totalWeight_cons]
    cases hm : m.isObject with
    | true =>
      rw [List.filter_cons_of_neg (by simp [hm])]
      cases m with
      | object ps rs n =>
        have hext := totalWeight_extend_le parts.1 ps
        rw [weight_eq (object _ _ _), children_object]
        simp only [mergeObject] at hrest ⊢
        omega
      | _ => cases hm
    | false =>
      have hsame : mergeObject parts m = parts := by
        cases m with
        | object => cases hm
        | _ => rfl
      rw [List.filter_cons_of_pos (by simp [hm]), totalWeight_cons, hsame]
      rw [hsame] at hrest
      omega

theorem totalWeight_foldObjects_le (ms : List Schema) :
    totalWeight (foldObjects ms) ≤ totalWeight ms := by
  rcases exists_first_object ms with h | ⟨pre, ps, rs, n, post, rfl, h⟩
  · rw [foldObjects_of_none h]
  · have := totalWeight_foldl_mergeObject_le post (ps, rs)
    dsimp only at this
    simp only [foldObjects_append h, totalWeight_append, totalWeight_cons, weight_eq (object _ _ _),
      children_object]
    omega

theorem weight_intersectionOf_le (ms : List Schema) (n : Notes) :
    weight (intersectionOf ms n) ≤ totalWeight ms + 1 := by
  have h : totalWeight (foldObjects (flattenIntersection ms)) ≤ totalWeight ms :=
    (totalWeight_foldObjects_le _).trans (totalWeight_flattenIntersection_le ms)
  unfold intersectionOf
  split
  · next m hm =>
    rw [hm, totalWeight_cons, totalWeight_nil] at h
    rw [weight_inPlaceOf]
    omega
  · rw [weight_eq, children_intersection]
    omega

theorem weight_present?_le {s t : Schema} (h : present? s = some t) : weight t ≤ weight s := by
  cases s with
  | undefined => simp [present?] at h
  | union ms n =>
    simp only [present?] at h
    split_ifs at h <;> cases h
    · have hsub := totalWeight_le_of_sublist (List.filter_sublist (l := ms)
        (p := fun m => !m.isUndefined))
      have := weight_collapseUnion_le (ms.filter fun m => !m.isUndefined) n
      rw [weight_eq (union _ _), children_union]
      omega
    · exact le_rfl
  | _ => cases h; exact le_rfl

theorem totalWeight_kept_le (ps : Table String Schema) :
    totalWeight ((kept ps).map Prod.snd) ≤ totalWeight (ps.map Prod.snd) := by
  induction ps with
  | nil => simp [kept]
  | cons p ps ih =>
    rw [List.map_cons, totalWeight_cons]
    cases hp : present? p.2 with
    | none =>
      rw [kept_cons_none hp]
      omega
    | some t =>
      have := weight_present?_le hp
      simp only [kept_cons_some hp, List.map_cons, totalWeight_cons]
      omega

/-- A property that is not kept takes its node away. -/
theorem not_undefined_of_weight_kept {ps : Table String Schema}
    (h : totalWeight (ps.map Prod.snd) ≤ totalWeight ((kept ps).map Prod.snd)) :
    ∀ p ∈ ps, p.2.isUndefined = false := by
  induction ps with
  | nil => simp
  | cons p ps ih =>
    have hle := totalWeight_kept_le ps
    rw [List.map_cons, totalWeight_cons] at h
    cases hp : present? p.2 with
    | none =>
      have := weight_pos p.2
      rw [kept_cons_none hp] at h
      omega
    | some t =>
      have := weight_present?_le hp
      simp only [kept_cons_some hp, List.map_cons, totalWeight_cons] at h
      refine List.forall_mem_cons.mpr ⟨?_, ih (by omega)⟩
      cases hs : p.2 with
      | undefined => simp [hs, present?] at hp
      | _ => rfl

/-! ### The whole -/

theorem totalWeight_map_canonical_le {ms : List Schema}
    (h : ∀ m ∈ ms, weight m.canonical ≤ weight m) :
    totalWeight (ms.map canonical) ≤ totalWeight ms := by
  simpa [totalWeight, Function.comp_def] using List.sum_le_sum h

/-- Where nothing is lost in the whole, nothing is lost in a member. -/
theorem weight_le_of_totalWeight_le {ms : List Schema}
    (h : ∀ m ∈ ms, weight m.canonical ≤ weight m)
    (ht : totalWeight ms ≤ totalWeight (ms.map canonical)) :
    ∀ m ∈ ms, weight m ≤ weight m.canonical := by
  intro m hm
  by_contra hlt
  have := List.sum_lt_sum (l := ms) (fun m => weight m.canonical) weight h ⟨m, hm, by omega⟩
  simp only [totalWeight, List.map_map, Function.comp_def] at ht
  omega

theorem map_snd_canonical (ps : List (String × Schema)) :
    (ps.map fun p => (p.1, p.2.canonical)).map Prod.snd = (ps.map Prod.snd).map canonical := by
  simp

theorem weight_canonical_le (s : Schema) : weight s.canonical ≤ weight s := by
  induction s using induction_children with
  | step s ih =>
    have hc := totalWeight_map_canonical_le ih
    rw [weight_eq s]
    cases s with
    | primitive | reference | any | undefined => exact le_rfl
    | array s n =>
      rw [weight_eq]
      exact Nat.add_le_add_right hc 1
    | record d c n =>
      rw [weight_eq, children_canonical_record]
      exact Nat.add_le_add_right hc 1
    | tuple ms n =>
      rw [canonical_tuple, weight_eq]
      exact Nat.add_le_add_right hc 1
    | object ps rs n =>
      rw [canonical_object, objectFrom_eq, weight_eq]
      refine Nat.add_le_add_right ((totalWeight_kept_le _).trans ?_) 1
      rwa [map_snd_canonical]
    | union ms n =>
      rw [canonical_union]
      exact (weight_unionOf_le _ n).trans (Nat.add_le_add_right hc 1)
    | intersection ms n =>
      rw [canonical_intersection]
      exact (weight_intersectionOf_le _ n).trans (Nat.add_le_add_right hc 1)

/-- A schema that canonicalization does not make smaller has no `undefined` property. -/
theorem substantial_of_weight_le {s : Schema} (h : weight s ≤ weight s.canonical) :
    ∀ t ∈ s.nodes, t.Substantial := by
  induction s using induction_children with
  | step s ih =>
    rw [forall_nodes]
    -- where the children keep their weight together, each of them does
    have hchild : totalWeight s.children ≤ totalWeight (s.children.map canonical) →
        ∀ c ∈ s.children, ∀ t ∈ c.nodes, t.Substantial := fun ht c hc =>
      ih c hc (weight_le_of_totalWeight_le (fun m _ => weight_canonical_le m) ht c hc)
    rw [weight_eq s] at h
    cases s with
    | primitive | reference | any | undefined => exact ⟨trivial, by simp [children]⟩
    | array s n =>
      rw [weight_eq] at h
      exact ⟨trivial, hchild (Nat.le_of_add_le_add_right h)⟩
    | record d c n =>
      rw [weight_eq, children_canonical_record] at h
      exact ⟨trivial, hchild (Nat.le_of_add_le_add_right h)⟩
    | tuple ms n =>
      rw [canonical_tuple, weight_eq] at h
      exact ⟨trivial, hchild (Nat.le_of_add_le_add_right h)⟩
    | union ms n =>
      rw [canonical_union] at h
      have hle := h.trans (weight_unionOf_le (ms.map canonical) n)
      exact ⟨trivial, hchild (Nat.le_of_add_le_add_right hle)⟩
    | intersection ms n =>
      rw [canonical_intersection] at h
      have hle := h.trans (weight_intersectionOf_le (ms.map canonical) n)
      exact ⟨trivial, hchild (Nat.le_of_add_le_add_right hle)⟩
    | object ps rs n =>
      rw [canonical_object, objectFrom_eq, weight_eq] at h
      have hle := Nat.le_of_add_le_add_right h
      have hkept := totalWeight_kept_le (ps.map fun p => (p.1, p.2.canonical))
      have hmap := totalWeight_map_canonical_le fun m (_ : m ∈ ps.map Prod.snd) =>
        weight_canonical_le m
      rw [← map_snd_canonical] at hmap
      refine ⟨fun p hp => ?_, hchild ?_⟩
      · have hdefined : ∀ q ∈ ps.map fun p => (p.1, p.2.canonical), q.2.isUndefined = false :=
          not_undefined_of_weight_kept (hmap.trans hle)
        have := hdefined _ (List.mem_map_of_mem hp)
        cases hu : p.2 with
        | undefined => simp [hu, canonical, isUndefined] at this
        | _ => rfl
      · rw [children_object, ← map_snd_canonical]
        exact hle.trans hkept

/-! ### Equal schemas -/

theorem totalWeight_eq_of_same {ms ns : List Schema}
    (h : List.Forall₂ (fun a b => a.same b = true) ms ns)
    (ih : ∀ m ∈ ms, ∀ t : Schema, m.same t = true → weight m = weight t) :
    totalWeight ms = totalWeight ns := by
  have hw : List.Forall₂ (fun a b => weight a = weight b) ms ns := forall₂_imp_of_mem h ih
  have hmap : ms.map weight = ns.map weight := by
    rw [← List.forall₂_eq_eq_eq, List.forall₂_map_left_iff, List.forall₂_map_right_iff]
    exact hw
  rw [totalWeight, hmap, totalWeight]

theorem weight_eq_of_same {s t : Schema} (hs : s.Keyed) (h : s.same t = true) :
    weight s = weight t := by
  induction s generalizing t with
  | primitive | reference | any | undefined =>
    cases t <;> simp [same] at h
    rfl
  | array s n ih =>
    cases t <;> simp only [same, Bool.and_eq_true, Bool.false_eq_true] at h
    rw [weight_eq, weight_eq (array _ _)]
    simp [ih (hs.child (by simp)) h.1]
  | record d c n ihd ihc =>
    cases t with
    | record e f m =>
      rw [weight_eq, weight_eq (record e _ _)]
      cases d <;> cases e <;> simp only [same, Bool.and_eq_true, Bool.false_eq_true] at h
      · simp [ihc (hs.child (by simp)) h.1]
      · simp [ihd _ rfl (hs.child (by simp)) h.1.1, ihc (hs.child (by simp)) h.1.2]
    | _ => cases d <;> simp [same] at h
  | union ms n ih | intersection ms n ih | tuple ms n ih =>
    cases t <;> simp only [same, Bool.and_eq_true, Bool.false_eq_true] at h
    rw [weight_eq, weight_eq]
    exact congrArg (· + 1) (totalWeight_eq_of_same (sameMembers_iff.mp h.1) fun m hm _ hmt =>
      ih m hm (hs.child hm) hmt)
  | object ps rs n ih =>
    cases t <;> simp only [same, Bool.and_eq_true, beq_iff_eq, Bool.false_eq_true] at h
    next qs ss m =>
    obtain ⟨⟨⟨hl, hf⟩, -⟩, -⟩ := h
    rw [keyed_object] at hs
    obtain ⟨us, hperm, hus⟩ := exists_perm_of_sameFields hs.1.1 hl hf
    have hvalues : List.Forall₂ (fun a b => a.same b = true) (ps.map Prod.snd)
        (us.map Prod.snd) := by
      rw [List.forall₂_map_left_iff, List.forall₂_map_right_iff]
      exact hus.imp fun _ _ h => h.2
    rw [weight_eq, weight_eq (object qs _ _), children_object, children_object]
    congr 1
    calc totalWeight (ps.map Prod.snd)
        = totalWeight (us.map Prod.snd) := totalWeight_eq_of_same hvalues
          (List.forall_mem_map.mpr fun p hp _ hpt => ih p hp (hs.2 p hp) hpt)
      _ = totalWeight (qs.map Prod.snd) := ((hperm.map _).map _).sum_eq

/-! ### Idempotence -/

/-- A second pass changes nothing exactly if the first one has left no `undefined` property. -/
theorem canonical_canonical_same_iff (s : Schema) (h : s.Keyed) :
    s.canonical.canonical.same s.canonical = true ↔
      ∀ t ∈ s.canonical.nodes, t.Substantial := by
  constructor
  · intro hsame
    refine substantial_of_weight_le ?_
    rw [weight_eq_of_same h.canonical.canonical hsame]
  · intro hs
    rw [canonical_of_normal (normal_canonical s) hs]
    exact same_refl h.canonical

/-- Two objects, one of them with an optional property, beside a reference. -/
def optionalBeside : Schema :=
  .intersection [.object [("a", .union [ofPrimitive .string, .undefined .none] .none)] ["a"] .none,
    refer "R" (.source "m"), .object [("b", enumeration .string [.string "c"])] ["b"] .none] .none

theorem canonical_canonical_same_examples :
    (undefinedTwice.Keyed ∧
      ¬ undefinedTwice.canonical.canonical.same undefinedTwice.canonical = true) ∧
    optionalBeside.Keyed ∧
      optionalBeside.canonical.canonical.same optionalBeside.canonical = true := by
  have hk : undefinedTwice.Keyed ∧ optionalBeside.Keyed := by decide
  refine ⟨⟨hk.1, fun h => ?_⟩, hk.2, ?_⟩
  · exact absurd ((canonical_canonical_same_iff _ hk.1).mp h) (by decide)
  · exact (canonical_canonical_same_iff _ hk.2).mpr (by decide)

end CodecDocs.Schema
