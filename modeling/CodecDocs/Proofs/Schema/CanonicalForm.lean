import CodecDocs.Proofs.Schema.Equality
import CodecDocs.Proofs.Schema.NormalForm

/-! The canonical form as it can be seen from outside: what the unions, intersections and objects
inside a canonical schema look like, and what becomes of a property that is a union with
`undefined`. The second rests on the first: next to `undefined` the members of a canonical schema
have nothing to merge with and nothing to repeat, so that taking `undefined` away gives back the
schema. -/

namespace CodecDocs.Schema

/-! ### Every depth -/

/-- Of members that exclude later ones of their sort there is at most one. -/
theorem countP_le_one {p : Schema → Bool} {ms : List Schema}
    (h : ms.Pairwise fun a b => p a = true → p b = false) : ms.countP p ≤ 1 := by
  induction ms with
  | nil => simp
  | cons m ms ih =>
    obtain ⟨hm, hms⟩ := List.pairwise_cons.mp h
    cases hp : p m with
    | false =>
      rw [List.countP_cons_of_neg (by simp [hp])]
      exact ih hms
    | true =>
      have hnone : ms.countP p = 0 :=
        List.countP_eq_zero.mpr fun x hx => by simp [hm x hx hp]
      rw [List.countP_cons_of_pos hp]
      omega

/-- In a schema whose tables are tables, members that differ do so in both directions. -/
theorem Differing.symm {ms : List Schema} (hk : ∀ m ∈ ms, m.Keyed) (h : Differing ms) :
    ms.Pairwise fun a b => a.same b = false := by
  refine h.imp_of_mem fun {a b} ha _ hab => ?_
  by_contra hsame
  rw [same_symm (hk a ha) (by simpa using hsame)] at hab
  cases hab

/-- Inside a canonical schema every union has two members or more, none of them a union, no two of
them equal and no two of them plain primitives of one kind. An intersection is empty or has two
members or more, one object at most and no member that could give up its own members. An object
requires names of its properties only, whatever was required before. -/
theorem canonical_form (s : Schema) :
    (∀ ms n, .union ms n ∈ s.canonical.nodes → 2 ≤ ms.length ∧ (∀ m ∈ ms, m.isUnion = false) ∧
      (ms.Pairwise fun a b => b.same a = false) ∧
      (s.Keyed → ms.Pairwise fun a b => a.same b = false) ∧
      ∀ kind, ms.countP (isPlain kind) ≤ 1) ∧
    (∀ ms n, .intersection ms n ∈ s.canonical.nodes → (ms = [] ∨ 2 ≤ ms.length) ∧
      ms.countP isObject ≤ 1 ∧ ∀ m ∈ ms, m.isOpen = false) ∧
    ∀ ps rs n, .object ps rs n ∈ s.canonical.nodes → ∀ name ∈ rs, name ∈ Table.keys ps := by
  have hnormal := normal_canonical s
  refine ⟨fun ms n hu => ?_, fun ms n hi => ?_, fun ps rs n ho => (hnormal _ ho).1⟩
  · obtain ⟨hl, hflat, hplain, hdiffer⟩ := hnormal _ hu
    refine ⟨hl, hflat, hdiffer, fun hk => hdiffer.symm fun m hm => ?_, fun kind => ?_⟩
    · exact fun t ht => hk.canonical t (nodes_subset hu (mem_nodes_of_child hm ht))
    · exact countP_le_one (hplain.imp fun hab => hab kind)
  · obtain ⟨hl, hclosed, honce⟩ := hnormal _ hi
    refine ⟨?_, countP_le_one honce, hclosed⟩
    match ms, hl with
    | [], _ => exact .inl rfl
    | [_], hl => exact absurd rfl hl
    | _ :: _ :: _, _ => exact .inr (by simp)

/-! ### Optional properties -/

theorem inPlaceOf_none (s : Schema) : inPlaceOf .none s = s := s.withNotes_notes

theorem collapseUnion_of_length {ms : List Schema} (h : 2 ≤ ms.length) (n : Notes) :
    collapseUnion ms n = .union ms n := by
  match ms, h with
  | _ :: _ :: _, _ => rfl

/-- The notes of a nested union are taken over as they are where there are none. -/
theorem none_fill {n : Notes} (h : n.Keyed) : Notes.none.fill n = n := by
  have hfill : Table.fill [] n.annotations = n.annotations := by
    rw [Table.fill_of_disjoint h.1 (by simp), Table.extend_of_disjoint h.1 (by simp),
      List.nil_append]
  rw [Notes.fill, Notes.none, hfill, Option.none_or]

theorem same_undefined {m : Schema} (h : m.isUndefined = false) (n : Notes) :
    m.same (.undefined n) = false ∧ (Schema.undefined n).same m = false := by
  cases m with
  | undefined => cases h
  | record d c k => cases d <;> exact ⟨rfl, rfl⟩
  | _ => exact ⟨rfl, rfl⟩

/-- A normal schema next to `undefined` in a union without notes, on either side, contributes
members that differ, and collapses out of them again. -/
theorem exists_members {t : Schema} (ht : t.Normal) (hk : t.notes.Keyed)
    (ho : t.isOptional = false) :
    ∃ ms n, ms ≠ [] ∧ (∀ m ∈ ms, m.isUndefined = false) ∧ PlainOnce ms ∧ Differing ms ∧
      collapseUnion ms n = t ∧
      flattenUnion .none [t, .undefined .none] = (n, ms ++ [.undefined .none]) ∧
      flattenUnion .none [.undefined .none, t] = (n, .undefined .none :: ms) := by
  cases hu : t.isUnion with
  | true =>
    obtain ⟨ms, n, rfl⟩ : ∃ ms n, t = .union ms n := by
      cases t with
      | union ms n => exact ⟨ms, n, rfl⟩
      | _ => cases hu
    obtain ⟨hl, -, hplain, hdiffer⟩ := ht.own
    have hm : ∀ m ∈ ms, m.isUndefined = false := by simpa [isOptional] using ho
    have hn : Notes.none.fill n = n := none_fill hk
    refine ⟨ms, n, by rintro rfl; simp at hl, hm, hplain, hdiffer, ?_, ?_, ?_⟩
    · exact collapseUnion_of_length hl n
    · rw [flattenUnion_cons_union, hn]
      rfl
    · rw [flattenUnion_cons rfl, flattenUnion_cons_union, hn]
      simp [flattenUnion]
  | false =>
    have hm : t.isUndefined = false := isOptional_of_not_union hu ▸ ho
    have hundefined : (Schema.undefined .none).isUnion = false := rfl
    refine ⟨[t], .none, by simp, by simpa using hm, List.pairwise_singleton _ _,
      List.pairwise_singleton _ _, inPlaceOf_none t, ?_, ?_⟩
    · exact flattenUnion_of_flat _ (by simp [hu, hundefined])
    · exact flattenUnion_of_flat _ (by simp [hu, hundefined])

/-- A schema that may be `undefined`, with what is left of it as a property. -/
def Leaves (s t : Schema) : Prop := s.isOptional = true ∧ present? s = some t

/-- Of flat members that neither merge nor repeat, those that are not `undefined` are left. -/
theorem leaves_collapseUnion {ms xs : List Schema} (hp : PlainOnce xs) (hd : Differing xs)
    (hl : 2 ≤ xs.length) (hx : .undefined .none ∈ xs)
    (hms : xs.filter (fun m => !m.isUndefined) = ms) (n : Notes) :
    (collapseUnion (distinct (mergePrimitives xs)) n).Leaves (collapseUnion ms n) := by
  have hany : xs.any isUndefined = true := List.any_eq_true.mpr ⟨_, hx, rfl⟩
  rw [mergePrimitives_of_plainOnce hp, distinct_of_differing hd, collapseUnion_of_length hl]
  exact ⟨hany, by rw [present?, if_pos hany, hms]⟩

/-- A union of a normal schema with `undefined` leaves the schema over. -/
theorem leaves_unionOf {t : Schema} (ht : t.Normal) (hk : t.notes.Keyed)
    (ho : t.isOptional = false) :
    (unionOf [t, .undefined .none] .none).Leaves t ∧
      (unionOf [.undefined .none, t] .none).Leaves t := by
  obtain ⟨ms, n, hne, hm, hplain, hdiffer, rfl, hright, hleft⟩ := exists_members ht hk ho
  have hlength : 1 ≤ ms.length := List.length_pos_iff.mpr hne
  have hfilter : ms.filter (fun m => !m.isUndefined) = ms :=
    List.filter_eq_self.mpr (by simpa using hm)
  have hundefined : ∀ kind, (Schema.undefined .none).isPlain kind = false := fun _ => rfl
  constructor
  · rw [unionOf, hright]
    refine leaves_collapseUnion ?_ ?_ (by simpa using hlength) (by simp) (by
      rw [List.filter_append, hfilter]; exact List.append_nil _) n
    · exact List.pairwise_append.mpr ⟨hplain, List.pairwise_singleton _ _, fun a _ b hb kind _ =>
        List.mem_singleton.mp hb ▸ hundefined kind⟩
    · exact List.pairwise_append.mpr ⟨hdiffer, List.pairwise_singleton _ _, fun a ha b hb =>
        List.mem_singleton.mp hb ▸ (same_undefined (hm a ha) _).2⟩
  · rw [unionOf, hleft]
    refine leaves_collapseUnion ?_ ?_ (by simpa using hlength) (by simp) (by
      rw [List.filter_cons_of_neg (by simp [isUndefined]), hfilter]) n
    · refine List.pairwise_cons.mpr ⟨fun b _ kind hkind => ?_, hplain⟩
      rw [hundefined kind] at hkind
      cases hkind
    · exact List.pairwise_cons.mpr ⟨fun b hb => (same_undefined (hm b hb) _).1, hdiffer⟩

/-- What an object keeps under a name, by the first property of that name. -/
theorem get?_kept {ps : Table String Schema} {name : String} {s t : Schema}
    (hs : ps.get? name = some s) (ht : present? s = some t) : (kept ps).get? name = some t := by
  induction ps with
  | nil => cases hs
  | cons p ps ih =>
    rw [Table.get?] at hs
    split_ifs at hs with hp
    · cases hs
      rw [kept_cons_some ht, Table.get?, if_pos hp]
    · cases hpresent : present? p.2 with
      | none =>
        rw [kept_cons_none hpresent]
        exact ih hs
      | some u =>
        rw [kept_cons_some hpresent, Table.get?, if_neg hp]
        exact ih hs

theorem not_mem_keptRequired {ps : Table String Schema} {name : String} {s : Schema}
    (hs : ps.get? name = some s) (ho : s.isOptional = true) (rs : Names) :
    name ∉ keptRequired ps rs := by
  intro hname
  have hkept := List.of_mem_filter (List.mem_of_mem_filter hname)
  have hoptional : name ∈ (ps.filter fun p => isOptional p.2).map Prod.fst :=
    List.mem_map.mpr ⟨(name, s), List.mem_filter.mpr ⟨Table.mem_of_get? hs, ho⟩, rfl⟩
  simp only [Bool.not_eq_true', List.contains_eq_mem, decide_eq_false_iff_not] at hkept
  exact hkept hoptional

/-- A property that is a union of a schema with `undefined` becomes an optional property of just
that schema in its canonical form, notes and all, unless that may be `undefined` itself. -/
theorem canonical_optional_property {ps : Table String Schema} {rs : Names} {n : Notes}
    {name : String} {t : Schema} (hk : (object ps rs n).Keyed) (ht : t.canonical.isOptional = false)
    (hp : ps.get? name = some (.union [t, .undefined .none] .none) ∨
      ps.get? name = some (.union [.undefined .none, t] .none)) :
    ∃ qs ss, (object ps rs n).canonical = .object qs ss n ∧
      Table.get? qs name = some t.canonical ∧ name ∉ ss := by
  have hleaves : t.Keyed → (union [t, .undefined .none] .none).canonical.Leaves t.canonical ∧
      (union [.undefined .none, t] .none).canonical.Leaves t.canonical := by
    intro hkt
    rw [canonical_union, canonical_union]
    exact leaves_unionOf (normal_canonical t) hkt.canonical.own.notes ht
  obtain ⟨s, hs, hoptional, hpresent⟩ :
      ∃ s, ps.get? name = some s ∧ s.canonical.Leaves t.canonical := by
    rcases hp with hp | hp
    · have hkt : t.Keyed := (hk.child (List.mem_map_of_mem (Table.mem_of_get? hp))).child (by simp)
      exact ⟨_, hp, (hleaves hkt).1⟩
    · have hkt : t.Keyed := (hk.child (List.mem_map_of_mem (Table.mem_of_get? hp))).child (by simp)
      exact ⟨_, hp, (hleaves hkt).2⟩
  have hcanonical : Table.get? (ps.map fun p => (p.1, p.2.canonical)) name = some s.canonical := by
    rw [Table.get?_map, hs]
    rfl
  refine ⟨_, _, by rw [canonical_object, objectFrom_eq], get?_kept hcanonical hpresent, ?_⟩
  exact not_mem_keptRequired hcanonical hoptional rs

/-- A choice between two words and a number, under a title. -/
def titledChoice : Schema :=
  .union [.union [literal (.string "on"), literal (.string "off")] .none, ofPrimitive .number]
    ⟨none, [("title", .string "State")]⟩

def optionalChoice : Schema :=
  .object [("id", ofPrimitive .string), ("state", .union [.undefined .none, titledChoice] .none)]
    ["id", "state"] .none

theorem canonical_optional_property_choice :
    optionalChoice.Keyed ∧ titledChoice.canonical.isOptional = false ∧
      titledChoice.canonical = .union [enumeration .string [.string "on", .string "off"],
        ofPrimitive .number] ⟨none, [("title", .string "State")]⟩ ∧
      ∃ qs ss, optionalChoice.canonical = .object qs ss .none ∧
        Table.get? qs "state" = some titledChoice.canonical ∧ "state" ∉ ss := by
  have hk : optionalChoice.Keyed := by decide
  exact ⟨hk, rfl, rfl, canonical_optional_property hk rfl (.inr rfl)⟩

end CodecDocs.Schema
