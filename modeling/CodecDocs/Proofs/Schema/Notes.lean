import CodecDocs.Proofs.Schema.Passes

/-! What becomes of notes. The comment and the annotations of a schema are those of its canonical
form as well, however it is rewritten: notes that move up from a nested union only fill what is
missing, and what is left of a union or an intersection takes the notes of the whole over its own.
The notes of members are another matter. Of the objects that an intersection is folded from only
the first one gives its notes. -/

namespace CodecDocs

namespace Notes

/-- All that the notes `n` say is said by `m`. -/
structure KeptBy (n m : Notes) : Prop where
  comment : ∀ comment, n.comment = some comment → m.comment = some comment
  annotation : ∀ key value, n.annotations.get? key = some value →
    m.annotations.get? key = some value

namespace KeptBy

variable {n m k : Notes}

theorem refl (n : Notes) : n.KeptBy n := ⟨fun _ h => h, fun _ _ h => h⟩

theorem trans (h : n.KeptBy m) (h' : m.KeptBy k) : n.KeptBy k :=
  ⟨fun comment hc => h'.comment comment (h.comment comment hc),
    fun key value hv => h'.annotation key value (h.annotation key value hv)⟩

theorem fill (n inner : Notes) : n.KeptBy (n.fill inner) where
  comment comment h := by rw [Notes.fill, h, Option.some_or]
  annotation key value h := by rw [Notes.fill, Table.get?_fill, h, Option.some_or]

/-- The notes of what is replaced win, if no annotation is written twice in them. -/
theorem under (h : n.annotations.Distinct) (inner : Notes) : n.KeptBy (inner.under n) where
  comment comment hc := by rw [Notes.under, hc, Option.some_or]
  annotation key value hv := by rw [Notes.under, Table.get?_extend h, hv, Option.some_or]

end KeptBy

end Notes

namespace Schema

/-! ### Notes of a schema -/

@[simp] theorem notes_inPlaceOf (n : Notes) (s : Schema) :
    (inPlaceOf n s).notes = s.notes.under n := notes_withNotes _ s

/-- What moves up from nested unions leaves the notes of the union as they are. -/
theorem flattenUnion_keeps_notes {n : Notes} (h : n.annotations.Distinct) (ms : List Schema) :
    (flattenUnion n ms).1.annotations.Distinct ∧ n.KeptBy (flattenUnion n ms).1 := by
  induction ms generalizing n with
  | nil => exact ⟨h, .refl n⟩
  | cons m ms ih =>
    cases m with
    | union inner k =>
      obtain ⟨hdistinct, hkept⟩ := ih (n := n.fill k) (h.fill k.annotations)
      exact ⟨hdistinct, (Notes.KeptBy.fill n k).trans hkept⟩
    | _ => exact ih h

theorem collapseUnion_keeps_notes {n : Notes} (h : n.annotations.Distinct) (ms : List Schema) :
    n.KeptBy (collapseUnion ms n).notes := by
  unfold collapseUnion
  split
  · rw [notes_inPlaceOf]
    exact .under h _
  · rw [notes_inPlaceOf]
    exact .under h _
  · exact .refl n

theorem unionOf_keeps_notes {n : Notes} (h : n.annotations.Distinct) (ms : List Schema) :
    n.KeptBy (unionOf ms n).notes := by
  obtain ⟨hdistinct, hkept⟩ := flattenUnion_keeps_notes h ms
  exact hkept.trans (collapseUnion_keeps_notes hdistinct _)

theorem intersectionOf_keeps_notes {n : Notes} (h : n.annotations.Distinct) (ms : List Schema) :
    n.KeptBy (intersectionOf ms n).notes := by
  unfold intersectionOf
  split
  · rw [notes_inPlaceOf]
    exact .under h _
  · exact .refl n

/-- A schema's comment and annotations are found in its canonical form, whatever that is and
whatever notes stand inside of the schema. -/
theorem canonical_keeps_notes {s : Schema} (h : s.notes.annotations.Distinct) :
    (∀ comment, s.notes.comment = some comment → s.canonical.notes.comment = some comment) ∧
      ∀ key value, s.notes.annotations.get? key = some value →
        s.canonical.notes.annotations.get? key = some value := by
  have hkept : s.notes.KeptBy s.canonical.notes := by
    cases s with
    | primitive | reference | any | undefined | array => exact .refl _
    | record d c n =>
      rw [canonical_record]
      exact .refl n
    | tuple ms n =>
      rw [canonical_tuple]
      exact .refl n
    | object ps rs n =>
      rw [canonical_object]
      exact .refl n
    | union ms n =>
      rw [canonical_union]
      exact unionOf_keeps_notes h _
    | intersection ms n =>
      rw [canonical_intersection]
      exact intersectionOf_keeps_notes h _
  exact ⟨hkept.comment, hkept.annotation⟩

/-- A union in a union and a folded intersection, all of them with notes that contradict. -/
def contradictoryNotes : Schema :=
  .union
    [.union [ofPrimitive .null, ofPrimitive .null]
      ⟨some ⟨some "inner", none, []⟩, [("title", .string "inner"), ("format", .string "x")]⟩,
    .intersection [.primitive .null none ⟨none, [("title", .string "member")]⟩] .none]
    ⟨some ⟨some "outer", none, []⟩, [("title", .string "outer")]⟩

theorem canonical_keeps_notes_contradictory :
    contradictoryNotes.notes.annotations.Distinct ∧
      contradictoryNotes.canonical.notes.comment = some ⟨some "outer", none, []⟩ ∧
      contradictoryNotes.canonical.notes.annotations.get? "title" = some (.string "outer") := by
  have h : contradictoryNotes.notes.annotations.Distinct := by decide
  obtain ⟨hcomment, hannotation⟩ := canonical_keeps_notes h
  exact ⟨h, hcomment _ rfl, hannotation _ _ rfl⟩

/-! ### Notes of folded objects -/

/-- The objects that an intersection of these members is folded from, in their order. -/
def folded (members : List Schema) : List Schema :=
  (flattenIntersection (members.map canonical)).filter isObject

theorem exists_of_isObject_intersectionOf {ms : List Schema} {n : Notes}
    (h : (intersectionOf ms n).isObject = true) :
    ∃ m, foldObjects (flattenIntersection ms) = [m] ∧ m.isObject = true ∧
      intersectionOf ms n = inPlaceOf n m := by
  unfold intersectionOf at h ⊢
  split at h
  · next m hm => exact ⟨m, hm, by rwa [inPlaceOf, isObject_withNotes] at h, rfl⟩
  · cases h

/-- The object that others are folded into is the first one, and keeps its own notes. -/
theorem exists_first_of_foldObjects {ms : List Schema} {m : Schema} (h : foldObjects ms = [m])
    (hm : m.isObject = true) :
    ∃ first rest, ms.filter isObject = first :: rest ∧ m.notes = first.notes := by
  rcases exists_first_object ms with hnone | ⟨pre, ps, rs, n, post, rfl, hpre⟩
  · rw [foldObjects_of_none hnone] at h
    have := hnone m (h ▸ List.mem_cons_self)
    simp [this] at hm
  · rw [foldObjects_append hpre] at h
    have hfilter : pre.filter isObject = [] := by simpa using hpre
    have hfirst : (pre ++ .object ps rs n :: post).filter isObject =
        .object ps rs n :: post.filter isObject := by
      rw [List.filter_append, hfilter, List.nil_append, List.filter_cons_of_pos rfl]
    refine ⟨_, _, hfirst, ?_⟩
    cases pre with
    | nil =>
      obtain ⟨rfl, -⟩ := List.cons.inj h
      rfl
    -- what stands before the object is left as well
    | cons p pre => simp at h

/-- Where an intersection becomes an object, it is folded from objects, and the object has the notes
of the first one under those of the intersection. -/
theorem exists_first_folded {ms : List Schema} {n : Notes}
    (h : (intersection ms n).canonical.isObject = true) :
    ∃ first rest, folded ms = first :: rest ∧
      (intersection ms n).canonical.notes = first.notes.under n := by
  rw [canonical_intersection] at h ⊢
  obtain ⟨m, hm, ho, heq⟩ := exists_of_isObject_intersectionOf h
  obtain ⟨first, rest, hfolded, hnotes⟩ := exists_first_of_foldObjects hm ho
  exact ⟨first, rest, hfolded, by rw [heq, notes_inPlaceOf, hnotes]⟩

/-- An intersection without a comment that becomes an object. Of the objects that it is folded from
the first one gives the notes. So the comment is the first one among them exactly if no later object
has one that the first lacks, and all keys of their annotations are kept exactly if the later
objects have none that both the first and the intersection lack. -/
theorem folded_notes_iff {ms : List Schema} {n : Notes}
    (h : (intersection ms n).canonical.isObject = true) (hn : n.comment = none) :
    ∃ first rest, folded ms = first :: rest ∧
      (intersection ms n).canonical.notes = first.notes.under n ∧
      ((intersection ms n).canonical.notes.comment = (folded ms).findSome? (·.notes.comment) ↔
        first.notes.comment = none → ∀ m ∈ rest, m.notes.comment = none) ∧
      ((∀ m ∈ folded ms, ∀ key ∈ m.notes.annotations.keys,
          key ∈ (intersection ms n).canonical.notes.annotations.keys) ↔
        ∀ m ∈ rest, ∀ key ∈ m.notes.annotations.keys,
          key ∈ first.notes.annotations.keys ∨ key ∈ n.annotations.keys) := by
  obtain ⟨first, rest, hfolded, hnotes⟩ := exists_first_folded h
  refine ⟨first, rest, hfolded, hnotes, ?_, ?_⟩
  · have hcomment : (intersection ms n).canonical.notes.comment = first.notes.comment := by
      rw [hnotes, Notes.under, hn, Option.none_or]
    rw [hcomment, hfolded, List.findSome?_cons]
    cases hfirst : first.notes.comment with
    | some comment => simp
    | none =>
      exact ⟨fun hc _ => List.findSome?_eq_none_iff.mp hc.symm,
        fun hrest => (List.findSome?_eq_none_iff.mpr (hrest rfl)).symm⟩
  · have hkeys : ∀ key, key ∈ (intersection ms n).canonical.notes.annotations.keys ↔
        key ∈ first.notes.annotations.keys ∨ key ∈ n.annotations.keys := fun key => by
      rw [hnotes, Notes.under, Table.mem_keys_extend]
    simp only [hfolded, hkeys, List.forall_mem_cons]
    exact and_iff_right fun key hkey => .inl hkey

/-- The parts of an address: a described object, one in an intersection of its own, and one in a
union of one member, which only has an annotation that the first one has as well. -/
def describedParts : List Schema :=
  [.object [("street", ofPrimitive .string)] ["street"]
    ⟨some ⟨some "Where it is", none, []⟩, [("title", .string "Place")]⟩,
  .intersection [.object [("city", ofPrimitive .string)] ["city"] .none] .none,
  .union [.object [("zip", ofPrimitive .string)] [] ⟨none, [("title", .string "Code")]⟩] .none]

theorem folded_notes_iff_describedParts :
    (intersection describedParts .none).canonical.isObject = true ∧
      (folded describedParts).length = 3 ∧
      (intersection describedParts .none).canonical.notes.comment =
        (folded describedParts).findSome? (·.notes.comment) ∧
      ∀ m ∈ folded describedParts, ∀ key ∈ m.notes.annotations.keys,
        key ∈ (intersection describedParts .none).canonical.notes.annotations.keys := by
  have h : (intersection describedParts .none).canonical.isObject = true := rfl
  obtain ⟨first, rest, hfolded, -, hcomment, hkeys⟩ := folded_notes_iff h rfl
  have hparts : folded describedParts =
      .object [("street", ofPrimitive .string)] ["street"]
        ⟨some ⟨some "Where it is", none, []⟩, [("title", .string "Place")]⟩ ::
      [.object [("city", ofPrimitive .string)] ["city"] .none,
      .object [("zip", ofPrimitive .string)] [] ⟨none, [("title", .string "Code")]⟩] := rfl
  obtain ⟨rfl, rfl⟩ := List.cons.inj (hparts.symm.trans hfolded)
  exact ⟨h, rfl, hcomment.mpr nofun, hkeys.mpr (by decide)⟩

/-- An address of which only the second part is described. -/
def describedLater : List Schema :=
  [.object [("street", ofPrimitive .string)] ["street"] .none,
  .object [("city", ofPrimitive .string)] ["city"]
    ⟨some ⟨some "Where it is", none, []⟩, [("title", .string "Place")]⟩]

/-- The comment and the annotations of a later object are lost. -/
theorem canonical_loses_folded_notes :
    (intersection describedLater .none).canonical.isObject = true ∧
      ¬ (intersection describedLater .none).canonical.notes.comment =
        (folded describedLater).findSome? (·.notes.comment) ∧
      ¬ ∀ m ∈ folded describedLater, ∀ key ∈ m.notes.annotations.keys,
        key ∈ (intersection describedLater .none).canonical.notes.annotations.keys :=
  ⟨rfl, by decide, by decide⟩

end Schema

end CodecDocs
