import CodecDocs.Proofs.Schema.Nodes

/-! What each pass of canonicalization does to a list of members: flattening, merging of plain
primitives, removal of repetitions and folding of objects. Each pass is described once, by where its
results come from and by the lists that it leaves alone. -/

namespace CodecDocs.Schema

def isUnion : Schema → Bool
  | .union .. => true
  | _ => false

/-- An intersection that gives up its members to an intersection around it. -/
def isOpen : Schema → Bool
  | .intersection (_ :: _) notes => notes.isEmpty
  | _ => false

/-- A primitive of the kind without notes. -/
def isPlain (kind : Primitive) : Schema → Bool
  | .primitive k _ notes => decide (k = kind) && notes.isEmpty
  | _ => false

@[simp] theorem isUnion_withNotes (n : Notes) (s : Schema) :
    (s.withNotes n).isUnion = s.isUnion := by cases s <;> rfl

@[simp] theorem isObject_withNotes (n : Notes) (s : Schema) :
    (s.withNotes n).isObject = s.isObject := by cases s <;> rfl

/-! ### Flattening of unions -/

theorem flattenUnion_cons_union (notes : Notes) (inner : List Schema) (n : Notes)
    (ms : List Schema) : flattenUnion notes (.union inner n :: ms) =
      ((flattenUnion (notes.fill n) ms).1, inner ++ (flattenUnion (notes.fill n) ms).2) := rfl

theorem flattenUnion_cons {m : Schema} (h : m.isUnion = false) (notes : Notes)
    (ms : List Schema) : flattenUnion notes (m :: ms) =
      ((flattenUnion notes ms).1, m :: (flattenUnion notes ms).2) := by
  cases m with
  | union => cases h
  | _ => rfl

/-- The flat members are the members that are no unions and those of the unions. -/
theorem mem_flattenUnion {notes : Notes} {ms : List Schema} {m : Schema} :
    m ∈ (flattenUnion notes ms).2 ↔
      (m ∈ ms ∧ m.isUnion = false) ∨ ∃ inner n, .union inner n ∈ ms ∧ m ∈ inner := by
  induction ms generalizing notes with
  | nil => simp [flattenUnion]
  | cons x ms ih =>
    cases hx : x.isUnion with
    | true =>
      obtain ⟨inner, n, rfl⟩ : ∃ inner n, x = .union inner n := by
        cases x with
        | union inner n => exact ⟨inner, n, rfl⟩
        | _ => cases hx
      simp only [flattenUnion_cons_union, List.mem_append, ih, List.mem_cons, union.injEq]
      constructor
      · rintro (h | h | ⟨i, k, h, hm⟩)
        · exact .inr ⟨inner, n, .inl ⟨rfl, rfl⟩, h⟩
        · exact .inl ⟨.inr h.1, h.2⟩
        · exact .inr ⟨i, k, .inr h, hm⟩
      · rintro (⟨rfl | h, hu⟩ | ⟨i, k, ⟨rfl, rfl⟩ | h, hm⟩)
        · cases hu
        · exact .inr (.inl ⟨h, hu⟩)
        · exact .inl hm
        · exact .inr (.inr ⟨i, k, h, hm⟩)
    | false =>
      simp only [flattenUnion_cons hx, List.mem_cons, ih]
      constructor
      · rintro (rfl | h | ⟨i, k, h, hm⟩)
        · exact .inl ⟨.inl rfl, hx⟩
        · exact .inl ⟨.inr h.1, h.2⟩
        · exact .inr ⟨i, k, .inr h, hm⟩
      · rintro (⟨rfl | h, hu⟩ | ⟨i, k, rfl | h, hm⟩)
        · exact .inl rfl
        · exact .inr (.inl ⟨h, hu⟩)
        · cases hx
        · exact .inr (.inr ⟨i, k, h, hm⟩)

theorem flattenUnion_of_flat (notes : Notes) {ms : List Schema}
    (h : ∀ m ∈ ms, m.isUnion = false) : flattenUnion notes ms = (notes, ms) := by
  induction ms with
  | nil => rfl
  | cons m ms ih =>
    rw [flattenUnion_cons (h m List.mem_cons_self), ih fun x hx => h x (List.mem_cons_of_mem _ hx)]

/-! ### Merging of plain primitives -/

/-- A primitive is absorbed by the first plain one of its kind. -/
theorem absorb?_eq_some {kind : Primitive} {values : Option (List Literal)}
    {ms out : List Schema} (h : absorb? kind values ms = some out) :
    ∃ pre vs n post, ms = pre ++ .primitive kind vs n :: post ∧ n.isEmpty = true ∧
      out = pre ++ .primitive kind (mergeValues vs values) n :: post := by
  induction ms generalizing out with
  | nil => simp [absorb?] at h
  | cons m ms ih =>
    -- a member that is not the one carries over in front of what the rest gives
    have skip : (absorb? kind values ms).map (m :: ·) = some out →
        ∃ pre vs n post, m :: ms = pre ++ .primitive kind vs n :: post ∧ n.isEmpty = true ∧
          out = pre ++ .primitive kind (mergeValues vs values) n :: post := by
      intro h
      obtain ⟨rest, hr, rfl⟩ := Option.map_eq_some_iff.mp h
      obtain ⟨pre, vs, n, post, rfl, hn, rfl⟩ := ih hr
      exact ⟨m :: pre, vs, n, post, rfl, hn, rfl⟩
    cases m with
    | primitive k vs n =>
      simp only [absorb?] at h
      split_ifs at h with hk
      · obtain ⟨rfl, hn⟩ := hk
        cases h
        exact ⟨[], vs, n, ms, rfl, hn, rfl⟩
      · exact skip h
    | _ => exact skip h

theorem absorb?_eq_none {kind : Primitive} {values : Option (List Literal)} {ms : List Schema} :
    absorb? kind values ms = none ↔ ∀ m ∈ ms, m.isPlain kind = false := by
  induction ms with
  | nil => simp [absorb?]
  | cons m ms ih =>
    cases m with
    | primitive k vs n =>
      simp only [absorb?, List.forall_mem_cons]
      split_ifs with hk
      · simp [isPlain, hk.1, hk.2]
      · have : isPlain kind (.primitive k vs n) = false := by simpa [isPlain] using hk
        rw [Option.map_eq_none_iff, ih, this]
        simp
    | _ => simp [absorb?, isPlain, ih]

/-- A member goes to the end, or it is a plain primitive and one of its kind takes its values. -/
theorem mergeInto_cases (merged : List Schema) (member : Schema) :
    (mergeInto merged member = merged ++ [member] ∧
      ∀ kind, member.isPlain kind = true → ∀ m ∈ merged, m.isPlain kind = false) ∨
    ∃ kind values notes pre vs n post, member = .primitive kind values notes ∧
      notes.isEmpty = true ∧ merged = pre ++ .primitive kind vs n :: post ∧ n.isEmpty = true ∧
      mergeInto merged member = pre ++ .primitive kind (mergeValues vs values) n :: post := by
  cases member with
  | primitive k values notes =>
    simp only [mergeInto]
    split_ifs with hn
    · cases ha : absorb? k values merged with
      | none =>
        refine .inl ⟨rfl, fun kind hk => ?_⟩
        obtain ⟨rfl, -⟩ : k = kind ∧ _ := by simpa [isPlain] using hk
        exact absorb?_eq_none.mp ha
      | some out =>
        obtain ⟨pre, vs, n, post, hm, hv, rfl⟩ := absorb?_eq_some ha
        exact .inr ⟨k, values, notes, pre, vs, n, post, rfl, hn, hm, hv, rfl⟩
    · exact .inl ⟨rfl, by simp [isPlain, hn]⟩
  | _ => exact .inl ⟨rfl, by simp [isPlain]⟩

/-- Every merged member is one of the given ones, up to the values of a plain primitive. -/
theorem mem_mergePrimitives {ms : List Schema} {m : Schema} (h : m ∈ mergePrimitives ms) :
    m ∈ ms ∨ ∃ kind values old notes, m = .primitive kind values notes ∧
      .primitive kind old notes ∈ ms := by
  suffices ∀ acc : List Schema, m ∈ ms.foldl mergeInto acc → m ∈ acc ++ ms ∨
      ∃ kind values old notes, m = .primitive kind values notes ∧
        .primitive kind old notes ∈ acc ++ ms from this [] h
  clear h
  induction ms with
  | nil => intro acc h; exact .inl (by simpa using h)
  | cons x ms ih =>
    intro acc h
    rw [List.foldl_cons] at h
    rcases mergeInto_cases acc x with ⟨he, -⟩ | ⟨kind, vs, n', pre, ws, n, post, rfl, -, rfl, -, he⟩
    · simpa [he] using ih _ h
    · rw [he] at h
      -- the slot that took the values has the kind and the notes that it had
      rcases ih _ h with h | ⟨k, us, old, o, hm, ho⟩
      · simp only [List.mem_append, List.mem_cons] at h
        rcases h with (h | rfl | h) | h
        · exact .inl (by simp [h])
        · exact .inr ⟨kind, _, ws, n, rfl, by simp⟩
        · exact .inl (by simp [h])
        · exact .inl (by simp [h])
      · refine .inr ?_
        simp only [List.mem_append, List.mem_cons, primitive.injEq] at ho
        rcases ho with (ho | ⟨rfl, -, rfl⟩ | ho) | ho
        · exact ⟨k, us, old, o, hm, by simp [ho]⟩
        · exact ⟨k, us, ws, o, hm, by simp⟩
        · exact ⟨k, us, old, o, hm, by simp [ho]⟩
        · exact ⟨k, us, old, o, hm, by simp [ho]⟩

/-- No two members are plain primitives of one kind. -/
def PlainOnce (ms : List Schema) : Prop :=
  ms.Pairwise fun a b => ∀ kind, a.isPlain kind = true → b.isPlain kind = false

theorem plainOnce_mergeInto {merged : List Schema} (h : PlainOnce merged) (member : Schema) :
    PlainOnce (mergeInto merged member) := by
  rcases mergeInto_cases merged member with
    ⟨he, hm⟩ | ⟨kind, vs, n', pre, ws, n, post, -, -, rfl, -, he⟩
  · rw [he]
    refine List.pairwise_append.mpr ⟨h, List.pairwise_singleton _ _, fun a ha b hb kind hk => ?_⟩
    rw [List.mem_singleton] at hb
    subst hb
    by_contra hb
    have := hm kind (by simpa using hb) a ha
    simp [this] at hk
  · rw [he]
    -- the values of a primitive do not decide whether it is plain
    have hp : ∀ us k, isPlain k (.primitive kind us n) = isPlain k (.primitive kind ws n) :=
      fun _ _ => rfl
    simpa only [PlainOnce, List.pairwise_append, List.pairwise_cons, List.forall_mem_cons, hp]
      using h

theorem plainOnce_mergePrimitives (ms : List Schema) : PlainOnce (mergePrimitives ms) := by
  suffices ∀ acc, PlainOnce acc → PlainOnce (ms.foldl mergeInto acc) from this [] List.Pairwise.nil
  induction ms with
  | nil => exact fun _ h => h
  | cons m ms ih => exact fun acc h => ih _ (plainOnce_mergeInto h m)

theorem mergePrimitives_of_plainOnce {ms : List Schema} (h : PlainOnce ms) :
    mergePrimitives ms = ms := by
  suffices ∀ acc, PlainOnce (acc ++ ms) → ms.foldl mergeInto acc = acc ++ ms from this [] h
  clear h
  induction ms with
  | nil => simp
  | cons m ms ih =>
    intro acc h
    have hm : mergeInto acc m = acc ++ [m] := by
      rcases mergeInto_cases acc m with
        ⟨he, -⟩ | ⟨kind, vs, n', pre, ws, n, post, rfl, hn', rfl, hn, -⟩
      · exact he
      · have hab := (List.pairwise_append.mp h).2.2 (.primitive kind ws n) (by simp)
          (.primitive kind vs n') List.mem_cons_self kind (by simp [isPlain, hn])
        simp [isPlain, hn'] at hab
    rw [List.foldl_cons, hm, ih _ (by simpa using h)]
    simp

/-! ### Removal of repetitions -/

/-- One step of `distinct`. -/
def keepNew (acc : List Schema) (s : Schema) : List Schema :=
  if acc.any s.same then acc else acc ++ [s]

theorem keepNew_cases (acc : List Schema) (s : Schema) :
    (keepNew acc s = acc ∧ ∃ a ∈ acc, s.same a = true) ∨
      (keepNew acc s = acc ++ [s] ∧ ∀ a ∈ acc, s.same a = false) := by
  unfold keepNew
  split_ifs with h
  · exact .inl ⟨rfl, by simpa using h⟩
  · exact .inr ⟨rfl, by simpa using h⟩

theorem distinct_sublist (ms : List Schema) : (distinct ms).Sublist ms := by
  suffices ∀ acc, (ms.foldl keepNew acc).Sublist (acc ++ ms) from this []
  induction ms with
  | nil => simp
  | cons m ms ih =>
    intro acc
    rw [List.foldl_cons]
    rcases keepNew_cases acc m with ⟨he, -⟩ | ⟨he, -⟩ <;> rw [he]
    · exact (ih acc).trans (List.Sublist.append_left (List.sublist_cons_self m ms) acc)
    · simpa using ih (acc ++ [m])

/-- Later members differ from earlier ones. -/
def Differing (ms : List Schema) : Prop := ms.Pairwise fun a b => b.same a = false

theorem differing_distinct (ms : List Schema) : Differing (distinct ms) := by
  suffices ∀ acc, Differing acc → Differing (ms.foldl keepNew acc) from this [] List.Pairwise.nil
  induction ms with
  | nil => exact fun _ h => h
  | cons m ms ih =>
    intro acc h
    rw [List.foldl_cons]
    apply ih
    rcases keepNew_cases acc m with ⟨he, -⟩ | ⟨he, hm⟩ <;> rw [he]
    · exact h
    · refine List.pairwise_append.mpr ⟨h, List.pairwise_singleton _ _, fun a ha b hb => ?_⟩
      rw [List.mem_singleton] at hb
      exact hb ▸ hm a ha

theorem distinct_of_differing {ms : List Schema} (h : Differing ms) : distinct ms = ms := by
  suffices ∀ acc, Differing (acc ++ ms) → ms.foldl keepNew acc = acc ++ ms from this [] h
  clear h
  induction ms with
  | nil => simp
  | cons m ms ih =>
    intro acc h
    have hm : keepNew acc m = acc ++ [m] := by
      rcases keepNew_cases acc m with ⟨-, a, ha, hs⟩ | ⟨he, -⟩
      · have := (List.pairwise_append.mp h).2.2 a ha m List.mem_cons_self
        simp [this] at hs
      · exact he
    rw [List.foldl_cons, hm, ih _ (by simpa using h)]
    simp

theorem mem_foldl_keepNew {ms acc : List Schema} {x : Schema} (h : x ∈ acc) :
    x ∈ ms.foldl keepNew acc := by
  induction ms generalizing acc with
  | nil => exact h
  | cons m ms ih =>
    refine ih ?_
    rcases keepNew_cases acc m with ⟨he, -⟩ | ⟨he, -⟩ <;> rw [he]
    · exact h
    · exact List.mem_append_left _ h

/-- What is removed equals something that stays. -/
theorem exists_distinct_same {ms : List Schema} {m : Schema} (h : m ∈ ms) :
    m ∈ distinct ms ∨ ∃ a ∈ distinct ms, m.same a = true := by
  suffices ∀ acc, m ∈ ms.foldl keepNew acc ∨ ∃ a ∈ ms.foldl keepNew acc, m.same a = true from
    this []
  induction ms with
  | nil => simp at h
  | cons x ms ih =>
    intro acc
    rw [List.foldl_cons]
    rcases List.mem_cons.mp h with rfl | h
    · rcases keepNew_cases acc m with ⟨he, a, ha, hs⟩ | ⟨he, -⟩ <;> rw [he]
      · exact .inr ⟨a, mem_foldl_keepNew ha, hs⟩
      · exact .inl (mem_foldl_keepNew (by simp))
    · exact ih h _

/-! ### Flattening of intersections -/

theorem flattenIntersection_cons_open (first : Schema) (inner : List Schema) {n : Notes}
    (h : n.isEmpty = true) (ms : List Schema) :
    flattenIntersection (.intersection (first :: inner) n :: ms) =
      (first :: inner) ++ flattenIntersection ms := by
  simp [flattenIntersection, h]

theorem flattenIntersection_cons {m : Schema} (h : m.isOpen = false) (ms : List Schema) :
    flattenIntersection (m :: ms) = m :: flattenIntersection ms := by
  cases m with
  | intersection inner n =>
    cases inner with
    | nil => rfl
    | cons first inner =>
      have hn : n.isEmpty = false := h
      simp [flattenIntersection, hn]
  | _ => rfl

theorem isOpen_iff {s : Schema} : s.isOpen = true ↔
    ∃ first inner notes, s = .intersection (first :: inner) notes ∧ notes.isEmpty = true := by
  cases s with
  | intersection inner n => cases inner <;> simp [isOpen]
  | _ => simp [isOpen]

/-- The flat members are the members that are not open and those of the open intersections. -/
theorem mem_flattenIntersection {ms : List Schema} {m : Schema} :
    m ∈ flattenIntersection ms ↔
      (m ∈ ms ∧ m.isOpen = false) ∨ ∃ x ∈ ms, x.isOpen = true ∧ m ∈ x.children := by
  induction ms with
  | nil => simp [flattenIntersection]
  | cons x ms ih =>
    cases hx : x.isOpen with
    | true =>
      obtain ⟨first, inner, n, rfl, hn⟩ := isOpen_iff.mp hx
      rw [flattenIntersection_cons_open _ _ hn, List.mem_append, ih]
      constructor
      · rintro (h | h | ⟨y, hy, ho, hm⟩)
        · exact .inr ⟨_, List.mem_cons_self, hx, h⟩
        · exact .inl ⟨List.mem_cons_of_mem _ h.1, h.2⟩
        · exact .inr ⟨y, List.mem_cons_of_mem _ hy, ho, hm⟩
      · rintro (⟨h, ho⟩ | ⟨y, hy, ho, hm⟩)
        · rcases List.mem_cons.mp h with rfl | h
          · simp [hx] at ho
          · exact .inr (.inl ⟨h, ho⟩)
        · rcases List.mem_cons.mp hy with rfl | hy
          · exact .inl hm
          · exact .inr (.inr ⟨y, hy, ho, hm⟩)
    | false =>
      rw [flattenIntersection_cons hx, List.mem_cons, ih]
      constructor
      · rintro (rfl | h | ⟨y, hy, ho, hm⟩)
        · exact .inl ⟨List.mem_cons_self, hx⟩
        · exact .inl ⟨List.mem_cons_of_mem _ h.1, h.2⟩
        · exact .inr ⟨y, List.mem_cons_of_mem _ hy, ho, hm⟩
      · rintro (⟨h, ho⟩ | ⟨y, hy, ho, hm⟩)
        · rcases List.mem_cons.mp h with rfl | h
          · exact .inl rfl
          · exact .inr (.inl ⟨h, ho⟩)
        · rcases List.mem_cons.mp hy with rfl | hy
          · simp [hx] at ho
          · exact .inr (.inr ⟨y, hy, ho, hm⟩)

theorem flattenIntersection_of_closed {ms : List Schema} (h : ∀ m ∈ ms, m.isOpen = false) :
    flattenIntersection ms = ms := by
  induction ms with
  | nil => rfl
  | cons m ms ih =>
    rw [flattenIntersection_cons (h m List.mem_cons_self),
      ih fun x hx => h x (List.mem_cons_of_mem _ hx)]

/-! ### Folding of objects -/

theorem foldObjects_cons {m : Schema} (h : m.isObject = false) (ms : List Schema) :
    foldObjects (m :: ms) = m :: foldObjects ms := by
  cases m with
  | object => cases h
  | _ => rfl

theorem foldObjects_of_none {ms : List Schema} (h : ∀ m ∈ ms, m.isObject = false) :
    foldObjects ms = ms := by
  induction ms with
  | nil => rfl
  | cons m ms ih =>
    rw [foldObjects_cons (h m List.mem_cons_self), ih fun x hx => h x (List.mem_cons_of_mem _ hx)]

/-- The members from the first object on, where there is one. -/
theorem exists_first_object (ms : List Schema) :
    (∀ m ∈ ms, m.isObject = false) ∨ ∃ pre ps rs n post,
      ms = pre ++ .object ps rs n :: post ∧ ∀ m ∈ pre, m.isObject = false := by
  induction ms with
  | nil => simp
  | cons m ms ih =>
    cases hm : m.isObject with
    | true =>
      cases m with
      | object ps rs n => exact .inr ⟨[], ps, rs, n, ms, rfl, by simp⟩
      | _ => cases hm
    | false =>
      rcases ih with h | ⟨pre, ps, rs, n, post, rfl, h⟩
      · exact .inl (by simpa [hm] using h)
      · exact .inr ⟨m :: pre, ps, rs, n, post, rfl, by simpa [hm] using h⟩

/-- Everything that is folded into the first object stands at its place. -/
theorem foldObjects_append {pre : List Schema} (h : ∀ m ∈ pre, m.isObject = false)
    (ps : List (String × Schema)) (rs : List String) (n : Notes) (post : List Schema) :
    foldObjects (pre ++ .object ps rs n :: post) =
      pre ++ .object (post.foldl mergeObject (ps, rs)).1 (post.foldl mergeObject (ps, rs)).2 n ::
        post.filter fun m => !m.isObject := by
  induction pre with
  | nil => rfl
  | cons m pre ih =>
    rw [List.cons_append, foldObjects_cons (h m List.mem_cons_self),
      ih fun x hx => h x (List.mem_cons_of_mem _ hx), List.cons_append]

/-- At most one member is an object. -/
def ObjectOnce (ms : List Schema) : Prop :=
  ms.Pairwise fun a b => a.isObject = true → b.isObject = false

theorem objectOnce_of_none {ms : List Schema} (h : ∀ m ∈ ms, m.isObject = false) :
    ObjectOnce ms :=
  List.pairwise_of_forall_mem_list fun a ha b _ ho => by simp [h a ha] at ho

theorem objectOnce_foldObjects (ms : List Schema) : ObjectOnce (foldObjects ms) := by
  rcases exists_first_object ms with h | ⟨pre, ps, rs, n, post, rfl, h⟩
  · rw [foldObjects_of_none h]
    exact objectOnce_of_none h
  · rw [foldObjects_append h]
    have hpost : ∀ m ∈ post.filter fun m => !m.isObject, m.isObject = false := by simp
    refine List.pairwise_append.mpr ⟨objectOnce_of_none h,
      List.pairwise_cons.mpr ⟨fun m hm _ => hpost m hm, objectOnce_of_none hpost⟩, ?_⟩
    intro a ha b _ ho
    simp [h a ha] at ho

theorem foldObjects_of_objectOnce {ms : List Schema} (h : ObjectOnce ms) : foldObjects ms = ms := by
  rcases exists_first_object ms with h' | ⟨pre, ps, rs, n, post, rfl, h'⟩
  · exact foldObjects_of_none h'
  · have hpost : ∀ m ∈ post, m.isObject = false := fun m hm =>
      (List.pairwise_cons.mp (List.pairwise_append.mp h).2.1).1 m hm rfl
    have hfold : post.foldl mergeObject (ps, rs) = (ps, rs) := by
      clear h
      induction post with
      | nil => rfl
      | cons m post ih =>
        have hm : mergeObject (ps, rs) m = (ps, rs) := by
          have := hpost m List.mem_cons_self
          cases m with
          | object => cases this
          | _ => rfl
        rw [List.foldl_cons, hm]
        exact ih fun x hx => hpost x (List.mem_cons_of_mem _ hx)
    rw [foldObjects_append h', hfold, List.filter_eq_self.mpr (by simpa using hpost)]

end CodecDocs.Schema
