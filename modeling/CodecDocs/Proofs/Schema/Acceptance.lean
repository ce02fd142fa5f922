import CodecDocs.Proofs.Schema.Equality

/-! What a schema means: the values that it accepts. Notes play no part, references are read by a
given predicate, and a property that is absent counts as `undefined`. Equal schemas accept the same
values. -/

namespace CodecDocs

/-- A value that a codec may be given. -/
inductive Datum where
  | undefined
  | null
  | boolean (b : Bool)
  | number (x : Binary64)
  | string (s : String)
  | array (items : List Datum)
  | object (fields : List (String × Datum))

namespace Datum

/-- The value of a property, `undefined` where there is none. -/
def field (fields : List (String × Datum)) (key : String) : Datum :=
  (Table.get? fields key).getD .undefined

/-- Whether a value is the one that a literal stands for. -/
def is (v : Datum) (l : Literal) : Bool :=
  match v, l with
  | .null, .null => true
  | .boolean a, .boolean b => a == b
  | .number x, .number y => x.same y
  | .string s, .string t => s == t
  | _, _ => false

end Datum

/-- Whether a value is of a kind; integers are the numbers without a fraction. -/
def Primitive.admits : Primitive → Datum → Bool
  | .string, .string _ => true
  | .number, .number _ => true
  | .integer, .number x => x.isInteger
  | .boolean, .boolean _ => true
  | .null, .null => true
  | _, _ => false

namespace Schema

/-- Without an enumeration every value is listed. -/
def Listed (values : Option (List Literal)) (v : Datum) : Prop :=
  ∀ ls ∈ values, ∃ l ∈ ls, v.is l = true

variable (known : String → Origin → Datum → Prop)

mutual

/-- Whether a schema accepts a value. The domain of a record is not looked at. -/
def Accepts : Schema → Datum → Prop
  | .primitive kind values _, v => kind.admits v = true ∧ Listed values v
  | .array items _, v => ∃ vs, v = .array vs ∧ ∀ x ∈ vs, Accepts items x
  | .object properties required _, v => ∃ fs, v = .object fs ∧ AcceptsFields required fs properties
  | .record _ codomain _, v => ∃ fs, v = .object fs ∧ ∀ f ∈ fs, Accepts codomain f.2
  | .union members _, v => AcceptsSome v members
  | .intersection members _, v => AcceptsAll v members
  | .tuple members _, v => ∃ vs, v = .array vs ∧ AcceptsEach members vs
  | .reference name origin _, v => known name origin v
  | .any _, _ => True
  | .undefined _, v => v = .undefined

def AcceptsSome (v : Datum) : List Schema → Prop
  | [] => False
  | member :: members => Accepts member v ∨ AcceptsSome v members

def AcceptsAll (v : Datum) : List Schema → Prop
  | [] => True
  | member :: members => Accepts member v ∧ AcceptsAll v members

def AcceptsEach : List Schema → List Datum → Prop
  | [], vs => vs = []
  | member :: members, vs =>
    ∃ x xs, vs = x :: xs ∧ Accepts member x ∧ AcceptsEach members xs

/-- A property that is not required may be absent or `undefined`. -/
def AcceptsFields (required : List String) (fs : List (String × Datum)) :
    List (String × Schema) → Prop
  | [] => True
  | (k, s) :: properties =>
    ((Datum.field fs k = .undefined ∧ k ∉ required) ∨ Accepts s (Datum.field fs k)) ∧
      AcceptsFields required fs properties

end

variable {known}

/-! ### Acceptance by form -/

theorem accepts_union {ms : List Schema} {n : Notes} {v : Datum} :
    Accepts known (.union ms n) v ↔ ∃ m ∈ ms, Accepts known m v := by
  rw [Accepts]
  induction ms with
  | nil => simp [AcceptsSome]
  | cons m ms ih => rw [AcceptsSome, ih, List.exists_mem_cons_iff]

theorem accepts_intersection {ms : List Schema} {n : Notes} {v : Datum} :
    Accepts known (.intersection ms n) v ↔ ∀ m ∈ ms, Accepts known m v := by
  rw [Accepts]
  induction ms with
  | nil => simp [AcceptsAll]
  | cons m ms ih => rw [AcceptsAll, ih, List.forall_mem_cons]

theorem acceptsEach_iff {ms : List Schema} {vs : List Datum} :
    AcceptsEach known ms vs ↔ List.Forall₂ (Accepts known) ms vs := by
  induction ms generalizing vs with
  | nil => rw [AcceptsEach, List.forall₂_nil_left_iff]
  | cons m ms ih =>
    rw [AcceptsEach, List.forall₂_cons_left_iff]
    constructor
    · rintro ⟨x, xs, rfl, hx, hxs⟩
      exact ⟨x, xs, hx, ih.mp hxs, rfl⟩
    · rintro ⟨x, xs, hx, hxs, rfl⟩
      exact ⟨x, xs, rfl, hx, ih.mpr hxs⟩

theorem accepts_tuple {ms : List Schema} {n : Notes} {v : Datum} :
    Accepts known (.tuple ms n) v ↔ ∃ vs, v = .array vs ∧ List.Forall₂ (Accepts known) ms vs := by
  simp only [Accepts, acceptsEach_iff]

/-- A property with what is required of it accepts its value in an object. -/
def Fits (known : String → Origin → Datum → Prop) (required : List String)
    (fs : List (String × Datum)) (p : String × Schema) : Prop :=
  (Datum.field fs p.1 = .undefined ∧ p.1 ∉ required) ∨ Accepts known p.2 (Datum.field fs p.1)

theorem acceptsFields_iff {rs : List String} {fs : List (String × Datum)}
    {ps : List (String × Schema)} :
    AcceptsFields known rs fs ps ↔ ∀ p ∈ ps, Fits known rs fs p := by
  induction ps with
  | nil => simp [AcceptsFields]
  | cons p ps ih => rw [AcceptsFields, ih, List.forall_mem_cons]; rfl

theorem accepts_object {ps : List (String × Schema)} {rs : List String} {n : Notes} {v : Datum} :
    Accepts known (.object ps rs n) v ↔
      ∃ fs, v = .object fs ∧ ∀ p ∈ ps, Fits known rs fs p := by
  simp only [Accepts, acceptsFields_iff]

@[simp] theorem accepts_undefined {n : Notes} {v : Datum} :
    Accepts known (.undefined n) v ↔ v = .undefined := by rw [Accepts]

@[simp] theorem accepts_withNotes {n : Notes} {s : Schema} {v : Datum} :
    Accepts known (s.withNotes n) v ↔ Accepts known s v := by
  cases s <;> simp only [withNotes, Accepts]

@[simp] theorem accepts_inPlaceOf {n : Notes} {s : Schema} {v : Datum} :
    Accepts known (inPlaceOf n s) v ↔ Accepts known s v := accepts_withNotes

end Schema

/-! ### Equal schemas -/

namespace Binary64

theorem same_iff {x y : Binary64} : x.same y = true ↔
    (x.isNaN = true ∧ y.isNaN = true) ∨ (x.isZero = true ∧ y.isZero = true) ∨ x = y := by
  simp [same, or_assoc]

theorem not_isZero_of_isNaN {x : Binary64} (h : x.isNaN = true) : x.isZero = false := by
  simp only [isNaN, decide_eq_true_eq] at h
  simp only [isZero, beq_eq_false_iff_ne]
  omega

theorem same_trans {x y z : Binary64} (hxy : x.same y = true) (hyz : y.same z = true) :
    x.same z = true := by
  rw [same_iff] at *
  rcases hxy with hxy | hxy | rfl
  · rcases hyz with hyz | hyz | rfl
    · exact .inl ⟨hxy.1, hyz.2⟩
    · simp [not_isZero_of_isNaN hxy.2] at hyz
    · exact .inl hxy
  · rcases hyz with hyz | hyz | rfl
    · simp [not_isZero_of_isNaN hyz.1] at hxy
    · exact .inr (.inl ⟨hxy.1, hyz.2⟩)
    · exact .inr (.inl hxy)
  · exact hyz

end Binary64

/-- Equal literals stand for the same values. -/
theorem Datum.is_of_same {v : Datum} {l m : Literal} (h : l.same m = true) (hv : v.is l = true) :
    v.is m = true := by
  cases l with
  | number y =>
    cases v <;> cases m <;> simp only [Datum.is, Literal.same, Bool.false_eq_true] at h hv ⊢
    exact Binary64.same_trans hv h
  | _ => cases v <;> cases m <;> simp_all [Datum.is, Literal.same]

namespace Schema

variable {known : String → Origin → Datum → Prop}

theorem listed_of_sameEnum {a b : Option (List Literal)} (h : sameEnum a b = true) {v : Datum}
    (hv : Listed a v) : Listed b v := by
  have values : ∀ {ls ms : List Literal}, sameValues ls ms = true →
      (∃ l ∈ ls, v.is l = true) → ∃ m ∈ ms, v.is m = true := by
    intro ls
    induction ls with
    | nil => simp
    | cons l ls ih =>
      intro ms hs hl
      cases ms with
      | nil => simp [sameValues] at hs
      | cons m ms =>
        rw [sameValues, Bool.and_eq_true] at hs
        rw [List.exists_mem_cons_iff] at hl ⊢
        exact hl.imp (Datum.is_of_same hs.1) (ih hs.2)
  cases a with
  | none =>
    cases b with
    | none => exact hv
    | some ms => simp [sameEnum] at h
  | some ls =>
    cases b with
    | none => simp [Listed]
    | some ms =>
      intro ns hn
      cases hn
      exact values h (hv ls rfl)

/-- Equal schemas accept the same values. -/
theorem accepts_of_same {s t : Schema} (hs : s.Keyed) (h : s.same t = true) {v : Datum}
    (hv : Accepts known s v) : Accepts known t v := by
  induction s generalizing t v with
  | primitive kind vs n =>
    cases t <;> simp only [same, Bool.and_eq_true, beq_iff_eq, Bool.false_eq_true] at h
    rw [Accepts] at hv ⊢
    exact ⟨h.1.1 ▸ hv.1, listed_of_sameEnum h.1.2 hv.2⟩
  | reference name origin n =>
    cases t <;> simp only [same, Bool.and_eq_true, beq_iff_eq, Bool.false_eq_true] at h
    rw [Accepts] at hv ⊢
    exact h.1.1 ▸ h.1.2 ▸ hv
  | any n =>
    cases t <;> simp only [same, Bool.false_eq_true] at h
    simp [Accepts]
  | undefined n =>
    cases t <;> simp only [same, Bool.false_eq_true] at h
    simpa using hv
  | array s n ih =>
    cases t <;> simp only [same, Bool.and_eq_true, Bool.false_eq_true] at h
    rw [Accepts] at hv ⊢
    obtain ⟨vs, rfl, hvs⟩ := hv
    exact ⟨vs, rfl, fun x hx => ih (hs.child (by simp)) h.1 (hvs x hx)⟩
  | record d c n _ ih =>
    cases t with
    | record e f m =>
      rw [Accepts] at hv ⊢
      obtain ⟨fs, rfl, hfs⟩ := hv
      have hcf : c.same f = true := by
        cases d <;> cases e <;> simp [same] at h <;> tauto
      exact ⟨fs, rfl, fun x hx => ih (hs.child (by simp)) hcf (hfs x hx)⟩
    | _ => cases d <;> simp [same] at h
  | union ms n ih =>
    cases t <;> simp only [same, Bool.and_eq_true, Bool.false_eq_true] at h
    rw [accepts_union] at hv ⊢
    obtain ⟨m, hm, hv⟩ := hv
    obtain ⟨t, ht, hmt⟩ := exists_right_of_forall₂ (sameMembers_iff.mp h.1) hm
    exact ⟨t, ht, ih m hm (hs.child hm) hmt hv⟩
  | intersection ms n ih =>
    cases t <;> simp only [same, Bool.and_eq_true, Bool.false_eq_true] at h
    rw [accepts_intersection] at hv ⊢
    intro t ht
    obtain ⟨m, hm, hmt⟩ := exists_left_of_forall₂ (sameMembers_iff.mp h.1) ht
    exact ih m hm (hs.child hm) hmt (hv m hm)
  | tuple ms n ih =>
    cases t <;> simp only [same, Bool.and_eq_true, Bool.false_eq_true] at h
    next ts k =>
    rw [accepts_tuple] at hv ⊢
    obtain ⟨vs, rfl, hvs⟩ := hv
    have hms : List.Forall₂ (fun s t => ∀ v, Accepts known s v → Accepts known t v) ms ts :=
      forall₂_imp_of_mem (sameMembers_iff.mp h.1) fun m hm t hmt v hv =>
        ih m hm (hs.child hm) hmt hv
    refine ⟨vs, rfl, ?_⟩
    clear h ih hs
    induction hms generalizing vs with
    | nil => exact hvs
    | cons hst _ ih =>
      cases hvs with
      | cons hx hxs => exact .cons (hst _ hx) (ih _ hxs)
  | object ps rs n ih =>
    cases t <;> simp only [same, Bool.and_eq_true, beq_iff_eq, Bool.false_eq_true] at h
    next qs ss m =>
    obtain ⟨⟨⟨hl, hf⟩, hr⟩, -⟩ := h
    rw [keyed_object] at hs
    obtain ⟨us, hperm, hus⟩ := exists_perm_of_sameFields hs.1.1 hl hf
    rw [accepts_object] at hv ⊢
    obtain ⟨fs, rfl, hfs⟩ := hv
    refine ⟨fs, rfl, fun q hq => ?_⟩
    obtain ⟨p, hp, hk, hpq⟩ := exists_left_of_forall₂ hus (hperm.mem_iff.mpr hq)
    unfold Fits
    rw [← hk, ← Names.mem_iff_of_same hs.1.2.1 hr p.1]
    exact (hfs p hp).imp_right (ih p hp (hs.2 p hp) hpq)

end Schema

end CodecDocs
