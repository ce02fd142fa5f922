import CodecDocs.Table
import Mathlib.Data.List.Forall2
import Mathlib.Data.List.Nodup
import Mathlib.Data.List.Perm.Subperm

/-! Laws of tables and of sets of names. A table is distinct when no key stands in it twice; look-up
is then membership, and every way of writing into a table keeps it so. -/

namespace CodecDocs

namespace Table

variable {κ : Type} {α : Type*} [DecidableEq κ]

/-- No key stands in the table twice. -/
def Distinct (t : Table κ α) : Prop := t.keys.Nodup

instance (t : Table κ α) : Decidable t.Distinct := inferInstanceAs (Decidable t.keys.Nodup)

omit [DecidableEq κ] in
@[simp] theorem keys_nil : keys ([] : Table κ α) = [] := rfl

omit [DecidableEq κ] in
@[simp] theorem keys_cons (p : κ × α) (t : Table κ α) : keys (p :: t) = p.1 :: keys t := rfl

omit [DecidableEq κ] in
@[simp] theorem keys_append (t u : Table κ α) : keys (t ++ u) = keys t ++ keys u := List.map_append

omit [DecidableEq κ] in
theorem mem_keys_of_mem {t : Table κ α} {p : κ × α} (h : p ∈ t) : p.1 ∈ t.keys :=
  List.mem_map_of_mem h

omit [DecidableEq κ] in
theorem distinct_nil : Distinct ([] : Table κ α) := List.nodup_nil

omit [DecidableEq κ] in
theorem distinct_cons {p : κ × α} {t : Table κ α} :
    Distinct (p :: t) ↔ p.1 ∉ t.keys ∧ t.Distinct := List.nodup_cons

omit [DecidableEq κ] in
theorem Distinct.nodup {t : Table κ α} (h : t.Distinct) : t.Nodup := List.Nodup.of_map _ h

/-! ### Look-up -/

theorem mem_of_get? {t : Table κ α} {k : κ} {a : α} (h : t.get? k = some a) : (k, a) ∈ t := by
  induction t with
  | nil => simp [get?] at h
  | cons p t ih =>
    simp only [get?] at h
    split_ifs at h with hk
    · cases h
      simp [← hk]
    · exact List.mem_cons_of_mem _ (ih h)

theorem get?_of_mem {t : Table κ α} (ht : t.Distinct) {k : κ} {a : α} (h : (k, a) ∈ t) :
    t.get? k = some a := by
  induction t with
  | nil => simp at h
  | cons p t ih =>
    rw [distinct_cons] at ht
    rcases List.mem_cons.mp h with rfl | h
    · simp [get?]
    · have hne : p.1 ≠ k := fun e => ht.1 (e ▸ mem_keys_of_mem h)
      simp only [get?, if_neg hne]
      exact ih ht.2 h

theorem get?_isSome {t : Table κ α} {k : κ} : (t.get? k).isSome ↔ k ∈ t.keys := by
  induction t with
  | nil => simp [get?]
  | cons p t ih =>
    simp only [get?, keys_cons, List.mem_cons]
    split_ifs with hk
    · simp [hk]
    · rw [ih]
      exact ⟨Or.inr, fun h => h.resolve_left fun e => hk e.symm⟩

@[simp] theorem has_iff {t : Table κ α} {k : κ} : t.has k = true ↔ k ∈ t.keys := get?_isSome

theorem get?_eq_none {t : Table κ α} {k : κ} : t.get? k = none ↔ k ∉ t.keys := by
  rw [← get?_isSome]
  cases t.get? k <;> simp

/-- Look-up does not depend on the order of the entries. -/
theorem get?_eq_of_perm {t u : Table κ α} (ht : t.Distinct) (h : t.Perm u) (k : κ) :
    t.get? k = u.get? k := by
  have hkeys : t.keys.Perm u.keys := h.map Prod.fst
  cases hk : t.get? k with
  | none => exact (get?_eq_none.mpr (hkeys.mem_iff.not.mp (get?_eq_none.mp hk))).symm
  | some a => exact (get?_of_mem (hkeys.nodup_iff.mp ht) (h.mem_iff.mp (mem_of_get? hk))).symm

/-- Look-up goes on in a second table where the first one lacks the key. -/
theorem get?_append (t u : Table κ α) (k : κ) : get? (t ++ u) k = (t.get? k).or (u.get? k) := by
  induction t with
  | nil => simp [get?]
  | cons p t ih =>
    simp only [List.cons_append, get?]
    split_ifs with hk
    · rfl
    · exact ih

/-- An entry that stands first for its key is found behind any other entries too. -/
theorem get?_append_of_some {t : Table κ α} {k : κ} {a : α} (h : t.get? k = some a)
    (u : Table κ α) : get? (t ++ u) k = some a := by
  rw [get?_append, h, Option.some_or]

theorem get?_map {β : Type*} (f : α → β) (t : Table κ α) (k : κ) :
    get? (t.map fun p => (p.1, f p.2)) k = (t.get? k).map f := by
  induction t with
  | nil => rfl
  | cons p t ih =>
    simp only [List.map_cons, get?, ih]
    split_ifs <;> rfl

/-- The values of a table are known from its keys and what is found under them. -/
theorem values_eq_map {β : Type*} {l : List β} {f : β → κ} {g : β → α} {t : Table κ α}
    (ht : t.Distinct) (hk : t.keys = l.map f) (hg : ∀ x ∈ l, t.get? (f x) = some (g x)) :
    t.values = l.map g := by
  have hvalue : ∀ p ∈ t, ∀ x ∈ l, p.1 = f x → p.2 = g x := by
    intro p hp x hx he
    have := get?_of_mem ht hp
    rw [he, hg x hx, Option.some.injEq] at this
    exact this.symm
  clear ht hg
  induction l generalizing t with
  | nil =>
    rw [List.map_nil, keys, List.map_eq_nil_iff] at hk
    simp [hk, values]
  | cons x l ih =>
    cases t with
    | nil => simp at hk
    | cons p t =>
      rw [keys_cons, List.map_cons, List.cons.injEq] at hk
      have hrest := ih hk.2 fun q hq y hy =>
        hvalue q (List.mem_cons_of_mem _ hq) y (List.mem_cons_of_mem _ hy)
      have hfirst := hvalue p List.mem_cons_self x List.mem_cons_self hk.1
      rw [List.map_cons, ← hrest, ← hfirst]
      rfl

/-- Of two tables with as many entries, let each entry of the first be related to what is found
under its key in the second. Then their entries are related one by one, in some order. -/
theorem exists_perm_of_get? {R : α → α → Prop} {t u : Table κ α} (ht : t.Distinct)
    (hl : t.length = u.length) (h : ∀ p ∈ t, ∃ b, u.get? p.1 = some b ∧ R p.2 b) :
    ∃ v, v.Perm u ∧ List.Forall₂ (fun p q => p.1 = q.1 ∧ R p.2 q.2) t v := by
  let partner : κ × α → κ × α := fun p => (p.1, (u.get? p.1).getD p.2)
  have hpartner : ∀ p ∈ t, partner p ∈ u ∧ R p.2 (partner p).2 := by
    intro p hp
    obtain ⟨b, hb, hR⟩ := h p hp
    simp only [partner, hb, Option.getD_some]
    exact ⟨mem_of_get? hb, hR⟩
  refine ⟨t.map partner, ?_, ?_⟩
  · have hkeys : keys (t.map partner) = t.keys := by
      simp [keys, partner, Function.comp_def]
    have hnodup : (t.map partner).Nodup := Distinct.nodup (by rw [Distinct, hkeys]; exact ht)
    have hsub : t.map partner ⊆ u := List.forall_mem_map.mpr fun p hp => (hpartner p hp).1
    exact (hnodup.subperm hsub).perm_of_length_le (by simp [hl])
  · rw [List.forall₂_map_right_iff]
    exact List.forall₂_same.mpr fun p hp => ⟨rfl, (hpartner p hp).2⟩

/-! ### Writing -/

theorem mem_of_mem_insert {t : Table κ α} {k : κ} {a : α} {p : κ × α} (h : p ∈ t.insert k a) :
    p ∈ t ∨ p = (k, a) := by
  induction t with
  | nil => exact .inr (by simpa [insert] using h)
  | cons q t ih =>
    simp only [insert] at h
    split_ifs at h with hk
    · rcases List.mem_cons.mp h with rfl | h
      · exact .inr (by rw [hk])
      · exact .inl (List.mem_cons_of_mem _ h)
    · rcases List.mem_cons.mp h with rfl | h
      · exact .inl (List.mem_cons_self)
      · exact (ih h).imp_left (List.mem_cons_of_mem _)

theorem mem_keys_insert {t : Table κ α} {k x : κ} {a : α} :
    x ∈ (t.insert k a).keys ↔ x ∈ t.keys ∨ x = k := by
  induction t with
  | nil => simp [insert]
  | cons q t ih =>
    simp only [insert]
    split_ifs with hk
    · simp only [keys_cons, List.mem_cons, hk]
      tauto
    · simp only [keys_cons, List.mem_cons, ih]
      tauto

theorem Distinct.insert {t : Table κ α} (h : t.Distinct) (k : κ) (a : α) :
    (t.insert k a).Distinct := by
  induction t with
  | nil => simp [Table.insert, Distinct]
  | cons q t ih =>
    rw [distinct_cons] at h
    simp only [Table.insert]
    split_ifs with hk
    · exact distinct_cons.mpr h
    · refine distinct_cons.mpr ⟨?_, ih h.2⟩
      rw [mem_keys_insert]
      exact not_or.mpr ⟨h.1, hk⟩

theorem insert_of_not_mem {t : Table κ α} {k : κ} (h : k ∉ t.keys) (a : α) :
    t.insert k a = t ++ [(k, a)] := by
  induction t with
  | nil => rfl
  | cons q t ih =>
    simp only [keys_cons, List.mem_cons, not_or] at h
    simp only [insert, if_neg (Ne.symm h.1), ih h.2, List.cons_append]

theorem get?_insert (t : Table κ α) (k x : κ) (a : α) :
    (t.insert k a).get? x = if k = x then some a else t.get? x := by
  induction t with
  | nil => simp [insert, get?]
  | cons q t ih =>
    simp only [insert]
    split_ifs with hk hx hx
    · simp [get?, hk, hx]
    · simp [get?, hk, hx]
    · subst hx
      simp [get?, hk, ih]
    · simp only [get?, ih, if_neg hx]

theorem get?_erase (t : Table κ α) (key k : κ) :
    (t.erase key).get? k = if key = k then none else t.get? k := by
  induction t with
  | nil => simp [erase, get?]
  | cons p t ih =>
    unfold erase at ih ⊢
    by_cases hp : p.1 = key
    · rw [List.filter_cons_of_neg (by simpa using hp), ih, get?, hp]
      split_ifs <;> rfl
    · rw [List.filter_cons_of_pos (by simpa using hp), get?, get?, ih]
      split_ifs with hk hkey
      · exact absurd (hk.trans hkey.symm) hp
      all_goals rfl

@[simp] theorem extend_nil (t : Table κ α) : t.extend [] = t := rfl

@[simp] theorem extend_cons (t : Table κ α) (p : κ × α) (u : Table κ α) :
    t.extend (p :: u) = (t.insert p.1 p.2).extend u := rfl

theorem extend_append (t u v : Table κ α) : t.extend (u ++ v) = (t.extend u).extend v :=
  List.foldl_append

theorem mem_of_mem_extend {t u : Table κ α} {p : κ × α} (h : p ∈ t.extend u) : p ∈ t ∨ p ∈ u := by
  induction u generalizing t with
  | nil => exact .inl h
  | cons q u ih =>
    rcases ih h with h | h
    · rcases mem_of_mem_insert h with h | h
      · exact .inl h
      · exact .inr (h ▸ List.mem_cons_self)
    · exact .inr (List.mem_cons_of_mem _ h)

theorem mem_keys_extend {t u : Table κ α} {x : κ} :
    x ∈ (t.extend u).keys ↔ x ∈ t.keys ∨ x ∈ u.keys := by
  induction u generalizing t with
  | nil => simp
  | cons q u ih =>
    rw [extend_cons, ih, mem_keys_insert, keys_cons, List.mem_cons, or_assoc]

/-- What is found under a key that is not written stays. -/
theorem get?_extend_of_not_mem {t u : Table κ α} {k : κ} (h : k ∉ u.keys) :
    (t.extend u).get? k = t.get? k := by
  induction u generalizing t with
  | nil => rfl
  | cons q u ih =>
    rw [keys_cons, List.mem_cons, not_or] at h
    rw [extend_cons, ih h.2, get?_insert, if_neg (Ne.symm h.1)]

/-- What a table without repetition writes wins over what was there. -/
theorem get?_extend {t u : Table κ α} (hu : u.Distinct) (k : κ) :
    (t.extend u).get? k = (u.get? k).or (t.get? k) := by
  induction u generalizing t with
  | nil => rfl
  | cons q u ih =>
    rw [distinct_cons] at hu
    rw [extend_cons, ih hu.2, get?_insert, get?]
    split_ifs with hk
    · subst hk
      rw [get?_eq_none.mpr hu.1, Option.none_or, Option.some_or]
    · rfl

theorem Distinct.extend {t : Table κ α} (h : t.Distinct) (u : Table κ α) :
    (t.extend u).Distinct := by
  induction u generalizing t with
  | nil => exact h
  | cons q u ih => exact ih (h.insert q.1 q.2)

/-- Tables without a common key are written one after the other. -/
theorem extend_of_disjoint {t u : Table κ α} (hu : u.Distinct) (h : t.keys.Disjoint u.keys) :
    t.extend u = t ++ u := by
  induction u generalizing t with
  | nil => simp
  | cons q u ih =>
    rw [distinct_cons] at hu
    have hq : q.1 ∉ t.keys := fun hm => h hm List.mem_cons_self
    rw [extend_cons, insert_of_not_mem hq, ih hu.2]
    · simp
    · intro x hx hxu
      simp only [keys_append, keys_cons, keys_nil, List.mem_append, List.mem_singleton] at hx
      rcases hx with hx | rfl
      · exact h hx (List.mem_cons_of_mem _ hxu)
      · exact hu.1 hxu

theorem fill_cons (t : Table κ α) (p : κ × α) (u : Table κ α) :
    t.fill (p :: u) = (if t.has p.1 then t else t.insert p.1 p.2).fill u := rfl

/-- Where none of the keys is there yet, filling in is writing. -/
theorem fill_of_disjoint {t u : Table κ α} (hu : u.Distinct) (h : t.keys.Disjoint u.keys) :
    t.fill u = t.extend u := by
  induction u generalizing t with
  | nil => rfl
  | cons q u ih =>
    rw [distinct_cons] at hu
    have hq : q.1 ∉ t.keys := fun hm => h hm List.mem_cons_self
    rw [fill_cons, if_neg (by simpa using hq), extend_cons, ih hu.2]
    intro x hx hxu
    rcases mem_keys_insert.mp hx with hx | rfl
    · exact h hx (List.mem_cons_of_mem _ hxu)
    · exact hu.1 hxu

/-- What is filled in never replaces what was there. -/
theorem get?_fill (t u : Table κ α) (k : κ) : (t.fill u).get? k = (t.get? k).or (u.get? k) := by
  induction u generalizing t with
  | nil => simp [fill, get?]
  | cons q u ih =>
    rw [fill_cons, ih, get?]
    split_ifs with hq hk hk
    · obtain ⟨a, ha⟩ := Option.isSome_iff_exists.mp (get?_isSome.mpr (has_iff.mp hq))
      rw [← hk, ha, Option.some_or, Option.some_or]
    · rfl
    · have hnone : t.get? k = none := by
        rw [← hk]
        exact get?_eq_none.mpr fun hm => hq (has_iff.mpr hm)
      rw [get?_insert, if_pos hk, hnone, Option.none_or, Option.some_or]
    · rw [get?_insert, if_neg hk]

theorem mem_of_mem_fill {t u : Table κ α} {p : κ × α} (h : p ∈ t.fill u) : p ∈ t ∨ p ∈ u := by
  induction u generalizing t with
  | nil => exact .inl h
  | cons q u ih =>
    rw [fill_cons] at h
    rcases ih h with h | h
    · split_ifs at h
      · exact .inl h
      · rcases mem_of_mem_insert h with h | h
        · exact .inl h
        · exact .inr (h ▸ List.mem_cons_self)
    · exact .inr (List.mem_cons_of_mem _ h)

theorem Distinct.fill {t : Table κ α} (h : t.Distinct) (u : Table κ α) : (t.fill u).Distinct := by
  induction u generalizing t with
  | nil => exact h
  | cons q u ih =>
    rw [fill_cons]
    split_ifs
    · exact ih h
    · exact ih (h.insert q.1 q.2)

end Table

namespace Names

theorem mem_add {names : Names} {name x : String} :
    x ∈ names.add name ↔ x ∈ names ∨ x = name := by
  unfold add
  split_ifs with h
  · have hm : name ∈ names := by simpa using h
    exact ⟨Or.inl, fun h => h.elim id fun e => e ▸ hm⟩
  · simp

theorem mem_remove {names : Names} {name x : String} :
    x ∈ names.remove name ↔ x ∈ names ∧ x ≠ name := by simp [remove]

theorem nodup_add {names : Names} (h : names.Nodup) (name : String) : (names.add name).Nodup := by
  unfold add
  split_ifs with hm
  · exact h
  · refine List.Nodup.append h (List.nodup_singleton name) ?_
    intro x hx hs
    rw [List.mem_singleton] at hs
    exact hm (by simpa [hs] using hx)

theorem mem_addAll {names more : Names} {x : String} :
    x ∈ names.addAll more ↔ x ∈ names ∨ x ∈ more := by
  induction more generalizing names with
  | nil => simp [addAll]
  | cons name more ih =>
    have h : names.addAll (name :: more) = (names.add name).addAll more := rfl
    rw [h, ih, mem_add, List.mem_cons, or_assoc]

theorem nodup_addAll {names : Names} (h : names.Nodup) (more : Names) :
    (names.addAll more).Nodup := by
  induction more generalizing names with
  | nil => exact h
  | cons name more ih => exact ih (nodup_add h name)

theorem same_refl (names : Names) : names.same names = true := by
  simp [same]

/-- Equal sets have the same elements. -/
theorem mem_iff_of_same {names others : Names} (hn : names.Nodup) (h : names.same others = true)
    (x : String) : x ∈ names ↔ x ∈ others := by
  simp only [same, Bool.and_eq_true, beq_iff_eq, List.all_eq_true, List.contains_iff_mem] at h
  have hp : names.Perm others := (hn.subperm h.2).perm_of_length_le (Nat.le_of_eq h.1.symm)
  exact hp.mem_iff

theorem same_symm {names others : Names} (hn : names.Nodup) (h : names.same others = true) :
    others.same names = true := by
  have hmem := mem_iff_of_same hn h
  simp only [same, Bool.and_eq_true, beq_iff_eq, List.all_eq_true, List.contains_iff_mem] at h ⊢
  exact ⟨h.1.symm, fun x hx => (hmem x).mpr hx⟩

end Names

end CodecDocs
