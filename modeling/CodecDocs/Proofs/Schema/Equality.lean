import CodecDocs.Proofs.Schema.Keyed
import Mathlib.Data.List.Forall2

/-! Laws of the equality of schemas, which does not look at the order of properties. It is reflexive
and symmetric where tables have no key twice, and the properties of equal objects are equal in some
order. -/

namespace CodecDocs

/-! ### Lists side by side -/

section Forall₂
variable {α β : Type*} {R S : α → β → Prop} {xs : List α} {ys : List β}

theorem forall₂_imp_of_mem (h : List.Forall₂ R xs ys) (hi : ∀ x ∈ xs, ∀ y, R x y → S x y) :
    List.Forall₂ S xs ys := by
  induction h with
  | nil => exact .nil
  | cons hxy _ ih =>
    rw [List.forall_mem_cons] at hi
    exact .cons (hi.1 _ hxy) (ih hi.2)

theorem exists_right_of_forall₂ (h : List.Forall₂ R xs ys) {x : α} (hx : x ∈ xs) :
    ∃ y ∈ ys, R x y := by
  induction h with
  | nil => simp at hx
  | cons hxy _ ih =>
    rcases List.mem_cons.mp hx with rfl | hx
    · exact ⟨_, List.mem_cons_self, hxy⟩
    · obtain ⟨y, hy, hr⟩ := ih hx
      exact ⟨y, List.mem_cons_of_mem _ hy, hr⟩

theorem exists_left_of_forall₂ (h : List.Forall₂ R xs ys) {y : β} (hy : y ∈ ys) :
    ∃ x ∈ xs, R x y := exists_right_of_forall₂ h.flip hy

end Forall₂

/-! ### Reflexivity -/

theorem Binary64.same_refl (x : Binary64) : x.same x = true := by simp [same]

theorem Literal.same_refl (v : Literal) : v.same v = true := by
  cases v <;> simp [same, Binary64.same_refl]

theorem JsonNumber.same_refl (n : JsonNumber) : n.same n = true := by
  cases n <;> simp [same, Binary64.same_refl]

namespace Json

theorem sameItems_refl {items : List Json} (h : ∀ j ∈ items, j.same j = true) :
    sameItems items items = true := by
  induction items with
  | nil => rfl
  | cons j js ih =>
    rw [List.forall_mem_cons] at h
    rw [sameItems, h.1, ih h.2]
    rfl

theorem sameFields_iff {fs gs : List (String × Json)} : sameFields fs gs = true ↔
    ∀ p ∈ fs, ∃ w, Table.get? gs p.1 = some w ∧ p.2.same w = true := by
  induction fs with
  | nil => simp [sameFields]
  | cons p fs ih =>
    rw [sameFields, Bool.and_eq_true, ih, List.forall_mem_cons]
    cases Table.get? gs p.1 <;> simp

theorem sameFields_refl {fs : List (String × Json)} (hd : Table.Distinct fs)
    (h : ∀ p ∈ fs, p.2.same p.2 = true) : sameFields fs fs = true :=
  sameFields_iff.mpr fun p hp => ⟨p.2, Table.get?_of_mem hd hp, h p hp⟩

theorem same_refl {j : Json} (h : j.isKeyed = true) : j.same j = true := by
  induction j with
  | null => rfl
  | bool b => simp [same]
  | number n => exact n.same_refl
  | string s => simp [same]
  | array items ih =>
    rw [isKeyed, keyedItems_iff] at h
    exact sameItems_refl fun j hj => ih j hj (h j hj)
  | object fields ih =>
    rw [isKeyed, Bool.and_eq_true, decide_eq_true_eq, keyedFields_iff] at h
    rw [same, sameFields_refl h.1 fun p hp => ih p hp (h.2 p hp)]
    simp

end Json

theorem Notes.same_refl {n : Notes} (h : n.Keyed) : n.same n = true := by
  simp [same, Json.sameFields_refl h.1 fun p hp => Json.same_refl (h.2 p hp)]

namespace Schema

theorem sameValues_refl (vs : List Literal) : sameValues vs vs = true := by
  induction vs with
  | nil => rfl
  | cons v vs ih => rw [sameValues, v.same_refl, ih]; rfl

theorem sameEnum_refl (vs : Option (List Literal)) : sameEnum vs vs = true := by
  cases vs with
  | none => rfl
  | some vs => exact sameValues_refl vs

theorem sameMembers_iff {ss ts : List Schema} :
    sameMembers ss ts = true ↔ List.Forall₂ (fun s t => s.same t = true) ss ts := by
  induction ss generalizing ts with
  | nil => cases ts <;> simp [sameMembers]
  | cons s ss ih => cases ts <;> simp [sameMembers, ih]

theorem sameFields_iff {ps qs : List (String × Schema)} : sameFields ps qs = true ↔
    ∀ p ∈ ps, ∃ t, Table.get? qs p.1 = some t ∧ p.2.same t = true := by
  induction ps with
  | nil => simp [sameFields]
  | cons p ps ih =>
    rw [sameFields, Bool.and_eq_true, ih, List.forall_mem_cons]
    cases Table.get? qs p.1 <;> simp

theorem same_refl {s : Schema} (h : s.Keyed) : s.same s = true := by
  induction s with
  | primitive kind vs n =>
    have hn : n.same n = true := Notes.same_refl h.own
    simp [same, sameEnum_refl, hn]
  | array s n ih =>
    have hn : n.same n = true := Notes.same_refl h.own
    simp [same, ih (h.child (by simp)), hn]
  | object ps rs n ih =>
    obtain ⟨⟨hd, -, hn⟩, hps⟩ := keyed_object.mp h
    have hf : sameFields ps ps = true := sameFields_iff.mpr fun p hp =>
      ⟨p.2, Table.get?_of_mem hd hp, ih p hp (hps p hp)⟩
    simp [same, hf, Names.same_refl, Notes.same_refl hn]
  | record d c n ihd ihc =>
    have hn : n.same n = true := Notes.same_refl h.own
    have hc := ihc (h.child (by simp))
    cases d with
    | none => simp [same, hc, hn]
    | some d => simp [same, ihd d rfl (h.child (by simp)), hc, hn]
  | union ms n ih | intersection ms n ih | tuple ms n ih =>
    have hn : n.same n = true := Notes.same_refl h.own
    have hms : sameMembers ms ms = true := sameMembers_iff.mpr
      (List.forall₂_same.mpr fun m hm => ih m hm (h.child hm))
    simp [same, hms, hn]
  | reference name origin n =>
    have hn : n.same n = true := Notes.same_refl h.own
    simp [same, hn]
  | any n | undefined n => exact Notes.same_refl h.own

/-! ### Equal objects -/

/-- The properties of equal objects are equal one by one, in some order. -/
theorem exists_perm_of_sameFields {ps qs : List (String × Schema)} (hp : Table.Distinct ps)
    (hl : ps.length = qs.length) (h : sameFields ps qs = true) :
    ∃ us, us.Perm qs ∧ List.Forall₂ (fun p q => p.1 = q.1 ∧ p.2.same q.2 = true) ps us :=
  Table.exists_perm_of_get? (R := fun s t => s.same t = true) hp hl (sameFields_iff.mp h)

end Schema

/-! ### Symmetry -/

/-- Where each entry of a table is related to what another table of the same size has under its key,
each entry of the other one is related to what the first one has. -/
theorem Table.exists_related_of_get? {α : Type*} {R : α → α → Prop} {t u : Table String α}
    (ht : t.Distinct) (hl : t.length = u.length)
    (h : ∀ p ∈ t, ∃ b, u.get? p.1 = some b ∧ R p.2 b) {q : String × α} (hq : q ∈ u) :
    ∃ p ∈ t, t.get? q.1 = some p.2 ∧ R p.2 q.2 := by
  obtain ⟨v, hperm, hv⟩ := exists_perm_of_get? ht hl h
  obtain ⟨p, hp, hk, hR⟩ := exists_left_of_forall₂ hv (hperm.mem_iff.mpr hq)
  exact ⟨p, hp, hk ▸ get?_of_mem ht hp, hR⟩

theorem Binary64.same_symm {x y : Binary64} (h : x.same y = true) : y.same x = true := by
  simp only [same, Bool.or_eq_true, Bool.and_eq_true, beq_iff_eq] at h ⊢
  exact h.imp (Or.imp And.symm And.symm) Eq.symm

theorem Literal.same_symm {v w : Literal} (h : v.same w = true) : w.same v = true := by
  cases v <;> cases w <;> simp only [same, beq_iff_eq, Bool.false_eq_true] at h ⊢
  · exact h.symm
  · exact Binary64.same_symm h
  · exact h.symm

theorem JsonNumber.same_symm {m n : JsonNumber} (h : m.same n = true) : n.same m = true := by
  cases m <;> cases n <;> simp only [same, beq_iff_eq, Bool.false_eq_true] at h ⊢
  · exact h.symm
  · exact h.symm
  · exact Binary64.same_symm h

namespace Json

theorem sameItems_symm {xs ys : List Json} (hxs : ∀ x ∈ xs, ∀ y, x.same y = true → y.same x = true)
    (h : sameItems xs ys = true) : sameItems ys xs = true := by
  induction xs generalizing ys with
  | nil =>
    cases ys with
    | nil => rfl
    | cons y ys => cases h
  | cons x xs ih =>
    cases ys with
    | nil => cases h
    | cons y ys =>
      rw [List.forall_mem_cons] at hxs
      rw [sameItems, Bool.and_eq_true] at h ⊢
      exact ⟨hxs.1 y h.1, ih hxs.2 h.2⟩

theorem sameFields_symm {fs gs : List (String × Json)} (hd : Table.Distinct fs)
    (hfs : ∀ p ∈ fs, ∀ w, p.2.same w = true → w.same p.2 = true) (hl : fs.length = gs.length)
    (h : sameFields fs gs = true) : sameFields gs fs = true := by
  refine sameFields_iff.mpr fun q hq => ?_
  obtain ⟨p, hp, hget, hsame⟩ := Table.exists_related_of_get? (R := fun v w => v.same w = true)
    hd hl (sameFields_iff.mp h) hq
  exact ⟨p.2, hget, hfs p hp _ hsame⟩

theorem same_symm {j k : Json} (hj : j.isKeyed = true) (h : j.same k = true) : k.same j = true := by
  induction j generalizing k with
  | null => cases k <;> first | rfl | cases h
  | bool b =>
    cases k <;> simp only [same, beq_iff_eq, Bool.false_eq_true] at h ⊢
    exact h.symm
  | number n =>
    cases k <;> simp only [same, Bool.false_eq_true] at h ⊢
    exact JsonNumber.same_symm h
  | string s =>
    cases k <;> simp only [same, beq_iff_eq, Bool.false_eq_true] at h ⊢
    exact h.symm
  | array items ih =>
    cases k <;> simp only [same, Bool.false_eq_true] at h ⊢
    rw [isKeyed, keyedItems_iff] at hj
    exact sameItems_symm (fun x hx _ => ih x hx (hj x hx)) h
  | object fields ih =>
    cases k <;> simp only [same, Bool.and_eq_true, beq_iff_eq, Bool.false_eq_true] at h ⊢
    rw [isKeyed, Bool.and_eq_true, decide_eq_true_eq, keyedFields_iff] at hj
    exact ⟨h.1.symm, sameFields_symm hj.1 (fun p hp _ => ih p hp (hj.2 p hp)) h.1 h.2⟩

end Json

theorem Notes.same_symm {n m : Notes} (hn : n.Keyed) (h : n.same m = true) : m.same n = true := by
  simp only [same, Bool.and_eq_true, beq_iff_eq] at h ⊢
  obtain ⟨hcomment, hl, hfields⟩ := h
  refine ⟨hcomment.symm, hl.symm, Json.sameFields_symm hn.1 (fun p hp _ => ?_) hl hfields⟩
  exact Json.same_symm (hn.2 p hp)

namespace Schema

theorem sameEnum_symm {vs ws : Option (List Literal)} (h : sameEnum vs ws = true) :
    sameEnum ws vs = true := by
  have values : ∀ {vs ws : List Literal}, sameValues vs ws = true → sameValues ws vs = true := by
    intro vs
    induction vs with
    | nil => intro ws h; cases ws <;> first | rfl | cases h
    | cons v vs ih =>
      intro ws h
      cases ws with
      | nil => cases h
      | cons w ws =>
        rw [sameValues, Bool.and_eq_true] at h ⊢
        exact ⟨Literal.same_symm h.1, ih h.2⟩
  cases vs <;> cases ws <;> simp only [sameEnum, Bool.false_eq_true] at h ⊢
  exact values h

theorem sameMembers_symm {ss ts : List Schema}
    (hss : ∀ s ∈ ss, ∀ t, s.same t = true → t.same s = true) (h : sameMembers ss ts = true) :
    sameMembers ts ss = true := by
  rw [sameMembers_iff] at h ⊢
  exact (forall₂_imp_of_mem h hss).flip

theorem same_symm {s t : Schema} (hs : s.Keyed) (h : s.same t = true) : t.same s = true := by
  induction s generalizing t with
  | primitive kind vs n =>
    cases t <;> simp only [same, Bool.and_eq_true, beq_iff_eq, Bool.false_eq_true] at h ⊢
    exact ⟨⟨h.1.1.symm, sameEnum_symm h.1.2⟩, Notes.same_symm hs.own h.2⟩
  | array s n ih =>
    cases t <;> simp only [same, Bool.and_eq_true, Bool.false_eq_true] at h ⊢
    exact ⟨ih (hs.child (by simp)) h.1, Notes.same_symm hs.own h.2⟩
  | record d c n ihd ihc =>
    have hc : c.Keyed := hs.child (by simp)
    cases t with
    | record e f m =>
      cases d <;> cases e <;> simp only [same, Bool.and_eq_true, Bool.false_eq_true] at h ⊢
      · exact ⟨ihc hc h.1, Notes.same_symm hs.own h.2⟩
      · exact ⟨⟨ihd _ rfl (hs.child (by simp)) h.1.1, ihc hc h.1.2⟩, Notes.same_symm hs.own h.2⟩
    | _ => cases d <;> simp [same] at h
  | union ms n ih | intersection ms n ih | tuple ms n ih =>
    cases t <;> simp only [same, Bool.and_eq_true, Bool.false_eq_true] at h ⊢
    exact ⟨sameMembers_symm (fun m hm _ => ih m hm (hs.child hm)) h.1, Notes.same_symm hs.own h.2⟩
  | reference name origin n =>
    cases t <;> simp only [same, Bool.and_eq_true, beq_iff_eq, Bool.false_eq_true] at h ⊢
    exact ⟨⟨h.1.1.symm, h.1.2.symm⟩, Notes.same_symm hs.own h.2⟩
  | any n | undefined n =>
    cases t <;> simp only [same, Bool.false_eq_true] at h ⊢
    exact Notes.same_symm hs.own h
  | object ps rs n ih =>
    cases t <;> simp only [same, Bool.and_eq_true, beq_iff_eq, Bool.false_eq_true] at h ⊢
    next qs ss m =>
    obtain ⟨⟨⟨hl, hf⟩, hr⟩, hn⟩ := h
    obtain ⟨⟨hd, hnodup, hk⟩, hps⟩ := keyed_object.mp hs
    refine ⟨⟨⟨hl.symm, sameFields_iff.mpr fun q hq => ?_⟩, Names.same_symm hnodup hr⟩,
      Notes.same_symm hk hn⟩
    obtain ⟨p, hp, hget, hsame⟩ := Table.exists_related_of_get? (R := fun s t => s.same t = true)
      hd hl (sameFields_iff.mp hf) hq
    exact ⟨p.2, hget, ih p hp (hps p hp) hsame⟩

end Schema

end CodecDocs
