import CodecDocs.Worklist
import CodecDocs.Proofs.Table

/-! Laws of worklists. A token that is given out is new, so that names and tokens determine each
other; the names that were taken, followed by those that wait, are the names seen in the order of
their first visits. Visits only ever add to what was seen, and a token stays what it was; visiting
a name again changes nothing. -/

namespace CodecDocs.Worklist

/-! ### Tokens -/

theorem numbered_injective (base : String) :
    Function.Injective fun i : ℕ => base ++ "_" ++ toString (i + 2) := by
  intro i j h
  have hdigits : Nat.toDigits 10 (i + 2) = Nat.toDigits 10 (j + 2) := by
    have := (String.append_right_inj _).mp h
    rw [Nat.toString_eq_ofList_toDigits, Nat.toString_eq_ofList_toDigits] at this
    exact String.ofList_injective this
  have := congrArg (Nat.ofDigitChars 10 · 0) hdigits
  simpa using this

/-- Among more numbered names than tokens one is no token. -/
theorem exists_numbered_not_mem (taken : List String) (base : String) :
    ∃ i < taken.length + 1, base ++ "_" ++ toString (i + 2) ∉ taken := by
  by_contra! h
  have hsub : (List.range (taken.length + 1)).map (fun i => base ++ "_" ++ toString (i + 2)) ⊆
      taken := by
    intro token ht
    obtain ⟨i, hi, rfl⟩ := List.mem_map.mp ht
    exact h i (List.mem_range.mp hi)
  have hle := (List.nodup_range.map (numbered_injective base)).subperm hsub |>.length_le
  rw [List.length_map, List.length_range] at hle
  omega

/-- A fresh token is not one of those taken. -/
theorem freshToken_not_mem (taken : List String) (name : String) :
    freshToken taken name ∉ taken := by
  simp only [freshToken]
  split_ifs with h
  · obtain ⟨i, hi, hn⟩ := exists_numbered_not_mem taken (tokenBase name)
    cases hf : ((List.range (taken.length + 1)).map fun i =>
        tokenBase name ++ "_" ++ toString (i + 2)).find? fun token => !taken.contains token with
    | none =>
      have := List.find?_eq_none.mp hf _ (List.mem_map_of_mem (List.mem_range.mpr hi))
      rw [Bool.not_eq_true', Bool.not_eq_false, List.contains_iff_mem] at this
      exact absurd this hn
    | some token => simpa using List.find?_some hf
  · simpa using h

/-! ### One visit -/

theorem visit_of_some {w : Worklist} {t : Target} {token : String} (h : w.token? t = some token) :
    w.visit t = (token, w) := by simp [visit, h]

theorem visit_of_none {w : Worklist} {t : Target} (h : w.token? t = none) :
    w.visit t = (freshToken w.seen.values t.1,
      ⟨w.seen ++ [(t, freshToken w.seen.values t.1)], w.queue ++ [t]⟩) := by simp [visit, h]

/-- The names taken and those that wait are the ones seen, each has been seen once, and no two have
the same token. -/
structure Consistent (taken : List Target) (w : Worklist) : Prop where
  order : w.seen.keys = taken ++ w.queue
  distinct : w.seen.Distinct
  tokens : w.seen.values.Nodup

theorem consistent_empty : Consistent [] empty := ⟨rfl, List.nodup_nil, List.nodup_nil⟩

theorem Consistent.visit {taken : List Target} {w : Worklist} (h : Consistent taken w)
    (t : Target) : Consistent taken (w.visit t).2 := by
  cases ht : w.token? t with
  | some token => rwa [visit_of_some ht]
  | none =>
    rw [visit_of_none ht]
    have hnew : t ∉ w.seen.keys := Table.get?_eq_none.mp ht
    refine ⟨?_, ?_, ?_⟩
    · simp [h.order]
    · rw [Table.Distinct, Table.keys_append]
      exact h.distinct.append (List.nodup_singleton t) (by simpa using hnew)
    · rw [Table.values, List.map_append]
      exact h.tokens.append (List.nodup_singleton _) (by
        simpa [Table.values] using freshToken_not_mem w.seen.values t.1)

/-- The next name leaves the queue for those taken. -/
theorem Consistent.takeNext {taken : List Target} {w rest : Worklist} {t : Target}
    (h : Consistent taken w) (ht : w.takeNext = some (t, rest)) :
    Consistent (taken ++ [t]) rest ∧ rest.seen = w.seen ∧ t ∈ w.seen.keys := by
  unfold Worklist.takeNext at ht
  split at ht
  · cases ht
  · next queue hq =>
    cases ht
    refine ⟨⟨?_, h.distinct, h.tokens⟩, rfl, ?_⟩ <;> simp [h.order, hq]

theorem seen_visit (w : Worklist) (t : Target) : w.seen <+: (w.visit t).2.seen := by
  cases ht : w.token? t with
  | some token => exact ⟨[], by rw [visit_of_some ht, List.append_nil]⟩
  | none => exact ⟨[(t, freshToken w.seen.values t.1)], by rw [visit_of_none ht]⟩

theorem mem_keys_visit {w : Worklist} {t x : Target} :
    x ∈ (w.visit t).2.seen.keys ↔ x ∈ w.seen.keys ∨ x = t := by
  cases ht : w.token? t with
  | some token =>
    have hm : t ∈ w.seen.keys := Table.mem_keys_of_mem (Table.mem_of_get? ht)
    rw [visit_of_some ht]
    exact ⟨Or.inl, fun h => h.elim id fun e => e ▸ hm⟩
  | none => simp [visit_of_none ht]

/-! ### Many visits -/

theorem visitTargets_cons (w : Worklist) (t : Target) (ts : List Target) :
    w.visitTargets (t :: ts) = (w.visit t).2.visitTargets ts := rfl

theorem visitTargets_append (w : Worklist) (ts us : List Target) :
    w.visitTargets (ts ++ us) = (w.visitTargets ts).visitTargets us := List.foldl_append

theorem Consistent.visitTargets {taken : List Target} {w : Worklist} (h : Consistent taken w)
    (ts : List Target) : Consistent taken (w.visitTargets ts) := by
  induction ts generalizing w with
  | nil => exact h
  | cons t ts ih => exact ih (h.visit t)

theorem seen_visitTargets (w : Worklist) (ts : List Target) :
    w.seen <+: (w.visitTargets ts).seen := by
  induction ts generalizing w with
  | nil => exact List.prefix_rfl
  | cons t ts ih => exact (seen_visit w t).trans (ih _)

theorem mem_keys_visitTargets {w : Worklist} {ts : List Target} {x : Target} :
    x ∈ (w.visitTargets ts).seen.keys ↔ x ∈ w.seen.keys ∨ x ∈ ts := by
  induction ts generalizing w with
  | nil => simp [visitTargets]
  | cons t ts ih => rw [visitTargets_cons, ih, mem_keys_visit, List.mem_cons, or_assoc]

/-- A token once given stays. -/
theorem token?_of_prefix {w u : Worklist} (h : w.seen <+: u.seen) {t : Target} {token : String}
    (ht : w.token? t = some token) : u.token? t = some token := by
  obtain ⟨more, hm⟩ := h
  rw [token?, ← hm]
  exact Table.get?_append_of_some ht more

theorem exists_token {w : Worklist} {t : Target} (h : t ∈ w.seen.keys) :
    ∃ token, w.token? t = some token := Option.isSome_iff_exists.mp (Table.get?_isSome.mpr h)

/-! ### Visits that change nothing -/

theorem visitTargets_of_seen {w : Worklist} {ts : List Target} (h : ∀ t ∈ ts, t ∈ w.seen.keys) :
    w.visitTargets ts = w := by
  induction ts with
  | nil => rfl
  | cons t ts ih =>
    rw [List.forall_mem_cons] at h
    obtain ⟨token, ht⟩ := exists_token h.1
    rw [visitTargets_cons, visit_of_some ht, ih h.2]

/-- Visiting the one names comes to the same worklist as visiting the others. -/
def SameVisits (ts us : List Target) : Prop :=
  ∀ w : Worklist, w.visitTargets ts = w.visitTargets us

namespace SameVisits

variable {ts us vs ts' us' : List Target}

theorem refl (ts : List Target) : SameVisits ts ts := fun _ => rfl

theorem trans (h : SameVisits ts us) (h' : SameVisits us vs) : SameVisits ts vs :=
  fun w => (h w).trans (h' w)

theorem append (h : SameVisits ts us) (h' : SameVisits ts' us') :
    SameVisits (ts ++ ts') (us ++ us') := fun w => by
  rw [visitTargets_append, visitTargets_append, h w, h' _]

/-- Names that were visited just before may be left out. -/
theorem append_of_subset (h : us ⊆ ts) : SameVisits ts (ts ++ us) := fun w => by
  rw [visitTargets_append]
  exact (visitTargets_of_seen fun t ht => mem_keys_visitTargets.mpr (.inr (h ht))).symm

theorem flatMap {α : Type} {f g : α → List Target} {xs : List α}
    (h : ∀ x ∈ xs, SameVisits (f x) (g x)) : SameVisits (xs.flatMap f) (xs.flatMap g) := by
  induction xs with
  | nil => exact .refl []
  | cons x xs ih =>
    rw [List.forall_mem_cons] at h
    exact h.1.append (ih h.2)

theorem mem_iff (h : SameVisits ts us) {t : Target} : t ∈ ts ↔ t ∈ us := by
  have hkeys := congrArg (fun w : Worklist => t ∈ w.seen.keys) (h empty)
  simpa [mem_keys_visitTargets, empty] using hkeys

end SameVisits

end CodecDocs.Worklist
