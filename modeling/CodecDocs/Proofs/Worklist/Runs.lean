import CodecDocs.Proofs.Worklist
import Mathlib.Data.List.Induction

/-! Whole runs of a worklist: visits of names and of schemas mixed in any way with taking the next
name. What one step keeps is said of each step and carried over runs. Tokens tell names apart, stay
what they were and have only the characters that component names may have, and every name goes
through the queue once, in the order of the first visits. -/

namespace CodecDocs.Worklist

/-! ### Characters of tokens -/

/-- ASCII letters and digits, dots, low lines and hyphens. -/
def Portable (token : String) : Prop :=
  ∀ c ∈ token.toList, c.isAlphanum = true ∨ c = '.' ∨ c = '_' ∨ c = '-'

theorem portable_append {s t : String} (hs : Portable s) (ht : Portable t) : Portable (s ++ t) := by
  intro c hc
  rw [String.toList_append, List.mem_append] at hc
  exact hc.elim (hs c) (ht c)

theorem portable_tokenBase (name : String) : Portable (tokenBase name) := by
  intro c hc
  rw [tokenBase, String.toList_ofList] at hc
  obtain ⟨x, -, rfl⟩ := List.mem_map.mp hc
  split_ifs with hx
  · simpa [isTokenChar, or_assoc] using hx
  · simp

theorem portable_toString (n : ℕ) : Portable (toString n) := by
  intro c hc
  rw [Nat.toString_eq_ofList_toDigits, String.toList_ofList] at hc
  have hdigit := Nat.isDigit_of_mem_toDigits (by decide) (by decide) hc
  exact .inl (by simp [Char.isAlphanum, hdigit])

/-! ### Fresh tokens -/

/-- A name's own token or, when it is taken, that with the first free number from two on. -/
def FirstFree (taken : List String) (name token : String) : Prop :=
  (tokenBase name ∉ taken ∧ token = tokenBase name) ∨
    (tokenBase name ∈ taken ∧ ∃ n ≥ 2, token = tokenBase name ++ "_" ++ toString n ∧
      token ∉ taken ∧ ∀ k ≥ 2, k < n → tokenBase name ++ "_" ++ toString k ∈ taken)

/-- The search for a free number ends with one. -/
theorem firstFree_freshToken (taken : List String) (name : String) :
    FirstFree taken name (freshToken taken name) := by
  by_cases hbase : tokenBase name ∈ taken
  · refine .inr ⟨hbase, ?_⟩
    obtain ⟨i, hi, hfree⟩ := exists_numbered_not_mem taken (tokenBase name)
    have hfresh : freshToken taken name ∉ taken := freshToken_not_mem taken name
    simp only [freshToken, List.contains_iff_mem, hbase, if_true, List.find?_map] at hfresh ⊢
    cases hf : (List.range (taken.length + 1)).find?
        ((fun token => !taken.contains token) ∘ fun i => tokenBase name ++ "_" ++ toString (i + 2))
      with
    | none =>
      have := List.find?_eq_none.mp hf i (List.mem_range.mpr hi)
      rw [Function.comp_apply, Bool.not_eq_true', Bool.not_eq_false, List.contains_iff_mem] at this
      exact absurd this hfree
    | some j =>
      obtain ⟨-, -, hbefore⟩ := List.find?_range_eq_some.mp hf
      rw [hf] at hfresh
      refine ⟨j + 2, by omega, rfl, hfresh, fun k hk hkj => ?_⟩
      have := hbefore (k - 2) (by omega)
      rw [Function.comp_apply, Bool.not_not, List.contains_iff_mem,
        show k - 2 + 2 = k by omega] at this
      exact this
  · exact .inl ⟨hbase, by simp [freshToken, hbase]⟩

theorem FirstFree.portable {taken : List String} {name token : String}
    (h : FirstFree taken name token) : Portable token := by
  rcases h with ⟨-, rfl⟩ | ⟨-, n, -, rfl, -⟩
  · exact portable_tokenBase name
  · exact portable_append (portable_append (portable_tokenBase name) (by simp [Portable]))
      (portable_toString n)

/-! ### Steps -/

/-- One use of a worklist. -/
inductive Step where
  | visit (target : Target)
  | visitAll (schema : Schema)
  | takeNext

/-- A worklist and the names that were taken from it, the first one first. -/
structure Run where
  worklist : Worklist
  taken : List Target

namespace Step

def apply (r : Run) : Step → Run
  | .visit target => ⟨(r.worklist.visit target).2, r.taken⟩
  | .visitAll schema => ⟨r.worklist.visitAll schema, r.taken⟩
  | .takeNext =>
    match r.worklist.takeNext with
    | none => r
    | some (target, rest) => ⟨rest, r.taken ++ [target]⟩

/-- The names that a step visits, in their order. -/
def visits : Step → List Target
  | .visit target => [target]
  | .visitAll schema => schema.references
  | .takeNext => []

end Step

/-- The run of some steps from the empty worklist. -/
def run (steps : List Step) : Run := steps.foldl Step.apply ⟨empty, []⟩

theorem run_append (steps more : List Step) :
    run (steps ++ more) = more.foldl Step.apply (run steps) := List.foldl_append

theorem run_concat (steps : List Step) (step : Step) :
    run (steps ++ [step]) = step.apply (run steps) := run_append steps [step]

/-- A property that the empty worklist has and every step keeps is one of all runs. -/
theorem run_induction {P : Run → Prop} (empty : P ⟨empty, []⟩)
    (step : ∀ r step, P r → P (Step.apply r step)) (steps : List Step) : P (run steps) := by
  induction steps using List.reverseRecOn with
  | nil => exact empty
  | append_singleton steps s ih => exact run_concat steps s ▸ step _ s ih

/-! ### What a step keeps -/

/-- A step visits its names, or it takes the next name and leaves alone what was seen. -/
theorem apply_cases (r : Run) (step : Step) :
    step.apply r = ⟨r.worklist.visitTargets step.visits, r.taken⟩ ∨
      ∃ target rest, r.worklist.takeNext = some (target, rest) ∧ step.visits = [] ∧
        step.apply r = ⟨rest, r.taken ++ [target]⟩ := by
  cases step with
  | visit target => exact .inl rfl
  | visitAll schema => exact .inl rfl
  | takeNext =>
    cases h : r.worklist.takeNext with
    | none => exact .inl (by simp [Step.apply, Step.visits, visitTargets, h])
    | some next => exact .inr ⟨next.1, next.2, rfl, rfl, by simp [Step.apply, h]⟩

theorem seen_takeNext {w rest : Worklist} {t : Target} (h : w.takeNext = some (t, rest)) :
    rest.seen = w.seen := by
  unfold takeNext at h
  split at h
  · cases h
  · cases h
    rfl

theorem consistent_apply {r : Run} (h : Consistent r.taken r.worklist) (step : Step) :
    Consistent (step.apply r).taken (step.apply r).worklist := by
  rcases apply_cases r step with he | ⟨target, rest, hnext, -, he⟩
  · exact he ▸ h.visitTargets step.visits
  · exact he ▸ (h.takeNext hnext).1

theorem seen_apply (r : Run) (step : Step) : r.worklist.seen <+: (step.apply r).worklist.seen := by
  rcases apply_cases r step with he | ⟨target, rest, hnext, -, he⟩
  · exact he ▸ seen_visitTargets r.worklist step.visits
  · have hsame : (step.apply r).worklist.seen = r.worklist.seen := by rw [he, seen_takeNext hnext]
    exact hsame ▸ List.prefix_rfl

theorem taken_apply (r : Run) (step : Step) : r.taken <+: (step.apply r).taken := by
  rcases apply_cases r step with he | ⟨target, rest, -, -, he⟩
  · exact he ▸ List.prefix_rfl
  · exact he ▸ List.prefix_append _ _

/-- All tokens are portable. -/
def Spelled (w : Worklist) : Prop := ∀ token ∈ w.seen.values, Portable token

theorem Spelled.visit {w : Worklist} (h : w.Spelled) (t : Target) : (w.visit t).2.Spelled := by
  cases ht : w.token? t with
  | some token => rwa [visit_of_some ht]
  | none =>
    rw [visit_of_none ht]
    intro token hm
    rw [Table.values, List.map_append, List.mem_append] at hm
    rcases hm with hm | hm
    · exact h token hm
    · rw [List.map_singleton, List.mem_singleton] at hm
      exact hm ▸ (firstFree_freshToken w.seen.values t.1).portable

theorem Spelled.visitTargets {w : Worklist} (h : w.Spelled) (ts : List Target) :
    (w.visitTargets ts).Spelled := by
  induction ts generalizing w with
  | nil => exact h
  | cons t ts ih => exact ih (h.visit t)

theorem spelled_apply {r : Run} (h : r.worklist.Spelled) (step : Step) :
    (step.apply r).worklist.Spelled := by
  rcases apply_cases r step with he | ⟨target, rest, hnext, -, he⟩
  · exact he ▸ h.visitTargets step.visits
  · rw [he, Spelled, seen_takeNext hnext]
    exact h

/-! ### The order of first visits -/

theorem keys_visit {w : Worklist} {visits : List Target} (h : w.seen.keys = visits.eraseDups)
    (t : Target) : (w.visit t).2.seen.keys = (visits ++ [t]).eraseDups := by
  rw [List.eraseDups_append, ← h]
  cases ht : w.token? t with
  | some token =>
    have hm : t ∈ visits := by
      rw [← List.mem_eraseDups, ← h]
      exact Table.mem_keys_of_mem (Table.mem_of_get? ht)
    simp [visit_of_some ht, List.removeAll, hm]
  | none =>
    have hm : t ∉ visits := by
      rw [← List.mem_eraseDups, ← h]
      exact Table.get?_eq_none.mp ht
    simp [visit_of_none ht, List.removeAll, hm, List.eraseDups_cons]

theorem keys_visitTargets {w : Worklist} {visits : List Target}
    (h : w.seen.keys = visits.eraseDups) (ts : List Target) :
    (w.visitTargets ts).seen.keys = (visits ++ ts).eraseDups := by
  induction ts generalizing w visits with
  | nil => rw [List.append_nil, ← h]; rfl
  | cons t ts ih =>
    rw [visitTargets_cons, ih (keys_visit h t), List.append_assoc, List.singleton_append]

/-- The names seen are those visited, each at its first visit. -/
theorem keys_run (steps : List Step) :
    (run steps).worklist.seen.keys = (steps.flatMap Step.visits).eraseDups := by
  induction steps using List.reverseRecOn with
  | nil => rfl
  | append_singleton steps step ih =>
    rw [run_concat, List.flatMap_append, List.flatMap_singleton]
    rcases apply_cases (run steps) step with he | ⟨target, rest, hnext, hvisits, he⟩
    · rw [he, keys_visitTargets ih]
    · rw [he, hvisits, List.append_nil, seen_takeNext hnext, ih]

/-! ### What a run keeps -/

theorem consistent_run (steps : List Step) : Consistent (run steps).taken (run steps).worklist :=
  run_induction (P := fun r => Consistent r.taken r.worklist) consistent_empty
    (fun _ step h => consistent_apply h step) steps

theorem spelled_run (steps : List Step) : (run steps).worklist.Spelled :=
  run_induction (P := fun r => r.worklist.Spelled) (by simp [Spelled, empty, Table.values])
    (fun _ step h => spelled_apply h step) steps

/-- A list that every step only adds to is added to by further steps. -/
theorem run_extends {α : Type} {f : Run → List α} (h : ∀ r step, f r <+: f (Step.apply r step))
    (steps more : List Step) : f (run steps) <+: f (run (steps ++ more)) := by
  induction more using List.reverseRecOn with
  | nil => simp only [List.append_nil, List.prefix_rfl]
  | append_singleton more step ih =>
    rw [← List.append_assoc, run_concat]
    exact ih.trans (h _ step)

/-- A visit gives a name the token that it has from then on. -/
theorem token?_visit (w : Worklist) (t : Target) :
    (w.visit t).2.token? t = some (w.visit t).1 := by
  cases ht : w.token? t with
  | some token => rw [visit_of_some ht, ht]
  | none =>
    have hnone : w.seen.get? t = none := ht
    simp [visit_of_none ht, token?, Table.get?_append, hnone, Table.get?]

/-- What every run of a worklist comes to. Different names have different tokens. The token that a
name has been given is the one that later visits and look-ups give. Tokens are portable, and the
search for a new one finds the first that is free. The names taken and then those that wait are the
names seen, in the order of their first visits and without repetition, so that a name that was taken
never waits again. -/
theorem run_keeps_order_and_tokens (steps : List Step) :
    let w := (run steps).worklist
    let taken := (run steps).taken
    (∀ t u token, w.token? t = some token → w.token? u = some token → t = u) ∧
    (∀ t more, let later := (run (steps ++ .visit t :: more)).worklist
      later.token? t = some (w.visit t).1 ∧ (later.visit t).1 = (w.visit t).1) ∧
    (∀ t token more, w.token? t = some token → let later := (run (steps ++ more)).worklist
      later.token? t = some token ∧ (later.visit t).1 = token) ∧
    (∀ t token, w.token? t = some token → Portable token) ∧
    (∀ name, FirstFree w.seen.values name (freshToken w.seen.values name)) ∧
    w.seen.keys = taken ++ w.queue ∧ taken ++ w.queue = (steps.flatMap Step.visits).eraseDups ∧
    (taken ++ w.queue).Nodup ∧
    ∀ t ∈ taken, ∀ more, t ∉ (run (steps ++ more)).worklist.queue := by
  intro w taken
  have hc : Consistent taken w := consistent_run steps
  have hlater : ∀ (before more : List Step) t token, (run before).worklist.token? t = some token →
      (run (before ++ more)).worklist.token? t = some token ∧
        ((run (before ++ more)).worklist.visit t).1 = token := by
    intro before more t token ht
    have hkept := token?_of_prefix (run_extends seen_apply before more) ht
    exact ⟨hkept, by rw [visit_of_some hkept]⟩
  refine ⟨?_, fun t more => ?_, fun t token more ht => hlater steps more t token ht, ?_, ?_,
    hc.order, hc.order ▸ keys_run steps, hc.order ▸ hc.distinct, fun t ht more hq => ?_⟩
  · intro t u token ht hu
    have := List.inj_on_of_nodup_map hc.tokens (Table.mem_of_get? ht) (Table.mem_of_get? hu) rfl
    exact congrArg Prod.fst this
  · have hgiven : (run (steps ++ [.visit t])).worklist.token? t = some (w.visit t).1 := by
      rw [run_concat]
      exact token?_visit w t
    have := hlater (steps ++ [.visit t]) more t _ hgiven
    rwa [List.append_assoc, List.singleton_append] at this
  · exact fun t token ht => spelled_run steps token (List.mem_map_of_mem (Table.mem_of_get? ht))
  · exact firstFree_freshToken w.seen.values
  · have hl := consistent_run (steps ++ more)
    have hnodup : ((run (steps ++ more)).taken ++ (run (steps ++ more)).worklist.queue).Nodup :=
      hl.order ▸ hl.distinct
    exact List.disjoint_of_nodup_append hnodup ((run_extends taken_apply steps more).subset ht) hq

/-- A name between two of one base: the number two is given to none of them. -/
theorem run_keeps_order_and_tokens_crowded :
    let steps : List Step := [.visit ("Foo", .source "a.ts"), .visit ("Foo_2", .source "a.ts"),
      .takeNext, .visit ("Foo", .source "b.ts")]
    (run steps).worklist.token? ("Foo", .source "b.ts") = some "Foo_3" ∧ Portable "Foo_3" ∧
      ("Foo", .source "a.ts") ∈ (run steps).taken ∧
      ∀ more, ("Foo", .source "a.ts") ∉ (run (steps ++ more)).worklist.queue := by
  intro steps
  have h := run_keeps_order_and_tokens steps
  have htoken : (run steps).worklist.token? ("Foo", .source "b.ts") = some "Foo_3" := by decide
  have htaken : ("Foo", .source "a.ts") ∈ (run steps).taken := by decide
  exact ⟨htoken, h.2.2.2.1 _ _ htoken, htaken, h.2.2.2.2.2.2.2.2 _ htaken⟩

end CodecDocs.Worklist
