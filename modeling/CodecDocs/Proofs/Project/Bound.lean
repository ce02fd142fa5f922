import CodecDocs.Proofs.Project.Step
import Mathlib.Data.Nat.Basic

/-! The bound on the steps of resolution. A resolution that ends within some number of steps ends
within the bound of its project, with the same answer: on the way from one import to the next a
search enters each module at most once, and no import leads back to itself, since the second time
would be like the first. So an exhausted bound says that a resolution does not end at all. -/

namespace CodecDocs

/-- An answer other than that a bound was too small. -/
def Ended {α : Type} (answer : Except Fault α) : Prop := answer ≠ .error .exhausted

instance {α : Type} (answer : Except Fault α) : Decidable (Ended answer) :=
  match answer with
  | .ok _ => isTrue (by simp [Ended])
  | .error e =>
    if h : e = .exhausted then isFalse (by simp [Ended, h]) else isTrue (by simp [Ended, h])

theorem ok_of_toOption {ε α : Type} {answer : Except ε α} {a : α} (h : answer.toOption = some a) :
    answer = .ok a := by
  cases answer with
  | ok a => exact congrArg _ (Option.some.inj h)
  | error e => cases h

theorem countP_lt_countP {α : Type} {l : List α} {f g : α → Bool} (hfg : ∀ x ∈ l, f x → g x)
    {x : α} (hx : x ∈ l) (hf : f x = false) (hg : g x = true) : l.countP f < l.countP g := by
  induction l with
  | nil => cases hx
  | cons y l ih =>
    have hrest : l.countP f ≤ l.countP g :=
      List.countP_mono_left fun z hz => hfg z (List.mem_cons_of_mem _ hz)
    rcases List.mem_cons.mp hx with rfl | hx
    · rw [List.countP_cons_of_neg (by simp [hf]), List.countP_cons_of_pos hg]
      omega
    · have hlt := ih (fun z hz => hfg z (List.mem_cons_of_mem _ hz)) hx
      have hy := hfg y List.mem_cons_self
      simp only [List.countP_cons]
      split_ifs with h1 h2 <;> first | omega | exact absurd (hy h1) h2

namespace Project

variable {p : Project} {f g : ℕ}

/-- The names that imports bring into modules. -/
def importedNames (p : Project) : List (String × String) :=
  p.modules.flatMap fun e => e.2.imports.map fun i => (i.1, e.1)

theorem mem_importedNames {name id : String} {m : SourceModule} {entry : ImportEntry}
    (hm : p.module? id = some m) (hi : m.imports.get? name = some entry) :
    (name, id) ∈ p.importedNames :=
  List.mem_flatMap.mpr ⟨(id, m), Table.mem_of_get? hm,
    List.mem_map.mpr ⟨(name, entry), Table.mem_of_get? hi, rfl⟩⟩

/-! ### One step with two bounds -/

/-- A name is answered alike if the exports are that it may ask for. -/
theorem nameWithin_congr {name id : String}
    (hask : (name, id) ∈ p.importedNames → ∀ target other,
      Ended (p.exportWithin g target other []).1 →
        p.exportWithin f target other [] = p.exportWithin g target other [])
    (h : Ended (p.nameWithin (g + 1) name id)) :
    p.nameWithin (f + 1) name id = p.nameWithin (g + 1) name id := by
  cases nameCase p name id with
  | lost none => rw [nameWithin_lost f none, nameWithin_lost g none]
  | declared found entry =>
    rw [nameWithin_declared f found entry, nameWithin_declared g found entry]
  | unknown found undeclared unimported =>
    rw [nameWithin_unknown f found undeclared unimported,
      nameWithin_unknown g found undeclared unimported]
  | asks found undeclared imported asks =>
    rw [nameWithin_asks g found undeclared imported asks] at h ⊢
    rw [nameWithin_asks f found undeclared imported asks,
      hask (mem_importedNames found imported) _ _ h]
  | answer found undeclared imported silent =>
    rw [nameWithin_answer f found undeclared imported silent,
      nameWithin_answer g found undeclared imported silent]

/-- Searches of the same modules, one after the other, end alike if those of each module do. -/
theorem searchStars_congr {ask ask' : String → List String → Search} {base : List String}
    (hkeep : ∀ id entered, entered ⊆ (ask id entered).2)
    (hask : ∀ id entered, base ⊆ entered → Ended (ask id entered).1 →
      ask' id entered = ask id entered)
    (links : List Link) {entered : List String} (hbase : base ⊆ entered)
    (h : ∀ answer, (searchStars ask links entered).1 = some answer → Ended answer) :
    searchStars ask' links entered = searchStars ask links entered := by
  induction links generalizing entered with
  | nil => rfl
  | cons link links ih =>
    cases link with
    | toModule id =>
      have hid := hkeep id entered
      cases heq : ask id entered with
      | mk answer more =>
        by_cases hu : IsUnknown answer
        · have hended : Ended (ask id entered).1 := by
            obtain ⟨x, y, place, rfl⟩ := hu
            simp [heq, Ended]
          have heq' := (hask id entered hbase hended).trans heq
          rw [searchStars_unknown heq hu] at h ⊢
          rw [searchStars_unknown heq' hu]
          rw [heq] at hid
          exact ih (List.Subset.trans hbase hid) h
        · rw [searchStars_known heq hu] at h ⊢
          have hended : Ended (ask id entered).1 := by
            rw [heq]
            exact h answer rfl
          exact searchStars_known ((hask id entered hbase hended).trans heq) hu links
    | toPackage package | missing specifier => exact ih hbase h

/-- An export is answered alike if the names and the exports are that it asks for, the latter with
more modules entered than before. -/
theorem exportWithin_congr {id name : String} {entered : List String}
    (hname : ∀ inner, Ended (p.nameWithin g inner id) →
      p.nameWithin f inner id = p.nameWithin g inner id)
    (hask : id ∈ p.moduleIds → id ∉ entered → ∀ target other more, id :: entered ⊆ more →
      Ended (p.exportWithin g target other more).1 →
        p.exportWithin f target other more = p.exportWithin g target other more)
    (h : Ended (p.exportWithin (g + 1) id name entered).1) :
    p.exportWithin (f + 1) id name entered = p.exportWithin (g + 1) id name entered := by
  have hmem : ∀ {m}, p.module? id = some m → id ∈ p.moduleIds :=
    fun hm => Table.mem_keys_of_mem (Table.mem_of_get? hm)
  cases exportCase p id name entered with
  | entered again => rw [exportWithin_entered f again, exportWithin_entered g again]
  | lost new none => rw [exportWithin_lost f new none, exportWithin_lost g new none]
  | own new found entry =>
    rw [exportWithin_own g new found entry] at h ⊢
    rw [exportWithin_own f new found entry, hname _ h]
  | again new found entry =>
    rw [exportWithin_again g new found entry] at h ⊢
    rw [exportWithin_again f new found entry]
    exact hask (hmem found) new _ _ _ (List.Subset.refl _) h
  | answer new found entry said =>
    rw [exportWithin_answer f new found entry said, exportWithin_answer g new found entry said]
  | default new found absent named =>
    subst named
    rw [exportWithin_default f new found absent, exportWithin_default g new found absent]
  | @stars m new found absent named =>
    rw [exportWithin_stars g new found absent named] at h ⊢
    rw [exportWithin_stars f new found absent named]
    congr 1
    refine searchStars_congr (fun target => subset_exportWithin p g target name)
      (fun target more => hask (hmem found) new target name more) m.stars (List.Subset.refl _) ?_
    intro answer ha
    generalize searchStars _ m.stars (id :: entered) = out at h ha
    obtain ⟨out, more⟩ := out
    subst ha
    exact h

/-! ### Larger bounds -/

/-- One more step does not change an answer. -/
theorem within_succ (n : ℕ) :
    (∀ name id, Ended (p.nameWithin n name id) →
      p.nameWithin (n + 1) name id = p.nameWithin n name id) ∧
    ∀ id name entered, Ended (p.exportWithin n id name entered).1 →
      p.exportWithin (n + 1) id name entered = p.exportWithin n id name entered := by
  induction n with
  | zero => exact ⟨fun _ _ h => absurd rfl h, fun _ _ _ h => absurd rfl h⟩
  | succ n ih =>
    refine ⟨fun name id h => nameWithin_congr (fun _ target other => ih.2 target other []) h, ?_⟩
    intro id name entered h
    exact exportWithin_congr (fun inner => ih.1 inner id)
      (fun _ _ target other more _ => ih.2 target other more) h

/-! ### The bound of a project -/

/-- How many imported names are resolved within a number of steps. -/
def endedNames (p : Project) (n : ℕ) : ℕ :=
  p.importedNames.countP fun x => decide (Ended (p.nameWithin n x.1 x.2))

/-- How many modules are not among those entered. -/
def freshModules (p : Project) (entered : List String) : ℕ :=
  p.moduleIds.countP fun id => !entered.contains id

theorem stepBound_eq (p : Project) :
    p.stepBound = (p.importedNames.length + 1) * (p.modules.length + 2) + 1 := by
  have hsum : ∀ (l : Table String SourceModule) (n : ℕ),
      l.foldl (fun n e => n + e.2.imports.length) n =
        n + (l.flatMap fun e => e.2.imports.map fun i => (i.1, e.1)).length := by
    intro l
    induction l with
    | nil => simp
    | cons e l ih =>
      intro n
      rw [List.foldl_cons, ih, List.flatMap_cons, List.length_append, List.length_map]
      omega
  have hzero := hsum p.modules 0
  rw [Nat.zero_add] at hzero
  rw [importedNames, ← hzero]
  rfl

theorem endedNames_le_succ (n : ℕ) : p.endedNames n ≤ p.endedNames (n + 1) := by
  refine List.countP_mono_left fun x _ hx => ?_
  rw [decide_eq_true_eq] at hx ⊢
  rwa [(within_succ n).1 _ _ hx]

/-- A name that is resolved only by the last step counts from there on. -/
theorem endedNames_lt_succ {n : ℕ} {name id : String} (hm : (name, id) ∈ p.importedNames)
    (hn : ¬ Ended (p.nameWithin n name id)) (hs : Ended (p.nameWithin (n + 1) name id)) :
    p.endedNames n < p.endedNames (n + 1) := by
  refine countP_lt_countP (fun x _ hx => ?_) hm (by simpa using hn) (by simpa using hs)
  rw [decide_eq_true_eq] at hx ⊢
  rwa [(within_succ n).1 _ _ hx]

theorem freshModules_le (entered : List String) : p.freshModules entered ≤ p.modules.length := by
  have : p.moduleIds.length = p.modules.length := List.length_map _
  exact this ▸ List.countP_le_length

theorem freshModules_lt {id : String} {entered more : List String} (hm : id ∈ p.moduleIds)
    (hnew : id ∉ entered) (hsub : id :: entered ⊆ more) :
    p.freshModules more < p.freshModules entered := by
  refine countP_lt_countP (fun x _ hx => ?_) hm ?_ (by simpa using hnew)
  · have hx : x ∉ more := by simpa using hx
    have : x ∉ entered := fun he => hx (hsub (List.mem_cons_of_mem _ he))
    simpa using this
  · simpa using hsub List.mem_cons_self

/-- What ends within some steps ends alike within as many as the imports that are resolved by then
and the modules still to be entered allow. The number of steps is the induction; a name that takes
all of them is an import that counts only with the last step. -/
theorem within_of_ended (n : ℕ) :
    (∀ name id, Ended (p.nameWithin n name id) →
      ∀ f ≥ p.endedNames n * (p.modules.length + 2) + 1,
        p.nameWithin f name id = p.nameWithin n name id) ∧
    ∀ id name entered, Ended (p.exportWithin n id name entered).1 →
      ∀ f ≥ p.endedNames n * (p.modules.length + 2) + 1 + p.freshModules entered + 1,
        p.exportWithin f id name entered = p.exportWithin n id name entered := by
  induction n with
  | zero => exact ⟨fun _ _ h => absurd rfl h, fun _ _ _ h => absurd rfl h⟩
  | succ n ih =>
    have hle : p.endedNames n * (p.modules.length + 2) ≤
        p.endedNames (n + 1) * (p.modules.length + 2) :=
      Nat.mul_le_mul_right _ (endedNames_le_succ n)
    constructor
    · intro name id h f hf
      by_cases hn : Ended (p.nameWithin n name id)
      · rw [(within_succ n).1 name id hn]
        exact ih.1 name id hn f (by omega)
      · obtain ⟨f, rfl⟩ : ∃ k, f = k + 1 := ⟨f - 1, by omega⟩
        refine nameWithin_congr (fun hm target other ht => ih.2 target other [] ht f ?_) h
        have hroom : (p.endedNames n + 1) * (p.modules.length + 2) ≤
            p.endedNames (n + 1) * (p.modules.length + 2) :=
          Nat.mul_le_mul_right _ (endedNames_lt_succ hm hn h)
        have hfresh := freshModules_le (p := p) []
        rw [Nat.add_mul] at hroom
        omega
    · intro id name entered h f hf
      obtain ⟨f, rfl⟩ : ∃ k, f = k + 1 := ⟨f - 1, by omega⟩
      refine exportWithin_congr (fun inner hi => ih.1 inner id hi f (by omega)) ?_ h
      intro hm hnew target other more hsub hm'
      have hlt := freshModules_lt hm hnew hsub
      exact ih.2 target other more hm' f (by omega)

theorem endedNames_bound (p : Project) (n : ℕ) :
    (p.endedNames n + 1) * (p.modules.length + 2) + 1 ≤ p.stepBound := by
  rw [stepBound_eq]
  have hcount : p.endedNames n ≤ p.importedNames.length := List.countP_le_length
  exact Nat.succ_le_succ (Nat.mul_le_mul_right _ (Nat.succ_le_succ hcount))

/-- A name whose resolution ends is resolved within the bound. -/
theorem resolve_of_ended {n : ℕ} {name id : String} (h : Ended (p.nameWithin n name id)) :
    p.resolve name id = p.nameWithin n name id := by
  have hbound := p.endedNames_bound n
  rw [Nat.add_mul] at hbound
  exact (within_of_ended n).1 name id h p.stepBound (by omega)

/-- An export whose search ends is found, or missed, within the bound. -/
theorem resolveExport_of_ended {n : ℕ} {id name : String}
    (h : Ended (p.exportWithin n id name []).1) :
    p.resolveExport id name = (p.exportWithin n id name []).1 := by
  have hbound := p.endedNames_bound n
  have hfresh := freshModules_le (p := p) []
  rw [Nat.add_mul] at hbound
  rw [resolveExport, (within_of_ended n).2 id name [] h p.stepBound (by omega)]

/-- Every resolution in a project ends after some number of steps. -/
structure Ends (p : Project) : Prop where
  names : ∀ name id, ∃ n, Ended (p.nameWithin n name id)
  exports : ∀ id name, ∃ n, Ended (p.exportWithin n id name []).1

theorem Ends.resolve (h : p.Ends) (name id : String) : Ended (p.resolve name id) := by
  obtain ⟨n, hn⟩ := h.names name id
  rwa [resolve_of_ended hn]

theorem Ends.resolveExport (h : p.Ends) (id name : String) : Ended (p.resolveExport id name) := by
  obtain ⟨n, hn⟩ := h.exports id name
  rwa [resolveExport_of_ended hn]

/-! ### Resolution that ends -/

theorem ended_answer {m : SourceModule} {entry : ExportEntry} {answer : Except Fault Resolved}
    (h : entry.answer? m = some answer) : Ended answer := by
  rintro rfl
  obtain ⟨specifier, hfault⟩ := ExportEntry.unresolved_of_answer? h
  cases hfault

theorem ended_starAnswer {m : SourceModule} {id name : String}
    {out : Option (Except Fault Resolved) × List String}
    (h : ∀ answer, out.1 = some answer → Ended answer) : Ended (starAnswer m id name out).1 := by
  obtain ⟨answer, entered⟩ := out
  cases answer with
  | some answer => exact h answer rfl
  | none =>
    rw [starAnswer]
    split
    all_goals
      intro h
      cases h

/-- A name that is not imported is answered at once. -/
theorem ended_nameWithin_succ (n : ℕ) {name id : String} (h : (name, id) ∉ p.importedNames) :
    Ended (p.nameWithin (n + 1) name id) := by
  cases nameCase p name id with
  | lost none =>
    rw [nameWithin_lost n none]
    nofun
  | @declared m d found entry =>
    rw [nameWithin_declared n found entry, SourceModule.definition]
    split <;> nofun
  | unknown found undeclared unimported =>
    rw [nameWithin_unknown n found undeclared unimported]
    nofun
  | asks found undeclared imported asks => exact absurd (mem_importedNames found imported) h
  | answer found undeclared imported silent => exact absurd (mem_importedNames found imported) h

/-- Where names are resolved within some steps, a search takes at most as many more as there are
modules to be entered. -/
theorem ended_exportWithin {n : ℕ} (hname : ∀ m ≥ n, ∀ name id, Ended (p.nameWithin m name id))
    (k : ℕ) (id name : String) (entered : List String) (hk : p.freshModules entered < k) :
    Ended (p.exportWithin (n + k) id name entered).1 := by
  induction k generalizing id name entered with
  | zero => omega
  | succ k ih =>
    have hmore : ∀ {m} target other more, p.module? id = some m → id ∉ entered →
        id :: entered ⊆ more → Ended (p.exportWithin (n + k) target other more).1 := by
      intro m target other more hm hnew hsub
      have hid : id ∈ p.moduleIds := Table.mem_keys_of_mem (Table.mem_of_get? hm)
      have hlt := freshModules_lt hid hnew hsub
      exact ih target other more (by omega)
    rw [← Nat.add_assoc]
    cases exportCase p id name entered with
    | entered again =>
      rw [exportWithin_entered _ again]
      nofun
    | lost new none =>
      rw [exportWithin_lost _ new none]
      nofun
    | own new found entry =>
      rw [exportWithin_own _ new found entry]
      exact hname (n + k) (by omega) _ _
    | again new found entry =>
      rw [exportWithin_again _ new found entry]
      exact hmore _ _ _ found new (List.Subset.refl _)
    | answer new found entry said =>
      rw [exportWithin_answer _ new found entry said]
      exact ended_answer said
    | default new found absent named =>
      subst named
      rw [exportWithin_default _ new found absent]
      nofun
    | stars new found absent named =>
      rw [exportWithin_stars _ new found absent named]
      refine ended_starAnswer fun answer ha => ?_
      obtain ⟨target, more, hsub, rfl⟩ := exists_of_searchStars
        (fun target => subset_exportWithin p (n + k) target name) ha
      exact hmore target name more found new hsub

/-- All resolution ends if that of the imports does, which can be found out. -/
theorem ends_iff : p.Ends ↔ ∀ x ∈ p.importedNames, Ended (p.resolve x.1 x.2) := by
  refine ⟨fun h x _ => h.resolve x.1 x.2, fun h => ?_⟩
  have hname : ∀ m ≥ p.stepBound, ∀ name id, Ended (p.nameWithin m name id) := by
    intro m hm name id
    by_cases hi : (name, id) ∈ p.importedNames
    · induction m, hm using Nat.le_induction with
      | base => exact h (name, id) hi
      | succ m hm ih => rwa [(within_succ m).1 name id ih]
    · obtain ⟨k, rfl⟩ : ∃ k, m = k + 1 := ⟨m - 1, by have := p.stepBound_eq; omega⟩
      exact ended_nameWithin_succ k hi
  refine ⟨fun name id => ⟨p.stepBound, hname _ le_rfl name id⟩, fun id name => ?_⟩
  exact ⟨p.stepBound + (p.freshModules [] + 1),
    ended_exportWithin hname _ id name [] (Nat.lt_succ_self _)⟩

instance : DecidablePred Ends := fun _ => decidable_of_iff _ ends_iff.symm

end Project

end CodecDocs
