import CodecDocs.Proofs.Project.Step
import Mathlib.Logic.Relation

/-! The search for an export, from module to module. What it may be expected to find is said by
rules: a name is exported that a module declares with a value, or that it takes over from another
module. The search follows the same rules but enters no module twice, under whatever names, and does
not forget the modules of a branch that has failed. So it finds what the rules give as long as the
rules lead to no module under two names, and it can miss it otherwise. -/

namespace CodecDocs

namespace Project

variable (p : Project)

/-! ### The rules -/

/-- A module exports a name that it declares with a value. -/
def DeclaresExport (id name : String) : Prop :=
  ∃ m inner d init, p.module? id = some m ∧ m.exports.get? name = some (.own inner) ∧
    m.declarations.get? inner = some d ∧ d.init = some init

/-- A module takes a name over from another one: by its own name, or together with all others. -/
inductive Leads : String × String → String × String → Prop
  | again {id name target other : String} {m : SourceModule} (found : p.module? id = some m)
    (entry : m.exports.get? name = some (.again (.toModule target) other)) :
    Leads (id, name) (target, other)
  | star {id name target : String} {m : SourceModule} (found : p.module? id = some m)
    (absent : m.exports.get? name = none) (named : name ≠ "default")
    (link : .toModule target ∈ m.stars) : Leads (id, name) (target, name)

/-- A module exports a name by a finite chain of the rules. -/
inductive Exported : String → String → Prop
  | declared {id name : String} (here : p.DeclaresExport id name) : Exported id name
  | taken {id name target other : String} (leads : p.Leads (id, name) (target, other))
    (there : Exported target other) : Exported id name

/-- What the rules lead to, under the name that is asked for there. -/
def Reached : String × String → String × String → Prop := Relation.ReflTransGen p.Leads

/-- No module is asked for under two names. -/
def SingleNamed (start : String × String) : Prop :=
  ∀ id name other, p.Reached start (id, name) → p.Reached start (id, other) → name = other

variable {p} {start : String × String}

theorem Exported.exists_declares {id name : String} (h : p.Exported id name) :
    ∃ target other, p.Reached (id, name) (target, other) ∧ p.DeclaresExport target other := by
  induction h with
  | declared here => exact ⟨_, _, .refl, here⟩
  | taken leads there ih =>
    obtain ⟨target, other, hr, hd⟩ := ih
    exact ⟨target, other, .head leads hr, hd⟩

/-! ### One module -/

theorem leads_of_again {id name target other : String} {m : SourceModule}
    (hm : p.module? id = some m)
    (hentry : m.exports.get? name = some (.again (.toModule target) other)) {next : String × String}
    (h : p.Leads (id, name) next) : next = (target, other) := by
  cases h with
  | again found entry =>
    cases hm.symm.trans found
    cases hentry.symm.trans entry
    rfl
  | star found absent =>
    cases hm.symm.trans found
    cases hentry.symm.trans absent

/-- The rules lead on from an export only where another module is named. -/
theorem not_leads_of_entry {id name : String} {m : SourceModule} {entry : ExportEntry}
    (hm : p.module? id = some m) (hentry : m.exports.get? name = some entry)
    (hne : ∀ target other, entry ≠ .again (.toModule target) other) (next : String × String) :
    ¬ p.Leads (id, name) next := by
  intro h
  cases h with
  | again found again =>
    cases hm.symm.trans found
    cases hentry.symm.trans again
    exact hne _ _ rfl
  | star found absent =>
    cases hm.symm.trans found
    cases hentry.symm.trans absent

theorem not_declares_of_absent {id name : String} {m : SourceModule} (hm : p.module? id = some m)
    (hentry : m.exports.get? name = none) : ¬ p.DeclaresExport id name := by
  rintro ⟨m', inner, d, init, hm', he, -⟩
  cases hm.symm.trans hm'
  cases hentry.symm.trans he

theorem star_of_leads {id name : String} {m : SourceModule} (hm : p.module? id = some m)
    (hentry : m.exports.get? name = none) {next : String × String}
    (h : p.Leads (id, name) next) : name ≠ "default" ∧ .toModule next.1 ∈ m.stars := by
  cases h with
  | again found again =>
    cases hm.symm.trans found
    cases hentry.symm.trans again
  | star found absent named link =>
    cases hm.symm.trans found
    exact ⟨named, link⟩

/-- A declaration with a value is found where it stands. -/
theorem not_isUnknown_nameWithin {id name : String} {m : SourceModule} {d : Script.Declaration}
    {init : Script.Expr} (hm : p.module? id = some m) (hd : m.declarations.get? name = some d)
    (hi : d.init = some init) (steps : ℕ) : ¬ IsUnknown (p.nameWithin steps name id) := by
  rintro ⟨x, y, place, h⟩
  cases steps with
  | zero => simp [nameWithin] at h
  | succ steps => simp [nameWithin, find, hm, hd, SourceModule.definition, hi, Except.map] at h

/-! ### The search -/

variable (p) (start) in
/-- A module is done when the rules end there without an export or lead on to modules that were
entered. -/
def Done (entered : List String) (id : String) : Prop :=
  ∀ name, p.Reached start (id, name) → ¬ p.DeclaresExport id name ∧
    ∀ next, p.Leads (id, name) next → next.1 ∈ entered

theorem Done.mono {entered more : List String} {id : String} (h : p.Done start entered id)
    (hsub : entered ⊆ more) : p.Done start more id :=
  fun name hr => ⟨(h name hr).1, fun next hn => hsub ((h name hr).2 next hn)⟩

/-- A search that does not find the name has entered its module, and it is done with all modules
that it was the first to enter. -/
structure Covers (p : Project) (start : String × String) (entered : List String) (id : String)
    (out : Search) : Prop where
  enters : IsUnknown out.1 → id ∈ out.2
  done : IsUnknown out.1 → ∀ t ∈ out.2, t ∉ entered → p.Done start out.2 t

/-- The search of one module after the other, up to one with an answer. -/
theorem searchStars_covers {ask : String → List String → Search}
    (hkeep : ∀ id entered, entered ⊆ (ask id entered).2) {links : List Link}
    (hask : ∀ id, .toModule id ∈ links → ∀ entered, Covers p start entered id (ask id entered))
    (entered : List String) :
    let out := searchStars ask links entered
    (∀ answer, out.1 = some answer → ¬ IsUnknown answer) ∧
      (out.1 = none → (∀ id, .toModule id ∈ links → id ∈ out.2) ∧
        ∀ t ∈ out.2, t ∉ entered → p.Done start out.2 t) := by
  induction links generalizing entered with
  | nil => exact ⟨by simp [searchStars], fun _ => ⟨by simp, fun t ht hn => absurd ht hn⟩⟩
  | cons link links ih =>
    have hrest := ih fun id hid => hask id (List.mem_cons_of_mem _ hid)
    cases link with
    | toModule id =>
      have hc := hask id List.mem_cons_self entered
      cases heq : ask id entered with
      | mk answer entered' =>
        rw [heq] at hc
        by_cases hu : IsUnknown answer
        · rw [searchStars_unknown heq hu]
          have hmore : entered' ⊆ (searchStars ask links entered').2 :=
            subset_searchStars hkeep links entered'
          obtain ⟨hanswer, hnone⟩ := hrest entered'
          refine ⟨hanswer, fun h => ⟨fun target ht => ?_, fun t ht hold => ?_⟩⟩
          · rcases List.mem_cons.mp ht with ht | ht
            · cases ht
              exact hmore (hc.enters hu)
            · exact (hnone h).1 target ht
          · by_cases hmid : t ∈ entered'
            · exact (hc.done hu t hmid hold).mono hmore
            · exact (hnone h).2 t ht hmid
        · rw [searchStars_known heq hu]
          exact ⟨by rintro other ⟨⟩; exact hu, by simp⟩
    | toPackage name | missing specifier =>
      obtain ⟨hanswer, hnone⟩ := hrest entered
      refine ⟨hanswer, fun h => ⟨fun target ht => ?_, (hnone h).2⟩⟩
      exact (hnone h).1 target (by simpa using ht)

/-- A module that is entered is done if it does not export the name itself and leads on to modules
that were entered. -/
theorem covers_of_entered (hs : p.SingleNamed start) {id name : String}
    (hr : p.Reached start (id, name)) {entered : List String} {out : Search} (hid : id ∈ out.2)
    (hhere : IsUnknown out.1 → ¬ p.DeclaresExport id name ∧
      ∀ next, p.Leads (id, name) next → next.1 ∈ out.2)
    (hdone : IsUnknown out.1 → ∀ t ∈ out.2, t ∉ id :: entered → p.Done start out.2 t) :
    Covers p start entered id out where
  enters := fun _ => hid
  done := by
    intro hu t ht hnew
    by_cases he : t = id
    · subst he
      intro other ho
      exact hs t name other hr ho ▸ hhere hu
    · exact hdone hu t ht (by simp [he, hnew])

/-- An answer that does not depend on further modules is not that the name is unknown. -/
theorem not_isUnknown_answer {m : SourceModule} {entry : ExportEntry}
    {answer : Except Fault Resolved} (h : entry.answer? m = some answer) : ¬ IsUnknown answer := by
  rintro ⟨x, y, place, rfl⟩
  obtain ⟨specifier, hfault⟩ := ExportEntry.unresolved_of_answer? h
  cases hfault

theorem none_of_isUnknown_starAnswer (m : SourceModule) (id name : String)
    {out : Option (Except Fault Resolved) × List String}
    (h : ∀ answer, out.1 = some answer → ¬ IsUnknown answer)
    (hu : IsUnknown (starAnswer m id name out).1) : out.1 = none := by
  obtain ⟨answer, entered⟩ := out
  cases answer with
  | some answer => exact absurd hu (h answer rfl)
  | none => rfl

/-- A search for what the rules lead to covers what it enters. -/
theorem exportWithin_covers (hs : p.SingleNamed start) (steps : ℕ) {id name : String}
    (hr : p.Reached start (id, name)) (entered : List String) :
    Covers p start entered id (p.exportWithin steps id name entered) := by
  induction steps generalizing id name entered with
  | zero =>
    have hu : ¬ IsUnknown (p.exportWithin 0 id name entered).1 := by simp [exportWithin, IsUnknown]
    exact ⟨fun h => absurd h hu, fun h => absurd h hu⟩
  | succ steps ih =>
    have hself : id ∈ id :: entered := List.mem_cons_self
    have hold : ∀ t ∈ id :: entered, t ∉ id :: entered → p.Done start (id :: entered) t :=
      fun t ht hn => absurd ht hn
    cases exportCase p id name entered with
    | entered again =>
      rw [exportWithin_entered steps again]
      exact ⟨fun _ => again, fun _ t ht hn => absurd ht hn⟩
    | lost new none =>
      rw [exportWithin_lost steps new none]
      exact covers_of_entered hs hr hself (by simp [IsUnknown]) fun _ => hold
    | own new found entry =>
      rw [exportWithin_own steps new found entry]
      refine covers_of_entered hs hr hself (fun hu => ⟨?_, ?_⟩) fun _ => hold
      · rintro ⟨m, inner, d, init, hm, he, hd, hi⟩
        cases found.symm.trans hm
        cases entry.symm.trans he
        exact not_isUnknown_nameWithin found hd hi steps hu
      · exact fun next hn => absurd hn (not_leads_of_entry found entry (by simp) next)
    | @again m target other new found entry =>
      rw [exportWithin_again steps new found entry]
      obtain ⟨henter, hdone⟩ := ih (hr.tail (.again found entry)) (id :: entered)
      have hkeep := subset_exportWithin p steps target other (id :: entered) hself
      refine covers_of_entered hs hr hkeep (fun hu => ⟨?_, ?_⟩) hdone
      · rintro ⟨m, inner, d, init, hm, he, -⟩
        cases found.symm.trans hm
        cases entry.symm.trans he
      · exact fun next hn => leads_of_again found entry hn ▸ henter hu
    | answer new found entry said =>
      rw [exportWithin_answer steps new found entry said]
      have hu := not_isUnknown_answer said
      exact covers_of_entered hs hr hself (fun h => absurd h hu) fun _ => hold
    | default new found absent named =>
      subst named
      rw [exportWithin_default steps new found absent]
      refine covers_of_entered hs hr hself (fun _ => ⟨?_, ?_⟩) fun _ => hold
      · exact not_declares_of_absent found absent
      · exact fun next hn => absurd rfl (star_of_leads found absent hn).1
    | @stars m new found absent named =>
      rw [exportWithin_stars steps new found absent named]
      have hask : ∀ target, .toModule target ∈ m.stars → ∀ entered,
          Covers p start entered target (p.exportWithin steps target name entered) :=
        fun target ht entered => ih (hr.tail (.star found absent named ht)) entered
      have hmore : ∀ target entered, entered ⊆ (p.exportWithin steps target name entered).2 :=
        fun target => subset_exportWithin p steps target name
      have hkeep := subset_searchStars hmore m.stars (id :: entered)
      obtain ⟨hanswer, hnone⟩ := searchStars_covers hmore hask (id :: entered)
      generalize searchStars _ m.stars (id :: entered) = out at hkeep hanswer hnone ⊢
      have hu := none_of_isUnknown_starAnswer m id name hanswer
      refine covers_of_entered hs hr ?_ (fun h => ⟨not_declares_of_absent found absent, ?_⟩) ?_ <;>
        rw [starAnswer_snd]
      · exact hkeep hself
      · exact fun next hn => (hnone (hu h)).1 _ (star_of_leads found absent hn).2
      · exact fun h => (hnone (hu h)).2

/-! ### What the search finds -/

/-- A name that is exported by the rules is not unknown to the search, when the rules lead to no
module under two names. -/
theorem Exported.not_isUnknown {id name : String} (h : p.Exported id name)
    (hs : p.SingleNamed (id, name)) (steps : ℕ) :
    ¬ IsUnknown (p.exportWithin steps id name []).1 := by
  intro hu
  obtain ⟨henter, hdone⟩ := exportWithin_covers hs steps .refl []
  -- All that the rules lead to has been entered.
  have hall : ∀ next, p.Reached (id, name) next → next.1 ∈ (p.exportWithin steps id name []).2 := by
    intro next hr
    induction hr with
    | refl => exact henter hu
    | tail before leads ih => exact (hdone hu _ ih (by simp) _ before).2 _ leads
  obtain ⟨target, other, hr, hd⟩ := h.exists_declares
  exact (hdone hu target (hall _ hr) (by simp) other hr).1 hd

/-- Whether an export of another module keeps its name. -/
def keepsName (name : String) : ExportEntry → Bool
  | .again (.toModule _) other => other = name
  | _ => true

/-- Where no export changes its name, the rules lead to no module under two names. -/
theorem singleNamed_of_keepsName
    (h : p.modules.all fun e => e.2.exports.all fun x => keepsName x.1 x.2)
    (start : String × String) : p.SingleNamed start := by
  have hleads : ∀ here next, p.Leads here next → next.2 = here.2 := by
    intro here next hn
    cases hn with
    | again found entry =>
      have hm := List.all_eq_true.mp h _ (Table.mem_of_get? found)
      have he := List.all_eq_true.mp hm _ (Table.mem_of_get? entry)
      simpa [keepsName] using he
    | star => rfl
  have hreached : ∀ next, p.Reached start next → next.2 = start.2 := by
    intro next hr
    induction hr with
    | refl => rfl
    | tail _ leads ih => rw [hleads _ _ leads, ih]
  intro id name other hn ho
  exact (hreached _ hn).trans (hreached _ ho).symm

/-- The search for an export finds what the rules give, in whatever order and however often modules
take over exports from each other, as long as no module is asked for under two names. -/
theorem resolveExport_of_exported (p : Project) (id name : String) (h : p.Exported id name)
    (hs : p.SingleNamed (id, name)) : ¬ IsUnknown (p.resolveExport id name) :=
  h.not_isUnknown hs p.stepBound

end Project

open Script in
/-- Three modules that take over all exports of each other; the third one declares a name. -/
def ring : Project :=
  let here : Span := default
  Project.assemble [("a.ts", "", [.exportsAll "./b" none]),
    ("b.ts", "", [.exportsAll "./a" none, .exportsAll "./c" none]),
    ("c.ts", "", [.exportsAll "./b" none, .declares ⟨"x", some (.null here), true, none, here⟩])]

theorem Project.resolveExport_of_exported_ring :
    ring.Exported "a.ts" "x" ∧ ring.SingleNamed ("a.ts", "x") ∧
      ¬ IsUnknown (ring.resolveExport "a.ts" "x") := by
  have hx : ring.Exported "a.ts" "x" :=
    .taken (.star rfl rfl (by decide) (.head _))
      (.taken (.star rfl rfl (by decide) (.tail _ (.head _)))
        (.declared ⟨_, _, _, _, rfl, rfl, rfl, rfl⟩))
  have hs : ring.SingleNamed ("a.ts", "x") := Project.singleNamed_of_keepsName (by decide) _
  exact ⟨hx, hs, ring.resolveExport_of_exported _ _ hx hs⟩

open Script in
/-- Two modules that take over exports of each other under other names. -/
def detour : Project :=
  let here : Span := default
  Project.assemble [("a.ts", "", [.exports [("y", "x")] (some "./b"),
      .declares ⟨"z", some (.null here), true, none, here⟩]),
    ("b.ts", "", [.exports [("z", "y")] (some "./a")])]

/-- A chain that comes back to a module under another name is cut off there. -/
theorem Project.resolveExport_misses_detour :
    detour.Exported "a.ts" "x" ∧ IsUnknown (detour.resolveExport "a.ts" "x") := by
  have hx : detour.Exported "a.ts" "x" :=
    .taken (.again rfl rfl) (.taken (.again rfl rfl) (.declared ⟨_, _, _, _, rfl, rfl, rfl, rfl⟩))
  exact ⟨hx, "z", "a.ts", none, rfl⟩

end CodecDocs
