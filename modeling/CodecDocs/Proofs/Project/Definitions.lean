import CodecDocs.Proofs.Project.Step
import Mathlib.Data.List.Basic

/-! The definitions of a project. Whatever a name or an export is resolved to, a definition that
comes out is one that a module of the project makes. In a project assembled from modules every
definition is found again under its own name in its own module. -/

namespace CodecDocs

theorem ImportEntry.answer_ne_definition (m : SourceModule) (entry : ImportEntry) (d : Definition) :
    entry.answer m ≠ .ok (.definition d) := by
  obtain ⟨link, imported⟩ := entry
  cases link <;> cases imported <;> simp [ImportEntry.answer]

theorem ExportEntry.answer?_ne_definition (m : SourceModule) (entry : ExportEntry)
    (d : Definition) : entry.answer? m ≠ some (.ok (.definition d)) := by
  cases entry with
  | own inner => simp [ExportEntry.answer?]
  | again link other | star link => cases link <;> simp [ExportEntry.answer?]

namespace Project

/-- The definitions that the modules of a project make. -/
def definitions (p : Project) : List Definition :=
  p.modules.flatMap fun e => e.2.declarations.filterMap fun x => (e.2.definition x.2).toOption

variable {p : Project}

theorem mem_definitions {id name : String} {m : SourceModule} {x : Script.Declaration}
    {d : Definition} (hm : p.module? id = some m) (hx : m.declarations.get? name = some x)
    (hd : m.definition x = .ok d) : d ∈ p.definitions := by
  refine List.mem_flatMap.mpr ⟨(id, m), Table.mem_of_get? hm, ?_⟩
  exact List.mem_filterMap.mpr ⟨(name, x), Table.mem_of_get? hx, by simp [hd, Except.toOption]⟩

/-! ### Results of resolution -/

/-- Definitions that come out of a resolution are those of the project. -/
theorem definition_within (n : ℕ) :
    (∀ name id d, p.nameWithin n name id = .ok (.definition d) → d ∈ p.definitions) ∧
    ∀ id name entered d, (p.exportWithin n id name entered).1 = .ok (.definition d) →
      d ∈ p.definitions := by
  induction n with
  | zero => exact ⟨fun _ _ _ h => (by cases h), fun _ _ _ _ h => (by cases h)⟩
  | succ n ih =>
    constructor
    · intro name id d h
      cases nameCase p name id with
      | lost none => cases (nameWithin_lost n none).symm.trans h
      | @declared m x found entry =>
        rw [nameWithin_declared n found entry] at h
        cases hx : m.definition x with
        | error e =>
          rw [hx] at h
          cases h
        | ok d' =>
          rw [hx] at h
          cases h
          exact mem_definitions found entry hx
      | unknown found undeclared unimported =>
        cases (nameWithin_unknown n found undeclared unimported).symm.trans h
      | asks found undeclared imported asks =>
        rw [nameWithin_asks n found undeclared imported asks] at h
        exact ih.2 _ _ _ d h
      | answer found undeclared imported silent =>
        rw [nameWithin_answer n found undeclared imported silent] at h
        exact absurd h (ImportEntry.answer_ne_definition _ _ d)
    · intro id name entered d h
      cases exportCase p id name entered with
      | entered again =>
        rw [exportWithin_entered n again] at h
        cases h
      | lost new none =>
        rw [exportWithin_lost n new none] at h
        cases h
      | own new found entry =>
        rw [exportWithin_own n new found entry] at h
        exact ih.1 _ _ d h
      | again new found entry =>
        rw [exportWithin_again n new found entry] at h
        exact ih.2 _ _ _ d h
      | answer new found entry said =>
        rw [exportWithin_answer n new found entry said] at h
        exact absurd (said.trans (congrArg some h)) (ExportEntry.answer?_ne_definition _ _ d)
      | default new found absent named =>
        subst named
        rw [exportWithin_default n new found absent] at h
        cases h
      | @stars m new found absent named =>
        rw [exportWithin_stars n new found absent named] at h
        cases hout : searchStars (fun target => p.exportWithin n target name) m.stars
            (id :: entered) with
        | mk out more =>
          rw [hout] at h
          cases out with
          | some answer =>
            obtain ⟨target, before, -, ha⟩ := exists_of_searchStars
              (fun target => subset_exportWithin p n target name) (congrArg Prod.fst hout)
            exact ih.2 target name before d (ha.trans h)
          | none =>
            rw [starAnswer] at h
            split at h <;> cases h

theorem mem_definitions_of_resolve {name id : String} {d : Definition}
    (h : p.resolve name id = .ok (.definition d)) : d ∈ p.definitions :=
  (definition_within p.stepBound).1 name id d h

theorem mem_definitions_of_resolveExport {id name : String} {d : Definition}
    (h : p.resolveExport id name = .ok (.definition d)) : d ∈ p.definitions :=
  (definition_within p.stepBound).2 id name [] d h

/-! ### Assembled projects -/

/-- The declarations of a module stand under their names. -/
def TidyModule (m : SourceModule) : Prop :=
  m.declarations.Distinct ∧ ∀ x ∈ m.declarations, x.2.name = x.1

/-- The modules of a project stand under their ids. -/
structure Tidy (p : Project) : Prop where
  distinct : p.modules.Distinct
  ids : ∀ e ∈ p.modules, e.2.id = e.1
  modules : ∀ e ∈ p.modules, TidyModule e.2

theorem enter_id (link : String → Link) (m : SourceModule) (item : Script.Item) :
    (m.enter link item).id = m.id := by
  cases item with
  | exports names source => cases source <;> rfl
  | exportsAll source name => cases name <;> rfl
  | _ => rfl

theorem TidyModule.enter {m : SourceModule} (h : TidyModule m) (link : String → Link)
    (item : Script.Item) : TidyModule (m.enter link item) := by
  cases item with
  | declares d =>
    refine ⟨h.1.insert d.name d, fun x hx => ?_⟩
    rcases Table.mem_of_mem_insert hx with hx | rfl
    · exact h.2 x hx
    · rfl
  | exports names source => cases source <;> exact h
  | exportsAll source name => cases name <;> exact h
  | imports source bindings => exact h

theorem build_tidy (known : List String) (id source : String) (items : List Script.Item) :
    (SourceModule.build known id source items).id = id ∧
      TidyModule (SourceModule.build known id source items) := by
  have hfold : ∀ (items : List Script.Item) (m : SourceModule), m.id = id → TidyModule m →
      (items.foldl (SourceModule.enter (Link.ofSpecifier known id)) m).id = id ∧
        TidyModule (items.foldl (SourceModule.enter (Link.ofSpecifier known id)) m) := by
    intro items
    induction items with
    | nil => exact fun m hid hm => ⟨hid, hm⟩
    | cons item items ih =>
      exact fun m hid hm => ih _ ((enter_id _ m item).trans hid) (hm.enter _ item)
  exact hfold items _ rfl ⟨Table.distinct_nil, by simp⟩

theorem tidy_assemble (parsed : List ParsedModule) : (assemble parsed).Tidy := by
  have hmem : ∀ e ∈ (assemble parsed).modules, ∃ known source items,
      e.2 = SourceModule.build known e.1 source items := by
    intro e he
    rcases Table.mem_of_mem_extend he with he | he
    · cases he
    · obtain ⟨⟨id, source, items⟩, -, rfl⟩ := List.mem_map.mp he
      exact ⟨_, source, items, rfl⟩
  refine ⟨Table.distinct_nil.extend _, fun e he => ?_, fun e he => ?_⟩ <;>
    obtain ⟨known, source, items, hb⟩ := hmem e he
  · exact hb ▸ (build_tidy known e.1 source items).1
  · exact hb ▸ (build_tidy known e.1 source items).2

/-- A definition is what its own name means in its own module. -/
theorem Tidy.resolve_definition (h : p.Tidy) {d : Definition} (hd : d ∈ p.definitions) :
    p.resolve d.name d.moduleId = .ok (.definition d) := by
  obtain ⟨⟨id, m⟩, hm, hd⟩ := List.mem_flatMap.mp hd
  obtain ⟨⟨name, x⟩, hx, hd⟩ := List.mem_filterMap.mp hd
  have hid : m.id = id := h.ids _ hm
  have hname : x.name = name := (h.modules _ hm).2 _ hx
  have hmodule : p.module? id = some m := Table.get?_of_mem h.distinct hm
  have hentry : m.declarations.get? name = some x := Table.get?_of_mem (h.modules _ hm).1 hx
  cases hi : x.init with
  | none => simp [SourceModule.definition, hi, Except.toOption] at hd
  | some init =>
    have hdef : m.definition x = .ok d := by
      simpa [SourceModule.definition, hi, Except.toOption] using hd
    have hfields : d.name = name ∧ d.moduleId = id := by
      simp only [SourceModule.definition, hi, Except.ok.injEq] at hdef
      exact hdef ▸ ⟨hname, hid⟩
    rw [hfields.1, hfields.2, resolve, stepBound, nameWithin_declared _ hmodule hentry, hdef]
    rfl

end Project

end CodecDocs
