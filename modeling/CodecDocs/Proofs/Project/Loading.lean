import CodecDocs.Project.Loader
import CodecDocs.Proofs.ModulePath
import CodecDocs.Proofs.Project.Derivation
import Mathlib.Algebra.BigOperators.Group.Finset.Basic
import Mathlib.Logic.Relation

/-! Loading of projects from files that are a finite map from normal paths to texts. The modules
that are loaded are those that the entries lead to. Loading looks for what a specifier means among
the files and linking among the loaded modules, and both find the same: what loading finds is loaded
too, and nothing is loaded that is not a file.

Loading follows each path that it finds, and every module is read once, so it ends after as many
paths as there are entries and specifiers. -/

namespace CodecDocs

open ModulePath (moduleId candidates isRelative)
open Relation (ReflTransGen)

/-- The texts of files by their paths. -/
abbrev FileMap := Table String String

/-- Reading and testing a path look up its normal form in a finite map. -/
structure FileAccess.Lexical (fs : FileAccess Id) (files : FileMap) : Prop where
  read : ∀ path, (fs.read path).run.toOption = files.get? (moduleId path)
  isFile : ∀ path, (fs.isFile path).run = files.has (moduleId path)

/-- The relative specifiers of imports and exports. -/
def relativeSpecifiers (items : List Script.Item) : List String :=
  (items.filterMap Script.Item.source?).filter isRelative

/-! ### What modules lead to -/

namespace FileMap

section Definitions

variable (files : FileMap)

/-- The first file that a specifier may mean in a module. -/
def target? (id specifier : String) : Option String :=
  (candidates id specifier).find? fun path => files.has (moduleId path)

/-- A module is what its file says. -/
def Holds (m : ParsedModule) : Prop :=
  files.get? m.1 = some m.2.1 ∧ Script.parse m.2.1 = .ok m.2.2

/-- The relative specifiers in a file. -/
def specifiers (id : String) : List String :=
  relativeSpecifiers (((files.get? id).bind fun text => (Script.parse text).toOption).getD [])

/-- A module leads to the first file that one of its relative specifiers may mean. -/
def LeadsTo (id other : String) : Prop :=
  ∃ specifier ∈ files.specifiers id, ∃ path,
    files.target? id specifier = some path ∧ moduleId path = other

/-- The entries lead to a module, over any number of others. -/
def Reached (entries : List String) (id : String) : Prop :=
  ∃ entry ∈ entries, ReflTransGen files.LeadsTo (moduleId entry) id

/-- The paths that a module leads to. -/
def followed (id : String) (items : List Script.Item) : List String :=
  (relativeSpecifiers items).filterMap (files.target? id)

end Definitions

variable {files : FileMap} {id text : String} {items : List Script.Item}
  (h : files.Holds (id, text, items))

include h

theorem specifiers_of_holds : files.specifiers id = relativeSpecifiers items := by
  obtain ⟨htext, hitems⟩ := h
  rw [specifiers, htext, Option.bind_some, hitems]
  rfl

theorem leadsTo_iff {other : String} :
    files.LeadsTo id other ↔ ∃ path ∈ files.followed id items, moduleId path = other := by
  simp only [LeadsTo, specifiers_of_holds h, followed, List.mem_filterMap]
  constructor
  · rintro ⟨specifier, hs, path, hp, rfl⟩
    exact ⟨path, ⟨specifier, hs, hp⟩, rfl⟩
  · rintro ⟨path, ⟨specifier, hs, hp⟩, rfl⟩
    exact ⟨specifier, hs, path, hp, rfl⟩

theorem length_followed : (files.followed id items).length ≤ (files.specifiers id).length := by
  rw [specifiers_of_holds h]
  exact List.length_filterMap_le _ _

end FileMap

namespace Project

open FileMap

variable {files : FileMap}

/-! ### One step -/

section Step

variable {fs : FileAccess Id} (hfs : fs.Lexical files)

include hfs

theorem firstFile?_eq (paths : List String) :
    (firstFile? fs paths).run = paths.find? fun path => files.has (moduleId path) := by
  induction paths with
  | nil => rfl
  | cons path paths ih =>
    have hfile := hfs.isFile path
    simp only [firstFile?, Id.run_bind, hfile, List.find?_cons]
    cases files.has (moduleId path) with
    | true => rfl
    | false => exact ih

theorem targets_eq (id : String) (specifiers : List String) :
    (targets fs id specifiers).run =
      (specifiers.filter isRelative).filterMap (files.target? id) := by
  induction specifiers with
  | nil => rfl
  | cons specifier specifiers ih =>
    rw [targets, List.filter_cons]
    cases isRelative specifier with
    | false => exact ih
    | true =>
      simp only [if_true, Id.run_bind, Id.run_pure, firstFile?_eq hfs, ih, List.filterMap_cons,
        target?]
      cases (candidates id specifier).find? fun path => files.has (moduleId path) <;> rfl

/-- A file is read as the module of its id, or loading fails. -/
theorem readModule_cases (path : String) :
    (∃ e, e ≠ .tooMany ∧ (readModule fs path).run = .error e) ∨
      ∃ text items, (readModule fs path).run = .ok (moduleId path, text, items) ∧
        files.Holds (moduleId path, text, items) := by
  have hread := hfs.read path
  simp only [readModule, Id.run_bind]
  cases hr : (fs.read path).run with
  | error cause => exact .inl ⟨_, by simp, rfl⟩
  | ok text =>
    rw [hr] at hread
    cases hp : Script.parse text with
    | error e => exact .inl ⟨.source (moduleId path) e, by simp, by simp [parseModule, hp]⟩
    | ok items => exact .inr ⟨text, items, by simp [parseModule, hp], hread.symm, hp⟩

omit hfs in
theorem loadWithin_nil (limit : ℕ) (parsed : List ParsedModule) :
    (loadWithin fs limit [] parsed).run = .ok parsed := by cases limit <;> rfl

/-- The next path is passed over, or makes loading fail, or its module is loaded. -/
theorem loadWithin_cons (path : String) (queue : List String) (parsed : List ParsedModule) :
    (moduleId path ∈ parsed.map Prod.fst ∧ ∀ limit,
      (loadWithin fs (limit + 1) (path :: queue) parsed).run =
        (loadWithin fs limit queue parsed).run) ∨
    (∃ e, e ≠ .tooMany ∧ ∀ limit,
      (loadWithin fs (limit + 1) (path :: queue) parsed).run = .error e) ∨
    ∃ text items, moduleId path ∉ parsed.map Prod.fst ∧ files.Holds (moduleId path, text, items) ∧
      ∀ limit, (loadWithin fs (limit + 1) (path :: queue) parsed).run =
        (loadWithin fs limit (queue ++ files.followed (moduleId path) items)
          (parsed ++ [(moduleId path, text, items)])).run := by
  by_cases hin : moduleId path ∈ parsed.map Prod.fst
  · refine .inl ⟨hin, fun limit => ?_⟩
    rw [loadWithin, if_pos (List.contains_iff_mem.mpr hin)]
  · have hnot : ¬ (parsed.map Prod.fst).contains (moduleId path) = true := by
      rwa [List.contains_iff_mem]
    rcases readModule_cases hfs path with ⟨e, he, hr⟩ | ⟨text, items, hr, hfile⟩
    · refine .inr (.inl ⟨e, he, fun limit => ?_⟩)
      rw [loadWithin, if_neg hnot, Id.run_bind, hr]
      rfl
    · refine .inr (.inr ⟨text, items, hin, hfile, fun limit => ?_⟩)
      rw [loadWithin, if_neg hnot, Id.run_bind, hr]
      simp only [Id.run_bind, targets_eq hfs]
      rfl

end Step

/-! ### Whole runs -/

/-- A module is loaded or waits. -/
def Covered (queue : List String) (parsed : List ParsedModule) (id : String) : Prop :=
  id ∈ parsed.map Prod.fst ∨ ∃ path ∈ queue, moduleId path = id

/-- What holds while the paths of `queue` wait and the modules of `parsed` are loaded. -/
structure Loading (files : FileMap) (entries queue : List String)
    (parsed : List ParsedModule) : Prop where
  distinct : (parsed.map Prod.fst).Nodup
  holds : ∀ m ∈ parsed, files.Holds m
  reached : ∀ id, Covered queue parsed id → files.Reached entries id
  entries : ∀ entry ∈ entries, Covered queue parsed (moduleId entry)
  closed : ∀ id ∈ parsed.map Prod.fst, ∀ other, files.LeadsTo id other → Covered queue parsed other

variable {entries : List String}

theorem loading_start (files : FileMap) (entries : List String) :
    Loading files entries entries [] where
  distinct := List.nodup_nil
  holds := by simp
  reached := by
    rintro id (hid | ⟨path, hp, rfl⟩)
    · cases hid
    · exact ⟨path, hp, .refl⟩
  entries := fun entry he => .inr ⟨entry, he, rfl⟩
  closed := by simp

/-- A path whose module is loaded already is passed over. -/
theorem Loading.skip {path : String} {queue : List String} {parsed : List ParsedModule}
    (h : Loading files entries (path :: queue) parsed) (hin : moduleId path ∈ parsed.map Prod.fst) :
    Loading files entries queue parsed := by
  have hcovered : ∀ id, Covered (path :: queue) parsed id → Covered queue parsed id := by
    rintro id (hid | ⟨other, ho, rfl⟩)
    · exact .inl hid
    · rcases List.mem_cons.mp ho with rfl | ho
      · exact .inl hin
      · exact .inr ⟨other, ho, rfl⟩
  refine ⟨h.distinct, h.holds, fun id hid => h.reached id ?_,
    fun entry he => hcovered _ (h.entries entry he),
    fun id hid other ho => hcovered _ (h.closed id hid other ho)⟩
  exact hid.imp_right fun ⟨other, ho, heq⟩ => ⟨other, List.mem_cons_of_mem _ ho, heq⟩

/-- A module that is read goes to the loaded ones, and what it leads to waits. -/
theorem Loading.read {path text : String} {items : List Script.Item} {queue : List String}
    {parsed : List ParsedModule} (h : Loading files entries (path :: queue) parsed)
    (hnew : moduleId path ∉ parsed.map Prod.fst)
    (hfile : files.Holds (moduleId path, text, items)) :
    Loading files entries (queue ++ files.followed (moduleId path) items)
      (parsed ++ [(moduleId path, text, items)]) := by
  have hids : ∀ id, id ∈ (parsed ++ [(moduleId path, text, items)]).map Prod.fst ↔
      id ∈ parsed.map Prod.fst ∨ id = moduleId path := by simp
  have hpath : files.Reached entries (moduleId path) :=
    h.reached _ (.inr ⟨path, List.mem_cons_self, rfl⟩)
  have hcovered : ∀ id, Covered (path :: queue) parsed id →
      Covered (queue ++ files.followed (moduleId path) items)
        (parsed ++ [(moduleId path, text, items)]) id := by
    rintro id (hid | ⟨other, ho, rfl⟩)
    · exact .inl ((hids id).mpr (.inl hid))
    · rcases List.mem_cons.mp ho with rfl | ho
      · exact .inl ((hids _).mpr (.inr rfl))
      · exact .inr ⟨other, List.mem_append_left _ ho, rfl⟩
  constructor
  · rw [List.map_append]
    exact List.Nodup.append h.distinct (List.nodup_singleton _) (by simpa using hnew)
  · intro m hm
    rcases List.mem_append.mp hm with hm | hm
    · exact h.holds m hm
    · exact List.mem_singleton.mp hm ▸ hfile
  · rintro id (hid | ⟨other, ho, rfl⟩)
    · rcases (hids id).mp hid with hid | rfl
      · exact h.reached id (.inl hid)
      · exact hpath
    · rcases List.mem_append.mp ho with ho | ho
      · exact h.reached _ (.inr ⟨other, List.mem_cons_of_mem _ ho, rfl⟩)
      · obtain ⟨entry, he, hr⟩ := hpath
        exact ⟨entry, he, hr.tail ((leadsTo_iff hfile).mpr ⟨other, ho, rfl⟩)⟩
  · exact fun entry he => hcovered _ (h.entries entry he)
  · intro id hid other ho
    rcases (hids id).mp hid with hid | rfl
    · exact hcovered _ (h.closed id hid other ho)
    · obtain ⟨found, hf, rfl⟩ := (leadsTo_iff hfile).mp ho
      exact .inr ⟨found, List.mem_append_right _ hf, rfl⟩

/-- What a run that succeeds ends with. -/
theorem Loading.of_ok {fs : FileAccess Id} (hfs : fs.Lexical files) {limit : ℕ}
    {queue : List String} {parsed result : List ParsedModule}
    (h : Loading files entries queue parsed)
    (hr : (loadWithin fs limit queue parsed).run = .ok result) :
    Loading files entries [] result := by
  induction limit generalizing queue parsed with
  | zero =>
    cases queue with
    | nil =>
      cases hr
      exact h
    | cons => cases hr
  | succ limit ih =>
    cases queue with
    | nil =>
      cases hr
      exact h
    | cons path queue =>
      rcases loadWithin_cons hfs path queue parsed with
        ⟨hin, heq⟩ | ⟨e, -, heq⟩ | ⟨text, items, hnew, hfile, heq⟩
      · exact ih (h.skip hin) ((heq limit).symm.trans hr)
      · cases (heq limit).symm.trans hr
      · exact ih (h.read hnew hfile) ((heq limit).symm.trans hr)

/-- After a run that succeeds the loaded modules are those that the entries lead to. -/
theorem Loading.mem_iff {parsed : List ParsedModule} (h : Loading files entries [] parsed)
    (id : String) : id ∈ parsed.map Prod.fst ↔ files.Reached entries id := by
  have hcovered : ∀ {id}, Covered [] parsed id → id ∈ parsed.map Prod.fst := by
    rintro id (hid | ⟨path, hp, -⟩)
    · exact hid
    · cases hp
  constructor
  · exact fun hid => h.reached id (.inl hid)
  · rintro ⟨entry, he, hr⟩
    induction hr with
    | refl => exact hcovered (h.entries entry he)
    | tail _ hl ih => exact hcovered (h.closed _ ih _ hl)

/-! ### The end of loading -/

section Ends

variable (files) in
/-- How many relative specifiers there are in the files that are not loaded. -/
def unread (parsed : List ParsedModule) : ℕ :=
  ∑ id ∈ files.keys.toFinset \ (parsed.map Prod.fst).toFinset, (files.specifiers id).length

variable (files) in
/-- Loading follows no more paths than this. -/
def pathBound (entries : List String) : ℕ :=
  entries.length + ∑ id ∈ files.keys.toFinset, (files.specifiers id).length

theorem unread_concat {id text : String} {items : List Script.Item} {parsed : List ParsedModule}
    (hfile : files.Holds (id, text, items)) (hnew : id ∉ parsed.map Prod.fst) :
    (files.specifiers id).length + unread files (parsed ++ [(id, text, items)]) =
      unread files parsed := by
  have hkey : id ∈ files.keys := Table.get?_isSome.mp (by rw [hfile.1, Option.isSome_some])
  have hmem : id ∈ files.keys.toFinset \ (parsed.map Prod.fst).toFinset := by
    rw [Finset.mem_sdiff, List.mem_toFinset, List.mem_toFinset]
    exact ⟨hkey, hnew⟩
  have hrest : files.keys.toFinset \ ((parsed ++ [(id, text, items)]).map Prod.fst).toFinset =
      (files.keys.toFinset \ (parsed.map Prod.fst).toFinset).erase id := by
    ext other
    simp only [Finset.mem_sdiff, Finset.mem_erase, List.mem_toFinset, List.map_append,
      List.mem_append, List.map_singleton, List.mem_singleton]
    tauto
  rw [unread, hrest]
  exact Finset.add_sum_erase _ (fun id => (files.specifiers id).length) hmem

/-- Enough paths may be followed for those that wait and those in files that are not loaded: a
larger limit changes nothing. -/
theorem loadWithin_ends {fs : FileAccess Id} (hfs : fs.Lexical files) {limit : ℕ}
    {queue : List String} {parsed : List ParsedModule}
    (h : queue.length + unread files parsed ≤ limit) :
    (loadWithin fs limit queue parsed).run ≠ .error .tooMany ∧ ∀ more ≥ limit,
      (loadWithin fs more queue parsed).run = (loadWithin fs limit queue parsed).run := by
  induction limit generalizing queue parsed with
  | zero =>
    cases queue with
    | nil => simp [loadWithin_nil]
    | cons path queue => simp at h
  | succ limit ih =>
    cases queue with
    | nil => simp [loadWithin_nil]
    | cons path queue =>
      rw [List.length_cons] at h
      -- the limit is used up by one, and so is what waits or is still to be read
      have hstep : ∀ queue' parsed', queue'.length + unread files parsed' ≤ limit →
          (∀ n, (loadWithin fs (n + 1) (path :: queue) parsed).run =
            (loadWithin fs n queue' parsed').run) →
          (loadWithin fs (limit + 1) (path :: queue) parsed).run ≠ .error .tooMany ∧
            ∀ more ≥ limit + 1, (loadWithin fs more (path :: queue) parsed).run =
              (loadWithin fs (limit + 1) (path :: queue) parsed).run := by
        intro queue' parsed' hle heq
        obtain ⟨hends, hmore⟩ := ih hle
        refine ⟨by rwa [heq], fun more hm => ?_⟩
        obtain ⟨n, rfl⟩ : ∃ n, more = n + 1 := ⟨more - 1, by omega⟩
        rw [heq, heq, hmore n (by omega)]
      rcases loadWithin_cons hfs path queue parsed with
        ⟨-, heq⟩ | ⟨e, he, heq⟩ | ⟨text, items, hnew, hfile, heq⟩
      · exact hstep queue parsed (by omega) heq
      · refine ⟨by rw [heq]; simpa using he, fun more hm => ?_⟩
        obtain ⟨n, rfl⟩ : ∃ n, more = n + 1 := ⟨more - 1, by omega⟩
        rw [heq, heq]
      · refine hstep _ _ ?_ heq
        have hunread := unread_concat hfile hnew
        have hfollowed := length_followed hfile
        rw [List.length_append]
        omega

end Ends

/-! ### Links -/

/-- Loading and linking look for the same file. -/
theorem Loading.find?_candidates {parsed : List ParsedModule} (h : Loading files entries [] parsed)
    {id specifier : String} (hid : id ∈ parsed.map Prod.fst)
    (hs : specifier ∈ files.specifiers id) (hroot : ModulePath.target id specifier ≠ "/")
    {known : List String} (hknown : ∀ id, id ∈ known ↔ id ∈ parsed.map Prod.fst) :
    (candidates id specifier).find? known.contains = files.target? id specifier := by
  -- where loading finds no file there is no module
  have habsent : ∀ path ∈ candidates id specifier, files.has (moduleId path) = false →
      known.contains path = false := by
    intro path hp hn
    rw [ModulePath.moduleId_candidate hp hroot] at hn
    refine Bool.eq_false_iff.mpr fun hk => ?_
    obtain ⟨m, hm, rfl⟩ := List.mem_map.mp ((hknown path).mp (List.contains_iff_mem.mp hk))
    rw [Table.has, (h.holds m hm).1] at hn
    cases hn
  cases ht : files.target? id specifier with
  | none =>
    simp only [target?, List.find?_eq_none, Bool.not_eq_true] at ht
    exact List.find?_eq_none.mpr fun path hp => Bool.eq_false_iff.mp (habsent path hp (ht path hp))
  | some path =>
    have hfound : path ∈ known := by
      have hleads : files.LeadsTo id (moduleId path) := ⟨specifier, hs, path, ht, rfl⟩
      rw [ModulePath.moduleId_candidate (List.mem_of_find?_eq_some ht) hroot] at hleads
      obtain ⟨entry, he, hr⟩ := (h.mem_iff id).mp hid
      exact (hknown path).mpr ((h.mem_iff path).mpr ⟨entry, he, hr.tail hleads⟩)
    obtain ⟨-, before, after, heq, hbefore⟩ := List.find?_eq_some_iff_append.mp ht
    refine List.find?_eq_some_iff_append.mpr
      ⟨List.contains_iff_mem.mpr hfound, before, after, heq, fun other ho => ?_⟩
    have hother : other ∈ candidates id specifier := heq ▸ List.mem_append_left _ ho
    rw [habsent other hother (by simpa using hbefore other ho)]
    rfl

/-- A project agrees with the files: it has the modules that the entries lead to, each once, and
they are linked as the files lie. -/
structure Agrees (files : FileMap) (entries : List String) (p : Project) : Prop where
  distinct : p.moduleIds.Nodup
  reached : ∀ id, id ∈ p.moduleIds ↔ files.Reached entries id
  modules : ∀ id m, p.module? id = some m → files.Holds (id, m.source, m.items) ∧ p.ReadOff id m
  links : ∀ id m, p.module? id = some m → ∀ specifier ∈ relativeSpecifiers m.items,
    ModulePath.target id specifier ≠ "/" →
      (∀ path, files.target? id specifier = some path → p.link id specifier = .toModule path) ∧
      (p.link id specifier = .missing specifier ↔
        ∀ path ∈ candidates id specifier, files.has (moduleId path) = false)

theorem mem_of_module?_assemble {parsed : List ParsedModule} {id : String} {m : SourceModule}
    (hm : (assemble parsed).module? id = some m) : (id, m.source, m.items) ∈ parsed := by
  obtain ⟨source, items, hp, rfl⟩ := exists_of_module?_assemble hm
  simpa only [SourceModule.build, foldl_enter] using hp

theorem Loading.agrees {parsed : List ParsedModule} (h : Loading files entries [] parsed) :
    Agrees files entries (assemble parsed) := by
  have hmodules : ∀ id m, (assemble parsed).module? id = some m →
      files.Holds (id, m.source, m.items) :=
    fun id m hm => h.holds _ (mem_of_module?_assemble hm)
  refine ⟨Table.distinct_nil.extend _, fun id => ?_,
    fun id m hm => ⟨hmodules id m hm, readOff_assemble parsed hm⟩,
    fun id m hm specifier hs hroot => ?_⟩
  · rw [mem_moduleIds_assemble, h.mem_iff]
  · have hid : id ∈ parsed.map Prod.fst := List.mem_map_of_mem (mem_of_module?_assemble hm)
    have hrelative : isRelative specifier = true := List.of_mem_filter hs
    rw [← specifiers_of_holds (hmodules id m hm)] at hs
    have hfind := h.find?_candidates hid hs hroot fun _ => mem_moduleIds_assemble
    rw [link, Link.ofSpecifier, if_pos hrelative, hfind]
    cases ht : files.target? id specifier with
    | none =>
      simp only [target?, List.find?_eq_none, Bool.not_eq_true] at ht
      refine ⟨fun path hp => ?_, fun _ => ht, fun _ => rfl⟩
      cases hp
    | some path =>
      refine ⟨fun other ho => congrArg Link.toModule (Option.some.inj ho), fun hl => ?_,
        fun hall => ?_⟩
      · cases hl
      · have hthere := List.find?_some ht
        rw [hall path (List.mem_of_find?_eq_some ht)] at hthere
        cases hthere

/-- Loading and linking agree, and loading ends: from a bound on, the number of paths that may be
followed does not matter. -/
theorem load_agrees {fs : FileAccess Id} (hfs : fs.Lexical files) (entries : List String) :
    (∀ limit ≥ pathBound files entries,
      (loadWithin fs limit entries []).run ≠ .error .tooMany ∧
      (loadWithin fs limit entries []).run =
        (loadWithin fs (pathBound files entries) entries []).run) ∧
    (∀ limit parsed, (loadWithin fs limit entries []).run = .ok parsed →
      (parsed.map Prod.fst).Nodup ∧ Agrees files entries (assemble parsed)) ∧
    ∀ p, (load fs entries).run = .ok p → Agrees files entries p := by
  have hloading : ∀ {limit parsed}, (loadWithin fs limit entries []).run = .ok parsed →
      Loading files entries [] parsed := fun hr => (loading_start files entries).of_ok hfs hr
  refine ⟨fun limit hl => ?_, fun limit parsed hr => ⟨(hloading hr).distinct, (hloading hr).agrees⟩,
    fun p hp => ?_⟩
  · have hbound : entries.length + unread files [] ≤ pathBound files entries := by
      simp [unread, pathBound]
    exact ⟨(loadWithin_ends hfs (hbound.trans hl)).1, (loadWithin_ends hfs hbound).2 limit hl⟩
  · have hload : (load fs entries).run =
        (loadWithin fs pathLimit entries []).run.map assemble := rfl
    rw [hload] at hp
    cases hr : (loadWithin fs pathLimit entries []).run with
    | error e =>
      rw [hr] at hp
      cases hp
    | ok parsed =>
      rw [hr] at hp
      cases hp
      exact (hloading hr).agrees

end Project

/-- Access to a finite map of files by the normal forms of their paths. -/
def FileAccess.ofMap (files : FileMap) : FileAccess Id where
  read path := match files.get? (ModulePath.moduleId path) with
    | some text => .ok text
    | none => .error .notFound
  isFile path := files.has (ModulePath.moduleId path)
  isDirectory _ := false
  list _ := []
  makeDirectory _ := .error .notDirectory
  write _ _ := .error .notFound

theorem FileAccess.lexical_ofMap (files : FileMap) : (ofMap files).Lexical files where
  read path := by
    simp only [ofMap]
    cases files.get? (ModulePath.moduleId path) <;> rfl
  isFile _ := rfl

/-- Modules that import each other, an index file, a specifier of a script and one of nothing. -/
def linkedFiles : FileMap :=
  [("src/a.ts", "import { b } from './b.js'; import { u } from '.././src/util'; " ++
      "export * from './gone'"),
    ("src/b.ts", "import { a } from './a'"), ("src/util/index.ts", "import * as t from 'io-ts'"),
    ("src/alone.ts", "import { a } from './a'")]

theorem Project.load_agrees_linkedFiles :
    ∃ p, (Project.load (.ofMap linkedFiles) ["./src/a.ts"]).run = .ok p ∧
      p.moduleIds = ["src/a.ts", "src/b.ts", "src/util/index.ts"] ∧
      Project.Agrees linkedFiles ["./src/a.ts"] p := by
  have hrun : (Project.load (.ofMap linkedFiles) ["./src/a.ts"]).run.toOption.map
      Project.moduleIds = some ["src/a.ts", "src/b.ts", "src/util/index.ts"] := by decide +kernel
  have hagrees := (load_agrees (FileAccess.lexical_ofMap linkedFiles) ["./src/a.ts"]).2.2
  cases hp : (Project.load (.ofMap linkedFiles) ["./src/a.ts"]).run with
  | error e =>
    rw [hp] at hrun
    cases hrun
  | ok p =>
    rw [hp] at hrun
    exact ⟨p, rfl, Option.some.inj hrun, hagrees p hp⟩

end CodecDocs
