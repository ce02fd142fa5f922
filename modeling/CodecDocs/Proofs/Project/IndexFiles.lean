import CodecDocs.Project.Basic
import CodecDocs.Proofs.ModulePath.Joining

/-! Imports of directories. A specifier with a step in front leads from a module to a directory, and
the files that it may mean are all relative and contain the directory's index files under their ids.
This holds below every directory but the root of the project, where the index files are looked for
under absolute paths. -/

namespace CodecDocs

namespace ModulePath

/-- The names under which a directory is imported. -/
def indexNames : List String := ["index.ts", "index.tsx", "index.js"]

/-- The id of a file in the directory of an id. -/
def inside (directory name : String) : String :=
  moduleId (String.ofList (append directory.toList name.toList))

/-! ### Relative targets -/

theorem isAbsolute_of_ne_nil {text : List Char} (h : text ≠ []) (more : List Char) :
    isAbsolute (text ++ more) = isAbsolute text := by
  obtain ⟨c, text, rfl⟩ := List.exists_cons_of_ne_nil h
  rfl

theorem isAbsolute_concat {text more : List Char} (h : isAbsolute text = false)
    (hm : isAbsolute more = false) : isAbsolute (text ++ more) = false := by
  cases text with
  | nil => exact hm
  | cons c text => exact h

/-- The directory of a relative path is relative. -/
theorem isAbsolute_directory {path : List Char} (h : isAbsolute path = false) :
    isAbsolute (directory path) = false := by
  have hnamed : ∀ p ∈ (components path).dropLast, IsComponent p :=
    fun p hp => isComponent_of_mem (List.dropLast_subset _ hp)
  unfold directory
  split
  · rfl
  · rw [isAbsolute_write hnamed, h]

/-- A relative specifier in a relative module leads to a normal relative path. -/
theorem exists_target {id specifier : String} (hid : isAbsolute id.toList = false)
    (hs : isAbsolute specifier.toList = false) :
    ∃ parts, Normal false parts ∧ (target id specifier).toList = write false parts := by
  have hpath : isAbsolute (append (directory id.toList) specifier.toList) = false := by
    rw [isAbsolute_append_relative _ hs, isAbsolute_directory hid]
  rw [toList_target, hpath]
  exact ⟨_, hpath ▸ normal_normal _, rfl⟩

/-! ### Index files -/

theorem write_slash {absolute : Bool} {parts : List (List Char)} (hne : parts ≠ []) :
    write absolute parts ++ ['/'] = front absolute parts := by
  cases parts using List.reverseRecOn with
  | nil => exact absurd rfl hne
  | append_singleton init last => simp [write_concat, front]

/-- Behind a normal path a relative one comes after a slash. -/
theorem append_write {parts : List (List Char)} (h : Normal false parts) (hne : parts ≠ [])
    {path : List Char} (hp : isAbsolute path = false) :
    append (write false parts) path = write false parts ++ ['/'] ++ path := by
  cases parts using List.reverseRecOn with
  | nil => exact absurd rfl hne
  | append_singleton init last =>
    -- the last part of a normal path has no slash in it, so that one is put behind
    obtain ⟨-, ⟨⟨hlast, -⟩, hslash⟩, -⟩ := normal_concat.mp h
    have hempty : (front false init ++ last).isEmpty = false := by simp [hlast]
    have hend : (front false init ++ last).getLast? ≠ some '/' := by
      rw [List.getLast?_append, Option.or_of_isSome (by simpa using hlast)]
      exact fun hl => hslash (List.mem_of_getLast? hl)
    rw [write_concat, append, hp, hempty, if_neg (by simp), if_neg hend]

/-- The id of an index file is the path of its directory, a slash and its name. -/
theorem inside_eq {directory : String} {parts : List (List Char)} (h : Normal false parts)
    (hd : directory.toList = write false parts) (hne : parts ≠ []) {name : String}
    (hname : name ∈ indexNames) :
    inside directory name = String.ofList (directory.toList ++ ['/'] ++ name.toList) := by
  have hnames : ∀ name ∈ indexNames, isAbsolute name.toList = false ∧ '/' ∉ name.toList ∧
      2 < name.toList.length := by decide
  obtain ⟨hrelative, hslash, hlength⟩ := hnames name hname
  rw [inside, hd, append_write h hne hrelative, write_slash hne, moduleId_front h hslash hlength]

theorem inside_root {name : String} (hname : name ∈ indexNames) : inside "" name = name := by
  simp only [indexNames, List.mem_cons, List.not_mem_nil, or_false] at hname
  rcases hname with rfl | rfl | rfl <;> decide

theorem candidates_root {id specifier : String} (h : target id specifier = "") :
    candidates id specifier =
      ["", ".ts", ".tsx", ".d.ts", ".js", "/index.ts", "/index.tsx", "/index.js"] := by
  rw [candidates, ← toList_target, h]
  decide

/-- Below a directory that is not the root all files that a specifier may mean are relative. -/
theorem isAbsolute_candidate {id specifier : String} (hne : target id specifier ≠ "")
    (h : isAbsolute (target id specifier).toList = false) {c : String}
    (hc : c ∈ candidates id specifier) : isAbsolute c.toList = false := by
  have hendings : ∀ e ∈ [".ts", ".tsx", ".d.ts", ".js"], isAbsolute e.toList = false := by decide
  rcases candidate_cases hc with heq | ⟨e, he, heq⟩ | ⟨stem, hstem, e, he, heq⟩ | ⟨name, -, heq⟩
  · rw [heq, h]
  · rw [heq]
    exact isAbsolute_concat h (hendings e he)
  · have hbefore : isAbsolute stem = false := by
      cases stem with
      | nil => rfl
      | cons c stem =>
        exact (isAbsolute_of_ne_nil (List.cons_ne_nil c stem) _).symm.trans (hstem ▸ h)
    have he : e ∈ [".ts", ".tsx", ".d.ts", ".js"] := List.mem_append_left _ he
    rw [heq]
    exact isAbsolute_concat hbefore (hendings e he)
  · have hbase : (target id specifier).toList ≠ [] := fun hnil =>
      hne (String.toList_eq_nil_iff.mp hnil)
    rw [heq, List.append_assoc, isAbsolute_of_ne_nil hbase, h]

/-- Below a directory that is not the root the index files are among the files meant. -/
theorem inside_mem_candidates {id specifier : String} (hid : isAbsolute id.toList = false)
    (hs : isAbsolute specifier.toList = false) (hne : target id specifier ≠ "") {name : String}
    (hname : name ∈ indexNames) : inside (target id specifier) name ∈ candidates id specifier := by
  obtain ⟨parts, hnormal, hparts⟩ := exists_target hid hs
  have hnil : parts ≠ [] := by
    rintro rfl
    exact hne (String.toList_eq_nil_iff.mp hparts)
  rw [inside_eq hnormal hparts hnil hname, candidates, ← toList_target]
  exact List.mem_map_of_mem (List.mem_append_right _ (List.mem_map_of_mem hname))

end ModulePath

/-! ### Links -/

open ModulePath

theorem find?_of_takeWhile {l : List String} {a : String} {p : String → Bool} (h : a ∈ l)
    (ha : p a = true) (hbefore : ∀ c ∈ l.takeWhile (· ≠ a), p c = false) :
    l.find? p = some a := by
  induction l with
  | nil => cases h
  | cons c l ih =>
    by_cases hc : c = a
    · rw [hc, List.find?_cons_of_pos ha]
    · rw [List.takeWhile_cons_of_pos (by simpa using hc), List.forall_mem_cons] at hbefore
      rw [List.find?_cons_of_neg (by simp [hbefore.1])]
      exact ih ((List.mem_cons.mp h).resolve_left (Ne.symm hc)) hbefore.2

/-- A specifier of the root never leads to its index files, whatever is in the project. -/
theorem Link.ofSpecifier_root_ne {id specifier : String} (h : target id specifier = "")
    (known : List String) {name : String} (hname : name ∈ indexNames) :
    Link.ofSpecifier known id specifier ≠ .toModule (inside (target id specifier) name) := by
  have hmissing : ∀ name ∈ indexNames, name ∉ candidates id specifier := by
    rw [candidates_root h]
    decide
  rw [h, inside_root hname, Link.ofSpecifier]
  split
  · split
    · next found hfound =>
      rintro ⟨⟩
      exact hmissing name hname (List.mem_of_find?_eq_some hfound)
    · nofun
  · nofun

/-- A specifier with a step in front, in a module with a relative id. Among the files that it may
mean are the index files of its directory and no absolute paths, and it leads to an index file in
the project if none of the files before that one is in the project: all this unless the directory is
the root of the project. -/
theorem Link.directory_index_iff {id specifier : String} (hid : isAbsolute id.toList = false)
    (hs : isRelative specifier = true) (hr : isAbsolute specifier.toList = false) :
    ((∀ name ∈ indexNames, inside (target id specifier) name ∈ candidates id specifier) ∧
      (∀ c ∈ candidates id specifier, isAbsolute c.toList = false) ∧
      ∀ known, ∀ name ∈ indexNames, inside (target id specifier) name ∈ known →
        (∀ c ∈ (candidates id specifier).takeWhile (· ≠ inside (target id specifier) name),
          c ∉ known) →
        Link.ofSpecifier known id specifier = .toModule (inside (target id specifier) name)) ↔
      target id specifier ≠ "" := by
  constructor
  · rintro ⟨-, -, hlink⟩ hroot
    -- a project with nothing but the index file, which the specifier of the root still misses
    have hindex : "index.ts" ∈ indexNames := List.mem_cons_self
    refine ofSpecifier_root_ne hroot [inside (target id specifier) "index.ts"] hindex
      (hlink _ _ hindex List.mem_cons_self fun c hc hknown => ?_)
    have hne := List.all_eq_true.mp List.all_takeWhile c hc
    simp [List.mem_singleton.mp hknown] at hne
  · intro hne
    obtain ⟨parts, hnormal, hparts⟩ := exists_target hid hr
    have htarget : isAbsolute (target id specifier).toList = false := by
      rw [hparts, isAbsolute_write hnormal.named]
    have hmem : ∀ name ∈ indexNames,
        inside (target id specifier) name ∈ candidates id specifier :=
      fun name hname => inside_mem_candidates hid hr hne hname
    refine ⟨hmem, fun c hc => isAbsolute_candidate hne htarget hc, ?_⟩
    intro known name hname hknown hbefore
    have hfind : (candidates id specifier).find? known.contains =
        some (inside (target id specifier) name) :=
      find?_of_takeWhile (hmem name hname) (by simpa using hknown) (by simpa using hbefore)
    rw [Link.ofSpecifier, if_pos hs, hfind]

/-- A directory beside the project whose name looks like that of a script. -/
theorem Link.directory_index_iff_outside :
    isAbsolute "lib/api.ts".toList = false ∧ isRelative "../../vendor/./old/../ui.js" = true ∧
      isAbsolute "../../vendor/./old/../ui.js".toList = false ∧
      target "lib/api.ts" "../../vendor/./old/../ui.js" = "../vendor/ui.js" ∧
      "../vendor/ui.js/index.tsx" ∈ candidates "lib/api.ts" "../../vendor/./old/../ui.js" ∧
      Link.ofSpecifier ["lib/api.ts", "../vendor/ui.js/index.js", "../vendor/ui.js/index.tsx"]
        "lib/api.ts" "../../vendor/./old/../ui.js" = .toModule "../vendor/ui.js/index.tsx" := by
  have hid : isAbsolute "lib/api.ts".toList = false := by decide
  have hs : isRelative "../../vendor/./old/../ui.js" = true := by decide
  have hr : isAbsolute "../../vendor/./old/../ui.js".toList = false := by decide
  have htarget : target "lib/api.ts" "../../vendor/./old/../ui.js" = "../vendor/ui.js" := by decide
  have hinside : inside "../vendor/ui.js" "index.tsx" = "../vendor/ui.js/index.tsx" := by decide
  obtain ⟨hindex, -, hlink⟩ := (directory_index_iff hid hs hr).mpr (by rw [htarget]; decide)
  rw [htarget] at hindex hlink
  have hmem := hindex "index.tsx" (by decide)
  have hfound := hlink ["lib/api.ts", "../vendor/ui.js/index.js", "../vendor/ui.js/index.tsx"]
    "index.tsx" (by decide)
  rw [hinside] at hmem hfound
  exact ⟨hid, hs, hr, htarget, hmem, hfound (by decide) (by decide)⟩

/-- The index file of the root is in the project and nothing that comes before it, and the specifier
of the root leads nowhere. -/
theorem Link.misses_root_index :
    isRelative ".." = true ∧ target "lib/user.ts" ".." = "" ∧ inside "" "index.ts" = "index.ts" ∧
      (∀ c ∈ (candidates "lib/user.ts" "..").takeWhile (· ≠ "index.ts"),
        c ∉ ["lib/user.ts", "index.ts"]) ∧
      Link.ofSpecifier ["lib/user.ts", "index.ts"] "lib/user.ts" ".." = .missing ".." := by
  decide

end CodecDocs
