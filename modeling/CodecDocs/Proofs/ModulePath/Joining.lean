import CodecDocs.Proofs.ModulePath

/-! Paths that are joined. The components of a joined path are those of its two parts, and a step to
the parent directory only sees the normal form of what stands before it. So it makes no difference
whether a path is normalized before another one is put behind it. -/

namespace CodecDocs

theorem Text.split_append (separator : Char) (text more : List Char) :
    split separator (text ++ separator :: more) = split separator text ++ split separator more := by
  simp only [split_eq, List.splitOn_eq_splitOnP]
  exact List.splitOnP_append_cons text more (beq_self_eq_true separator)

namespace ModulePath

/-! ### Components -/

theorem components_append_slash (path more : List Char) :
    components (path ++ '/' :: more) = components path ++ components more := by
  rw [components, Text.split_append, List.filter_append, ← components, ← components]

/-- A relative path adds its components to those of the path before it. -/
theorem components_append {path : List Char} (base : List Char) (h : isAbsolute path = false) :
    components (append base path) = components base ++ components path := by
  unfold append
  split_ifs with hempty hslash
  · have hbase : base = [] := by simpa [h] using hempty
    rw [hbase]
    rfl
  · obtain ⟨init, rfl⟩ : ∃ init, base = init ++ ['/'] := List.getLast?_eq_some_iff.mp hslash
    have hinit : components (init ++ ['/']) = components init :=
      (components_append_slash init []).trans (List.append_nil _)
    rw [List.append_assoc, List.singleton_append, components_append_slash, hinit]
  · rw [List.append_assoc, List.singleton_append, components_append_slash]

theorem isAbsolute_append_relative {path : List Char} (base : List Char)
    (h : isAbsolute path = false) : isAbsolute (append base path) = isAbsolute base := by
  cases base with
  | nil =>
    have hnil : append [] path = path := by simp [append]
    rw [hnil, h]
    rfl
  | cons c base =>
    unfold append
    split_ifs with hempty
    · simp [h] at hempty
    all_goals rfl

/-- Behind a base whose normal form is known the components of a path are added one by one. -/
theorem normal_append {path : List Char} (base : List Char) (h : isAbsolute path = false) :
    normal (append base path) =
      ((components path).foldl (push (isAbsolute base)) (normal base).reverse).reverse := by
  rw [normal, isAbsolute_append_relative base h, components_append base h, List.foldl_append,
    normal, List.reverse_reverse]

/-! ### Ids -/

/-- The path of the second name behind the first one. -/
def joined (base path : String) : String := String.ofList (append base.toList path.toList)

/-- The pieces between the slashes of a path, behind the slash that leads an absolute one. -/
def pieces (path : List Char) : List (List Char) :=
  let body := if isAbsolute path then path.tail else path
  if body.isEmpty then [] else Text.split '/' body

theorem pieces_write {absolute : Bool} {parts : List (List Char)}
    (h : ∀ p ∈ parts, IsComponent p) : pieces (write absolute parts) = parts := by
  have hbody : (if absolute then (write absolute parts).tail else write absolute parts) =
      Text.join ['/'] parts := by
    cases absolute <;> rfl
  rw [pieces, isAbsolute_write h, hbody]
  cases parts with
  | nil => rfl
  | cons first rest =>
    -- the first component is not empty, so that there is something to split
    have hne : Text.join ['/'] (first :: rest) ≠ [] := by
      obtain ⟨⟨hfirst, -⟩, -⟩ := h first List.mem_cons_self
      cases rest <;> simp [Text.join, hfirst]
    rw [if_neg (by simpa using hne)]
    exact Text.split_join (List.cons_ne_nil _ _) fun p hp => (h p hp).2

theorem toList_moduleId (path : String) :
    (moduleId path).toList = write (isAbsolute path.toList) (normal path.toList) :=
  String.toList_ofList

/-- The pieces of an id are components of a normal form. -/
theorem normal_pieces (path : String) :
    Normal (isAbsolute (moduleId path).toList) (pieces (moduleId path).toList) := by
  have h := normal_normal path.toList
  rwa [toList_moduleId, isAbsolute_write h.named, pieces_write h.named]

theorem moduleId_joined (base path : String) :
    moduleId (joined (moduleId base) path) = moduleId (joined base path) := by
  by_cases hpath : isAbsolute path.toList
  · -- an absolute path does not depend on what stands before it
    have hjoined : ∀ base, joined base path = path := fun base => by simp [joined, append, hpath]
    rw [hjoined, hjoined]
  · rw [Bool.not_eq_true] at hpath
    have hbase := normal_normal base.toList
    simp only [moduleId, joined, String.toList_ofList, isAbsolute_append_relative _ hpath,
      normal_append _ hpath, isAbsolute_write hbase.named, normal_write hbase]

/-- Ids are a normal form: they are their own ids, none of their pieces is empty or stays in place,
steps to the parent directory only lead a relative one, and a path that is put behind the id leads
to the same module as behind the path itself. -/
theorem moduleId_normalForm (path : String) :
    moduleId (moduleId path) = moduleId path ∧
      Normal (isAbsolute (moduleId path).toList) (pieces (moduleId path).toList) ∧
      ∀ more, moduleId (joined (moduleId path) more) = moduleId (joined path more) :=
  ⟨moduleId_moduleId path, normal_pieces path, moduleId_joined path⟩

example : moduleId "../lib/.//x/../../.." = "../.." ∧ moduleId "/../a//b/" = "/a/b" := by decide

end ModulePath

end CodecDocs
