import CodecDocs.Files.Access
import CodecDocs.Table

/-! Trees of files as values. A path is followed piece by piece from the root, and every piece but
the last must lead to a directory. Nothing lies above the root. -/

namespace CodecDocs

/-- The names on the way from the root. -/
abbrev TreePath := List String

structure FileTree where
  files : Table TreePath String
  /-- Directories beside those that hold files. -/
  directories : List TreePath

namespace FileTree

inductive Kind where
  | file | directory
  deriving DecidableEq

def isDirectory (t : FileTree) (path : TreePath) : Bool :=
  path.isEmpty || t.directories.contains path ||
    t.files.keys.any fun key => path.isPrefixOf key && path.length < key.length

/-- What is at a place, if something is. -/
def kind? (t : FileTree) (path : TreePath) : Option Kind :=
  if t.files.has path then some .file
  else if t.isDirectory path then some .directory
  else none

/-- Follows the pieces of a path from a place. -/
def walk (t : FileTree) : List String → TreePath → Except FileFault TreePath
  | [], here => .ok here
  | piece :: rest, here =>
    match t.kind? here with
    | none => .error .notFound
    | some .file => .error .notDirectory
    | some .directory =>
      if piece = "" ∨ piece = "." then walk t rest here
      else if piece = ".." then
        if here.isEmpty then .error .notFound else walk t rest here.dropLast
      else walk t rest (here ++ [piece])

def pieces (path : String) : List String := (Text.split '/' path.toList).map String.ofList

/-- The place that a path leads to. -/
def locate (t : FileTree) (path : String) : Except FileFault TreePath :=
  if path.isEmpty || ModulePath.isAbsolute path.toList then .error .notFound
  else t.walk (pieces path) []

def pathKind? (t : FileTree) (path : String) : Option Kind :=
  match t.locate path with
  | .ok place => t.kind? place
  | .error _ => none

def read (t : FileTree) (path : String) : Except FileFault String :=
  match t.locate path with
  | .error e => .error e
  | .ok place =>
    match t.files.get? place with
    | some text => .ok text
    | none => .error (if t.isDirectory place then .isDirectory else .notFound)

/-- The names right below a place. -/
def names (t : FileTree) (place : TreePath) : List String :=
  Names.addAll [] ((t.files.keys ++ t.directories).filterMap fun key =>
    if place.isPrefixOf key then key[place.length]? else none)

def list (t : FileTree) (path : String) : List String :=
  match t.locate path with
  | .ok place => t.names place
  | .error _ => []

def makeDirectory (t : FileTree) (path : String) : Except FileFault FileTree :=
  match t.locate path with
  | .error e => .error e
  | .ok place =>
    if (t.kind? place).isSome then .error .exists
    else .ok { t with
      directories := t.directories ++ [place] }

/-- Paths that end in a slash or in a place of their own name directories only. -/
def namesDirectory (path : String) : Bool :=
  match (pieces path).getLast? with
  | some last => last = "" || last = "." || last = ".."
  | none => false

def write (t : FileTree) (path text : String) : Except FileFault FileTree :=
  let trimmed := ((pieces path).reverse.dropWhile (· = "")).reverse
  if path.isEmpty || ModulePath.isAbsolute path.toList then .error .notFound
  else match t.walk trimmed [] with
    | .error e => .error e
    | .ok place =>
      if namesDirectory path || t.isDirectory place then .error .isDirectory
      else .ok { t with
        files := t.files.insert place text }

/-- The tree of files given by their paths. -/
def ofFiles (files : List (String × String)) : FileTree :=
  ⟨Table.ofList (files.map fun ⟨path, text⟩ =>
    ((ModulePath.normal path.toList).map String.ofList, text)), []⟩

def pathText (path : TreePath) : String := String.intercalate "/" path

/-- The files that are new or different, in the order of their paths. -/
def changes (before after : FileTree) : List (String × String) :=
  let changed := after.files.filter fun ⟨path, text⟩ => before.files.get? path ≠ some text
  (changed.map fun ⟨path, text⟩ => (pathText path, text)).mergeSort fun a b => decide (a.1 ≤ b.1)

/-- Changes the tree, unless that fails. -/
def update (change : FileTree → Except FileFault FileTree) :
    StateM FileTree (Except FileFault Unit) :=
  fun t =>
    match change t with
    | .ok t => (.ok (), t)
    | .error e => (.error e, t)

def access : FileAccess (StateM FileTree) where
  read path := do return (← get).read path
  isFile path := do return (← get).pathKind? path = some .file
  isDirectory path := do return (← get).pathKind? path = some .directory
  list path := do return (← get).list path
  makeDirectory path := update fun t => t.makeDirectory path
  write path text := update fun t => t.write path text

end FileTree

end CodecDocs
