import CodecDocs.Text.Lines

/-! Paths of modules. A module goes by its path after lexical normalization: no empty component, no
component that stays in place, and steps to the parent directory only in front of a relative path. -/

namespace CodecDocs.ModulePath

/-- The pieces between the slashes of a path that name something. -/
def components (path : List Char) : List (List Char) :=
  (Text.split '/' path).filter fun piece => piece ≠ [] ∧ piece ≠ ['.']

def parent : List Char := ['.', '.']

def isAbsolute (path : List Char) : Bool := path.head? == some '/'

/-- Adds a component to a normal path given backwards. -/
def push (absolute : Bool) (path : List (List Char)) (component : List Char) : List (List Char) :=
  if component = parent then
    match path with
    | last :: rest => if last ≠ parent then rest else if absolute then path else parent :: path
    | [] => if absolute then [] else [parent]
  else component :: path

/-- The components that are left of a path after normalization. -/
def normal (path : List Char) : List (List Char) :=
  ((components path).foldl (push (isAbsolute path)) []).reverse

def write (absolute : Bool) (path : List (List Char)) : List Char :=
  (if absolute then ['/'] else []) ++ Text.join ['/'] path

/-- The path in its normal form, by which the module is known. -/
def moduleId (path : String) : String :=
  String.ofList (write (isAbsolute path.toList) (normal path.toList))

/-- The second path seen from the first; an absolute one does not depend on it. -/
def append (base path : List Char) : List Char :=
  if isAbsolute path || base.isEmpty then path
  else if base.getLast? = some '/' then base ++ path
  else base ++ ['/'] ++ path

/-- The directory of a path, empty where there is none. -/
def directory (path : List Char) : List Char :=
  match components path with
  | [] => []
  | parts => write (isAbsolute path) parts.dropLast

/-! ### Specifiers -/

/-- Specifiers that name a file rather than a package. -/
def isRelative (specifier : String) : Bool :=
  let text := specifier.toList
  ['.', '/'].isPrefixOf text || ['.', '.', '/'].isPrefixOf text || text == ['.'] ||
    text == ['.', '.'] || isAbsolute text

/-- The text before an ending. -/
def stripEnding? (ending text : List Char) : Option (List Char) :=
  if ending.isSuffixOf text then some (text.take (text.length - ending.length)) else none

/-- The files that a specifier may mean in a module, the most specific first. -/
def candidates (moduleId specifier : String) : List String :=
  let base := write (isAbsolute (append (directory moduleId.toList) specifier.toList))
    (normal (append (directory moduleId.toList) specifier.toList))
  let extended := [".ts", ".tsx", ".d.ts", ".js"].map fun e => base ++ e.toList
  let scripts := match stripEnding? ".js".toList base with
    | some stem => [stem ++ ".ts".toList, stem ++ ".tsx".toList]
    | none => []
  let indexes := ["index.ts", "index.tsx", "index.js"].map fun name => base ++ ['/'] ++ name.toList
  ([base] ++ extended ++ scripts ++ indexes).map String.ofList

/-- The last component without its extension; a name that only has an extension is kept. -/
def stem? (path : String) : Option String :=
  match (components path.toList).getLast? with
  | none => none
  | some name =>
    if name = parent then none
    else
      let before := (name.reverse.dropWhile (· ≠ '.')).drop 1
      some (String.ofList (if before.isEmpty then name else before.reverse))

end CodecDocs.ModulePath
