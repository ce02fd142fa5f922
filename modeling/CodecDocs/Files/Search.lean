import CodecDocs.Files.Access
import CodecDocs.Files.Pattern

/-! Search for the paths that match a pattern, one piece of the pattern for each step down. Entries
of a directory come in the order of their names, and a directory comes before what is in it. -/

namespace CodecDocs.FileAccess

variable {m : Type → Type} [Monad m] (fs : FileAccess m)

/-- The path of a name in a directory; names in the current directory stand alone. -/
def child (directory name : String) : String :=
  if directory = "." then name
  else String.ofList (ModulePath.append directory.toList name.toList)

/-- A pattern that begins with two stars, with only the last of those that follow each other. -/
def collapse : List Pattern → List Pattern
  | p :: q :: rest => if q.isRecursive then collapse (q :: rest) else p :: q :: rest
  | patterns => patterns

/-- The names that only a pattern with a leading point matches. -/
def selfNames (p : Pattern) : List String :=
  if p.head? = some (.char '.') then
    ["..", "."].filter fun name => p.accepts name.toList
  else []

/-- A path that all pieces have matched; `directories` leaves out files. -/
def result (directories : Bool) (path : String) : m (List String) := do
  if directories then return if ← fs.isDirectory path then [path] else []
  else return [path]

def inEach {α : Type} (visit : α → m (List String)) : List α → m (List String)
  | [] => return []
  | a :: rest => do return (← visit a) ++ (← inEach visit rest)

mutual

/-- The paths below a directory that match the patterns, down to a depth. -/
def below (directories : Bool) : Nat → String → List Pattern → m (List String)
  | 0, _, _ => return []
  | _ + 1, _, [] => return []
  | depth + 1, path, p :: rest =>
    match p.name? with
    | some name => do
      let name := String.ofList name
      let next := child path name
      let there ← if name = "." ∨ name = ".." then fs.isDirectory path else fs.isThere next
      if there then onward directories depth next rest else return []
    | none => do
      if ← fs.isDirectory path then
        let own ← inEach (fun name =>
          onward directories depth
            (String.ofList (ModulePath.append path.toList name.toList)) rest) (selfNames p)
        let names := (← fs.list path).mergeSort fun a b => decide (a ≤ b)
        return own ++ (← inEach (fun name =>
          entry directories depth (child path name) name (p :: rest)) names)
      else return []

/-- Goes on from a path that the patterns so far have matched. -/
def onward (directories : Bool) : Nat → String → List Pattern → m (List String)
  | 0, _, _ => return []
  | _ + 1, path, [] => fs.result directories path
  | depth + 1, path, rest => below directories depth path rest

/-- What an entry of a directory comes to. -/
def entry (directories : Bool) : Nat → String → String → List Pattern → m (List String)
  | 0, _, _, _ => return []
  | depth + 1, path, name, patterns =>
    match patterns with
    | [] => return []
    | p :: rest =>
      if p.isRecursive then do
        let patterns := collapse (p :: rest)
        if ← fs.isDirectory path then
          let own ← match patterns.drop 1 with
            | [] => pure [path]
            | next => here directories depth path name next
          return own ++ (← below directories depth path patterns)
        else match patterns.drop 1 with
          | [] => return []
          | next => here directories depth path name next
      else here directories depth path name (p :: rest)

/-- Matches the name of an entry. -/
def here (directories : Bool) : Nat → String → String → List Pattern → m (List String)
  | 0, _, _, _ => return []
  | _ + 1, _, _, [] => return []
  | depth + 1, path, name, p :: rest =>
    if p.accepts name.toList then
      match rest with
      | [] => fs.result directories path
      | _ => below directories depth path rest
    else return []

end

/-- Paths have fewer pieces than this. -/
def depthLimit : Nat := 4096

/-- The pieces of a pattern; a slash at its end makes no piece. -/
def patternPieces (text : List Char) : List (List Char) :=
  let pieces := Text.split '/' text
  if pieces.getLast? = some [] then pieces.dropLast else pieces

/-- The paths that match a pattern. -/
def search (pattern : String) : m (Except PatternError (List String)) := do
  let text := pattern.toList
  let absolute := ModulePath.isAbsolute text
  let pieces := patternPieces (text.dropWhile (· = '/'))
  match (do let _ ← Pattern.read text; pieces.mapM Pattern.read) with
  | .error e => return .error e
  | .ok patterns =>
    let directories := text.getLast? = some '/'
    return .ok (← fs.below directories (4 * depthLimit) (if absolute then "/" else ".") patterns)

end CodecDocs.FileAccess
