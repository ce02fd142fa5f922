import CodecDocs.Files.Access
import CodecDocs.Project.Basic

/-! Loading of projects from files: the entries and everything that relative specifiers lead to from
there. Each module is read once, under the first path that leads to it. -/

namespace CodecDocs.Project

variable {m : Type → Type} [Monad m] (fs : FileAccess m)

/-- The first of some paths at which there is a file. -/
def firstFile? : List String → m (Option String)
  | [] => return none
  | path :: paths => do
    if ← fs.isFile path then return some path else firstFile? paths

/-- The files that a module's relative specifiers lead to, in the order of the specifiers. -/
def targets (id : String) : List String → m (List String)
  | [] => return []
  | specifier :: specifiers => do
    let found ← if ModulePath.isRelative specifier then
        firstFile? fs (ModulePath.candidates id specifier)
      else pure none
    return found.toList ++ (← targets id specifiers)

/-- The module in a file. -/
def readModule (path : String) : m (Except LoadError ParsedModule) := do
  match ← fs.read path with
  | .error cause => return .error (.file (ModulePath.moduleId path) cause)
  | .ok source => return parseModule path source

/-- Reads the modules of the paths that wait and of those that they lead to, after the ones that
are `parsed` already, from at most `limit` paths. -/
def loadWithin : Nat → List String → List ParsedModule → m (Except LoadError (List ParsedModule))
  | _, [], parsed => return .ok parsed
  | 0, _ :: _, _ => return .error .tooMany
  | limit + 1, path :: queue, parsed => do
    if (parsed.map Prod.fst).contains (ModulePath.moduleId path) then loadWithin limit queue parsed
    else
      match ← readModule fs path with
      | .error e => return .error e
      | .ok (id, source, items) =>
        let found ← targets fs id (items.filterMap Script.Item.source?)
        loadWithin limit (queue ++ found) (parsed ++ [(id, source, items)])

/-- No more paths than this are followed. -/
def pathLimit : Nat := twoTo 32

/-- The project of some entries. -/
def load (entries : List String) : m (Except LoadError Project) := do
  return (← loadWithin fs pathLimit entries []).map assemble

end CodecDocs.Project
