import CodecDocs.ModulePath

/-! Access to files. What works with files takes the operations it needs as an argument, so that it
runs in the world and on trees that are values alike. -/

namespace CodecDocs

inductive FileFault where
  | notFound | exists | notDirectory | isDirectory
  deriving DecidableEq

def FileFault.message : FileFault → String
  | .notFound => "No such file or directory (os error 2)"
  | .exists => "File exists (os error 17)"
  | .notDirectory => "Not a directory (os error 20)"
  | .isDirectory => "Is a directory (os error 21)"

structure FileAccess (m : Type → Type) where
  read : String → m (Except FileFault String)
  isFile : String → m Bool
  isDirectory : String → m Bool
  /-- The names in a directory. -/
  list : String → m (List String)
  makeDirectory : String → m (Except FileFault Unit)
  write : String → String → m (Except FileFault Unit)

namespace FileAccess

variable {m : Type → Type} [Monad m] (fs : FileAccess m)

def isThere (path : String) : m Bool := do
  if ← fs.isFile path then return true else fs.isDirectory path

/-- A directory that could not be made may be there already. -/
def settle (path : String) : Except FileFault Unit → m (Except FileFault Unit)
  | .ok _ => return .ok ()
  | .error e => return if ← fs.isDirectory path then .ok () else .error e

/-- Makes a directory after those it lies in, of which there are at most `depth`. -/
def makeWithin : Nat → String → m (Except FileFault Unit)
  | 0, _ => return .ok ()
  | depth + 1, path => do
    if path.isEmpty then return .ok ()
    match ← fs.makeDirectory path with
    | .error .notFound =>
      match ← makeWithin depth (String.ofList (ModulePath.directory path.toList)) with
      | .ok _ => fs.settle path (← fs.makeDirectory path)
      | .error e => return .error e
    | outcome => fs.settle path outcome

/-- Makes a directory and all those it lies in. -/
def makeDirectories (path : String) : m (Except FileFault Unit) :=
  fs.makeWithin (path.length + 1) path

end FileAccess

end CodecDocs
