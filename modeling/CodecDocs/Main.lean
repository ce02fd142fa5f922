import CodecDocs.CommandLine.Run

/-! The program: runs its arguments on the files of the system. -/

namespace CodecDocs

open CommandLine

/-- What an error of the system means for a file. -/
def FileFault.ofError : IO.Error → FileFault
  | .alreadyExists .. => .exists
  | .inappropriateType .. => .isDirectory
  | .noSuchThing .. | .noFileOrDirectory .. => .notFound
  | _ => .notDirectory

def attempt {α : Type} (act : IO α) : IO (Except FileFault α) := do
  try
    return .ok (← act)
  catch e => return .error (FileFault.ofError e)

/-- What is at a path, if something is. -/
def typeAt (path : String) : IO (Option IO.FS.FileType) := do
  let here ← IO.currentDir
  match ← attempt (here / path).metadata with
  | .ok metadata => return some metadata.type
  | .error _ => return none

def namesIn (path : String) : IO (List String) := do
  let here ← IO.currentDir
  match ← attempt (here / path).readDir with
  | .ok entries => return entries.toList.map IO.FS.DirEntry.fileName
  | .error _ => return []

/-- Access to the files of the system, relative to the current directory. -/
def systemFiles : FileAccess IO where
  read path := attempt (IO.FS.readFile path)
  isFile path := do return (← typeAt path) == some .file
  isDirectory path := do return (← typeAt path) == some .dir
  list := namesIn
  makeDirectory path := attempt (IO.FS.createDir path)
  write path text := attempt (IO.FS.writeFile path text)

def usageText : String :=
  "usage: document -i <file>... [options]\n       schema -i <file>... [options]"

end CodecDocs

open CodecDocs in
def main (args : List String) : IO UInt32 := do
  match ← CommandLine.run systemFiles args with
  | .usage =>
    IO.eprintln usageText
    return 2
  | .finished code console =>
    IO.print console.out
    IO.eprint console.err
    return code.toUInt32
