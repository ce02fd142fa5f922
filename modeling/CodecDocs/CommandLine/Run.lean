import CodecDocs.CommandLine.Command
import CodecDocs.Config.Reader
import CodecDocs.Files.Search
import CodecDocs.Filter.Parser
import CodecDocs.Project.Loader
import CodecDocs.Registry.Builtin

/-! Running of commands. Documents are written also when some of their parts failed; that only shows
in the reports and in the exit code. -/

namespace CodecDocs.CommandLine

inductive CommandError where
  | pattern (cause : PatternError)
  | noMatch (pattern : String)
  | config (path : String) (cause : ConfigError)
  | combinators (cause : ConfigError)
  | load (cause : LoadError)
  | severalEntries (count : Nat)
  | filter (text : String)
  | directory (cause : FileFault)
  | write (path : String) (cause : FileFault)

/-- What lies behind an error, which is reported after it. -/
def causeText (message : String) (cause : Option String) : String :=
  match cause with
  | some text => message ++ ": " ++ text
  | none => message

def configCause : ConfigError → Option String
  | .file _ cause => some cause.message
  | .json _ | .combinator .. => none

def loadCause : LoadError → Option String
  | .file _ cause => some cause.message
  | .source _ cause => some cause.message
  | .tooMany => none

def CommandError.message : CommandError → String
  | .pattern cause => cause.message
  | .noMatch text => "glob pattern matched no files: " ++ text
  | .config path cause =>
    "invalid config " ++ path ++ ": " ++ causeText cause.message (configCause cause)
  | .combinators cause => causeText cause.message (configCause cause)
  | .load cause => causeText cause.message (loadCause cause)
  | .severalEntries count =>
    "--out takes a single entry; use --out-dir for " ++ toString count ++ " entries"
  | .filter text => "failed to apply jq expression `" ++ text ++ "`"
  | .directory cause => cause.message
  | .write path cause => "failed to write " ++ path ++ ": " ++ cause.message

/-- The text written to the two streams. -/
structure Console where
  out : String
  err : String

/-- What running arguments comes to. -/
inductive Outcome where
  | usage
  | finished (code : Nat) (console : Console)

/-- Commands write to the console and to files, and they may fail. -/
abbrev Run (m : Type → Type) := ExceptT CommandError (StateT Console m)

section

variable {m : Type → Type} [Monad m]

def lift {α : Type} (act : m α) : Run m α := ExceptT.lift (StateT.lift act)

/-- Fails with what an error means for the command. -/
def orFail {ε α : Type} (wrap : ε → CommandError) (act : m (Except ε α)) : Run m α := do
  match ← lift act with
  | .ok a => return a
  | .error e => throw (wrap e)

def sayOut (line : String) : Run m Unit := modify fun c =>
  { c with
    out := c.out ++ line ++ "\n" }

def sayErr (line : String) : Run m Unit := modify fun c =>
  { c with
    err := c.err ++ line ++ "\n" }

/-! ### Input -/

def isPattern (text : String) : Bool :=
  text.toList.any fun c => c = '*' || c = '?' || c = '[' || c = '\x7b'

/-- The files that the inputs mean; a pattern must match something. -/
def entryFiles (fs : FileAccess m) : List String → Run m (List String)
  | [] => return []
  | text :: rest => do
    let found ← if isPattern text then orFail .pattern (fs.search text) else pure [text]
    if found.isEmpty then throw (.noMatch text)
    return found ++ (← entryFiles fs rest)

structure Loaded where
  entries : List String
  setting : Setting
  config : Config

def loadConfig (fs : FileAccess m) : Option String → Run m Config
  | none => return Config.empty
  | some path => orFail (.config path) (Config.load fs path)

def loadAll (fs : FileAccess m) (settings : InputSettings) : Run m Loaded := do
  let entries ← entryFiles fs settings.input
  let config ← loadConfig fs settings.config
  match config.apply Registry.builtin with
  | (_, some refused) => throw (.combinators refused)
  | (registry, none) =>
    let project ← orFail .load (Project.load fs entries)
    return ⟨entries, ⟨project, registry, none⟩, config⟩

/-- The document of each entry. -/
def documents (loaded : Loaded) (options : DocumentOptions) : List Document :=
  loaded.entries.map fun path =>
    ((loaded.setting.document options (ModulePath.moduleId path)).run Session.start).1

/-! ### Output -/

def report (d : Document) : Run m Unit :=
  d.diagnostics.forM fun diagnostic => sayErr ("error: " ++ d.entry ++ ": " ++ diagnostic.message)

/-- The value as it is written. -/
def finishedText (settings : InputSettings) (value : Json) : Run m String :=
  match settings.filter with
  | none => return value.pretty
  | some text =>
    match Filter.applyText? text value with
    | some outputs => return (Filter.collect outputs).pretty
    | none => throw (.filter text)

/-- Writes a file and makes its directory. -/
def writeFile (fs : FileAccess m) (path text : String) : Run m Unit := do
  orFail .directory (fs.makeDirectories (String.ofList (ModulePath.directory path.toList)))
  orFail (.write path) (fs.write path text)

/-- The name of the file for an entry's document. -/
def outputName (entry : String) : String := (ModulePath.stem? entry).getD "openapi" ++ ".json"

/-- The file that a document goes to, if it goes to one. -/
def destination? (c : DocumentCommand) (entry : String) : Option String :=
  c.out.or (c.outDirectory.map fun directory =>
    String.ofList (ModulePath.append directory.toList (outputName entry).toList))

def emit (fs : FileAccess m) (destination : Option String) (text : String) : Run m Unit :=
  match destination with
  | some path => writeFile fs path text
  | none => sayOut text

/-! ### Commands -/

/-- Whether all documents are complete. -/
def runDocument (fs : FileAccess m) (c : DocumentCommand) : Run m Bool := do
  let loaded ← loadAll fs c.settings
  if c.out.isSome && 1 < loaded.entries.length then
    throw (.severalEntries loaded.entries.length)
  let info := Info.orElse ⟨c.title, c.version, c.description⟩ loaded.config.info
  let documents := documents loaded ⟨info, c.exports⟩
  documents.forM fun d => do
    report d
    emit fs (destination? c d.entry) (← finishedText c.settings d.value)
  return documents.all Document.isComplete

/-- The components with the given names, or all of them. -/
def selected (names : List String) (documents : List Document) : Table String Json :=
  Table.ofList ((documents.flatMap Document.components).filter fun field =>
    names.isEmpty || names.contains field.1)

def runSchema (fs : FileAccess m) (c : SchemaCommand) : Run m Bool := do
  let loaded ← loadAll fs c.settings
  let documents := documents loaded ⟨loaded.config.info, true⟩
  documents.forM report
  let schemas := selected c.names documents
  (c.names.filter fun name => !schemas.has name).forM fun name =>
    sayErr ("warning: no exported codec named `" ++ name ++ "`")
  emit fs c.out (← finishedText c.settings (.object schemas))
  return documents.all Document.isComplete

def isIdle : Command → Bool
  | .document c => c.idle
  | .schema c => c.idle

def runInvocation (fs : FileAccess m) (i : Invocation) : Run m Bool :=
  if isIdle i.command then do
    sayErr (i.display.render 0)
    return true
  else match i.command with
    | .document c => runDocument fs c
    | .schema c => runSchema fs c

/-- Runs arguments. The exit code is zero when all went well, one when documents are not complete,
and two after an error. -/
def run (fs : FileAccess m) (args : List String) : m Outcome := do
  match parse? args with
  | none => return .usage
  | some invocation =>
    match ← ((runInvocation fs invocation).run).run ⟨"", ""⟩ with
    | (.ok complete, console) => return .finished (if complete then 0 else 1) console
    | (.error e, console) =>
      return .finished 2 ⟨console.out, console.err ++ "error: " ++ e.message ++ "\n"⟩

end

end CodecDocs.CommandLine
