import CodecDocs.Files.Access
import CodecDocs.Schema.Basic
import CodecDocs.Script.ItemParser

/-! Projects: the modules of a source tree with their symbol tables. A specifier links a module to
another one of the project, to a package, or to nothing. -/

namespace CodecDocs

/-- What a specifier leads to. -/
inductive Link where
  | toModule (moduleId : String)
  | toPackage (name : String)
  /-- A relative specifier that no module of the project answers to. -/
  | missing (specifier : String)
  deriving DecidableEq

/-- What an imported name stands for in the module it comes from. -/
inductive ImportedName where
  | named (name : String)
  | default
  | star
  deriving DecidableEq

structure ImportEntry where
  link : Link
  imported : ImportedName
  deriving DecidableEq

inductive ExportEntry where
  /-- A name as it is seen inside the module. -/
  | own (name : String)
  | again (link : Link) (name : String)
  /-- All of another module under one name. -/
  | star (link : Link)
  deriving DecidableEq

/-- A module with what its names stand for. -/
structure SourceModule where
  id : String
  source : String
  items : List Script.Item
  /-- The last declaration of each name. -/
  declarations : Table String Script.Declaration
  imports : Table String ImportEntry
  exports : Table String ExportEntry
  /-- The modules all of whose exports are exported again. -/
  stars : List Link

structure Project where
  modules : Table String SourceModule

/-! ### Links -/

def Link.ofSpecifier (known : List String) (moduleId specifier : String) : Link :=
  if ModulePath.isRelative specifier then
    match (ModulePath.candidates moduleId specifier).find? known.contains with
    | some found => .toModule found
    | none => .missing specifier
  else .toPackage specifier

/-! ### Symbol tables -/

namespace SourceModule

def importedName : Script.Binding → ImportedName
  | .default _ => .default
  | .star _ => .star
  | .named imported _ => .named imported

/-- Enters an item into the tables; `link` leads from specifiers to modules. -/
def enter (link : String → Link) (m : SourceModule) : Script.Item → SourceModule
  | .declares d =>
    { m with
      declarations := m.declarations.insert d.name d
      exports := if d.exported then m.exports.insert d.name (.own d.name) else m.exports }
  | .imports source bindings =>
    { m with
      imports := bindings.foldl
        (fun acc b => acc.insert b.name ⟨link source, importedName b⟩) m.imports }
  | .exports names none =>
    { m with
      exports := names.foldl (fun acc ⟨name, exported⟩ => acc.insert exported (.own name))
        m.exports }
  | .exports names (some source) =>
    { m with
      exports := names.foldl
        (fun acc ⟨name, exported⟩ => acc.insert exported (.again (link source) name)) m.exports }
  | .exportsAll source none => { m with stars := m.stars ++ [link source] }
  | .exportsAll source (some name) =>
    { m with exports := m.exports.insert name (.star (link source)) }

/-- A module of a project whose modules have the ids `known`. -/
def build (known : List String) (id source : String) (items : List Script.Item) : SourceModule :=
  items.foldl (enter (Link.ofSpecifier known id)) ⟨id, source, items, [], [], [], []⟩

end SourceModule

/-! ### Assembly -/

/-- A module's id, its text and its items. -/
abbrev ParsedModule := String × String × List Script.Item

namespace Project

/-- The project of parsed modules; of two with one id the later one counts. -/
def assemble (parsed : List ParsedModule) : Project :=
  let known := parsed.map Prod.fst
  ⟨Table.ofList (parsed.map fun (id, source, items) =>
    (id, SourceModule.build known id source items))⟩

def module? (p : Project) (id : String) : Option SourceModule := p.modules.get? id

def moduleIds (p : Project) : List String := p.modules.keys

/-- The text of a module between two bytes. -/
def sourceText? (p : Project) (id : String) (start stop : Nat) : Option String :=
  (p.module? id).bind fun m => (Text.slice m.source.toList start stop).map String.ofList

end Project

/-! ### Failures of loading -/

inductive LoadError where
  | file (path : String) (cause : FileFault)
  | source (path : String) (cause : Script.SourceError)
  /-- More paths were to be followed than loading follows. -/
  | tooMany
  deriving DecidableEq

def LoadError.message : LoadError → String
  | .file path cause => "failed to read " ++ path ++ ": " ++ cause.message
  | .source path cause => path ++ ": " ++ cause.message
  | .tooMany => "too many modules"

/-- A module from its path and its text. -/
def parseModule (path source : String) : Except LoadError ParsedModule :=
  let id := ModulePath.moduleId path
  match Script.parse source with
  | .ok items => .ok (id, source, items)
  | .error e => .error (.source id e)

/-- The project of the given texts, which link only among themselves. -/
def Project.ofSources (sources : List (String × String)) : Except LoadError Project := do
  return assemble (← sources.mapM fun (path, source) => parseModule path source)

end CodecDocs
