import CodecDocs.Fault
import CodecDocs.Project.Basic

/-! Resolution of names: what a name means inside a module, and what a module exports under a name.
Both follow imports and exports from module to module. A search for an export enters no module
twice. -/

namespace CodecDocs

/-- A declaration with the module that makes it. -/
structure Definition where
  name : String
  moduleId : String
  init : Script.Expr
  doc : Option String

inductive Resolved where
  | definition (d : Definition)
  /-- An export of a package. -/
  | external (package name : String)
  /-- All exports of a module or package. -/
  | whole (origin : Origin)

/-- A declaration that gives its name a value. -/
def SourceModule.definition (m : SourceModule) (d : Script.Declaration) : Except Fault Definition :=
  match d.init with
  | some init => .ok ⟨d.name, m.id, init, d.doc⟩
  | none => .error (.unsupported (.uninitialized d.name) none)

namespace Project

def find (p : Project) (id : String) : Except Fault SourceModule :=
  match p.module? id with
  | some m => .ok m
  | none => .error (.unresolvedImport id id none)

/-- The result of a search and the modules that it has entered. -/
abbrev Search := Except Fault Resolved × List String

/-- Searches the modules among the links in their order, until one answers otherwise than that the
name is unknown. -/
def searchStars (ask : String → List String → Search) :
    List Link → List String → Option (Except Fault Resolved) × List String
  | [], entered => (none, entered)
  | .toModule id :: links, entered =>
    match ask id entered with
    | (.error (.unknownIdentifier ..), entered) => searchStars ask links entered
    | (result, entered) => (some result, entered)
  | _ :: links, entered => searchStars ask links entered

/-- The first package among links. -/
def firstPackage? : List Link → Option String
  | [] => none
  | .toPackage name :: _ => some name
  | _ :: links => firstPackage? links

mutual

/-- What a name means inside a module: what is declared there, or else what is imported. -/
def nameWithin (p : Project) : Nat → String → String → Except Fault Resolved
  | 0, _, _ => .error .exhausted
  | steps + 1, name, id =>
    match p.find id with
    | .error e => .error e
    | .ok m =>
      match m.declarations.get? name with
      | some d => (m.definition d).map .definition
      | none =>
        match m.imports.get? name with
        | none => .error (.unknownIdentifier name id none)
        | some ⟨.toModule target, .named imported⟩ => (exportWithin p steps target imported []).1
        | some ⟨.toModule target, .default⟩ => (exportWithin p steps target "default" []).1
        | some ⟨.toModule target, .star⟩ => .ok (.whole (.source target))
        | some ⟨.toPackage package, .named imported⟩ => .ok (.external package imported)
        | some ⟨.toPackage package, .default⟩ => .ok (.external package "default")
        | some ⟨.toPackage package, .star⟩ => .ok (.whole (.package package))
        | some ⟨.missing specifier, _⟩ => .error (.unresolvedImport specifier m.id none)

/-- What a module exports under a name, when the modules `entered` are already searched. A module
does not pass on another one's default export by exporting all of it. -/
def exportWithin (p : Project) : Nat → String → String → List String → Search
  | 0, _, _, entered => (.error .exhausted, entered)
  | steps + 1, id, name, entered =>
    let unknown : Except Fault Resolved := .error (.unknownIdentifier name id none)
    if entered.contains id then (unknown, entered)
    else
      let entered := id :: entered
      match p.find id with
      | .error e => (.error e, entered)
      | .ok m =>
        match m.exports.get? name with
        | some (.own inner) => (nameWithin p steps inner id, entered)
        | some (.again (.toModule target) other) => exportWithin p steps target other entered
        | some (.again (.toPackage package) other) => (.ok (.external package other), entered)
        | some (.again (.missing specifier) _) =>
          (.error (.unresolvedImport specifier m.id none), entered)
        | some (.star (.toModule target)) => (.ok (.whole (.source target)), entered)
        | some (.star (.toPackage package)) => (.ok (.whole (.package package)), entered)
        | some (.star (.missing specifier)) =>
          (.error (.unresolvedImport specifier m.id none), entered)
        | none =>
          if name = "default" then (unknown, entered)
          else
            match searchStars (fun target => exportWithin p steps target name) m.stars entered with
            | (some result, entered) => (result, entered)
            | (none, entered) =>
              match firstPackage? m.stars with
              | some package => (.ok (.external package name), entered)
              | none => (unknown, entered)

end

/-- Imports lead on at most once each, and between two of them each module is entered once. -/
def stepBound (p : Project) : Nat :=
  let imports := p.modules.foldl (fun n ⟨_, m⟩ => n + m.imports.length) 0
  (imports + 1) * (p.modules.length + 2) + 1

/-- What a name means inside a module. -/
def resolve (p : Project) (name id : String) : Except Fault Resolved :=
  p.nameWithin p.stepBound name id

/-- What a module exports under a name. -/
def resolveExport (p : Project) (id name : String) : Except Fault Resolved :=
  (p.exportWithin p.stepBound id name []).1

/-- A member of a namespace as it is seen inside a module. -/
def resolveMember (p : Project) (owner name id : String) : Except Fault Resolved :=
  match p.resolve owner id with
  | .error e => .error e
  | .ok (.whole (.source target)) => p.resolveExport target name
  | .ok (.whole (.package package)) => .ok (.external package name)
  | .ok _ => .error (.unsupported (.memberOfNonNamespace name owner) none)

/-- The definitions that a module makes and exports, in the order of the exports. -/
def exportedDefinitions (p : Project) (id : String) : List Definition :=
  match p.module? id with
  | none => []
  | some m => m.exports.filterMap fun (_, entry) =>
    match entry with
    | .own name => (m.declarations.get? name).bind fun d => (m.definition d).toOption
    | _ => none

end Project

end CodecDocs
