import CodecDocs.Route

/-! OpenAPI documents. The routes that an entry module exports, and its other exports where they are
asked for, are the roots; every name that they reach becomes a component, and it is expanded once.
Failures of routes and components are reported beside the document. -/

namespace CodecDocs

structure Info where
  title : Option String
  version : Option String
  description : Option String
  deriving DecidableEq

namespace Info

def empty : Info := ⟨none, none, none⟩

/-- The first information, completed by the second. -/
def orElse (first second : Info) : Info :=
  ⟨first.title.or second.title, first.version.or second.version,
    first.description.or second.description⟩

/-- The entry's name is the title where none is given. -/
def wire (info : Info) (entry : String) : Json :=
  .object ([("title", .string (info.title.getD entry)),
    ("version", .string (info.version.getD "0.0.0"))] ++
    match info.description with
    | some text => [("description", .string text)]
    | none => [])

end Info

/-- What became of a name: a component under the name's token, or a failure. -/
structure Expansion where
  target : Target
  token : String
  outcome : Except Fault Schema

structure Diagnostic where
  root : String
  fault : Fault

def Diagnostic.message (d : Diagnostic) : String := d.root ++ ": " ++ d.fault.message

structure DocumentOptions where
  info : Info
  /-- Whether the other exports of the entry are components. -/
  exports : Bool

/-- What a document is made from: the routes, the names with their tokens and what became of them. -/
structure Survey where
  routes : List Route
  worklist : Worklist
  expansions : List Expansion

structure Document where
  entry : String
  value : Json
  diagnostics : List Diagnostic

def Document.isComplete (d : Document) : Bool := d.diagnostics.isEmpty

/-- The components as they are written. -/
def Document.components (d : Document) : Table String Json :=
  match (d.value.get? "components").bind fun components => components.get? "schemas" with
  | some (.object fields) => fields
  | _ => []

/-! ### Roots -/

/-- Whether a definition is a specification: a call of something named `apiSpec`. -/
def Definition.isSpec (d : Definition) : Bool :=
  match d.init with
  | .call (.ident name _) _ _ => name = "apiSpec"
  | .call (.member _ property _) _ _ => property = "apiSpec"
  | _ => false

def Definition.target (d : Definition) : Target := (d.name, .source d.moduleId)

namespace Route

def operations (routes : List Route) : List Operation :=
  routes.filterMap fun r => match r.outcome with
    | .ok operation => operation
    | .error _ => none

def diagnostics (routes : List Route) : List Diagnostic :=
  routes.filterMap fun r => match r.outcome with
    | .ok _ => none
    | .error fault => some ⟨r.key, fault⟩

end Route

namespace Expansion

def components (expansions : List Expansion) : Table String Schema :=
  expansions.filterMap fun e => match e.outcome with
    | .ok schema => some (e.token, schema)
    | .error _ => none

def diagnostics (expansions : List Expansion) : List Diagnostic :=
  expansions.filterMap fun e => match e.outcome with
    | .ok _ => none
    | .error fault => some ⟨e.token, fault⟩

end Expansion

namespace Setting

variable (s : Setting)

/-- The routes of a definition that is a specification. -/
def specRoutes (d : Definition) : StateM Session (List Route) := do
  let outcome ← Eval.outcome do s.routes (← s.evaluate d.init d.moduleId)
  match outcome with
  | .ok routes => return routes
  | .error fault => return [⟨d.name, .error fault⟩]

/-- The names where expansion starts. -/
def roots (options : DocumentOptions) (entry : String) (operations : List Operation) : Worklist :=
  let exported := (s.project.exportedDefinitions entry).filter fun d => !d.isSpec
  let start := if options.exports then Worklist.empty.visitTargets (exported.map Definition.target)
    else Worklist.empty
  operations.foldl (fun w o => o.schemas.foldl Worklist.visitAll w) start

/-! ### Components -/

/-- The canonical schema of a name with its documentation. -/
def component (target : Target) : Eval Schema := do
  let (schema, doc) ← s.expand target.1 target.2
  return (schema.withComment doc).canonical

/-- Expands the names that wait, and the new ones that these refer to, up to a number of names. -/
def drain : Nat → Worklist → StateM Session (Worklist × List Expansion)
  | 0, w => return (w, [])
  | limit + 1, w =>
    match w.takeNext with
    | none => return (w, [])
    | some (target, w) => do
      let outcome ← (s.component target).outcome
      let next := match outcome with
        | .ok schema => w.visitAll schema
        | .error _ => w
      let (last, expansions) ← drain limit next
      return (last, ⟨target, (w.token? target).getD target.1, outcome⟩ :: expansions)

/-- The routes of an entry module and the names that it reaches, up to a number of names. -/
def survey (limit : Nat) (options : DocumentOptions) (entry : String) : StateM Session Survey := do
  let specs := (s.project.exportedDefinitions entry).filter Definition.isSpec
  let routes := (← specs.mapM s.specRoutes).flatten
  let (w, expansions) ← s.drain limit (s.roots options entry (Route.operations routes))
  return ⟨routes, w, expansions⟩

/-- No document has more names than this. -/
def nameLimit : Nat := twoTo 32

end Setting

/-! ### The whole -/

namespace Survey

variable (v : Survey)

def operations : List Operation := Route.operations v.routes

/-- The wire forms by path and method. -/
def paths : Table String (Table String Json) :=
  v.operations.foldl (fun paths o =>
    paths.insert o.path (Table.insert ((paths.get? o.path).getD []) o.method (o.wire v.worklist))) []

/-- The components in the order of their tokens. -/
def components : Table String Schema :=
  (Expansion.components v.expansions).mergeSort fun a b => decide (a.1 ≤ b.1)

def value (info : Json) : Json :=
  let paths := v.paths.map fun p => (p.1, Json.object p.2)
  let schemas := v.components.map fun c => (c.1, Wire.root v.worklist c.2)
  .object [("openapi", .string "3.0.3"), ("info", info), ("paths", .object paths),
    ("components", .object [("schemas", .object schemas)])]

def document (info : Json) (entry : String) : Document :=
  ⟨entry, v.value info, Route.diagnostics v.routes ++ Expansion.diagnostics v.expansions⟩

end Survey

/-- The document of an entry module. -/
def Setting.document (s : Setting) (options : DocumentOptions) (entry : String) :
    StateM Session Document := do
  return (← s.survey nameLimit options entry).document (options.info.wire entry) entry

end CodecDocs
