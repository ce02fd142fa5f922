import CodecDocs.Evaluation.Expansion
import CodecDocs.Operation
import CodecDocs.Schema.Canonical

/-! Routes of an API: the methods of each entry of a specification, read as operations. Each route
succeeds or fails by itself. -/

namespace CodecDocs

structure Route where
  /-- The entry's name and the method's. -/
  key : String
  /-- Private routes have no operation. -/
  outcome : Except Fault (Option Operation)

namespace Route

def misuse {α : Type} (label : String) (what : Misuse) : Eval α :=
  throw (Fault.malformed label what none)

/-- The text that is the only value of a schema. -/
def text? : Schema → Option String
  | .primitive _ (some [.string text]) _ => some text
  | _ => none

def textProperty (properties : Table String Schema) (key : String) : Eval String :=
  match (properties.get? key).bind text? with
  | some text => return text
  | none => misuse "httpRoute" (.notStringLiteral key)

/-- The id that the documentation gives to an operation, or else its key. -/
def operationId (comment : Option DocComment) (key : String) : String :=
  ((comment.bind fun c => c.tag? "operationId").filter fun id => !id.isEmpty).getD key

def isPrivate (comment : Option DocComment) : Bool := comment.any fun c => c.hasTag "private"

/-- The parts of a request that hold parameters. -/
def parameterParts : List (String × ParameterPlace) :=
  [("params", .path), ("query", .query), ("headers", .header)]

def ofProperty (place : ParameterPlace) (required : Names) : String × Schema → Parameter
  | (name, schema) => ⟨name, place, place = .path || required.contains name, schema⟩

end Route

namespace Setting

open Route

variable (s : Setting)

/-- The schema that a route stands for and its documentation: that at the place of use, that of the
definition or that of the schema, whichever is there first. -/
def derefDocumented (schema : Schema) : Eval (Schema × Option DocComment) :=
  match schema with
  | .reference name origin notes => do
    let (expanded, declared) ← s.expand name origin
    let found ← s.deref expanded
    return (found, (notes.comment.or declared).or found.notes.comment)
  | _ => return (schema, schema.notes.comment)

/-- The parameters in one part of a request; those of a path are always required. -/
def parameters (parts : Table String Schema) (part : String × ParameterPlace) :
    Eval (List Parameter) :=
  match parts.get? part.1 with
  | none => return []
  | some schema => do
    match (← s.deref schema).canonical with
    | .object properties required _ => return properties.map (ofProperty part.2 required)
    | other => misuse "httpRequest" (.parametersNotObject other.kindName)

def request (properties : Table String Schema) : Eval (List Parameter × Option Schema) :=
  match properties.get? "request" with
  | none => return ([], none)
  | some schema => do
    match ← s.deref schema with
    | .object parts _ _ =>
      return ((← parameterParts.mapM (s.parameters parts)).flatten,
        (Table.get? parts "body").map Schema.canonical)
    | _ => misuse "httpRequest" .requestNotObject

def responses (properties : Table String Schema) : Eval (Table String Schema) :=
  match properties.get? "response" with
  | none => return []
  | some schema => do
    match ← s.deref schema with
    | .object byStatus _ _ => return byStatus.map fun ⟨status, schema⟩ => (status, schema.canonical)
    | _ => misuse "httpRoute" .responseNotObject

/-- The operation of a route, unless the route is private. -/
def operation? (key : String) (route : Schema) : Eval (Option Operation) := do
  let (route, comment) ← s.derefDocumented route
  if isPrivate comment then return none
  match route with
  | .object properties _ _ =>
    let path ← textProperty properties "path"
    let method ← textProperty properties "method"
    let (parameters, body) ← s.request properties
    let responses ← s.responses properties
    return some ⟨Operation.pathOf path, method.toLower, operationId comment key, comment,
      parameters, body, responses⟩
  | _ => misuse "httpRoute" .routeNotObject

/-- The routes of one entry of a specification. -/
def entryRoutes (key : String) (entry : Schema) : StateM Session (List Route) := do
  match ← (s.deref entry).outcome with
  | .error e => return [⟨key, .error e⟩]
  | .ok (.object methods _ _) =>
    methods.mapM fun ⟨method, route⟩ => do
      return ⟨key ++ "." ++ method, ← (s.operation? key route).outcome⟩
  | .ok _ => return [⟨key, .error (.malformed "apiSpec" .entryNotObject none)⟩]

/-- The routes of a specification. -/
def routes (spec : Schema) : Eval (List Route) := do
  match ← s.deref spec with
  | .object entries _ _ =>
    return (← entries.mapM fun ⟨key, entry⟩ => ExceptT.lift (s.entryRoutes key entry)).flatten
  | other => misuse "apiSpec" (.specNotObject other.kindName)

end Setting

end CodecDocs
