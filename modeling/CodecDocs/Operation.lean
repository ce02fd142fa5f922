import CodecDocs.Wire

/-! Operations: what one method of a path takes and answers, and the wire form of that. -/

namespace CodecDocs

inductive ParameterPlace where
  | path | query | header
  deriving DecidableEq

def ParameterPlace.name : ParameterPlace → String
  | .path => "path"
  | .query => "query"
  | .header => "header"

structure Parameter where
  name : String
  place : ParameterPlace
  required : Bool
  schema : Schema

structure Operation where
  path : String
  /-- In lower case. -/
  method : String
  operationId : String
  comment : Option DocComment
  parameters : List Parameter
  body : Option Schema
  /-- Bodies of the answers by their status codes. -/
  responses : Table String Schema

/-- A piece of a path with a parameter's name in braces in place of a colon before it. -/
def Operation.pathPiece : List Char → List Char
  | ':' :: name => '\x7b' :: name ++ ['\x7d']
  | piece => piece

/-- The path of an operation from the path of a route. -/
def Operation.pathOf (path : String) : String :=
  String.ofList (Text.join ['/'] ((Text.split '/' path.toList).map pathPiece))

/-- The usual phrase for a status code. -/
def reasonPhrase : String → String
  | "200" => "OK"
  | "201" => "Created"
  | "202" => "Accepted"
  | "204" => "No Content"
  | "301" => "Moved Permanently"
  | "302" => "Found"
  | "304" => "Not Modified"
  | "400" => "Bad Request"
  | "401" => "Unauthorized"
  | "403" => "Forbidden"
  | "404" => "Not Found"
  | "409" => "Conflict"
  | "422" => "Unprocessable Entity"
  | "429" => "Too Many Requests"
  | "500" => "Internal Server Error"
  | "502" => "Bad Gateway"
  | "503" => "Service Unavailable"
  | _ => "Response"

/-! ### Wire form -/

/-- The description belongs to the parameter and not to its schema. -/
def Parameter.wire (w : Worklist) (p : Parameter) : Json :=
  let schema := p.schema.withNotes ⟨none, p.schema.notes.annotations⟩
  let description := match p.schema.notes.comment.bind DocComment.fullText with
    | some text => [("description", .string text)]
    | none => []
  .object ([("name", .string p.name), ("in", .string p.place.name), ("required", .bool p.required),
    ("schema", Wire.root w schema)] ++ description)

namespace Operation

/-- All schemas that the wire form shows. -/
def schemas (o : Operation) : List Schema :=
  o.parameters.map Parameter.schema ++ o.body.toList ++ o.responses.values

def content (schema : Json) : Json :=
  .object [("application/json", .object [("schema", schema)])]

def commentFields (comment : DocComment) : Table String Json :=
  let part (key : String) (text : Option String) : Table String Json := match text with
    | some text => [(key, .string text)]
    | none => []
  part "summary" comment.summary ++ part "description" comment.description

/-- The values of the tags that group operations. -/
def groups (o : Operation) : List String :=
  ((o.comment.map fun c => c.tagValues "tag").getD []).filter fun t => !t.isEmpty

def bodyFields (w : Worklist) (o : Operation) : Table String Json :=
  match o.body.bind (Wire.schema? w) with
  | some schema => [("requestBody", .object [("content", content schema)])]
  | none => []

def responseWire (w : Worklist) (status : String) (schema : Schema) : Json :=
  .object ([("description", .string (reasonPhrase status))] ++
    match Wire.schema? w schema with
    | some schema => [("content", content schema)]
    | none => [])

def wire (w : Worklist) (o : Operation) : Json :=
  let comments := match o.comment with
    | some comment => commentFields comment
    | none => []
  let groups := if o.groups.isEmpty then [] else [("tags", .array (o.groups.map .string))]
  .object (comments ++ [("operationId", .string o.operationId)] ++ groups ++
    [("parameters", .array (o.parameters.map (Parameter.wire w)))] ++ bodyFields w o ++
    [("responses", .object (o.responses.map fun r => (r.1, responseWire w r.1 r.2)))])

end Operation

end CodecDocs
