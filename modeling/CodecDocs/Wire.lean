import CodecDocs.Json.Reader
import CodecDocs.Worklist

/-! The wire form of schemas: OpenAPI schema objects. References go by the tokens of a worklist. A
schema that no value needs to meet, such as `undefined`, has no wire form, and the slot for it is
left out. -/

namespace CodecDocs.Wire

def referenceText (token : String) : String := "#/components/schemas/" ++ token

/-! ### Notes -/

/-- How the value of a documentation tag is read. -/
inductive TagReading where
  | text
  /-- JSON where it can be read as that, text otherwise. -/
  | json
  | number
  | flag

/-- Documentation tags that become keywords. -/
def tagKeywords : List (String × TagReading) :=
  [("title", .text), ("example", .json), ("default", .json), ("format", .text), ("pattern", .text),
    ("minLength", .number), ("maxLength", .number), ("minimum", .number), ("maximum", .number),
    ("minItems", .number), ("maxItems", .number), ("deprecated", .flag), ("readOnly", .flag),
    ("writeOnly", .flag)]

/-- The keyword's value; a number that cannot be read has none. -/
def TagReading.read : TagReading → String → Option Json
  | .text, raw => some (.string raw)
  | .json, raw => some ((Json.parse? raw).getD (.string raw))
  | .number, raw =>
    match Numeral.int64? raw.toList with
    | some n => some (.int n)
    | none => (Numeral.float? raw.toList).map .float
  | .flag, raw => some (.bool (raw ≠ "false"))

/-- The keywords of a comment. -/
def commentFields (comment : DocComment) : Table String Json :=
  let description := match comment.fullText with
    | some text => [("description", .string text)]
    | none => []
  description ++ tagKeywords.filterMap fun (tag, reading) =>
    ((comment.tag? tag).bind reading.read).map (tag, ·)

/-- Adds the comment's keywords and then the annotations, which win. -/
def applyNotes (fields : Table String Json) (notes : Notes) : Table String Json :=
  let described := match notes.comment with
    | some comment => fields.extend (commentFields comment)
    | none => fields
  described.extend notes.annotations

/-- What stands beside a reference does not count, so a reference with notes goes into a list. -/
def wrapReference (fields : Table String Json) (notes : Notes) : Table String Json :=
  if notes.isEmpty || !fields.has "$ref" then fields
  else [("allOf", .array [.object fields])]

/-! ### Schemas -/

/-- The wire form of a union or an intersection from those of its members. -/
def combined (keyword : String) (members : List (Table String Json)) (notes : Notes) :
    Option (Table String Json) :=
  match members with
  | [] => none
  | [single] => some (wrapReference single notes)
  | _ => some [(keyword, .array (members.map .object))]

/-- The wire form of a tuple from those of its members; trailing members without one are optional. -/
def tupleFields (members : List (Option (Table String Json))) : Table String Json :=
  let present := members.filterMap id
  let needed := (members.reverse.dropWhile Option.isNone).length
  let items := match present with
    | [] => []
    | [single] => [("items", .object single)]
    | _ => [("items", .object [("oneOf", .array (present.map .object))])]
  [("type", .string "array")] ++ items ++
    [("minItems", .nat needed), ("maxItems", .nat members.length)]

def objectFields (properties : Table String Json) (required : Names) : Table String Json :=
  let needed := required.filter properties.has
  [("type", .string "object"), ("properties", .object properties)] ++
    if needed.isEmpty then [] else [("required", .array (needed.map .string))]

def primitiveFields (kind : Primitive) (values : Option (List Literal)) : Table String Json :=
  [("type", .string kind.name)] ++ match values with
    | some values => [("enum", .array (values.map Literal.toJson))]
    | none => []

/-- A reference, wrapped when it carries notes. -/
def referenceFields (token : String) (notes : Notes) : Table String Json :=
  wrapReference [("$ref", .string (referenceText token))] notes

mutual

/-- The keywords of a schema's wire form, if it has one. -/
def schemaFields (w : Worklist) : Schema → Option (Table String Json)
  | .reference name origin notes =>
    let token := (w.token? (name, origin)).getD name
    let fields := referenceFields token notes
    some (applyNotes fields notes)
  | .primitive kind values notes => some (applyNotes (primitiveFields kind values) notes)
  | .object properties required notes =>
    some (applyNotes (objectFields (propertyFields w properties) required) notes)
  | .array items notes =>
    (schemaFields w items).map fun items =>
      applyNotes [("type", .string "array"), ("items", .object items)] notes
  | .tuple members notes => some (applyNotes (tupleFields (memberFields w members)) notes)
  | .union members notes =>
    (combined "oneOf" ((memberFields w members).filterMap id) notes).map (applyNotes · notes)
  | .intersection members notes =>
    (combined "allOf" ((memberFields w members).filterMap id) notes).map (applyNotes · notes)
  | .record _ codomain notes =>
    (schemaFields w codomain).map fun codomain =>
      applyNotes [("type", .string "object"), ("additionalProperties", .object codomain)] notes
  | .any notes => some (applyNotes [] notes)
  | .undefined _ => none

def memberFields (w : Worklist) : List Schema → List (Option (Table String Json))
  | [] => []
  | member :: members => schemaFields w member :: memberFields w members

def propertyFields (w : Worklist) : List (String × Schema) → Table String Json
  | [] => []
  | (name, schema) :: rest =>
    match schemaFields w schema with
    | some fields => (name, .object fields) :: propertyFields w rest
    | none => propertyFields w rest

end

/-- The wire form of a schema, if it has one. -/
def schema? (w : Worklist) (s : Schema) : Option Json := (schemaFields w s).map .object

/-- The wire form where one must stand. -/
def root (w : Worklist) (s : Schema) : Json := (schema? w s).getD (.object [])

end CodecDocs.Wire
