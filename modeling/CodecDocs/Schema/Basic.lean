import CodecDocs.DocComment
import CodecDocs.Json.Basic

/-! Schemas of values: what a codec accepts, with notes that only the wire form reads. -/

namespace CodecDocs

inductive Primitive where
  | string | number | integer | boolean | null
  deriving DecidableEq

def Primitive.name : Primitive → String
  | .string => "string"
  | .number => "number"
  | .integer => "integer"
  | .boolean => "boolean"
  | .null => "null"

/-- One value of an enumeration. -/
inductive Literal where
  | string (value : String)
  | number (value : Binary64)
  | boolean (value : Bool)
  | null
  deriving DecidableEq

namespace Literal

def primitive : Literal → Primitive
  | .string _ => .string
  | .number _ => .number
  | .boolean _ => .boolean
  | .null => .null

def same : Literal → Literal → Bool
  | .string s, .string t => s == t
  | .number x, .number y => x.same y
  | .boolean a, .boolean b => a == b
  | .null, .null => true
  | _, _ => false

/-- Whole numbers are written as integers where that is exact. -/
def toJson : Literal → Json
  | .string value => .string value
  | .number x => if x.isInteger && x.wholePart < twoTo 53 then .int x.toInt64 else .float x
  | .boolean value => .bool value
  | .null => .null

end Literal

/-- Where a name is defined: in a module of the project, or in a package outside of it. -/
inductive Origin where
  | source (moduleId : String)
  | package (name : String)
  deriving DecidableEq

def Origin.text : Origin → String
  | .source moduleId => moduleId
  | .package name => "package `" ++ name ++ "`"

/-- A documentation comment and keywords to be passed on. -/
structure Notes where
  comment : Option DocComment
  annotations : Table String Json
  deriving Inhabited

namespace Notes

def none : Notes := ⟨.none, []⟩

def isEmpty (n : Notes) : Bool := n.comment.isNone && n.annotations.isEmpty

def same (n m : Notes) : Bool := n.comment == m.comment &&
  (n.annotations.length == m.annotations.length && Json.sameFields n.annotations m.annotations)

/-- Fills what is still missing from the notes of a nested schema. -/
def fill (outer inner : Notes) : Notes :=
  ⟨outer.comment.or inner.comment, Table.fill outer.annotations inner.annotations⟩

/-- The notes of a schema that takes the place of another: those of the other one win. -/
def under (inner outer : Notes) : Notes :=
  ⟨outer.comment.or inner.comment, Table.extend inner.annotations outer.annotations⟩

end Notes

inductive Schema where
  | primitive (kind : Primitive) (values : Option (List Literal)) (notes : Notes)
  | array (items : Schema) (notes : Notes)
  /-- Properties in the order of their declaration, and the names of those that must be there. -/
  | object (properties : List (String × Schema)) (required : List String) (notes : Notes)
  | record (domain : Option Schema) (codomain : Schema) (notes : Notes)
  | union (members : List Schema) (notes : Notes)
  | intersection (members : List Schema) (notes : Notes)
  | tuple (members : List Schema) (notes : Notes)
  | reference (name : String) (origin : Origin) (notes : Notes)
  | any (notes : Notes)
  | undefined (notes : Notes)
  deriving Inhabited

namespace Schema

def notes : Schema → Notes
  | .primitive _ _ n | .array _ n | .object _ _ n | .record _ _ n | .union _ n | .intersection _ n
  | .tuple _ n | .reference _ _ n | .any n | .undefined n => n

def withNotes (n : Notes) : Schema → Schema
  | .primitive kind values _ => .primitive kind values n
  | .array items _ => .array items n
  | .object properties required _ => .object properties required n
  | .record domain codomain _ => .record domain codomain n
  | .union members _ => .union members n
  | .intersection members _ => .intersection members n
  | .tuple members _ => .tuple members n
  | .reference name origin _ => .reference name origin n
  | .any _ => .any n
  | .undefined _ => .undefined n

/-- A comment replaces the one that is there. -/
def withComment (comment : Option DocComment) (s : Schema) : Schema :=
  s.withNotes ⟨comment.or s.notes.comment, s.notes.annotations⟩

def annotated (s : Schema) (key : String) (value : Json) : Schema :=
  s.withNotes ⟨s.notes.comment, s.notes.annotations.insert key value⟩

/-! ### Schemas without notes -/

def ofPrimitive (kind : Primitive) : Schema := .primitive kind none .none

def enumeration (kind : Primitive) (values : List Literal) : Schema :=
  .primitive kind (some values) .none

/-- The schema of exactly one value. -/
def literal (value : Literal) : Schema := enumeration value.primitive [value]

/-- An object without the required names that no property bears. -/
def objectOf (properties : Table String Schema) (required : Names) (notes : Notes) : Schema :=
  .object properties (required.filter properties.has) notes

/-- An object all of whose properties are required. -/
def closedObject (properties : Table String Schema) (notes : Notes) : Schema :=
  .object properties properties.keys notes

def refer (name : String) (origin : Origin) : Schema := .reference name origin .none

/-! ### Views -/

def isUndefined : Schema → Bool
  | .undefined _ => true
  | _ => false

def isObject : Schema → Bool
  | .object .. => true
  | _ => false

/-- The kind of a schema as messages name it. -/
def kindName : Schema → String
  | .primitive .. => "primitive"
  | .array .. => "array"
  | .object .. => "object"
  | .record .. => "record"
  | .union .. => "union"
  | .intersection .. => "intersection"
  | .tuple .. => "tuple"
  | .reference .. => "reference"
  | .any _ => "any"
  | .undefined _ => "undefined"

mutual

/-- The names that a schema refers to, in the order in which they stand in it. -/
def references : Schema → List (String × Origin)
  | .reference name origin _ => [(name, origin)]
  | .array items _ => items.references
  | .object properties _ _ => fieldReferences properties
  | .record none codomain _ => codomain.references
  | .record (some domain) codomain _ => domain.references ++ codomain.references
  | .union members _ | .intersection members _ | .tuple members _ => memberReferences members
  | .primitive .. | .any _ | .undefined _ => []

def memberReferences : List Schema → List (String × Origin)
  | [] => []
  | member :: members => member.references ++ memberReferences members

def fieldReferences : List (String × Schema) → List (String × Origin)
  | [] => []
  | (_, schema) :: fields => schema.references ++ fieldReferences fields

end

end Schema

end CodecDocs
