import CodecDocs.Schema.Equality

/-! The canonical form of a schema, built from the inside out. Unions are flat, without repetition
and with one plain primitive of each kind; the objects of an intersection are one; an object has no
property that is never there, and one that may be undefined is optional. -/

namespace CodecDocs.Schema

/-- A schema in the place of one with these notes. -/
def inPlaceOf (outer : Notes) (s : Schema) : Schema := s.withNotes (s.notes.under outer)

/-! ### Unions -/

/-- No member is undefined, one member stands for itself. -/
def collapseUnion (members : List Schema) (notes : Notes) : Schema :=
  match members with
  | [] => inPlaceOf notes (.undefined .none)
  | [member] => inPlaceOf notes member
  | _ => .union members notes

/-- The members with those of nested unions in place of them. The notes of a nested union move up
where there are none. -/
def flattenUnion (notes : Notes) : List Schema → Notes × List Schema
  | [] => (notes, [])
  | .union inner innerNotes :: members =>
    let (notes, flat) := flattenUnion (notes.fill innerNotes) members
    (notes, inner ++ flat)
  | member :: members =>
    let (notes, flat) := flattenUnion notes members
    (notes, member :: flat)

/-- The values of two enumerations; without an enumeration all values are in. -/
def mergeValues : Option (List Literal) → Option (List Literal) → Option (List Literal)
  | some values, some more =>
    some (more.foldl (fun acc v => if acc.any v.same then acc else acc ++ [v]) values)
  | _, _ => none

/-- Merges a primitive without notes into the first one of its kind, if there is one. -/
def absorb? (kind : Primitive) (values : Option (List Literal)) : List Schema → Option (List Schema)
  | [] => none
  | member :: members =>
    match member with
    | .primitive k vs n =>
      if k = kind ∧ n.isEmpty then some (.primitive k (mergeValues vs values) n :: members)
      else (absorb? kind values members).map (member :: ·)
    | _ => (absorb? kind values members).map (member :: ·)

def mergeInto (merged : List Schema) (member : Schema) : List Schema :=
  match member with
  | .primitive kind values notes =>
    if notes.isEmpty then (absorb? kind values merged).getD (merged ++ [member])
    else merged ++ [member]
  | _ => merged ++ [member]

/-- One primitive without notes of each kind, at the place of the first. -/
def mergePrimitives (members : List Schema) : List Schema := members.foldl mergeInto []

/-- The first of equal members. -/
def distinct (members : List Schema) : List Schema :=
  members.foldl (fun acc s => if acc.any s.same then acc else acc ++ [s]) []

/-- The union of canonical members. -/
def unionOf (members : List Schema) (notes : Notes) : Schema :=
  let (notes, flat) := flattenUnion notes members
  collapseUnion (distinct (mergePrimitives flat)) notes

/-! ### Intersections -/

/-- The members with those of nested intersections without notes in place of them. -/
def flattenIntersection : List Schema → List Schema
  | [] => []
  | .intersection (first :: inner) notes :: members =>
    if notes.isEmpty then first :: inner ++ flattenIntersection members
    else .intersection (first :: inner) notes :: flattenIntersection members
  | member :: members => member :: flattenIntersection members

/-- Adds the properties and the required names of an object. -/
def mergeObject (parts : Table String Schema × Names) : Schema → Table String Schema × Names
  | .object properties required _ => (parts.1.extend properties, Names.addAll parts.2 required)
  | _ => parts

/-- All objects as one at the place of the first, whose notes it keeps. -/
def foldObjects : List Schema → List Schema
  | [] => []
  | .object properties required notes :: members =>
    let (properties, required) := members.foldl mergeObject (properties, required)
    .object properties required notes :: members.filter fun m => !m.isObject
  | member :: members => member :: foldObjects members

/-- The intersection of canonical members. -/
def intersectionOf (members : List Schema) (notes : Notes) : Schema :=
  match foldObjects (flattenIntersection members) with
  | [member] => inPlaceOf notes member
  | residual => .intersection residual notes

/-! ### Objects -/

/-- Whether a property of this schema may be undefined. -/
def isOptional : Schema → Bool
  | .undefined _ => true
  | .union members _ => members.any isUndefined
  | _ => false

/-- What is left of a property's schema, where something is left. -/
def present? : Schema → Option Schema
  | .undefined _ => none
  | .union members notes =>
    if members.any isUndefined then
      some (collapseUnion (members.filter fun m => !m.isUndefined) notes)
    else some (.union members notes)
  | s => some s

/-- The object of canonical properties. -/
def objectFrom (properties : Table String Schema) (required : Names) (notes : Notes) : Schema :=
  let kept := properties.filterMap fun (name, s) => (present? s).map (name, ·)
  let optional := (properties.filter fun (_, s) => isOptional s).map Prod.fst
  objectOf kept (required.filter fun name => !optional.contains name) notes

/-! ### The whole -/

mutual

def canonical : Schema → Schema
  | .array items notes => .array items.canonical notes
  | .record none codomain notes => .record none codomain.canonical notes
  | .record (some domain) codomain notes =>
    .record (some domain.canonical) codomain.canonical notes
  | .tuple members notes => .tuple (canonicalMembers members) notes
  | .object properties required notes => objectFrom (canonicalFields properties) required notes
  | .union members notes => unionOf (canonicalMembers members) notes
  | .intersection members notes => intersectionOf (canonicalMembers members) notes
  | .primitive kind values notes => .primitive kind values notes
  | .reference name origin notes => .reference name origin notes
  | .any notes => .any notes
  | .undefined notes => .undefined notes

def canonicalMembers : List Schema → List Schema
  | [] => []
  | member :: members => member.canonical :: canonicalMembers members

def canonicalFields : List (String × Schema) → List (String × Schema)
  | [] => []
  | (name, schema) :: fields => (name, schema.canonical) :: canonicalFields fields

end

end CodecDocs.Schema
