import CodecDocs.Config.Basic

/-! Reading of configurations from JSON text. A record may be written as an object or as the array
of its fields. An object must not have other fields or a field twice; what follows the
configuration in the text is not looked at. -/

namespace CodecDocs

open Json (Reader)

namespace Json.Reader

/-- What stands for a missing value, or a value. -/
def optional {α : Type} (read : Reader α) : Reader (Option α) := do
  if (← peekToken) == some 'n' then
    word "null"
    return none
  else return some (← read)

/-- A string that may follow blanks. -/
def text : Reader String := do
  if (← peekToken) == some '"' then string else fail

/-- An object whose fields `field` reads; `start` is what an empty one comes to. -/
def objectOf {α : Type} (start : α) (field : String → α → Reader α) : Reader α := do
  token '\x7b'
  fields field (← rounds) true start

/-- Fails where a field comes for the second time. -/
def once {α : Type} (known : Option α) : Reader Unit :=
  if known.isSome then fail else return

/-- Fails at a field that should not be there. -/
def unexpected {α : Type} (name : String) : Reader α := under (.key name) fail

/-- A choice that is written as an object with one field, the name of which `pick` takes to a
reader of what stands at it. -/
def choice {α : Type} (pick : String → Option (Reader α)) : Reader α := do
  token '\x7b'
  let name ← text
  match pick name with
  | none => fail
  | some read =>
    token ':'
    let result ← under (.key name) read
    token '\x7d'
    return result

end Json.Reader

open Json.Reader

def Primitive.ofName? (name : String) : Option Primitive :=
  [.string, .number, .integer, .boolean, .null].find? fun kind => kind.name = name

namespace FixedSchema

/-- What has been read of a schema's fields. -/
structure Draft where
  kind : Option (Option Primitive)
  values : Option (Option (List Json))
  annotations : Table String Json

/-- A kind by its name alone or as a choice without anything to say. -/
def readKind : Reader Primitive := do
  if (← peekToken) == some '"' then
    match Primitive.ofName? (← string) with
    | some kind => return kind
    | none => fail
  else choice fun name => (Primitive.ofName? name).map fun kind => do
    let nothing ← peekToken
    if nothing ≠ some 'n' then fail
    word "null"
    return kind

/-- So many objects lie around the keywords of a schema. -/
def depth : Nat := 5

def readValues : Reader (List Json) := do
  token '['
  items (value (depthLimit - depth - 1)) (← rounds) 0 []

def readField (name : String) (d : Draft) : Reader Draft :=
  match name with
  | "type" => do
    once d.kind
    let kind ← named name (optional readKind)
    return { d with
      kind := some kind }
  | "enum" => do
    once d.values
    let values ← named name (optional readValues)
    return { d with
      values := some values }
  | _ => do
    let json ← named name (value (depthLimit - depth))
    return { d with
      annotations := d.annotations.insert name json }

def read : Reader FixedSchema := do
  let d ← objectOf ⟨none, none, []⟩ readField
  return ⟨d.kind.join, d.values.join, d.annotations⟩

end FixedSchema

def CombinatorSpec.pick (name : String) : Option (Reader CombinatorSpec) :=
  match name with
  | "schema" => some (CombinatorSpec.schema <$> FixedSchema.read)
  | "alias" => some (CombinatorSpec.alias <$> text)
  | _ => none

/-- A choice; its name alone is not enough. -/
def CombinatorSpec.read : Reader CombinatorSpec := do
  if (← peekToken) == some '"' then
    let name ← string
    if (pick name).isSome then unexpected name else fail
  else choice pick

namespace Info

def fieldNames : List String := ["title", "version", "description"]

def readField (name : String) (d : Table String (Option String)) :
    Reader (Table String (Option String)) := do
  if fieldNames.contains name then
    once (d.get? name)
    return d.insert name (← named name (optional text))
  else unexpected name

/-- All fields in their order. -/
def readArray : Reader Info := do
  token '['
  let some title ← item? (optional text) 0 | fail
  let some version ← item? (optional text) 1 | fail
  let some description ← item? (optional text) 2 | fail
  token ']'
  return ⟨title, version, description⟩

def readObject : Reader Info := do
  let d ← objectOf [] readField
  let get (name : String) : Option String := (Table.get? d name).join
  return ⟨get "title", get "version", get "description"⟩

def read : Reader Info := do
  if (← peekToken) == some '[' then readArray else readObject

end Info

namespace Config

def readCombinators : Reader (Table String (Table String CombinatorSpec)) :=
  objectOf [] fun package all => do
    let specs ← named package (objectOf [] fun name specs => do
      return Table.insert specs name (← named name CombinatorSpec.read))
    return all.insert package specs

structure Draft where
  info : Option Info
  combinators : Option (Table String (Table String CombinatorSpec))

def readField (name : String) (d : Draft) : Reader Draft :=
  match name with
  | "info" => do
    once d.info
    let info ← named name Info.read
    return { d with
      info := some info }
  | "combinators" => do
    once d.combinators
    let combinators ← named name readCombinators
    return { d with
      combinators := some combinators }
  | _ => unexpected name

/-- The fields in their order, of which the last ones may be missing. -/
def readArray : Reader Config := do
  token '['
  let info ← item? Info.read 0
  let combinators ← if info.isSome then item? readCombinators 1 else pure none
  token ']'
  return ⟨info.getD Info.empty, combinators.getD []⟩

def readObject : Reader Config := do
  let d ← objectOf ⟨none, none⟩ readField
  return ⟨d.info.getD Info.empty, d.combinators.getD []⟩

def read : Reader Config := do
  if (← peekToken) == some '[' then readArray else readObject

/-- The configuration that a text begins with. -/
def parse (text : String) : Except ConfigError Config :=
  match read text.toList with
  | .ok (c, _) => .ok c
  | .error path => .error (.json path)

/-- The configuration in a file. -/
def load {m : Type → Type} [Monad m] (fs : FileAccess m) (path : String) :
    m (Except ConfigError Config) := do
  match ← fs.read path with
  | .error cause => return .error (.file path cause)
  | .ok text => return parse text

end Config

end CodecDocs
