import CodecDocs.Document
import CodecDocs.Json.Printer
import CodecDocs.Json.Reader

/-! Configurations: information for documents and further combinators. A combinator is given by a
schema or as another name of one that is registered. Schemas are registered before names, so that a
name may stand for a schema of the same configuration. -/

namespace CodecDocs

/-- The schema of a combinator that takes no arguments. -/
structure FixedSchema where
  /-- Where there is none, all values are meant. -/
  kind : Option Primitive
  values : Option (List Json)
  /-- The other keywords, which are passed on. -/
  annotations : Table String Json

inductive CombinatorSpec where
  | schema (fixed : FixedSchema)
  /-- A package and a name with a `#` between them. -/
  | alias (target : String)

structure Config where
  info : Info
  /-- Combinators by package and by name. -/
  combinators : Table String (Table String CombinatorSpec)

/-- Why a combinator is refused. -/
inductive Refusal where
  | untypedEnum
  | notScalar (value : Json)
  | notQualified (target : String)
  | unregistered (package name : String)

def Refusal.message : Refusal → String
  | .untypedEnum => "`enum` needs a `type`"
  | .notScalar value => "enum values must be scalars, got " ++ value.compact
  | .notQualified target => "alias `" ++ target ++ "` is not of the form `module#name`"
  | .unregistered package name =>
    "no combinator `" ++ name ++ "` registered for module `" ++ package ++ "`"

inductive ConfigError where
  | file (path : String) (cause : FileFault)
  | json (path : Json.Path)
  | combinator (package name : String) (cause : Refusal)

def ConfigError.message : ConfigError → String
  | .file path cause => "failed to read " ++ path ++ ": " ++ cause.message
  | .json path => "at JSON path " ++ path.text ++ " → unexpected input"
  | .combinator package name cause =>
    "combinator `" ++ package ++ "#" ++ name ++ "`: " ++ cause.message

namespace FixedSchema

def literal : Json → Except Refusal Literal
  | .string s => .ok (.string s)
  | .bool b => .ok (.boolean b)
  | .null => .ok .null
  | .number n => .ok (.number n.toBinary64)
  | value => .error (.notScalar value)

def schema (f : FixedSchema) : Except Refusal Schema :=
  let notes : Notes := ⟨none, f.annotations⟩
  match f.kind, f.values with
  | none, none => .ok (.any notes)
  | none, some _ => .error .untypedEnum
  | some kind, none => .ok (.primitive kind none notes)
  | some kind, some values => do return .primitive kind (some (← values.mapM literal)) notes

end FixedSchema

/-- The text before the last `#` and the text after it. -/
def qualified? (target : String) : Option (String × String) :=
  let backwards := target.toList.reverse
  match backwards.dropWhile (· ≠ '#') with
  | [] => none
  | _ :: package =>
    some (String.ofList package.reverse, String.ofList (backwards.takeWhile (· ≠ '#')).reverse)

namespace Config

def empty : Config := ⟨Info.empty, []⟩

/-- A combinator of a configuration with its package and its name. -/
abbrev Entry := (String × String) × CombinatorSpec

def entries (c : Config) : List Entry :=
  c.combinators.flatMap fun ⟨package, specs⟩ => specs.map fun ⟨name, spec⟩ => ((package, name), spec)

/-- Registers an entry that is a schema. -/
def addSchema (r : Registry) : Entry → Except Refusal Registry
  | ((package, name), .schema fixed) =>
    fixed.schema.map fun schema => r.register package name (.fixed schema)
  | (_, .alias _) => .ok r

/-- Registers an entry that is another name. -/
def addAlias (r : Registry) : Entry → Except Refusal Registry
  | (_, .schema _) => .ok r
  | ((package, name), .alias target) =>
    match qualified? target with
    | none => .error (.notQualified target)
    | some (targetPackage, targetName) =>
      match r.alias? package name targetPackage targetName with
      | some r => .ok r
      | none => .error (.unregistered targetPackage targetName)

/-- Adds entries in their order, up to the first one that is refused. -/
def addEach (add : Registry → Entry → Except Refusal Registry) :
    List Entry → Registry → Registry × Option ConfigError
  | [], r => (r, none)
  | entry :: rest, r =>
    match add r entry with
    | .ok r => addEach add rest r
    | .error cause => (r, some (.combinator entry.1.1 entry.1.2 cause))

/-- The registry with the combinators of a configuration, and why it may lack some of them. -/
def apply (c : Config) (r : Registry) : Registry × Option ConfigError :=
  match addEach addSchema c.entries r with
  | (r, none) => addEach addAlias c.entries r
  | refused => refused

end Config

end CodecDocs
