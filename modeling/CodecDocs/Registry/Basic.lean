import CodecDocs.Fault

/-! Known combinators. A combinator makes a schema from the schemas of its arguments; where it needs
to see an object it asks for what a reference stands for. A host may register any function of the
arguments as a combinator of its own, except that such a function does not ask what a reference
stands for. -/

namespace CodecDocs

/-- What a combinator does with its arguments. A label is the name that messages use. -/
inductive Rule where
  /-- The same schema for all arguments. -/
  | fixed (schema : Schema)
  /-- The first argument as it is. -/
  | first (label : String)
  /-- An object all of whose properties are required. -/
  | allRequired (label : String)
  /-- An object none of whose properties is required. -/
  | noneRequired (label : String)
  | array (label : String)
  | nonEmptyArray (label : String)
  | record
  | tuple
  | union
  | intersection
  | literal
  | keys
  /-- A union with one more member. -/
  | either (label : String) (other : Schema)
  | request
  | route
  /-- A function that a host registers. -/
  | host (build : List Schema → Except Fault Schema)

namespace Rule

variable {m : Type → Type} [Monad m] [MonadExcept Fault m]

def misuse {α : Type} (label : String) (what : Misuse) : m α :=
  throw (Fault.malformed label what none)

def firstArg (label : String) (args : List Schema) : m Schema :=
  match args with
  | arg :: _ => return arg
  | [] => misuse label .noArgument

/-- The parts of the object that a schema stands for. -/
def objectArg (label : String) (deref : Schema → m Schema) (arg : Schema) :
    m (Table String Schema × Names × Notes) := do
  match ← deref arg with
  | .object properties required notes => return (properties, required, notes)
  | other => misuse label (.notObject other.kindName)

/-- The members of the list that a combinator takes as its one argument. -/
def listArg (label : String) (args : List Schema) : m (List Schema) := do
  match ← firstArg label args with
  | .tuple members _ => return members
  | other => misuse label (.notArray other.kindName)

def isSingleLiteral : Schema → Bool
  | .primitive _ (some values) _ => values.length == 1
  | _ => false

/-- Fails unless the properties make up a route. -/
def checkRoute (properties : Table String Schema) : m Unit :=
  match ["path", "method"].find? fun key => !((properties.get? key).any isSingleLiteral) with
  | some key => misuse "httpRoute" (.notStringLiteral key)
  | none =>
    match ["request", "response"].find? fun key => !properties.has key with
    | some key => misuse "httpRoute" (.missingKey key)
    | none => return

/-- The schema for the given arguments; `deref` finds what a reference stands for. -/
def apply (deref : Schema → m Schema) (args : List Schema) : Rule → m Schema
  | .fixed schema => return schema
  | .first label => firstArg label args
  | .allRequired label => do
    let (properties, _, notes) ← objectArg label deref (← firstArg label args)
    return Schema.closedObject properties notes
  | .noneRequired label => do
    let (properties, _, notes) ← objectArg label deref (← firstArg label args)
    return .object properties [] notes
  | .array label => return .array (← firstArg label args) .none
  | .nonEmptyArray label =>
    return (Schema.array (← firstArg label args) .none).annotated "minItems" (.nat 1)
  | .record =>
    match args with
    | domain :: codomain :: _ => return .record (some domain) codomain .none
    | _ => misuse "record" .noCodomain
  | .tuple => return .tuple (← listArg "tuple" args) .none
  | .union => return .union (← listArg "union" args) .none
  | .intersection => do
    match ← listArg "intersection" args with
    | [] => misuse "intersection" .noMembers
    | members => return .intersection members .none
  | .literal => do
    let value ← firstArg "literal" args
    if isSingleLiteral value then return value
    else misuse "literal" (.notLiteral value.kindName)
  | .keys => do
    let (properties, _, notes) ← objectArg "keyof" deref (← firstArg "keyof" args)
    if properties.isEmpty then misuse "keyof" .noKeys
    return .primitive .string (some (properties.keys.map .string)) notes
  | .either label other => return .union [← firstArg label args, other] .none
  | .request => do
    let (properties, _, notes) ← objectArg "httpRequest" deref (← firstArg "httpRequest" args)
    match properties.keys.find? fun key => !requestKeys.contains key with
    | some key => misuse "httpRequest" (.unexpectedKey key)
    | none => return Schema.closedObject properties notes
  | .route => do
    let (properties, required, notes) ← objectArg "httpRoute" deref (← firstArg "httpRoute" args)
    checkRoute properties
    return Schema.objectOf properties required notes
  | .host build =>
    match build args with
    | .ok schema => return schema
    | .error fault => throw fault

end Rule

structure Combinator where
  package : String
  name : String
  rule : Rule

def Combinator.text (c : Combinator) : String := "Combinator(" ++ c.package ++ "#" ++ c.name ++ ")"

/-- Combinators by their package and the name under which it exports them. -/
structure Registry where
  entries : Table (String × String) Combinator

namespace Registry

def empty : Registry := ⟨[]⟩

def resolve? (r : Registry) (package name : String) : Option Combinator :=
  r.entries.get? (package, name)

def register (r : Registry) (package name : String) (rule : Rule) : Registry :=
  ⟨r.entries.insert (package, name) ⟨package, name, rule⟩⟩

/-- Another name for a combinator that is registered already. -/
def alias? (r : Registry) (package name targetPackage targetName : String) : Option Registry :=
  (r.resolve? targetPackage targetName).map fun target => r.register package name target.rule

end Registry

end CodecDocs
