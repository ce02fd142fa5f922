import CodecDocs.Schema.Basic

/-! Failures of resolving and evaluating codecs, with their messages. -/

namespace CodecDocs

/-- Where the innermost failing expression stands. -/
structure Location where
  moduleId : String
  line : Nat
  column : Nat
  /-- The beginning of the expression's text. -/
  excerpt : String
  deriving DecidableEq

def Location.text (l : Location) : String :=
  l.moduleId ++ ":" ++ toString l.line ++ ":" ++ toString l.column ++
    if l.excerpt.isEmpty then "" else " `" ++ l.excerpt ++ "`"

/-- Expressions that have no reading as a codec. -/
inductive Unsupported where
  /-- In the words of a type oracle. -/
  | reported (text : String)
  /-- A form of expression that is not a codec. -/
  | form (description : String)
  | uninitialized (name : String)
  | memberOfNonNamespace (name owner : String)
  | memberOfCodec (name : String)
  | namedNamespace (name : String)
  | namespaceCodec
  | namespaceCall
  | computedKey
  | method (name : String)
  | spread (kindName : String)
  | aliasChain
  deriving DecidableEq

def Unsupported.message : Unsupported → String
  | .reported text => text
  | .form description => description
  | .uninitialized name => "`" ++ name ++ "` is declared without an initializer"
  | .memberOfNonNamespace name owner => "member `" ++ name ++ "` of non-namespace `" ++ owner ++ "`"
  | .memberOfCodec name => "member `." ++ name ++ "` of a codec value"
  | .namedNamespace name => "namespace `" ++ name ++ "` used as a codec"
  | .namespaceCodec => "namespace used as a codec"
  | .namespaceCall => "call of a namespace"
  | .computedKey => "computed property key"
  | .method name => "method `" ++ name ++ "` in object literal"
  | .spread kindName => "spread of " ++ kindName ++ " (expected an object)"
  | .aliasChain => "alias chain too deep"

/-- Wrong uses of a combinator. -/
inductive Misuse where
  | noArgument
  | notObject (kindName : String)
  | notArray (kindName : String)
  | noCodomain
  | noMembers
  | notLiteral (kindName : String)
  | noKeys
  | unexpectedKey (key : String)
  | notStringLiteral (key : String)
  | missingKey (key : String)
  | specNotObject (kindName : String)
  | entryNotObject
  | routeNotObject
  | requestNotObject
  | responseNotObject
  | parametersNotObject (kindName : String)
  deriving DecidableEq

/-- The parts that a request may have. -/
def requestKeys : List String := ["params", "query", "headers", "body"]

def Misuse.message : Misuse → String
  | .noArgument => "expected at least one argument"
  | .notObject kindName => "expected an object of codecs, got " ++ kindName
  | .notArray kindName => "expected a single array of codecs, got " ++ kindName
  | .noCodomain => "a codomain codec is required"
  | .noMembers => "no members to intersect"
  | .notLiteral kindName => "expected a literal value, got " ++ kindName
  | .noKeys => "object has no keys"
  | .unexpectedKey key =>
    "unexpected key `" ++ key ++ "`, expected one of " ++ String.intercalate ", " requestKeys
  | .notStringLiteral key => "`" ++ key ++ "` must be a string literal"
  | .missingKey key => "missing `" ++ key ++ "`"
  | .specNotObject kindName => "expected an object, got " ++ kindName
  | .entryNotObject => "each entry must map methods to routes"
  | .routeNotObject => "route must be an object"
  | .requestNotObject => "request must be an object"
  | .responseNotObject => "response must map status codes to codecs"
  | .parametersNotObject kindName => "parameters must be an object of codecs, got " ++ kindName

/-- Values without a schema. -/
inductive Unrepresentable where
  | undefined | symbol
  deriving DecidableEq

def Unrepresentable.name : Unrepresentable → String
  | .undefined => "Undefined"
  | .symbol => "Symbol"

inductive Fault where
  | unsupported (what : Unsupported) (place : Option Location)
  | unknownIdentifier (name moduleId : String) (place : Option Location)
  | unresolvedImport (specifier moduleId : String) (place : Option Location)
  | malformed (combinator : String) (misuse : Misuse) (place : Option Location)
  | circular (name : String) (origin : Origin)
  | unrepresentable (what : Unrepresentable) (place : Option Location)
  /-- The bound on the depth of evaluation was too small. -/
  | exhausted
  deriving DecidableEq

namespace Fault

def placeText : Option Location → String
  | some place => " at " ++ place.text
  | none => ""

def message : Fault → String
  | .unsupported what place => "unsupported expression: " ++ what.message ++ placeText place
  | .unknownIdentifier name moduleId place =>
    "unknown identifier `" ++ name ++ "` in " ++ moduleId ++ placeText place
  | .unresolvedImport specifier moduleId place =>
    "unresolved import `" ++ specifier ++ "` from " ++ moduleId ++ placeText place
  | .malformed combinator misuse place =>
    "malformed use of `" ++ combinator ++ "`: " ++ misuse.message ++ placeText place
  | .circular name origin => "`" ++ name ++ "` in " ++ origin.text ++ " is defined in terms of itself"
  | .unrepresentable what place =>
    "value has no schema representation (" ++ what.name ++ ")" ++ placeText place
  | .exhausted => "evaluation bound exhausted"

/-- The fault with a location, unless a deeper one is known. -/
def locate (here : Location) : Fault → Fault
  | .unsupported what place => .unsupported what (place.or (some here))
  | .unknownIdentifier name moduleId place => .unknownIdentifier name moduleId (place.or (some here))
  | .unresolvedImport specifier moduleId place =>
    .unresolvedImport specifier moduleId (place.or (some here))
  | .malformed combinator misuse place => .malformed combinator misuse (place.or (some here))
  | .circular name origin => .circular name origin
  | .unrepresentable what place => .unrepresentable what (place.or (some here))
  | .exhausted => .exhausted

/-- Whether a value was undefined, which an object or a list can leave out. -/
def isUndefined : Fault → Bool
  | .unrepresentable .undefined _ => true
  | _ => false

def isUnknownIdentifier : Fault → Bool
  | .unknownIdentifier .. => true
  | _ => false

end Fault

end CodecDocs
