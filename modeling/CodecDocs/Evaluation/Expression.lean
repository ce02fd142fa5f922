import CodecDocs.DocComment
import CodecDocs.Evaluation.Referent

/-! The schemas of expressions. Inside an expression evaluation follows its structure. It leaves the
expression where a function is called and where a combinator or a spread has to see what a reference
stands for; a bound on how deeply these nest makes it total. -/

namespace CodecDocs

open Script (Expr Property)

/-- How evaluation goes on outside of the expression at hand. -/
structure Beyond where
  evaluate : Expr → String → Eval Schema
  deref : Schema → Eval Schema

/-- What an object literal has come to. -/
structure Draft where
  properties : Table String Schema
  required : Names

namespace Draft

def empty : Draft := ⟨[], []⟩

/-- A property with a value of its own is required. -/
def write (d : Draft) (name : String) (schema : Schema) : Draft :=
  ⟨d.properties.insert name schema, d.required.add name⟩

def erase (d : Draft) (name : String) : Draft := ⟨d.properties.erase name, d.required.remove name⟩

/-- Writes the properties of another object, which decides whether they are required. -/
def spread (d : Draft) (properties : Table String Schema) (required : Names) : Draft :=
  properties.foldl
    (fun d ⟨name, schema⟩ =>
      ⟨d.properties.insert name schema,
        if required.contains name then d.required.add name else d.required.remove name⟩)
    d

def schema (d : Draft) : Schema := Schema.objectOf d.properties d.required .none

end Draft

namespace Setting

variable (s : Setting) (beyond : Beyond) (id : String)

/-! ### Names and calls -/

/-- The schema of a name or a member that stands for itself. -/
def reference (e : Expr) : Eval Schema := do
  if s.isSymbol id e then throw (Fault.unrepresentable .symbol none)
  match ← Eval.ofExcept (s.referent e id) with
  | .combinator c => c.rule.apply beyond.deref []
  | .definition d => return Schema.refer d.name (.source d.moduleId)
  | .external package name => return Schema.refer name (.package package)
  | .whole _ => throw (Fault.unsupported .namespaceCodec none)

def name (name : String) (span : Span) : Eval Schema :=
  if name = "undefined" && s.isGlobal name id then return .undefined .none
  else s.reference beyond id (.ident name span)

/-- The expression that a call of a definition amounts to. -/
def callBody? (d : Definition) : Option Expr :=
  match d.init with
  | .function params body _ => body.result? params
  | _ => none

/-- The schema of a call. -/
def call (args : List Schema) : Referent → Eval Schema
  | .combinator c => c.rule.apply beyond.deref args
  | .definition d =>
    match callBody? d with
    | some body => beyond.evaluate body d.moduleId
    | none => return Schema.refer d.name (.source d.moduleId)
  | .external package name => return Schema.refer name (.package package)
  | .whole _ => throw (Fault.unsupported .namespaceCall none)

/-- In a list an undefined value keeps its place. -/
def orUndefined (act : Eval Schema) : Eval Schema := do
  match ← Eval.observe act with
  | .ok schema => return schema
  | .error e => if e.isUndefined then return .undefined .none else throw e

/-- Spreads the object that a schema stands for; `span` is where it stands. -/
def spreadInto (d : Draft) (span : Span) (schema : Schema) : Eval Draft := do
  match ← s.within id span (beyond.deref schema) with
  | .object properties required _ => return d.spread properties required
  | other => throw ((Fault.unsupported (.spread other.kindName) none).locate (s.location id span))

/-- Writes a property with its documentation, or leaves it out when its value is undefined. -/
def writeKeyed (d : Draft) (name : String) (doc : Option String) (act : Eval Schema) :
    Eval Draft := do
  match ← Eval.observe act with
  | .ok schema => return d.write name (schema.withComment (doc.bind DocComment.parse))
  | .error e => if e.isUndefined then return d.erase name else throw e

/-! ### Expressions -/

mutual

/-- The schema of an expression of the module. A fault of the whole has no location yet. -/
def form : Expr → Eval Schema
  | .string value _ => return Schema.literal (.string value)
  | .number value _ => return Schema.literal (.number value)
  | .bool value _ => return Schema.literal (.boolean value)
  | .null _ => return Schema.literal .null
  | .ident name span => s.name beyond id name span
  | .member object property span => s.reference beyond id (.member object property span)
  | .unary .void _ _ => throw (Fault.unrepresentable .undefined none)
  | .array elements _ => return .tuple (← members elements) .none
  | .object properties _ => return (← draft properties Draft.empty).schema
  | .function [] (.expression value) _ | .function [] (.returning value) _ =>
    s.within id value.span (form value)
  | .function .. => return .any .none
  | .call (.function [] (.expression value) _) _ _
  | .call (.function [] (.returning value) _) _ _ => s.within id value.span (form value)
  | .call (.ident name nameSpan) args _ => do
    let callee : Expr := .ident name nameSpan
    if s.isSymbol id callee then throw (Fault.unrepresentable .symbol none)
    let target ← Eval.ofExcept (s.referent callee id)
    call beyond (← arguments args) target
  | .call (.member object property memberSpan) args _ => do
    let callee : Expr := .member object property memberSpan
    if s.isSymbol id callee then throw (Fault.unrepresentable .symbol none)
    let target ← Eval.ofExcept (s.referent callee id)
    call beyond (← arguments args) target
  | e => s.infer id e
termination_by structural e => e

/-- The schemas of a list's elements. -/
def members : List Expr → Eval (List Schema)
  | [] => return []
  | .spread arg span :: rest => do
    let first ← s.infer id (.spread arg span)
    return first :: (← members rest)
  | e :: rest => do
    let first ← orUndefined (s.within id e.span (form e))
    return first :: (← members rest)
termination_by structural es => es

/-- The schemas of a call's arguments; a function with parameters may be anything. -/
def arguments : List Expr → Eval (List Schema)
  | [] => return []
  | .function (_ :: _) _ _ :: rest => return .any .none :: (← arguments rest)
  | .spread arg span :: rest => do
    let first ← s.infer id (.spread arg span)
    return first :: (← arguments rest)
  | e :: rest => do
    let first ← orUndefined (s.within id e.span (form e))
    return first :: (← arguments rest)
termination_by structural es => es

/-- Adds the entries of an object literal. A name that stands alone spreads what it stands for. -/
def draft : List Property → Draft → Eval Draft
  | [], d => return d
  | .keyed key value doc span :: rest, d => do
    match key.name? with
    | none => throw ((Fault.unsupported .computedKey none).locate (s.location id span))
    | some name => draft rest (← writeKeyed d name doc (s.within id value.span (form value)))
  | .shorthand name _ span :: rest, d => do
    let schema ← s.within id span (s.name beyond id name span)
    draft rest (← s.spreadInto beyond id d span schema)
  | .spread arg _ _ :: rest, d => do
    let schema ← s.within id arg.span (form arg)
    draft rest (← s.spreadInto beyond id d arg.span schema)
  | .method name _ span :: _, _ =>
    throw ((Fault.unsupported (.method name) none).locate (s.location id span))
termination_by structural ps => ps

end

end Setting

end CodecDocs
