import CodecDocs.Evaluation.Session

/-! What a name or a member of a namespace refers to. A definition that only gives another name to a
combinator or to a namespace is seen through. -/

namespace CodecDocs

open Script (Expr)

inductive Referent where
  | combinator (c : Combinator)
  | definition (d : Definition)
  | external (package name : String)
  | whole (origin : Origin)

namespace Referent

/-- Whether a definition of this name lets what it equals take its place. -/
def showsThrough (name : String) : Referent → Bool
  | .combinator _ | .whole _ => true
  | .definition _ | .external .. => name = "default"

end Referent

namespace Setting

variable (s : Setting)

/-- Chains of other names are followed this far. -/
def aliasDepth : Nat := 64

/-- The referent of what a name resolves to; `follow` finds those of expressions. -/
def classify (follow : Expr → String → Except Fault Referent) : Resolved → Referent
  | .definition d =>
    match d.init with
    | .ident .. | .member .. =>
      match follow d.init d.moduleId with
      | .ok r => if r.showsThrough d.name then r else .definition d
      | .error _ => .definition d
    | _ => .definition d
  | .external package name =>
    match s.registry.resolve? package name with
    | some c => .combinator c
    | none => .external package name
  | .whole origin => .whole origin

/-- The referent of a name or a member, found within a number of steps. -/
def referentWithin : Nat → Expr → String → Except Fault Referent
  | 0, _, _ => .error (.unsupported .aliasChain none)
  | steps + 1, .ident name _, id =>
    (s.project.resolve name id).map (s.classify (referentWithin steps))
  | steps + 1, .member object property _, id =>
    match referentWithin steps object id with
    | .ok (.whole (.source target)) =>
      (s.project.resolveExport target property).map (s.classify (referentWithin steps))
    | .ok (.whole (.package package)) =>
      .ok (s.classify (referentWithin steps) (.external package property))
    | .ok _ => .error (.unsupported (.memberOfCodec property) none)
    | .error e => .error e
  | _ + 1, e, _ => .error (.unsupported (.form e.describe) none)

def referent (e : Expr) (id : String) : Except Fault Referent :=
  s.referentWithin (aliasDepth + 1) e id

/-- Whether nothing in a module gives a meaning to a name. -/
def isGlobal (name id : String) : Bool :=
  match s.project.resolve name id with
  | .error e => e.isUnknownIdentifier
  | .ok _ => false

/-- Whether an expression is the global `Symbol` or something inside of it. -/
def isSymbol (id : String) : Expr → Bool
  | .ident name _ => name = "Symbol" && s.isGlobal name id
  | .member object _ _ => isSymbol id object
  | _ => false

/-! ### Locations -/

/-- Excerpts have at most this many characters of the source. -/
def excerptLength : Nat := 80

/-- The beginning of the first line of a text. -/
def excerpt (text : List Char) : List Char :=
  let line := Text.trim ((Text.lines text).headD [])
  if line.length ≤ excerptLength then line else line.take excerptLength ++ ['.', '.', '.']

/-- The location of a span of a module. -/
def location (id : String) (span : Span) : Location :=
  let text := (s.project.sourceText? id span.start span.stop).getD ""
  ⟨id, span.line, span.column, String.ofList (excerpt text.toList)⟩

/-- Evaluates what stands at a span of a module. -/
def within {α : Type} (id : String) (span : Span) (act : Eval α) : Eval α := fun session =>
  match act session with
  | (.ok a, session) => (.ok a, session)
  | (.error e, session) => (.error (e.locate (s.location id span)), session)

end Setting

end CodecDocs
