import CodecDocs.Project.Resolve
import CodecDocs.Registry.Basic
import CodecDocs.Worklist

/-! What evaluation runs in: the names that are being expanded and the questions put to an oracle.
A name is on the list of those being expanded while its definition is evaluated, and it is taken off
however that ends. -/

namespace CodecDocs

/-- A source of schemas for what cannot be read off a project. -/
structure Oracle where
  /-- The schema of an expression in a module. -/
  infer : Script.Expr → String → Except Fault Schema
  /-- The schema of an export of a package, if the oracle knows the export. -/
  external : String → String → Option (Except Fault Schema)

/-- A question put to an oracle. -/
inductive Query where
  | infer (form moduleId : String)
  | external (package name : String)
  deriving DecidableEq

def Query.text : Query → String
  | .infer form moduleId => "infer " ++ form ++ " in " ++ moduleId
  | .external package name => "external " ++ package ++ "#" ++ name

/-- What evaluation depends on. -/
structure Setting where
  project : Project
  registry : Registry
  oracle : Option Oracle

structure Session where
  /-- The names being expanded, the innermost first. -/
  expanding : List Target
  /-- The questions asked so far, the first one first. -/
  asked : List Query

def Session.start : Session := ⟨[], []⟩

abbrev Eval := ExceptT Fault (StateM Session)

namespace Eval

def ofExcept {α : Type} : Except Fault α → Eval α
  | .ok a => return a
  | .error e => throw e

/-- The outcome of an evaluation as a value. -/
def outcome {α : Type} (act : Eval α) : StateM Session (Except Fault α) := act.run

def observe {α : Type} (act : Eval α) : Eval (Except Fault α) := ExceptT.lift act.outcome

def log (query : Query) : Eval Unit := modify fun s =>
  { s with
    asked := s.asked ++ [query] }

def enter (target : Target) : Eval Unit := modify fun s =>
  { s with
    expanding := target :: s.expanding }

def leave : Eval Unit := modify fun s =>
  { s with
    expanding := s.expanding.tail }

/-- Evaluates while a name counts as being expanded; a name does not lie within itself. -/
def guarded {α : Type} (target : Target) (act : Eval α) : Eval α := do
  if (← get).expanding.contains target then throw (Fault.circular target.1 target.2)
  enter target
  let outcome ← observe act
  leave
  ofExcept outcome

end Eval

namespace Setting

/-- What an oracle makes of an expression that is no codec. -/
def infer (s : Setting) (id : String) (e : Script.Expr) : Eval Schema :=
  match s.oracle with
  | none => throw (Fault.unsupported (.form e.describe) none)
  | some oracle => do
    Eval.log (.infer e.describe id)
    Eval.ofExcept (oracle.infer e id)

/-- The schema of a package's export, about which nothing may be known. -/
def external (s : Setting) (package name : String) : Eval Schema :=
  match s.oracle with
  | none => return .any .none
  | some oracle => do
    Eval.log (.external package name)
    match oracle.external package name with
    | some outcome => Eval.ofExcept outcome
    | none => return .any .none

end Setting

end CodecDocs
