import CodecDocs.Evaluation.Expression

/-! Evaluation as a whole: the schema of an expression, what a name expands to and what a reference
stands for. -/

namespace CodecDocs

open Script (Expr)

namespace Setting

variable (s : Setting)

/-- The schema of a name with the documentation of its definition. -/
def expandWith (beyond : Beyond) (name : String) : Origin → Eval (Schema × Option DocComment)
  | .package package => return (← s.external package name, none)
  | .source id => do
    match ← Eval.ofExcept (s.project.resolve name id) with
    | .definition d => return (← beyond.evaluate d.init d.moduleId, d.doc.bind DocComment.parse)
    | .external package name => return (← s.external package name, none)
    | .whole _ => throw (Fault.unsupported (.namedNamespace name) none)

/-- What a schema stands for, where it is a reference: the first schema on the way from name to name
that is none. Notes on the way win over later ones. -/
def derefWith (beyond : Beyond) : Schema → Eval Schema
  | .reference name origin notes => do
    let found ← Eval.guarded (name, origin) do
      let (expanded, _) ← s.expandWith beyond name origin
      beyond.deref expanded
    return found.withNotes (found.notes.under notes)
  | schema => return schema

/-- Evaluation that leaves expressions at most so many times, one inside the other. -/
def beyond : Nat → Beyond
  | 0 => ⟨fun _ _ => throw Fault.exhausted, fun _ => throw Fault.exhausted⟩
  | n + 1 =>
    ⟨fun e id => s.within id e.span (s.form (beyond n) id e),
      fun schema => s.derefWith (beyond n) schema⟩

/-- How deep the answers of an oracle may lead: more names than a memory holds. -/
def oracleDepth : Nat := twoTo 64

/-- Between two names being expanded calls lead through each definition at most once, and no name is
expanded within itself. An oracle may lead through names of its own. -/
def depthBound : Nat :=
  let names := s.project.modules.foldl
    (fun n ⟨_, m⟩ => n + (m.declarations.length + m.imports.length)) 30
  names * names + if s.oracle.isSome then oracleDepth else 0

/-- The schema of an expression of a module. -/
def evaluate (e : Expr) (id : String) : Eval Schema := (s.beyond s.depthBound).evaluate e id

/-- The schema that a name stands for, with the documentation of its definition. -/
def expand (name : String) (origin : Origin) : Eval (Schema × Option DocComment) :=
  Eval.guarded (name, origin) (s.expandWith (s.beyond s.depthBound) name origin)

/-- The schema that a reference stands for; other schemas stand for themselves. -/
def deref (schema : Schema) : Eval Schema := (s.beyond s.depthBound).deref schema

end Setting

end CodecDocs
