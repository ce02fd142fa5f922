import CodecDocs.Filter.Value

/-! Filters on JSON values. A filter has any number of outputs, some of which may be errors; a whole
run fails at an error that is not dropped. -/

namespace CodecDocs

mutual

inductive Filter where
  | identity
  | literal (value : Filter.Value)
  | negate (f : Filter)
  /-- The outputs up to the first error. -/
  | attempt (f : Filter)
  /-- All outputs as one array. -/
  | list (f : Filter)
  | keys
  | length
  | empty
  | pipe (f g : Filter)
  | both (f g : Filter)
  /-- Steps into the outputs of a filter. -/
  | path (f : Filter) (steps : Filter.Steps)

/-- Steps into a value. A lenient step drops its own errors, and nothing else. -/
inductive Filter.Steps where
  | done
  /-- To each entry of the value. -/
  | each (lenient : Bool) (rest : Filter.Steps)
  /-- To the entry that the index names; it is found on the input of the whole path. -/
  | entry (index : Filter) (lenient : Bool) (rest : Filter.Steps)

end

namespace Filter

/-- The outputs of a filter, an error being `none`. -/
abbrev Outputs (α : Type) := List (Option α)

/-- Goes on with the outputs that are no errors. -/
def feed {α β : Type} (outputs : Outputs α) (next : α → Outputs β) : Outputs β :=
  outputs.flatMap fun
    | some value => next value
    | none => [none]

/-! ### Walks -/

/-- A step whose index is known; without one it leads to each entry. -/
structure Stride where
  index : Option Value
  lenient : Bool

def Stride.apply (s : Stride) (value : Value) : Outputs Value :=
  let found := match s.index with
    | some index => [value.get? index]
    | none => match value.entries? with
      | some entries => entries.map some
      | none => [none]
  if s.lenient then found.filter Option.isSome else found

def walk : List Stride → Value → Outputs Value
  | [], value => [some value]
  | s :: rest, value => feed (s.apply value) (walk rest)

/-! ### Outputs -/

mutual

def outputs : Filter → Value → Outputs Value
  | .identity, input => [some input]
  | .literal value, _ => [some value]
  | .negate f, input => (f.outputs input).map (Option.bind · Value.negated?)
  | .attempt f, input => (f.outputs input).takeWhile Option.isSome
  | .list f, input => [((f.outputs input).mapM id).map .array]
  | .keys, input => [input.keys?]
  | .length, input => [input.length?]
  | .empty, _ => []
  | .pipe f g, input => feed (f.outputs input) g.outputs
  | .both f g, input => f.outputs input ++ g.outputs input
  | .path f steps, input => feed (f.outputs input) fun value =>
    feed (steps.strides input) fun strides => walk strides value

/-- Each way to take the steps, one index after the other. -/
def Steps.strides : Steps → Value → Outputs (List Stride)
  | .done, _ => [some []]
  | .each lenient rest, input => feed (rest.strides input) fun strides =>
    [some (⟨none, lenient⟩ :: strides)]
  | .entry index lenient rest, input => feed (index.outputs input) fun value =>
    feed (rest.strides input) fun strides => [some (⟨some value, lenient⟩ :: strides)]

end

/-- The outputs of a run without errors, passed on as text. -/
def run (f : Filter) (input : Json) : Option (List Json) :=
  (f.outputs (.ofJson input)).mapM fun output => output.bind Value.toJson?

/-- The one output, or an array of all of them. -/
def collect : List Json → Json
  | [output] => output
  | outputs => .array outputs

end Filter

end CodecDocs
