import CodecDocs.CommandLine.Arguments
import CodecDocs.Text.Quoted

/-! The commands: writing documents and writing the schemas of exported codecs. -/

namespace CodecDocs.CommandLine

structure InputSettings where
  /-- Paths and patterns of entry files. -/
  input : List String
  config : Option String
  /-- The text of a filter for what is written. -/
  filter : Option String

structure DocumentCommand where
  settings : InputSettings
  title : Option String
  version : Option String
  description : Option String
  exports : Bool
  out : Option String
  outDirectory : Option String
  /-- Only shows the command. -/
  idle : Bool

structure SchemaCommand where
  settings : InputSettings
  /-- The schemas to write; all of them where no name is given. -/
  names : List String
  out : Option String
  idle : Bool

inductive Command where
  | document (c : DocumentCommand)
  | schema (c : SchemaCommand)

structure Invocation where
  command : Command
  verbosity : Nat

/-! ### Options -/

def verboseOption : OptionSpec := ⟨"verbose", some 'v', .count, false⟩

def inputOptions : List OptionSpec :=
  [verboseOption, ⟨"input", some 'i', .many, false⟩, ⟨"config", none, .one, true⟩,
    ⟨"jq-expr", none, .one, false⟩, ⟨"out", some 'o', .one, true⟩, ⟨"no-op", none, .flag, false⟩]

def documentOptions : List OptionSpec :=
  inputOptions ++ [⟨"title", none, .one, false⟩, ⟨"api-version", none, .one, false⟩,
    ⟨"description", none, .one, false⟩, ⟨"exports", none, .flag, false⟩,
    ⟨"out-dir", none, .one, true⟩]

def schemaOptions : List OptionSpec := inputOptions ++ [⟨"name", some 'n', .each, false⟩]

def valueOf (given : Given) (name : String) : Option String :=
  (given.get? name).bind List.head?

def valuesOf (given : Given) (name : String) : List String := (given.get? name).getD []

def countOf (given : Given) : Nat := (valuesOf given "verbose").length

/-- The settings; an input is required. -/
def settings? (given : Given) : Option InputSettings :=
  match valuesOf given "input" with
  | [] => none
  | input => some ⟨input, valueOf given "config", valueOf given "jq-expr"⟩

/-- A command that writes documents goes to one file or to a directory, not to both. -/
def document? (given : Given) : Option Command :=
  if given.has "out" && given.has "out-dir" then none
  else (settings? given).map fun settings => .document
    ⟨settings, valueOf given "title", valueOf given "api-version", valueOf given "description",
      given.has "exports", valueOf given "out", valueOf given "out-dir", given.has "no-op"⟩

def schema? (given : Given) : Option Command :=
  (settings? given).map fun settings => .schema
    ⟨settings, valuesOf given "name", valueOf given "out", given.has "no-op"⟩

/-- A command after its name; verbosity given with the command wins over that before it. -/
def commandOf (specs : List OptionSpec) (build : Given → Option Command) (outer : Nat)
    (args : List String) : Option Invocation := do
  let given ← scan specs args ([], none)
  let command ← build given
  return ⟨command, if countOf given = 0 then outer else countOf given⟩

/-- Reads the arguments, when `given` are the options before the command. -/
def invocationFrom (given : Given) : List String → Option Invocation
  | [] => none
  | "document" :: args => commandOf documentOptions document? (countOf given) args
  | "schema" :: args => commandOf schemaOptions schema? (countOf given) args
  | "--" :: _ => none
  | arg :: args =>
    match argument [verboseOption] arg (given, none) with
    | some (given, none) => invocationFrom given args
    | _ => none

/-- The invocation that the arguments make, unless they are wrong. -/
def parse? (args : List String) : Option Invocation := invocationFrom [] args

/-! ### Display -/

/-- A value to be shown over several lines. -/
inductive Display where
  | atom (text : String)
  | list (items : List Display)
  | tuple (name : String) (items : List Display)
  | record (name : String) (fields : List (String × Display))

namespace Display

def indent (depth : Nat) : String := String.ofList (List.replicate (4 * depth) ' ')

/-- Lines between an opening and a closing mark. -/
def block (depth : Nat) (opening closing : String) (lines : List String) : String :=
  opening ++ "\n" ++ String.join (lines.map fun line => indent (depth + 1) ++ line ++ ",\n") ++
    indent depth ++ closing

mutual

/-- The text of a value whose first line begins at a depth. -/
def render (depth : Nat) : Display → String
  | .atom text => text
  | .list [] => "[]"
  | .list (item :: items) => block depth "[" "]" (renderAll (depth + 1) (item :: items))
  | .tuple name items => block depth (name ++ "(") ")" (renderAll (depth + 1) items)
  | .record name fields => block depth (name ++ " \x7b") "\x7d" (renderFields (depth + 1) fields)

def renderAll (depth : Nat) : List Display → List String
  | [] => []
  | item :: items => item.render depth :: renderAll depth items

def renderFields (depth : Nat) : List (String × Display) → List String
  | [] => []
  | (name, value) :: fields => (name ++ ": " ++ value.render depth) :: renderFields depth fields

end

def text (s : String) : Display := .atom (Text.quoted s)

def bool (b : Bool) : Display := .atom (if b then "true" else "false")

def option : Option String → Display
  | some s => .tuple "Some" [text s]
  | none => .atom "None"

end Display

def InputSettings.display (s : InputSettings) : Display :=
  .record "InputSettings" [("input", .list (s.input.map .text)), ("config", .option s.config),
    ("jq_expr", .option s.filter)]

def Command.display : Command → Display
  | .document c => .tuple "Document" [.record "DocumentOut" [("input_settings", c.settings.display),
      ("title", .option c.title), ("api_version", .option c.version),
      ("description", .option c.description), ("exports", .bool c.exports), ("out", .option c.out),
      ("out_dir", .option c.outDirectory), ("no_op", .bool c.idle)]]
  | .schema c => .tuple "Schema" [.record "SchemaOut" [("input_settings", c.settings.display),
      ("name", .list (c.names.map .text)), ("out", .option c.out), ("no_op", .bool c.idle)]]

def Invocation.display (i : Invocation) : Display :=
  .record "CommandLineInterface" [("cmd", i.command.display),
    ("verbose", .atom (toString (min i.verbosity 255)))]

end CodecDocs.CommandLine
