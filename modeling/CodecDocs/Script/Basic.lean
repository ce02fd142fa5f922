import CodecDocs.Token.Basic

/-! The structure of a codec module: imports, exports, declarations and the expressions that
initialize them. Types leave no trace in it. -/

namespace CodecDocs.Script

inductive UnaryOp where
  | minus | plus | not | complement | increment | decrement | typeOf | void | delete | await
  deriving DecidableEq

def UnaryOp.text : UnaryOp → String
  | .minus => "-"
  | .plus => "+"
  | .not => "!"
  | .complement => "~"
  | .increment => "++"
  | .decrement => "--"
  | .typeOf => "typeof"
  | .void => "void"
  | .delete => "delete"
  | .await => "await"

/-- Binary operators, assignments among them. -/
inductive BinaryOp where
  | mark (p : Punct)
  | instanceOf
  | within
  deriving DecidableEq

namespace BinaryOp

def text : BinaryOp → String
  | .mark p => p.text
  | .instanceOf => "instanceof"
  | .within => "in"

def precedence? : BinaryOp → Option Nat
  | .mark p => p.precedence?
  | .instanceOf | .within => some 8

/-- The operator that a token stands for between two operands. -/
def ofKind? : Token.Kind → Option BinaryOp
  | .punct p => some (.mark p)
  | .word "instanceof" => some .instanceOf
  | .word "in" => some .within
  | _ => none

end BinaryOp

mutual

inductive Expr where
  | string (value : String) (span : Span)
  | number (value : Binary64) (span : Span)
  | bool (value : Bool) (span : Span)
  | null (span : Span)
  /-- A template with substitutions; one without them is a string. -/
  | template (span : Span)
  | regex (span : Span)
  | ident (name : String) (span : Span)
  | member (object : Expr) (property : String) (span : Span)
  | index (object index : Expr) (span : Span)
  | call (callee : Expr) (args : List Expr) (span : Span)
  | construct (callee : Expr) (args : List Expr) (span : Span)
  | array (elements : List Expr) (span : Span)
  | object (properties : List Property) (span : Span)
  | function (params : List String) (body : Body) (span : Span)
  | spread (arg : Expr) (span : Span)
  | unary (op : UnaryOp) (arg : Expr) (span : Span)
  | binary (op : BinaryOp) (left right : Expr) (span : Span)
  | conditional (test yes no : Expr) (span : Span)

/-- An entry of an object literal with the documentation block before it. -/
inductive Property where
  | keyed (key : Key) (value : Expr) (doc : Option String) (span : Span)
  | shorthand (name : String) (doc : Option String) (span : Span)
  | spread (arg : Expr) (doc : Option String) (span : Span)
  | method (name : String) (doc : Option String) (span : Span)

inductive Key where
  | name (text : String)
  | string (text : String)
  | number (value : Binary64)
  | computed (key : Expr)

/-- The body of a function: an expression, a block that only returns one, or any other block. -/
inductive Body where
  | expression (value : Expr)
  | returning (value : Expr)
  | block

end

instance : Inhabited Expr := ⟨.null default⟩

namespace Expr

def span : Expr → Span
  | .string _ s | .number _ s | .bool _ s | .null s | .template s | .regex s | .ident _ s
  | .member _ _ s | .index _ _ s | .call _ _ s | .construct _ _ s | .array _ s | .object _ s
  | .function _ _ s | .spread _ s | .unary _ _ s | .binary _ _ _ s | .conditional _ _ _ s => s

/-- The form of an expression as messages name it. -/
def describe : Expr → String
  | .string .. => "string literal"
  | .number .. => "number literal"
  | .bool .. => "boolean literal"
  | .null .. => "null literal"
  | .template .. => "template literal with substitutions"
  | .regex .. => "regular expression literal"
  | .ident .. => "identifier"
  | .member .. => "member expression"
  | .index .. => "computed member expression"
  | .call .. => "call expression"
  | .construct .. => "new expression"
  | .array .. => "array literal"
  | .object .. => "object literal"
  | .function .. => "function expression"
  | .spread .. => "spread element"
  | .unary .. => "unary expression"
  | .binary .. => "binary expression"
  | .conditional .. => "conditional expression"

end Expr

/-- Numbers as property names: all places, and no fraction of zero. -/
def Key.numberStyle : NumberStyle where
  plain _ := true
  fraction := false
  plus := ""
  tie := .up

/-- The property that a key names, unless that takes evaluation. -/
def Key.name? : Key → Option String
  | .name text | .string text => some text
  | .number x => some (if x.isInteger then toString x.toInt64 else numberStyle.write x)
  | .computed _ => none

/-- The expression that a function without parameters returns, if that is all it does. -/
def Body.result? (params : List String) : Body → Option Expr
  | .expression value | .returning value => if params.isEmpty then some value else none
  | .block => none

/-- A name that an import brings into a module. -/
inductive Binding where
  | default (name : String)
  | star (name : String)
  | named (imported name : String)
  deriving DecidableEq

def Binding.name : Binding → String
  | .default name | .star name | .named _ name => name

structure Declaration where
  name : String
  init : Option Expr
  exported : Bool
  doc : Option String
  span : Span

inductive Item where
  | imports (source : String) (bindings : List Binding)
  | declares (declaration : Declaration)
  /-- Local names, or names of another module, with the names they are exported under. -/
  | exports (names : List (String × String)) (source : Option String)
  /-- All exports of another module, or that module itself under a name. -/
  | exportsAll (source : String) (name : Option String)

/-- The module that an item refers to by a specifier. -/
def Item.source? : Item → Option String
  | .imports source _ => some source
  | .declares _ => none
  | .exports _ source => source
  | .exportsAll source _ => some source

end CodecDocs.Script
