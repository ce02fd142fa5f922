import CodecDocs.Proofs.Script.Skipping
import CodecDocs.Script.ExprParser

/-! How binary operators group. A sequence of operands of one token each, with operators between
them, is read to its end as one tree. At every node of the tree the left operand binds at least as
tightly as the node and the right one more tightly, and no other tree over the sequence does so. A
sign `<` in the sequence is never taken for the beginning of type arguments, since no bracket
follows. -/

namespace CodecDocs.Script

open Token (Kind)

/-! ### Sequences of operands -/

/-- Words that are no names where an operand begins. -/
def operandWords : List String :=
  ["true", "false", "null", "function", "class", "new", "typeof", "void", "delete", "await"]

/-- Operands of one token. -/
inductive Atom where
  | name (text : String) (plain : text ∉ operandWords)
  | number (value : Binary64)
  | string (value : String)

namespace Atom

def kind : Atom → Kind
  | .name text _ => .word text
  | .number value => .number value
  | .string value => .string value

def expr (span : Span) : Atom → Expr
  | .name text _ => .ident text span
  | .number value => .number value span
  | .string value => .string value span

end Atom

/-- The token that stands for an operator. -/
def BinaryOp.kind : BinaryOp → Kind
  | .mark p => .punct p
  | .instanceOf => .word "instanceof"
  | .within => .word "in"

theorem BinaryOp.ofKind?_kind (op : BinaryOp) : ofKind? op.kind = some op := by
  cases op <;> rfl

/-- An operator with the level at which it binds; operators that assign have none. -/
structure Operator where
  op : BinaryOp
  level : ℕ
  level_eq : op.precedence? = some level

namespace Operator

theorem level_pos (o : Operator) : 1 ≤ o.level := by
  have hpos : ∀ level ∈ o.op.precedence?, 1 ≤ level := by
    cases o.op with
    | mark p => cases p <;> simp [BinaryOp.precedence?, Punct.precedence?]
    | instanceOf | within => simp [BinaryOp.precedence?]
  exact hpos o.level o.level_eq

theorem kind_ne (o : Operator) {mark : Punct} (h : mark.precedence? = none) :
    o.op.kind ≠ .punct mark := by
  obtain ⟨op, level, hlevel⟩ := o
  cases op with
  | mark p =>
    intro hp
    obtain rfl := Kind.punct.inj hp
    exact absurd (h.symm.trans hlevel) (by simp)
  | instanceOf | within => simp [BinaryOp.kind]

end Operator

/-- The tokens of operators, each with the operand after it. -/
def operationsText (rest : List (Operator × Atom)) : List Kind :=
  rest.flatMap fun p => [p.1.op.kind, p.2.kind]

/-- The tokens of a sequence. -/
def sequenceText (first : Atom) (rest : List (Operator × Atom)) : List Kind :=
  first.kind :: operationsText rest

theorem length_operationsText (rest : List (Operator × Atom)) :
    (operationsText rest).length = 2 * rest.length := by
  simp [operationsText, List.length_flatMap, Nat.mul_comm]

/-! ### Trees -/

/-- What stands in a sequence: operands, without their places, and operators. -/
inductive Symbol where
  | operand (e : Expr)
  | operator (op : BinaryOp)

def operations (rest : List (Operator × Atom)) : List Symbol :=
  rest.flatMap fun p => [.operator p.1.op, .operand (p.2.expr default)]

def sequence (first : Atom) (rest : List (Operator × Atom)) : List Symbol :=
  .operand (first.expr default) :: operations rest

/-- The operands and operators of a tree from left to right. -/
def Expr.inOrder : Expr → List Symbol
  | .binary op left right _ => left.inOrder ++ .operator op :: right.inOrder
  | e => [.operand e.bare]

/-- A tree of operators over operands of one token, with no operator below the level `least` at its
root. At each node the left operand has none below the level of the node at its root, and the right
operand only one of a higher level. -/
inductive Grouped : ℕ → Expr → Prop
  | atom (least : ℕ) (a : Atom) (span : Span) : Grouped least (a.expr span)
  | node {least : ℕ} (o : Operator) {left right : Expr} (span : Span) (hleast : least ≤ o.level)
      (hleft : Grouped o.level left) (hright : Grouped (o.level + 1) right) :
      Grouped least (.binary o.op left right span)

@[simp] theorem Atom.inOrder_expr (a : Atom) (span : Span) :
    (a.expr span).inOrder = [.operand (a.expr default)] := by cases a <;> rfl

@[simp] theorem Atom.bare_expr (a : Atom) (span : Span) : (a.expr span).bare = a.expr default := by
  cases a <;> rfl

theorem Expr.inOrder_ne_nil (e : Expr) : e.inOrder ≠ [] := by
  cases e <;> simp [inOrder]

/-- A list with one entry marked in it in two ways: either it is the same entry, or the one is on
the left of the other. -/
theorem append_cons_cases {α : Type} {l l' r r' : List α} {x x' : α}
    (h : l ++ x :: r = l' ++ x' :: r') :
    (l = l' ∧ x = x' ∧ r = r') ∨ (x ∈ l' ∧ x' ∈ r) ∨ (x' ∈ l ∧ x ∈ r') := by
  rcases List.append_eq_append_iff.mp h with ⟨between, rfl, hr⟩ | ⟨between, rfl, hr⟩
  · cases between with
    | nil =>
      obtain ⟨rfl, rfl⟩ := List.cons.inj hr
      exact .inl ⟨(List.append_nil l).symm, rfl, rfl⟩
    | cons y between =>
      obtain ⟨rfl, rfl⟩ := List.cons.inj hr
      exact .inr (.inl (by simp))
  · cases between with
    | nil =>
      obtain ⟨rfl, rfl⟩ := List.cons.inj hr
      exact .inl ⟨List.append_nil l', rfl, rfl⟩
    | cons y between =>
      obtain ⟨rfl, rfl⟩ := List.cons.inj hr
      exact .inr (.inr (by simp))

namespace Grouped

variable {least least' : ℕ} {e e' : Expr}

/-- No operator in a tree is below the level of the root. -/
theorem least_le (h : Grouped least e) {o : Operator} (ho : .operator o.op ∈ e.inOrder) :
    least ≤ o.level := by
  induction h with
  | atom => simp at ho
  | node p span hleast hleft hright ihl ihr =>
    simp only [Expr.inOrder, List.mem_append, List.mem_cons, Symbol.operator.injEq] at ho
    rcases ho with ho | ho | ho
    · exact Nat.le_trans hleast (ihl ho)
    · have hlevel : some o.level = some p.level := by rw [← o.level_eq, ← p.level_eq, ho]
      exact Option.some.inj hlevel ▸ hleast
    · exact Nat.le_trans hleast (Nat.le_of_succ_le (ihr ho))

/-- The root of a tree is not on the left of the root of another tree over the same sequence. -/
theorem not_left_of {o p : Operator} {left right : Expr} (hleft : Grouped p.level left)
    (hright : Grouped (o.level + 1) right) (hl : .operator o.op ∈ left.inOrder)
    (hr : .operator p.op ∈ right.inOrder) : False := by
  have hp := hleft.least_le hl
  have ho := hright.least_le hr
  omega

/-- A sequence determines its tree up to places. -/
theorem bare_eq (h : Grouped least e) (h' : Grouped least' e') (heq : e.inOrder = e'.inOrder) :
    e.bare = e'.bare := by
  induction h generalizing least' e' with
  | atom least a span =>
    cases h' with
    | atom _ b span' => simpa using heq
    | node p span' =>
      rw [Atom.inOrder_expr, Expr.inOrder] at heq
      simp [List.singleton_eq_append_iff, Expr.inOrder_ne_nil] at heq
  | node o span hleast hleft hright ihl ihr =>
    cases h' with
    | atom _ b span' =>
      rw [Atom.inOrder_expr, Expr.inOrder] at heq
      simp [List.append_eq_singleton_iff, Expr.inOrder_ne_nil] at heq
    | node p span' hleast' hleft' hright' =>
      rcases append_cons_cases heq with ⟨hl, hop, hr⟩ | ⟨hl, hr⟩ | ⟨hl, hr⟩
      · rw [Expr.bare, Expr.bare, Symbol.operator.inj hop, ihl hleft' hl, ihr hright' hr]
      · exact (not_left_of hleft' hright hl hr).elim
      · exact (not_left_of hleft hright' hl hr).elim

end Grouped

namespace Parser

variable {expr : Parser Expr} {c : Cursor} {rest : List (Operator × Atom)}

/-! ### Operands -/

/-- Where no bracket follows, a sign `<` begins no type arguments. -/
theorem typeArguments_none (hlast : EofLast c.tokens) (hparen : .punct .openParen ∉ c.kinds) :
    typeArguments c = .ok (false, c) := by
  have hskip := @skipAngles_outcome True c
  rw [typeArguments, get_bind]
  cases h : skipAngles c with
  | ok r =>
    obtain ⟨⟨⟩, c'⟩ := r
    obtain ⟨taken, ht, -⟩ := hskip.ok hlast h
    have hkind : c'.kind ≠ .punct .openParen := by
      intro hkind
      refine hparen ?_
      rw [Cursor.kinds, ht.tokens_eq, ← hkind]
      exact List.mem_map_of_mem (List.mem_append_right _ List.mem_cons_self)
    have hattempt : attempt skipAngles c = .ok (some (), c') := by rw [attempt, h]
    rw [bind_ok hattempt]
    simp [Cursor.atPunct, hkind]
    rfl
  | error e =>
    have hattempt : attempt skipAngles c = .ok (none, c) := by
      rw [attempt, h]
      exact if_neg ((hskip.error hlast h).1 trivial)
    rw [bind_ok hattempt]
    rfl

theorem openParen_not_mem (hc : c.kinds = operationsText rest ++ [.eof]) :
    .punct .openParen ∉ c.kinds := by
  rw [hc, operationsText]
  simp only [List.mem_append, List.mem_flatMap, List.mem_cons, List.not_mem_nil, or_false, not_or,
    not_exists, not_and, reduceCtorEq]
  intro p _
  refine ⟨(p.1.kind_ne rfl).symm, ?_⟩
  cases p.2 <;> simp [Atom.kind]

/-- No suffix of an operand begins with an operator. -/
theorem suffixesFrom_operations (hc : c.kinds = operationsText rest ++ [.eof]) (start : Span)
    (rounds : ℕ) (operand : Expr) :
    suffixesFrom expr start (rounds + 1) operand c = .ok (operand, c) := by
  have hkind : ∀ {mark : Punct}, mark.precedence? = none → c.kind ≠ .punct mark := by
    intro mark hmark
    cases rest with
    | nil => rw [Cursor.kind_eq hc]; simp
    | cons p rest => rw [Cursor.kind_eq hc]; exact p.1.kind_ne hmark
  have hless := typeArguments_none (.of_kinds hc) (openParen_not_mem hc)
  rw [suffixesFrom, get_bind]
  cases hk : c.kind with
  | punct mark =>
    have hmark : mark.precedence? ≠ none := fun h => hkind h hk
    cases mark with
    | less => exact bind_ok hless _
    | dot | optionalDot | openBracket | openParen | bang => exact absurd rfl hmark
    | _ => rfl
  | _ => rfl

theorem primary_atom (a : Atom) (hc : c.kinds = sequenceText a rest ++ [.eof]) :
    primary expr c = .ok (a.expr c.current.span, c.next) := by
  have hkind : c.kind = a.kind := Cursor.kind_eq hc
  cases a with
  | name text plain =>
    have hfunction : c.nextKind ≠ .word "function" := by
      cases rest with
      | nil => rw [Cursor.nextKind_eq hc]; simp
      | cons p rest =>
        rw [Cursor.nextKind_eq hc]
        cases p.1.op <;> simp [BinaryOp.kind]
    simp only [operandWords, List.mem_cons, not_or] at plain
    simp [primary, hkind, Atom.kind, plain, hfunction, Atom.expr, -bind_pure_comp]
  | number | string =>
    simp only [primary, get_bind, hkind, Atom.kind]
    rfl

theorem unaryOp?_atom (a : Atom) : unaryOp? a.kind = none := by
  cases a with
  | name text plain =>
    simp only [operandWords, List.mem_cons, not_or] at plain
    unfold unaryOp? Atom.kind
    split <;> simp_all
  | number | string => rfl

/-- An operand of a sequence is read as it stands, whatever the operator after it. -/
theorem unary_atom (a : Atom) (hc : c.kinds = sequenceText a rest ++ [.eof]) :
    unary expr c = .ok (a.expr c.current.span, c.next) := by
  have hkind : c.kind = a.kind := Cursor.kind_eq hc
  have hbound : ∀ c : Cursor, c.bound = c.ahead.length + 1 + 1 := fun _ => rfl
  have hnew : c.atWord "new" = false := by
    cases a with
    | name text plain =>
      have hne : text ≠ "new" := by
        rintro rfl
        exact plain (by decide)
      simpa [Cursor.atWord, hkind, Atom.kind] using hne
    | number | string => simp [Cursor.atWord, hkind, Atom.kind]
  rw [unary, get_bind, hbound, unaryFrom, get_bind, hkind, unaryOp?_atom]
  dsimp only
  rw [suffixed, here_bind, get_bind, hnew, if_neg Bool.false_ne_true,
    bind_ok (primary_atom a hc)]
  beta_reduce
  rw [get_bind, hbound]
  exact suffixesFrom_operations (Cursor.next_kinds hc (by simp)) _ _ _

/-! ### Climbing -/

/-- At an operator of a level that is too low the operand is done; otherwise it becomes the left one
of the operator. -/
theorem climb_operator (operand : Parser Expr) {o : Operator} (hkind : c.kind = o.op.kind)
    (rounds : ℕ) (start : Span) (least : ℕ) (left : Expr) :
    climb operand (rounds + 1) start least left c =
      if o.level < least then .ok (left, c)
      else (do
        let right ← climb operand rounds c.next.current.span (o.level + 1) (← operand)
        climb operand rounds start least (.binary o.op left right (← spanFrom start))) c.next := by
  have hword : (c.atWord "as" || c.atWord "satisfies") = false := by
    cases hop : o.op <;> simp [Cursor.atWord, hkind, hop, BinaryOp.kind]
  have hop : (BinaryOp.ofKind? c.kind).bind (fun op => op.precedence?.map (op, ·)) =
      some (o.op, o.level) := by
    rw [hkind, BinaryOp.ofKind?_kind, Option.bind_some, o.level_eq, Option.map_some]
  rw [climb, get_bind, hword, if_neg Bool.false_ne_true, hop]
  dsimp only
  split_ifs <;> rfl

theorem climb_end (operand : Parser Expr) (hkind : c.kind = .eof) (rounds : ℕ) (start : Span)
    (least : ℕ) (left : Expr) : climb operand (rounds + 1) start least left c = .ok (left, c) := by
  rw [climb, get_bind]
  simp [Cursor.atWord, hkind, BinaryOp.ofKind?]

/-- The operations of a sequence from some operator on are taken up to the first one of a lower
level. The operand `left` read so far may stand on the left of the next operator, and so may what is
read in the end. -/
theorem climb_groups {rounds : ℕ} (hrounds : rest.length < rounds) {least : ℕ} {left : Expr}
    (start : Span) (hc : c.kinds = operationsText rest ++ [.eof]) (hleast : Grouped least left)
    (hnext : ∀ p ∈ rest.head?, Grouped p.1.level left) :
    ∃ e c' taken later, climb (unary expr) rounds start least left c = .ok (e, c') ∧
      rest = taken ++ later ∧ c'.kinds = operationsText later ++ [.eof] ∧
      e.inOrder = left.inOrder ++ operations taken ∧ Grouped least e ∧
      ∀ p ∈ later.head?, p.1.level < least := by
  induction rounds generalizing rest c least left start with
  | zero => omega
  | succ rounds ih =>
    cases rest with
    | nil =>
      exact ⟨left, c, [], [], climb_end _ (Cursor.kind_eq hc) .., rfl, hc, by simp [operations],
        hleast, by simp⟩
    | cons p rest =>
      obtain ⟨o, a⟩ := p
      have hkind : c.kind = o.op.kind := Cursor.kind_eq hc
      rw [climb_operator _ hkind]
      split_ifs with hlow
      · exact ⟨left, c, [], (o, a) :: rest, rfl, rfl, hc, by simp [operations], hleast,
          by simpa using hlow⟩
      have hoperand : c.next.kinds = sequenceText a rest ++ [.eof] := Cursor.next_kinds hc (by simp)
      have hlater := Cursor.next_kinds hoperand (by simp)
      rw [List.length_cons] at hrounds
      -- the right operand ends before the next operator of the same level or a lower one
      obtain ⟨right, c₁, inner, outer, hright, rfl, hc₁, hinner, hgrouped, hstop⟩ :=
        ih (by omega) c.next.current.span hlater (.atom (o.level + 1) a c.next.current.span)
          fun p _ => .atom p.1.level a _
      set node := Expr.binary o.op left right (c₁.spanFrom start)
      have hnode : ∀ level ≤ o.level, Grouped level node := fun level hlevel =>
        .node o _ hlevel (hnext (o, a) rfl) hgrouped
      rw [List.length_append] at hrounds
      obtain ⟨e, c₂, taken, later, he, rfl, hc₂, horder, hresult, hend⟩ :=
        ih (by omega) start hc₁ (hnode least (Nat.le_of_not_lt hlow))
          fun p hp => hnode p.1.level (Nat.le_of_lt_succ (hstop p hp))
      refine ⟨e, c₂, (o, a) :: inner ++ taken, later, ?_, by simp, hc₂, ?_, hresult, hend⟩
      · rw [bind_ok (unary_atom a hoperand), bind_ok hright]
        exact he
      · rw [horder]
        simp [node, Expr.inOrder, hinner, operations]

/-- Operands with operators between them are read to the end, whatever reads the expressions inside
of operands. The tree has them in their order and groups them by the levels of the operators, and it
is the only tree that does. -/
theorem binary_groups (expr : Parser Expr) (first : Atom) (rest : List (Operator × Atom))
    (hc : c.kinds = sequenceText first rest ++ [.eof]) :
    ∃ e c', binary expr 1 c = .ok (e, c') ∧ c'.kinds = [.eof] ∧ e.inOrder = sequence first rest ∧
      Grouped 1 e ∧ ∀ e', e'.inOrder = sequence first rest → Grouped 1 e' → e'.bare = e.bare := by
  have hnext := Cursor.next_kinds hc (by simp)
  have hrounds : rest.length < c.bound := by
    have hlength := length_operationsText rest
    rw [← Cursor.length_kinds, hc, List.length_append, sequenceText, List.length_cons]
    omega
  obtain ⟨e, c', taken, later, he, rfl, hc', horder, hgrouped, hlater⟩ :=
    climb_groups hrounds c.current.span hnext (.atom 1 first c.current.span)
      fun p _ => .atom p.1.level first _
  -- no operator is below the first level, so none is left
  obtain rfl : later = [] := by
    cases later with
    | nil => rfl
    | cons p later =>
      have hlevel := hlater p rfl
      have hpos := p.1.level_pos
      omega
  rw [Atom.inOrder_expr, ← List.append_nil taken] at horder
  refine ⟨e, c', ?_, hc', horder, hgrouped, fun e' he' hgrouped' => ?_⟩
  · rw [binary, get_bind, here_bind, bind_ok (unary_atom first hc)]
    exact he
  · exact hgrouped'.bare_eq hgrouped (he'.trans horder.symm)

/-- What follows the first operand of `x < y + 2 * z > w ?? "s" instanceof u`. From the sign `<` on
the text up to `>` could be type arguments. -/
def comparisons : List (Operator × Atom) :=
  [(⟨.mark .less, 8, rfl⟩, .name "y" (by decide)),
    (⟨.mark .plus, 10, rfl⟩, .number (Binary64.ofNat 2)),
    (⟨.mark .star, 11, rfl⟩, .name "z" (by decide)),
    (⟨.mark .greater, 8, rfl⟩, .name "w" (by decide)),
    (⟨.mark .nullish, 1, rfl⟩, .string "s"),
    (⟨.instanceOf, 8, rfl⟩, .name "u" (by decide))]

/-- The comparisons with their groups. -/
def groupedComparisons : Expr :=
  .binary (.mark .nullish)
    (.binary (.mark .greater)
      (.binary (.mark .less) (.ident "x" default)
        (.binary (.mark .plus) (.ident "y" default)
          (.binary (.mark .star) (.number (Binary64.ofNat 2) default) (.ident "z" default) default)
          default) default)
      (.ident "w" default) default)
    (.binary .instanceOf (.string "s" default) (.ident "u" default) default) default

theorem grouped_comparisons : Grouped 1 groupedComparisons := by
  have hatom := fun least (a : Atom) => Grouped.atom least a default
  have hproduct : Grouped 11 _ := .node ⟨.mark .star, 11, rfl⟩ default (by decide)
    (hatom _ (.number (Binary64.ofNat 2))) (hatom _ (.name "z" (by decide)))
  have hsum : Grouped 9 _ := .node ⟨.mark .plus, 10, rfl⟩ default (by decide)
    (hatom _ (.name "y" (by decide))) hproduct
  have hless : Grouped 8 _ := .node ⟨.mark .less, 8, rfl⟩ default (by decide)
    (hatom _ (.name "x" (by decide))) hsum
  have hgreater : Grouped 1 _ := .node ⟨.mark .greater, 8, rfl⟩ default (by decide)
    hless (hatom _ (.name "w" (by decide)))
  have hinstance : Grouped 2 _ := .node ⟨.instanceOf, 8, rfl⟩ default (by decide)
    (hatom _ (.string "s")) (hatom _ (.name "u" (by decide)))
  exact .node ⟨.mark .nullish, 1, rfl⟩ default (by decide) hgreater hinstance

/-- The text of the comparisons with their first operand. -/
def comparing : Cursor :=
  .ofTokens <| (sequenceText (.name "x" (by decide)) comparisons ++ [Kind.eof]).map fun k =>
    ⟨k, default, none, false⟩

theorem binary_comparing :
    comparing.kinds = sequenceText (.name "x" (by decide)) comparisons ++ [.eof] ∧
      ∃ e c', binary Parser.expr 1 comparing = .ok (e, c') ∧ c'.kinds = [.eof] ∧
        e.bare = groupedComparisons := by
  have hc : comparing.kinds = sequenceText (.name "x" (by decide)) comparisons ++ [.eof] := rfl
  obtain ⟨e, c', he, hc', -, -, honly⟩ := binary_groups Parser.expr _ comparisons hc
  exact ⟨hc, e, c', he, hc', (honly groupedComparisons rfl grouped_comparisons).symm⟩

end Parser

end CodecDocs.Script
