import ArcLang.Token

/-!
# Operators

The operators with their symbols, and how tightly they bind. Binary operators of one level group
to the left; unary operators and assignments group to the right.

* `BinaryOp.ofSymbol?_eq_some_iff`, `UnaryOp.ofSymbol?_eq_some_iff`,
  `AssignOp.ofSymbol?_eq_some_iff`: an operator is known by its symbol.
-/

namespace ArcLang

/-- The levels of binding, from the loosest to the tightest. -/
inductive Precedence
  | assignment
  | logicalOr
  | logicalAnd
  | bitwiseOr
  | bitwiseXor
  | bitwiseAnd
  | equality
  | relational
  | shift
  | additive
  | multiplicative
  | unary
  | trailing
  deriving DecidableEq

namespace Precedence

/-- The place of a level, counted from one. -/
def rank : Precedence → Nat
  | assignment => 1
  | logicalOr => 2
  | logicalAnd => 3
  | bitwiseOr => 4
  | bitwiseXor => 5
  | bitwiseAnd => 6
  | equality => 7
  | relational => 8
  | shift => 9
  | additive => 10
  | multiplicative => 11
  | unary => 12
  | trailing => 13

end Precedence

/-- Operators between two operands. -/
inductive BinaryOp
  | add
  | subtract
  | multiply
  | divide
  | modulo
  | bitwiseAnd
  | bitwiseOr
  | bitwiseXor
  | leftShift
  | rightShift
  | logicalAnd
  | logicalOr
  | equal
  | less
  | greater
  | lessEqual
  | greaterEqual
  deriving DecidableEq

namespace BinaryOp

/-- The symbol that writes the operator. -/
def symbol : BinaryOp → Symbol
  | add => .plus
  | subtract => .minus
  | multiply => .star
  | divide => .slash
  | modulo => .percent
  | bitwiseAnd => .ampersand
  | bitwiseOr => .pipe
  | bitwiseXor => .caret
  | leftShift => .shiftLeft
  | rightShift => .shiftRight
  | logicalAnd => .and
  | logicalOr => .or
  | equal => .equal
  | less => .less
  | greater => .greater
  | lessEqual => .lessEqual
  | greaterEqual => .greaterEqual

/-- The operator that a symbol writes between two operands. -/
def ofSymbol? : Symbol → Option BinaryOp
  | .plus => some add
  | .minus => some subtract
  | .star => some multiply
  | .slash => some divide
  | .percent => some modulo
  | .ampersand => some bitwiseAnd
  | .pipe => some bitwiseOr
  | .caret => some bitwiseXor
  | .shiftLeft => some leftShift
  | .shiftRight => some rightShift
  | .and => some logicalAnd
  | .or => some logicalOr
  | .equal => some equal
  | .less => some less
  | .greater => some greater
  | .lessEqual => some lessEqual
  | .greaterEqual => some greaterEqual
  | _ => none

theorem ofSymbol?_eq_some_iff {s : Symbol} {op : BinaryOp} :
    ofSymbol? s = some op ↔ op.symbol = s := by
  cases s <;> cases op <;> decide

/-- The level of precedence of the operator. -/
def precedence : BinaryOp → Precedence
  | logicalOr => .logicalOr
  | logicalAnd => .logicalAnd
  | bitwiseOr => .bitwiseOr
  | bitwiseXor => .bitwiseXor
  | bitwiseAnd => .bitwiseAnd
  | equal => .equality
  | less | greater | lessEqual | greaterEqual => .relational
  | leftShift | rightShift => .shift
  | add | subtract => .additive
  | multiply | divide | modulo => .multiplicative

/-- How tightly the operator binds, as a number. -/
def rank (op : BinaryOp) : Nat := op.precedence.rank

end BinaryOp

/-- Operators in front of their only operand. -/
inductive UnaryOp
  | logicalNot
  | bitwiseNot
  | negate
  deriving DecidableEq

namespace UnaryOp

/-- The symbol that writes the operator. -/
def symbol : UnaryOp → Symbol
  | logicalNot => .not
  | bitwiseNot => .tilde
  | negate => .minus

/-- The operator that a symbol writes in front of an operand. -/
def ofSymbol? : Symbol → Option UnaryOp
  | .not => some logicalNot
  | .tilde => some bitwiseNot
  | .minus => some negate
  | _ => none

theorem ofSymbol?_eq_some_iff {s : Symbol} {op : UnaryOp} :
    ofSymbol? s = some op ↔ op.symbol = s := by
  cases s <;> cases op <;> decide

end UnaryOp

/-- Plain assignment, and assignments that apply a binary operator first. -/
inductive AssignOp
  | assign
  | add
  | subtract
  | multiply
  | divide
  | modulo
  | bitwiseAnd
  | bitwiseOr
  | bitwiseXor
  | leftShift
  | rightShift
  deriving DecidableEq

namespace AssignOp

/-- The symbol that writes the operator. -/
def symbol : AssignOp → Symbol
  | assign => .assign
  | add => .plusAssign
  | subtract => .minusAssign
  | multiply => .starAssign
  | divide => .slashAssign
  | modulo => .percentAssign
  | bitwiseAnd => .andAssign
  | bitwiseOr => .orAssign
  | bitwiseXor => .xorAssign
  | leftShift => .shiftLeftAssign
  | rightShift => .shiftRightAssign

/-- The assignment that a symbol writes. -/
def ofSymbol? : Symbol → Option AssignOp
  | .assign => some assign
  | .plusAssign => some add
  | .minusAssign => some subtract
  | .starAssign => some multiply
  | .slashAssign => some divide
  | .percentAssign => some modulo
  | .andAssign => some bitwiseAnd
  | .orAssign => some bitwiseOr
  | .xorAssign => some bitwiseXor
  | .shiftLeftAssign => some leftShift
  | .shiftRightAssign => some rightShift
  | _ => none

theorem ofSymbol?_eq_some_iff {s : Symbol} {op : AssignOp} :
    ofSymbol? s = some op ↔ op.symbol = s := by
  cases s <;> cases op <;> decide

/-- The operator applied before the value is stored. -/
def binary? : AssignOp → Option BinaryOp
  | assign => none
  | add => some .add
  | subtract => some .subtract
  | multiply => some .multiply
  | divide => some .divide
  | modulo => some .modulo
  | bitwiseAnd => some .bitwiseAnd
  | bitwiseOr => some .bitwiseOr
  | bitwiseXor => some .bitwiseXor
  | leftShift => some .leftShift
  | rightShift => some .rightShift

/-- **A compound assignment is spelled as its operator with an equals sign behind it.** -/
theorem spelling_of_binary? {op : AssignOp} {inner : BinaryOp} (h : op.binary? = some inner) :
    op.symbol.spelling = inner.symbol.spelling ++ "=" := by
  revert h; cases op <;> cases inner <;> decide

end AssignOp

namespace Kind

/-- The operator that a token of this kind writes between two operands. -/
def binaryOp? : Kind → Option BinaryOp
  | symbol s => BinaryOp.ofSymbol? s
  | _ => none

/-- The operator that a token of this kind writes in front of an operand. -/
def unaryOp? : Kind → Option UnaryOp
  | symbol s => UnaryOp.ofSymbol? s
  | _ => none

/-- The operator that a token of this kind writes in an assignment. -/
def assignOp? : Kind → Option AssignOp
  | symbol s => AssignOp.ofSymbol? s
  | _ => none

end Kind

end ArcLang
