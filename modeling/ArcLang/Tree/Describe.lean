import ArcLang.Tree.Node
import ArcLang.Walk

/-!
# Trees in words

Two one-line renderings. `describe` names every part of a tree and leaves out spans only; it walks
down the tree with a call for each node. `TypeName.spelling` writes a type as scripts do.
-/

namespace ArcLang

variable {σ : Type}

/-- Texts between brackets, with commas. -/
def bracketed (texts : List String) : String := "[" ++ ", ".intercalate texts ++ "]"

/-- Texts between brackets, which are walked for: there is a call for the list, and one within it
that brings the texts. -/
def listed (texts : Walk σ (List String)) : Walk σ String := .call do
  let texts ← texts.call
  return bracketed texts

namespace TypeName

/-- The type in the language's own spelling. -/
def spelling : TypeName → String
  | bool _ => "bool"
  | float _ => "float"
  | int _ signed width => integerTypeName signed width
  | array _ element length => s!"[{element.spelling}, {length}]"
  | named _ name => name

/-- The type in words. -/
def describe : TypeName → Walk σ String
  | bool _ => .call (return "Bool")
  | float _ => .call (return "Float")
  | int _ signed width => .call do
    let sign := if signed then "signed" else "unsigned"
    return s!"Int({sign},{width.bits})"
  | array _ element length => .call do
    let element ← element.describe
    return s!"Array({element},{length})"
  | named _ name => .call (return s!"Named({name})")

end TypeName

namespace Expr

mutual

/-- The expression in words. -/
def describe : Expr → Walk σ String
  | number _ text _ => .call (return s!"Num({text})")
  | boolean _ value => .call (return if value then "Bool(true)" else "Bool(false)")
  | char _ text => .call (return s!"Char({text})")
  | string _ text => .call (return s!"Str({text})")
  | array _ elements => .call do
    let elements ← listed (describeEach elements)
    return s!"ArrayLiteral({elements})"
  | name _ text => .call (return s!"Variable({text})")
  | member _ target text => .call do
    let target ← target.describe
    return s!"Member({target}, {text})"
  | index _ target place => .call do
    let target ← target.describe
    let place ← place.describe
    return s!"Index({target}, {place})"
  | call _ callee arguments => .call do
    let callee ← callee.describe
    let arguments ← listed (describeEach arguments)
    return s!"Call({callee}, {arguments})"
  | binary _ op left right => .call do
    let left ← left.describe
    let right ← right.describe
    return s!"Binary({op.symbol.spelling}, {left}, {right})"
  | unary _ op operand => .call do
    let operand ← operand.describe
    return s!"Prefix({op.symbol.spelling}, {operand})"
  | paren _ inner => .call do
    let inner ← inner.describe
    return s!"Paren({inner})"
  | assign _ target op value => .call do
    let target ← target.describe
    let value ← value.describe
    return s!"Assign({op.symbol.spelling}, {target}, {value})"

/-- The expressions of a list in words. -/
def describeEach : List Expr → Walk σ (List String)
  | [] => return []
  | e :: more => do
    let text ← e.describe
    let texts ← describeEach more
    return text :: texts

end

end Expr

mutual

/-- The statement in words. -/
def Stmt.describe : Stmt → Walk σ String
  | .breakLoop _ => .call (return "Break")
  | .ret _ none => .call (return "Return")
  | .ret _ (some value) => .call do
    let value ← value.describe
    return s!"Return({value})"
  | .loop _ condition body => .call do
    let condition ← condition.describe
    let body ← body.describe
    return s!"While({condition}, {body})"
  | .branch _ condition consequent none => .call do
    let condition ← condition.describe
    let consequent ← consequent.describe
    return s!"If({condition}, {consequent})"
  | .branch _ condition consequent (some alternate) => .call do
    let condition ← condition.describe
    let consequent ← consequent.describe
    let alternate ← alternate.describe
    return s!"If({condition}, {consequent}, {alternate})"
  | .expression _ expr => .call do
    let expr ← expr.describe
    return s!"ExprStmt({expr})"

/-- The body in words: a list of its statements. -/
def Block.describe : Block → Walk σ String
  | .mk _ statements => .call (listed (Stmt.describeEach statements))

/-- The statements of a list in words. -/
def Stmt.describeEach : List Stmt → Walk σ (List String)
  | [] => return []
  | s :: more => do
    let text ← s.describe
    let texts ← Stmt.describeEach more
    return text :: texts

end

/-- The name and the type in words. -/
def Binding.describe (b : Binding) : Walk σ String := .call do
  let type ← b.type.describe
  return s!"({b.name}, {type})"

/-- The function in words. -/
def Function.describe (f : Function) : Walk σ String := .call do
  let parameters ← listed (Walk.each Binding.describe f.parameters)
  let result ← f.result.elim (.call (return "None")) TypeName.describe
  let body ← f.body.describe
  return s!"FunctionDef({f.name}, {parameters}, {result}, {body})"

/-- The struct in words. -/
def Struct.describe (s : Struct) : Walk σ String := .call do
  let fields ← listed (Walk.each Binding.describe s.fields)
  return s!"StructDef({s.name}, {fields})"

/-- The item in words. -/
def Item.describe : Item → Walk σ String
  | function f => f.describe
  | struct s => s.describe
  | statement s => s.describe

/-- The program in words. -/
def Program.describe (p : Program) : Walk σ String := .call do
  let items ← listed (Walk.each Item.describe p.items)
  return s!"Program({items})"

namespace Node

/-- The node in one line. -/
def describe : Node → Walk σ String
  | program p => p.describe
  | function f => f.describe
  | parameter b | field b => b.describe
  | struct s => s.describe
  | block b => b.describe
  | statement s => s.describe
  | expression e => e.describe
  | typeName t => t.describe

/-- A type in its spelling; any other node is only named by its class. -/
def spelling : Node → String
  | typeName t => t.spelling
  | n => s!"<{n.className}>"

/-- Whether an expression may be assigned to; nothing is said of other nodes. -/
def isAddressable? : Node → Option Bool
  | expression e => some e.isAddressable
  | _ => none

/-- The node is a type that names an array with a length of too many digits to be written. -/
def hasHugeLength : Node → Bool
  | typeName (.array _ _ length) => !Numeral.isWritable length
  | _ => false

/-- Every length in the tree can be written in decimal. -/
def isWritable (n : Node) : Bool := (n.outline 0).all fun (_, part) => !part.hasHugeLength

end Node

end ArcLang
