import ArcLang.Tree.Describe

/-!
# Listings

A printer walks a tree and writes indented lines: one for each definition and statement, with two
blanks for each level. Expressions stand inside their lines in the words of `Expr.describe`. Lengths
are written in full; whether one has too many digits for that is asked before (`Node.isWritable`).

* `Printer.visit`: the walk, on which the level goes up and down.
* `Printer.print`: the text of a tree.
-/

namespace ArcLang

/-- A line at a level of indentation. -/
def indented (level : Nat) (text : String) : String :=
  String.ofList (List.replicate (2 * level) ' ') ++ text

section Signatures

variable {σ : Type}

/-- The type in its spelling, with a call for each type that stands within another. -/
def TypeName.format : TypeName → Walk σ String
  | array _ element length => .call do
    let element ← element.format
    return s!"[{element}, {length}]"
  | t => .call (return t.spelling)

/-- The name and the spelling of the type. -/
def Binding.format (b : Binding) : Walk σ String := do
  let type ← b.type.format
  return s!"{b.name}: {type}"

/-- What stands behind the parameters: the spelling of the result, if there is one. -/
def Function.formatResult : Option TypeName → Walk σ String
  | none => return ""
  | some t => do
    let type ← t.format
    return s!": {type}"

/-- The name, the parameters and the result, as scripts write them. A call brings the parameters. -/
def Function.format (f : Function) : Walk σ String := do
  let parameters ← Walk.call (Walk.each Binding.format f.parameters)
  let result ← formatResult f.result
  let between := ", ".intercalate parameters
  return s!"{f.name}({between}){result}"

end Signatures

/-- What has been printed, and the level of the next line. -/
structure Printer where
  output : Array String := #[]
  level : Int := 0

namespace Printer

/-- Writes a line at the level. -/
def emit (text : String) (p : Printer) : Printer :=
  { p with output := p.output.push (indented p.level.toNat text) }

/-- One level deeper. -/
def deeper (p : Printer) : Printer := { p with level := p.level + 1 }

/-- One level less deep. -/
def shallower (p : Printer) : Printer := { p with level := p.level - 1 }

/-- Walks one level deeper. A walk that overflows does not come back to the level. -/
def nested (w : Walk Printer Unit) : Walk Printer Unit := do
  modify deeper
  w
  modify shallower

/-- Writes the line of a field. -/
def field (b : Binding) : Walk Printer Unit := do
  let text ← b.format
  modify (emit ("Field: " ++ text))

/-- Writes the lines of a node: a call finds what is to be done at it, and another one does it. What
has no line of its own is only walked through. -/
def visit (n : Node) : Walk Printer Unit := .call <| .call <|
  match n with
  | .program q => do
    modify (emit "Program")
    nested (Walk.forEach (fun ⟨c, _⟩ => visit c) (Node.program q).children.attach)
  | .function f => do
    let text ← f.format
    modify (emit ("Function: " ++ text))
    Walk.call (nested (visit (.block f.body)))
  | .struct s => do
    modify (emit ("Struct: " ++ s.name))
    nested (Walk.forEach field s.fields)
  | .statement (.breakLoop _) => modify (emit "Break")
  | .statement (.ret _ none) => modify (emit "Return")
  | .statement (.ret _ (some value)) => do
    let text ← value.describe
    modify (emit ("Return " ++ text))
  | .statement (.loop _ condition body) => do
    let text ← condition.describe
    modify (emit ("While " ++ text))
    Walk.call (nested (visit (.block body)))
  | .statement (.branch _ condition consequent none) => do
    let text ← condition.describe
    modify (emit ("If " ++ text))
    nested do
      modify (emit "Then:")
      Walk.call (nested (visit (.block consequent)))
  | .statement (.branch _ condition consequent (some alternate)) => do
    let text ← condition.describe
    modify (emit ("If " ++ text))
    nested do
      modify (emit "Then:")
      Walk.call (nested (visit (.block consequent)))
      modify (emit "Else:")
      Walk.call (nested (visit (.block alternate)))
  | .statement (.expression _ expr) => do
    let text ← expr.describe
    modify (emit ("Expr: " ++ text))
  | n => Walk.forEach (fun ⟨c, _⟩ => visit c) n.children.attach
termination_by sizeOf n
decreasing_by
  · exact Node.sizeOf_lt_of_mem_children ‹_›
  · exact Node.sizeOf_lt_of_mem_children (List.mem_append_right _ (List.mem_singleton_self _))
  · exact Node.sizeOf_lt_of_mem_children (List.mem_cons_of_mem _ List.mem_cons_self)
  · exact Node.sizeOf_lt_of_mem_children (List.mem_cons_of_mem _ List.mem_cons_self)
  · exact Node.sizeOf_lt_of_mem_children (List.mem_cons_of_mem _ List.mem_cons_self)
  · exact Node.sizeOf_lt_of_mem_children
      (List.mem_cons_of_mem _ (List.mem_cons_of_mem _ List.mem_cons_self))
  · exact Node.sizeOf_lt_of_mem_children ‹_›

/-- Prints a tree, whatever was printed before. -/
def print (n : Node) : Walk Printer String := do
  modify fun p => { p with output := #[], level := 0 }
  visit n
  return "\n".intercalate (← get).output.toList

end Printer

end ArcLang
