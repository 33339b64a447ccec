import ArcLang.Diagnostic
import ArcLang.Tree.Node
import ArcLang.Walk

/-!
# Breaks outside loops

The grammar takes `break` wherever a statement may stand. This check walks a tree and finds those
that no `while` encloses; a function's body starts outside every loop. The walk goes down to the
leaves of expressions, so a long expression takes many frames of the stack.

* `LoopCheck.visit`: the walk, with a counter of loops.
* `Program.checkBreaks`: the diagnostics.
-/

namespace ArcLang

/-- What a walk keeps: how many loops enclose the place, and the spans of the breaks that were found
outside all of them. -/
structure LoopCheck where
  depth : Int := 0
  found : Array Span := #[]

namespace LoopCheck

/-- Notes a break, unless a loop encloses it. -/
def note (span : Span) (s : LoopCheck) : LoopCheck :=
  if s.depth = 0 then { s with found := s.found.push span } else s

/-- Into a loop. -/
def enter (s : LoopCheck) : LoopCheck := { s with depth := s.depth + 1 }

/-- Out of a loop. -/
def leave (s : LoopCheck) : LoopCheck := { s with depth := s.depth - 1 }

/-- What is done at a node, and then below it: a call finds what that is, and another one does it.
Only loops, functions and breaks are special; a function calls for what is done at other nodes. -/
def visit (n : Node) : Walk LoopCheck Unit := .call <| .call <|
  match n with
  | .statement (.breakLoop span) => modify (note span)
  | .statement (.loop _ condition body) => do
    visit (.expression condition)
    modify enter
    visit (.block body)
    modify leave
  | .function f => do
    let before ← get
    modify ({ · with depth := 0 })
    Walk.call (Walk.forEach (fun ⟨c, _⟩ => visit c) (Node.function f).children.attach)
    modify ({ · with depth := before.depth })
  | n => Walk.forEach (fun ⟨c, _⟩ => visit c) n.children.attach
termination_by sizeOf n
decreasing_by
  · exact Node.sizeOf_lt_of_mem_children List.mem_cons_self
  · exact Node.sizeOf_lt_of_mem_children (List.mem_cons_of_mem _ List.mem_cons_self)
  all_goals exact Node.sizeOf_lt_of_mem_children ‹_›

/-- Walks through a tree and brings what was found. -/
def search (n : Node) : Walk LoopCheck (List Span) := do
  visit n
  return (← get).found.toList

end LoopCheck

namespace Program

/-- The spans of all breaks outside loops, in the order in which they are come by. -/
def looseBreaks (p : Program) (frames : Nat) : Except Overflow (List Span) :=
  (LoopCheck.search (.program p)).outcome frames {}

/-- What the diagnostics of a check quote from. There are lines if the text is given and not
empty. -/
def quoted (p : Program) (text : Option String) : Source :=
  match text.filter (!·.isEmpty) with
  | some text => .ofText p.span.start.file text
  | none => { file := p.span.start.file }

/-- A diagnostic for each break outside loops, with the line of the break where there are lines. -/
def checkBreaks (p : Program) (text : Option String) (frames : Nat) :
    Except Overflow (List Diagnostic) := do
  let spans ← p.looseBreaks frames
  return spans.map fun span => .ofPlace (p.quoted text) span.start .breakOutsideLoop

end Program

end ArcLang
