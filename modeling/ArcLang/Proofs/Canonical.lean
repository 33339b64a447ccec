import ArcLang.Proofs.Grouping
import ArcLang.Proofs.Rescanning

/-!
# Canonical trees

The trees that can be written out and read again: names are no reserved words, literals have the
text of literals, lengths are short enough to be written, and operators are grouped so that no
parentheses are missing.

* `Node.Canonical`: the condition on one node.
* `Program.lexical_marks`: every mark of a canonical program can be written.
-/

namespace ArcLang

/-- An identifier that is no reserved word. -/
def IsName (text : String) : Prop := Kind.identifier.Spells text.toList

instance (text : String) : Decidable (IsName text) :=
  inferInstanceAs (Decidable (Kind.identifier.Spells text.toList))

/-- The expression itself has a text that tokens may have, and a number the radix of its text. -/
def Expr.IsLexical : Expr → Prop
  | char _ text => Kind.char.Spells (quoted '\x27' text).toList
  | string _ text => Kind.string.Spells (quoted '"' text).toList
  | number _ text radix => Kind.number.Spells text.toList ∧ radix = .of text
  | name _ text | member _ _ text => IsName text
  | _ => True

instance : DecidablePred Expr.IsLexical := fun e => by
  unfold Expr.IsLexical; split <;> infer_instance

namespace Node

/-- What the node itself says has a text that tokens may have. -/
def IsLexical : Node → Prop
  | function f => IsName f.name
  | struct s => IsName s.name
  | parameter b | field b => IsName b.name
  | typeName (.named _ text) => IsName text
  | typeName (.array _ _ n) => Numeral.isWritable n = true
  | expression e => e.IsLexical
  | _ => True

/-- The node can be written out and read again. -/
structure Canonical (n : Node) : Prop where
  lexical : n.IsLexical
  grouped : n.Grouped

instance : DecidablePred IsLexical := fun n => by unfold IsLexical; split <;> infer_instance

instance : DecidablePred Canonical := fun n =>
  decidable_of_iff (n.IsLexical ∧ n.Grouped) ⟨fun h => ⟨h.1, h.2⟩, fun h => ⟨h.1, h.2⟩⟩

end Node

open Mark (keyword symbol name commaSeparated IsLexical)

/-- All of the marks can be written. -/
def Lexical (ms : List Mark) : Prop := ∀ m ∈ ms, m.IsLexical

namespace Lexical

variable {ms ns : List Mark} {m : Mark}

theorem nil : Lexical [] := List.forall_mem_nil _

theorem cons (hm : m.IsLexical) (h : Lexical ms) : Lexical (m :: ms) :=
  List.forall_mem_cons.2 ⟨hm, h⟩

theorem append (h : Lexical ms) (h' : Lexical ns) : Lexical (ms ++ ns) :=
  List.forall_mem_append.2 ⟨h, h'⟩

theorem keyword {k : Keyword} (h : Lexical ms) : Lexical (keyword k :: ms) := cons rfl h

theorem symbol {s : Symbol} (h : Lexical ms) : Lexical (symbol s :: ms) := cons rfl h

theorem flatMap {α : Type} {marks : α → List Mark} {as : List α}
    (h : ∀ a ∈ as, Lexical (marks a)) : Lexical (as.flatMap marks) := by
  intro m hm
  obtain ⟨a, ha, hm⟩ := List.mem_flatMap.1 hm
  exact h a ha m hm

theorem commaSeparated {α : Type} {marks : α → List Mark} : {as : List α} →
    (∀ a ∈ as, Lexical (marks a)) → Lexical (commaSeparated (as.map marks))
  | [], _ => nil
  | [a], h => h a (List.mem_singleton_self a)
  | a :: b :: more, h => by
    obtain ⟨ha, hmore⟩ := List.forall_mem_cons.1 h
    exact ha.append (symbol (commaSeparated hmore))

end Lexical

theorem TypeName.lexical_marks {t : TypeName} (h : (Node.typeName t).Throughout Node.Canonical) :
    Lexical t.marks := by
  induction t with
  | named span text => exact .cons h.root.lexical .nil
  | array span element n ih =>
    have helement := ih (h.child (List.mem_singleton_self _))
    have hn : Numeral.isWritable n = true := h.root.lexical
    exact (Lexical.symbol helement).append (.symbol (.cons hn (.symbol .nil)))
  | _ => exact .keyword .nil

/-- Every node in the expression can be written out and read again. -/
abbrev Expr.IsCanonical (e : Expr) : Prop := (Node.expression e).Throughout Node.Canonical

theorem Expr.lexical_marks : (e : Expr) → e.IsCanonical → Lexical e.marks
  | char .., h | string .., h | name .., h => .cons h.root.lexical .nil
  | number .., h => .cons h.root.lexical.1 .nil
  | boolean .., _ => .keyword .nil
  | array _ elements, h => by
    rw [marks, marksEach_eq]
    have helements := Lexical.commaSeparated fun e (he : e ∈ elements) =>
      lexical_marks e (h.part he)
    exact .symbol (helements.append (.symbol .nil))
  | member _ target text, h => by
    have ht := lexical_marks target (h.part (List.mem_singleton_self _))
    exact ht.append (.symbol (.cons h.root.lexical .nil))
  | index _ target place, h => by
    have ht := lexical_marks target (h.part List.mem_cons_self)
    have hp := lexical_marks place (h.part (List.mem_cons_of_mem _ List.mem_cons_self))
    exact (ht.append (.symbol hp)).append (.symbol .nil)
  | call _ callee arguments, h => by
    rw [marks, marksEach_eq]
    have hc := lexical_marks callee (h.part List.mem_cons_self)
    have ha := Lexical.commaSeparated fun e (he : e ∈ arguments) =>
      lexical_marks e (h.part (List.mem_cons_of_mem _ he))
    exact (hc.append (.symbol ha)).append (.symbol .nil)
  | binary _ op l r, h => by
    have hl := lexical_marks l (h.part List.mem_cons_self)
    have hr := lexical_marks r (h.part (List.mem_cons_of_mem _ List.mem_cons_self))
    exact hl.append (.symbol hr)
  | unary _ op operand, h => .symbol (lexical_marks operand (h.part (List.mem_singleton_self _)))
  | paren _ inner, h =>
    .append (.symbol (lexical_marks inner (h.part (List.mem_singleton_self _)))) (.symbol .nil)
  | assign _ target op value, h => by
    have ht := lexical_marks target (h.part List.mem_cons_self)
    have hv := lexical_marks value (h.part (List.mem_cons_of_mem _ List.mem_cons_self))
    exact ht.append (.symbol hv)

mutual

theorem Stmt.lexical_marks : (s : Stmt) → (Node.statement s).Throughout Node.Canonical →
    Lexical s.marks
  | .breakLoop _, _ | .ret _ none, _ => .keyword (.symbol .nil)
  | .ret _ (some e), h =>
    .keyword ((e.lexical_marks (h.child (List.mem_singleton_self _))).append (.symbol .nil))
  | .loop _ condition body, h => by
    have hc := condition.lexical_marks (h.child List.mem_cons_self)
    have hb := body.lexical_marks (h.child (List.mem_cons_of_mem _ List.mem_cons_self))
    exact (Lexical.keyword hc).append hb
  | .branch _ condition consequent none, h => by
    have hc := condition.lexical_marks (h.child List.mem_cons_self)
    have hb := consequent.lexical_marks (h.child (List.mem_cons_of_mem _ List.mem_cons_self))
    exact (Lexical.keyword hc).append hb
  | .branch _ condition consequent (some alternate), h => by
    have hc := condition.lexical_marks (h.child List.mem_cons_self)
    have hb := consequent.lexical_marks (h.child (List.mem_cons_of_mem _ List.mem_cons_self))
    have ha := alternate.lexical_marks
      (h.child (List.mem_cons_of_mem _ (List.mem_cons_of_mem _ List.mem_cons_self)))
    exact ((Lexical.keyword hc).append hb).append (.keyword ha)
  | .expression _ e, h =>
    (e.lexical_marks (h.child (List.mem_singleton_self _))).append (.symbol .nil)

theorem Block.lexical_marks : (b : Block) → (Node.block b).Throughout Node.Canonical →
    Lexical b.marks
  | .mk _ statements, h => by
    have hs := Stmt.lexical_marksEach statements fun s hs => h.child (List.mem_map_of_mem hs)
    exact (Lexical.symbol hs).append (.symbol .nil)

theorem Stmt.lexical_marksEach : (ss : List Stmt) →
    (∀ s ∈ ss, (Node.statement s).Throughout Node.Canonical) → Lexical (Stmt.marksEach ss)
  | [], _ => .nil
  | s :: more, h => by
    obtain ⟨hs, hmore⟩ := List.forall_mem_cons.1 h
    exact (s.lexical_marks hs).append (Stmt.lexical_marksEach more hmore)

end

theorem Binding.lexical_marks {b : Binding} (hname : IsName b.name)
    (htype : (Node.typeName b.type).Throughout Node.Canonical) : Lexical b.marks :=
  .cons hname (.symbol (b.type.lexical_marks htype))

theorem Function.lexical_marks (f : Function) (h : (Node.function f).Throughout Node.Canonical) :
    Lexical f.marks := by
  have hparameters := Lexical.commaSeparated fun b (hb : b ∈ f.parameters) => by
    have hb : (Node.parameter b).Throughout Node.Canonical :=
      h.child (List.mem_append_left _ (List.mem_append_left _ (List.mem_map_of_mem hb)))
    exact b.lexical_marks hb.root.lexical (hb.child (List.mem_singleton_self _))
  have hresult : Lexical ((f.result.map fun t => symbol .colon :: t.marks).getD []) := by
    have hchild := fun t (ht : t ∈ f.result.toList) => h.child (c := .typeName t)
      (List.mem_append_left _ (List.mem_append_right _ (List.mem_map_of_mem ht)))
    cases hr : f.result with
    | none => exact .nil
    | some t => exact .symbol (t.lexical_marks (hchild t (Option.mem_toList.2 hr)))
  have hbody := f.body.lexical_marks (h.child (List.mem_append_right _ (List.mem_singleton_self _)))
  have hhead := Lexical.keyword (k := .function)
    (.cons (m := .name f.name) h.root.lexical (.symbol (s := .leftParen) hparameters))
  exact (hhead.append (.symbol hresult)).append hbody

theorem Struct.lexical_marks (s : Struct) (h : (Node.struct s).Throughout Node.Canonical) :
    Lexical s.marks := by
  have hfields := Lexical.commaSeparated fun b (hb : b ∈ s.fields) => by
    have hb : (Node.field b).Throughout Node.Canonical := h.child (List.mem_map_of_mem hb)
    exact b.lexical_marks hb.root.lexical (hb.child (List.mem_singleton_self _))
  have hhead := Lexical.keyword (k := .struct)
    (.cons (m := .name s.name) h.root.lexical (.symbol (s := .leftBrace) hfields))
  exact hhead.append (.symbol .nil)

/-- **Every mark of a canonical program can be written.** -/
theorem Program.lexical_marks {p : Program} (h : (Node.program p).Throughout Node.Canonical) :
    Lexical p.marks := by
  refine .flatMap fun i hi => ?_
  have hi := h.child (List.mem_map_of_mem hi)
  cases i with
  | function f => exact f.lexical_marks hi
  | struct s => exact s.lexical_marks hi
  | statement s => exact s.lexical_marks hi

end ArcLang
