import Mathlib.Data.List.Forall2
import ArcLang.Diagnostic.Collector
import ArcLang.Token.Scan
import ArcLang.Tree

/-!
# Trees and diagnostics with other places

One map of places, put through tokens, trees and diagnostics. A tree is moved as a whole; what a
diagnostic says stays the same, but for a hint that quotes the place of an opening delimiter.

* `Expr.span_moved`, `Block.span_moved`: a moved tree stands on the moved span.
* `Cause.Moves`: the same cause, with the place that it may quote moved along.
* `Collector.sorted_moves`: diagnostics are ordered in the same way where the map keeps the order.
-/

namespace ArcLang

variable (f : Location → Location)

/-! ## Trees -/

/-- The span between the places that the ends are moved to. -/
def Span.moved (s : Span) : Span := ⟨f s.start, f s.stop⟩

/-- The token at the span that its own is moved to. -/
def Token.moved (t : Token) : Token := { t with span := t.span.moved f }

/-- The type with every span in it moved. -/
def TypeName.moved : TypeName → TypeName
  | bool span => bool (span.moved f)
  | float span => float (span.moved f)
  | int span signed width => int (span.moved f) signed width
  | array span element length => array (span.moved f) element.moved length
  | named span name => named (span.moved f) name

mutual

/-- The expression with every span in it moved. -/
def Expr.moved : Expr → Expr
  | .char span text => .char (span.moved f) text
  | .string span text => .string (span.moved f) text
  | .number span text radix => .number (span.moved f) text radix
  | .boolean span value => .boolean (span.moved f) value
  | .array span elements => .array (span.moved f) (Expr.movedEach elements)
  | .name span text => .name (span.moved f) text
  | .member span target text => .member (span.moved f) target.moved text
  | .index span target place => .index (span.moved f) target.moved place.moved
  | .call span callee arguments =>
    .call (span.moved f) callee.moved (Expr.movedEach arguments)
  | .binary span op left right => .binary (span.moved f) op left.moved right.moved
  | .unary span op operand => .unary (span.moved f) op operand.moved
  | .paren span inner => .paren (span.moved f) inner.moved
  | .assign span target op value => .assign (span.moved f) target.moved op value.moved

/-- The expressions with every span in them moved. -/
def Expr.movedEach : List Expr → List Expr
  | [] => []
  | e :: more => e.moved :: Expr.movedEach more

end

mutual

/-- The statement with every span in it moved. -/
def Stmt.moved : Stmt → Stmt
  | .breakLoop span => .breakLoop (span.moved f)
  | .ret span value => .ret (span.moved f) (value.map (Expr.moved f))
  | .loop span condition body => .loop (span.moved f) (condition.moved f) body.moved
  | .branch span condition consequent none =>
    .branch (span.moved f) (condition.moved f) consequent.moved none
  | .branch span condition consequent (some alternate) =>
    .branch (span.moved f) (condition.moved f) consequent.moved (some alternate.moved)
  | .expression span expr => .expression (span.moved f) (expr.moved f)

/-- The body with every span in it moved. -/
def Block.moved : Block → Block
  | .mk span statements => .mk (span.moved f) (Stmt.movedEach statements)

/-- The statements with every span in them moved. -/
def Stmt.movedEach : List Stmt → List Stmt
  | [] => []
  | s :: more => s.moved :: Stmt.movedEach more

end

/-- The name and its type with every span in them moved. -/
def Binding.moved (b : Binding) : Binding := ⟨b.span.moved f, b.name, b.type.moved f⟩

/-- The function with every span in it moved. -/
def Function.moved (g : Function) : Function :=
  ⟨g.span.moved f, g.name, g.parameters.map (Binding.moved f), g.result.map (TypeName.moved f),
    g.body.moved f⟩

/-- The struct with every span in it moved. -/
def Struct.moved (s : Struct) : Struct :=
  ⟨s.span.moved f, s.name, s.fields.map (Binding.moved f)⟩

/-- The item with every span in it moved. -/
def Item.moved : Item → Item
  | function g => function (g.moved f)
  | struct s => struct (s.moved f)
  | statement s => statement (s.moved f)

variable {f}

theorem Expr.movedEach_eq (es : List Expr) : Expr.movedEach f es = es.map (Expr.moved f) := by
  induction es with
  | nil => rfl
  | cons e es ih => rw [Expr.movedEach, ih]; rfl

theorem Stmt.movedEach_eq (ss : List Stmt) : Stmt.movedEach f ss = ss.map (Stmt.moved f) := by
  induction ss with
  | nil => rfl
  | cons s ss ih => rw [Stmt.movedEach, ih]; rfl

@[simp] theorem Expr.span_moved (e : Expr) : (e.moved f).span = e.span.moved f := by
  cases e <;> rfl

@[simp] theorem Expr.isAddressable_moved (e : Expr) :
    (e.moved f).isAddressable = e.isAddressable := by
  cases e <;> rfl

theorem Span.moved_upTo (a b : Span) : (a.upTo b).moved f = (a.moved f).upTo (b.moved f) := rfl

@[simp] theorem Token.kind_moved (t : Token) : (t.moved f).kind = t.kind := rfl

@[simp] theorem Token.lexeme_moved (t : Token) : (t.moved f).lexeme = t.lexeme := rfl

@[simp] theorem Token.span_moved (t : Token) : (t.moved f).span = t.span.moved f := rfl

@[simp] theorem Token.place_moved (t : Token) : (t.moved f).place = f t.place := rfl

@[simp] theorem Token.isEnd_moved (t : Token) : (t.moved f).isEnd = t.isEnd := rfl

@[simp] theorem Token.isError_moved (t : Token) : (t.moved f).isError = t.isError := rfl

@[simp] theorem Token.describe_moved (t : Token) : (t.moved f).describe = t.describe := rfl

/-! ## Where nothing moves -/

theorem Token.moved_id (t : Token) : t.moved id = t := rfl

theorem TypeName.moved_id (t : TypeName) : t.moved id = t := by
  induction t with
  | array span element length ih => rw [moved, ih]; rfl
  | _ => rfl

mutual

theorem Expr.moved_id : ∀ e : Expr, e.moved id = e
  | .char .. | .string .. | .number .. | .boolean .. | .name .. => rfl
  | .array span elements => by rw [moved, movedEach_id elements]; rfl
  | .member span target text => by rw [moved, moved_id target]; rfl
  | .index span target place => by rw [moved, moved_id target, moved_id place]; rfl
  | .call span callee arguments => by rw [moved, moved_id callee, movedEach_id arguments]; rfl
  | .binary span op left right => by rw [moved, moved_id left, moved_id right]; rfl
  | .unary span op operand => by rw [moved, moved_id operand]; rfl
  | .paren span inner => by rw [moved, moved_id inner]; rfl
  | .assign span target op value => by rw [moved, moved_id target, moved_id value]; rfl

theorem Expr.movedEach_id : ∀ es : List Expr, Expr.movedEach id es = es
  | [] => rfl
  | e :: more => by rw [movedEach, moved_id e, movedEach_id more]

end

mutual

theorem Stmt.moved_id : ∀ s : Stmt, s.moved id = s
  | .breakLoop .. => rfl
  | .ret span none => rfl
  | .ret span (some value) => by rw [Stmt.moved, Option.map_some, value.moved_id]; rfl
  | .loop span condition body => by rw [Stmt.moved, condition.moved_id, Block.moved_id body]; rfl
  | .branch span condition consequent none => by
    rw [Stmt.moved, condition.moved_id, Block.moved_id consequent]; rfl
  | .branch span condition consequent (some alternate) => by
    rw [Stmt.moved, condition.moved_id, Block.moved_id consequent, Block.moved_id alternate]; rfl
  | .expression span expr => by rw [Stmt.moved, expr.moved_id]; rfl

theorem Block.moved_id : ∀ b : Block, b.moved id = b
  | .mk span statements => by rw [Block.moved, Stmt.movedEach_id statements]; rfl

theorem Stmt.movedEach_id : ∀ ss : List Stmt, Stmt.movedEach id ss = ss
  | [] => rfl
  | s :: more => by rw [Stmt.movedEach, Stmt.moved_id s, Stmt.movedEach_id more]

end

theorem Binding.moved_id (b : Binding) : b.moved id = b := by
  rw [moved, b.type.moved_id]; rfl

theorem Item.moved_id (i : Item) : i.moved id = i := by
  cases i with
  | function g =>
    have hparameters : g.parameters.map (Binding.moved id) = g.parameters :=
      List.map_id'' Binding.moved_id _
    have hresult : g.result.map (TypeName.moved id) = g.result := by
      cases g.result with
      | none => rfl
      | some type => exact congrArg some type.moved_id
    rw [moved, Function.moved, hparameters, hresult, g.body.moved_id]
    rfl
  | struct s =>
    have hfields : s.fields.map (Binding.moved id) = s.fields := List.map_id'' Binding.moved_id _
    rw [moved, Struct.moved, hfields]
    rfl
  | statement s => rw [moved, s.moved_id]

/-! ## Diagnostics -/

namespace Cause

/-- What is missing would match the delimiter that stands at a place; the hint quotes the place. -/
def unclosed (expected delimiter : String) (l : Location) : Cause :=
  let place := s!"{l.line}:{l.column}"
  .missingToken expected (some s!"to match {delimiter} at {place}")

variable (f) in
/-- The same cause, where a place that it quotes is moved along. -/
inductive Moves : Cause → Cause → Prop
  | plain {c : Cause} : (∀ expected delimiter l, c ≠ unclosed expected delimiter l) → Moves c c
  | unclosed (expected delimiter : String) (l : Location) :
      Moves (unclosed expected delimiter l) (unclosed expected delimiter (f l))

/-- A hint that begins with other characters quotes no place. -/
theorem Moves.missingToken {expected hint : String}
    (h : hint.toList.take 2 ≠ "to".toList) : Moves f (.missingToken expected (some hint))
      (.missingToken expected (some hint)) := by
  refine .plain fun expected' delimiter l heq => h ?_
  injection heq with _ hhint
  rw [Option.some.inj hhint]
  simp [String.toList_append, ToString.toString]

/-- What was found instead is named without its place. -/
theorem Moves.found (expected found : String) :
    Moves f (.missingToken expected (some s!"found {found}"))
      (.missingToken expected (some s!"found {found}")) := by
  refine .missingToken ?_
  simp [String.toList_append, ToString.toString]

end Cause

variable (f) in
/-- The same diagnostic at the moved place; the line that it shows is the same. -/
structure Diagnostic.Moves (d d' : Diagnostic) : Prop where
  place : d'.place = d.place.map f
  line : d'.line = d.line
  cause : d.cause.Moves f d'.cause

variable (f) in
/-- The same scan at the moved place. -/
inductive Scan.Moves : Scan → Scan → Prop
  | token (t : Token) : Moves (.token t) (.token (t.moved f))
  | fault {why why' : Diagnostic} (t : Token) : why.Moves f why' →
      Moves (.fault why t) (.fault why' (t.moved f))

theorem Scan.Moves.shown {x y : Scan} (h : x.Moves f y) : y.shown = x.shown.moved f := by
  cases h <;> rfl

/-! ## Order -/

/-- Sorting by an order that respects a relation keeps related lists related. -/
theorem forall₂_mergeSort {α : Type} {R : α → α → Prop} {le : α → α → Bool}
    (hle : ∀ {a a' b b'}, R a a' → R b b' → le a b = le a' b') {as bs : List α}
    (h : List.Forall₂ R as bs) : List.Forall₂ R (as.mergeSort le) (bs.mergeSort le) := by
  -- both lists are views of one list of related pairs
  obtain ⟨zs, rfl, rfl⟩ : ∃ zs : List { p : α × α // R p.1 p.2 },
      zs.map (·.1.1) = as ∧ zs.map (·.1.2) = bs := by
    induction h with
    | nil => exact ⟨[], rfl, rfl⟩
    | cons hab _ ih =>
      obtain ⟨zs, rfl, rfl⟩ := ih
      exact ⟨⟨(_, _), hab⟩ :: zs, rfl, rfl⟩
  have hfirst := List.map_mergeSort (l := zs) (f := fun z => z.1.1)
    (r := fun y z => le y.1.1 z.1.1) (s := le) fun _ _ _ _ => rfl
  have hsecond := List.map_mergeSort (l := zs) (f := fun z => z.1.2)
    (r := fun y z => le y.1.1 z.1.1) (s := le) fun y _ z _ => hle y.2 z.2
  rw [← hfirst, ← hsecond, List.forall₂_map_left_iff, List.forall₂_map_right_iff, List.forall₂_same]
  exact fun z _ => z.2

/-- **Moved diagnostics are listed in the same order** where the map keeps the order of places. -/
theorem Collector.sorted_moves (hf : ∀ l m, (f l).offset ≤ (f m).offset ↔ l.offset ≤ m.offset)
    {c c' : Collector} (h : List.Forall₂ (Diagnostic.Moves f) c.errors c'.errors) :
    List.Forall₂ (Diagnostic.Moves f) c.sorted c'.sorted := by
  refine forall₂_mergeSort (fun {a a' b b'} ha hb => ?_) h
  unfold precedes
  rw [ha.place, hb.place]
  cases a.place with
  | none => cases b.place <;> rfl
  | some l =>
    cases b.place with
    | none => rfl
    | some m => exact decide_eq_decide.2 (hf l m).symm

end ArcLang
