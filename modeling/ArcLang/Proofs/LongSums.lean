import ArcLang.Proofs.LooseBreaks
import ArcLang.Proofs.RoundTrip
import ArcLang.Tree.Listing

/-!
# Long sums

A sum of any number of terms is accepted where two levels of nesting are granted, as it is read in a
loop. Its tree leans to the left, with a level for each term, and a walk down the tree takes frames
for each of them. So there are accepted texts that the stack is too small for.

* `Program.IsSum`: the trees of sums.
* `parse_sumText`: a sum of any length is accepted.
* `Program.IsSum.describe_overflows`, `Program.IsSum.print_overflows`: with no more frames than
  there are plus signs, the walks for texts overflow.
* `Program.IsSum.checkBreaks_overflows`: with no more than two for each plus sign, the check does.
-/

namespace ArcLang

/-- The sum `a + a + … + a` with so many plus signs, without spans. -/
def Expr.sum : Nat → Expr
  | 0 => .name .blank "a"
  | n + 1 => .binary .blank .add (sum n) (.name .blank "a")

/-- The text `a + a + … + a ;` with so many plus signs. -/
def sumText (n : Nat) : String := "a" ++ String.join (List.replicate n " + a") ++ " ;"

example : sumText 3 = "a + a + a + a ;" := by decide

/-- The expression is a sum with so many plus signs, whatever its spans. -/
inductive Expr.IsSum : Nat → Expr → Prop
  | single (span : Span) : IsSum 0 (.name span "a")
  | plus {n : Nat} {left : Expr} (span inner : Span) (h : IsSum n left) :
    IsSum (n + 1) (.binary span .add left (.name inner "a"))

/-- The program that is one sum, without spans. -/
def Program.sum (n : Nat) : Program := ⟨.blank, [.statement (.expression .blank (.sum n))]⟩

/-- The program is one sum with so many plus signs, whatever its spans. -/
structure Program.IsSum (n : Nat) (p : Program) : Prop where
  single : ∃ span e, p.items = [.statement (.expression span e)] ∧ e.IsSum n

namespace Expr

theorem erased_sum (n : Nat) : (sum n).erased = sum n := by
  induction n with
  | zero => rfl
  | succ n ih => exact congrArg (binary .blank .add · (name .blank "a")) ih

theorem isSum_of_erased {n : Nat} {e : Expr} (h : e.erased = sum n) : e.IsSum n := by
  induction n generalizing e with
  | zero =>
    cases e with
    | name span text =>
      obtain rfl : text = "a" := (Expr.name.inj h).2
      exact .single span
    | _ => cases h
  | succ n ih =>
    cases e with
    | binary span op left right =>
      obtain ⟨-, rfl, hleft, hright⟩ := Expr.binary.inj h
      cases right with
      | name inner text =>
        obtain rfl : text = "a" := (Expr.name.inj hright).2
        exact .plus span inner (ih hleft)
      | _ => cases hright
    | _ => cases h

end Expr

/-! ## Sums are accepted -/

theorem Mark.written_append {ms ns : List Mark} (hms : ms ≠ []) (hns : ns ≠ []) :
    written (ms ++ ns) = written ms ++ " " ++ written ns := by
  rw [written, List.map_append, String.intercalate_append_of_ne_nil
    (mt List.map_eq_nil_iff.1 hms) (mt List.map_eq_nil_iff.1 hns)]
  rfl

namespace Expr

theorem isName_a : IsName "a" := by decide +kernel

theorem isCanonical_a : (name .blank "a").IsCanonical :=
  Node.throughout_expression.2 ⟨⟨isName_a, trivial⟩, List.forall_mem_nil _⟩

theorem isCanonical_sum (n : Nat) : (sum n).IsCanonical := by
  induction n with
  | zero => exact isCanonical_a
  | succ n ih =>
    have hfits : (sum n).FitsLeft .add := by
      cases n with
      | zero => trivial
      | succ n => exact le_rfl
    exact Node.throughout_expression.2 ⟨⟨trivial, hfits, trivial⟩,
      List.forall_mem_cons.2 ⟨ih, List.forall_mem_singleton.2 isCanonical_a⟩⟩

/-- **A sum of any length takes two levels.** -/
theorem need_sum_le (n : Nat) : (sum n).need ≤ 2 := by
  induction n with
  | zero => decide
  | succ n ih =>
    show max (sum n).depth (0 + 1) + 1 ≤ 2
    have : (sum n).depth + 1 ≤ 2 := ih
    omega

theorem marks_sum_ne_nil (n : Nat) : (sum n).marks ≠ [] := by
  cases n with
  | zero => exact List.cons_ne_nil _ _
  | succ n => exact List.append_ne_nil_of_right_ne_nil _ (List.cons_ne_nil _ _)

theorem written_sum (n : Nat) :
    Mark.written (sum n).marks = "a" ++ String.join (List.replicate n " + a") := by
  induction n with
  | zero => decide
  | succ n ih =>
    have hlast : Mark.written [Mark.symbol .plus, Mark.name "a"] = "+ a" := by decide
    show Mark.written ((sum n).marks ++ [Mark.symbol .plus, Mark.name "a"]) = _
    rw [Mark.written_append (marks_sum_ne_nil n) (List.cons_ne_nil _ _), ih, hlast,
      List.replicate_succ', String.join_append]
    simp [← String.toList_inj]

end Expr

theorem Program.written_sum (n : Nat) : (Program.sum n).written = sumText n := by
  have hlast : Mark.written [Mark.symbol .semicolon] = ";" := by decide
  show Mark.written ((Expr.sum n).marks ++ [Mark.symbol .semicolon] ++ []) = _
  rw [List.append_nil, Mark.written_append (Expr.marks_sum_ne_nil n) (List.cons_ne_nil _ _),
    Expr.written_sum, hlast, String.append_assoc]
  rfl

theorem Program.canonical_sum (n : Nat) : (Node.program (.sum n)).Throughout Node.Canonical := by
  have hexpr : (Node.statement (.expression .blank (.sum n))).Throughout Node.Canonical :=
    Node.throughout_iff.2 ⟨⟨trivial, trivial⟩, List.forall_mem_singleton.2 (Expr.isCanonical_sum n)⟩
  exact Node.throughout_iff.2 ⟨⟨trivial, trivial⟩, List.forall_mem_singleton.2 hexpr⟩

/-- **A sum of any length is accepted** where two levels are granted, and read as a sum. -/
theorem parse_sumText (n : Nat) (file : String) {o : Options} (ho : 2 ≤ o.maxDepth) :
    ∃ r, parse (sumText n) file o = .ok r ∧ r.diagnostics = [] ∧ r.program.IsSum n := by
  have hneed : (Program.sum n).need ≤ o.maxDepth.toNat := by
    have := Expr.need_sum_le n
    have : (Program.sum n).need = (Expr.sum n).need := Nat.max_zero _
    omega
  obtain ⟨hfaults, d, hd, htrees⟩ := derives_written (Program.canonical_sum n) file hneed
  obtain ⟨r, hr, hclean, hitems⟩ := parse_eq_ok_iff.2 ⟨hfaults, d, hd, rfl⟩
  rw [Program.written_sum] at hr
  obtain ⟨i, hsingle, hi⟩ := List.map_eq_singleton_iff.1 htrees
  rw [hsingle] at hitems
  -- nothing but an expression as a statement is one without its spans
  cases i with
  | statement st =>
    cases st with
    | expression span e =>
      have he : e.erased = (Expr.sum n).erased := (Stmt.expression.inj (Item.statement.inj hi)).2
      rw [Expr.erased_sum] at he
      exact ⟨r, hr, hclean, ⟨span, e, hitems, Expr.isSum_of_erased he⟩⟩
    | branch _ _ _ alternate => cases alternate <;> cases hi
    | _ => cases hi
  | _ => cases hi

/-! ## Sums overflow -/

open Walk (OverflowsWithin)

/-- A check that overflows at the first child of a node overflows at the node. -/
theorem LoopCheck.overflowsWithin_visit {n c : Node} {more : List Node} {s : LoopCheck} {k : Nat}
    (hbreak : n.breakSpan? = none) (hloop : n.isLoop = false) (hfunction : n.isFunction = false)
    (hchildren : n.children = c :: more) (h : OverflowsWithin (visit c) s k) :
    OverflowsWithin (visit n) s (k + 2) := by
  rw [visit_other hbreak hloop hfunction, hchildren]
  exact (h.bind _).call.call

namespace Expr.IsSum

variable {n : Nat} {e : Expr} (h : e.IsSum n)

include h

/-- **The description of a sum** takes more frames than there are plus signs. -/
theorem describe_overflows {σ : Type} (s : σ) : OverflowsWithin e.describe s n := by
  induction h with
  | single span => exact Walk.overflowsWithin_call _ s
  | plus span inner _ ih => exact (ih.bind _).call

/-- **The check of a sum** takes more than two frames for each plus sign. -/
theorem visit_overflows (s : LoopCheck) :
    OverflowsWithin (LoopCheck.visit (.expression e)) s (2 * n + 1) := by
  induction h with
  | single span =>
    rw [LoopCheck.visit_other rfl rfl rfl]
    exact (Walk.overflowsWithin_call _ s).call
  | plus span inner _ ih => exact LoopCheck.overflowsWithin_visit rfl rfl rfl rfl ih

end Expr.IsSum

namespace Program.IsSum

variable {n frames : Nat} {p : Program} (h : p.IsSum n)

include h

theorem exists_child : ∃ span e,
    (Node.program p).children = [.statement (.expression span e)] ∧ e.IsSum n := by
  obtain ⟨span, e, hitems, he⟩ := h
  refine ⟨span, e, ?_, he⟩
  rw [Node.children, hitems]
  rfl

theorem describe_overflows (hframes : frames ≤ n) : p.describe.outcome frames () = .error {} := by
  obtain ⟨span, e, hitems, he⟩ := h
  have heach : OverflowsWithin (Walk.each Item.describe p.items) () (n + 1) := by
    rw [hitems]
    exact ((he.describe_overflows ()).bind _).call.bind _
  have hprogram : OverflowsWithin p.describe () (n + 4) := ((heach.call.bind _).call.bind _).call
  exact hprogram.outcome_eq (by omega)

/-- There are no breaks in a sum, but the check does not come to the end of it. -/
theorem checkBreaks_overflows (hframes : frames ≤ 2 * n) (text : Option String) :
    p.checkBreaks text frames = .error {} := by
  obtain ⟨span, e, hchildren, he⟩ := h.exists_child
  have hstatement := LoopCheck.overflowsWithin_visit (n := .statement (.expression span e)) rfl rfl
    rfl rfl (he.visit_overflows {})
  have hvisit := LoopCheck.overflowsWithin_visit rfl rfl rfl hchildren hstatement
  have hspans : p.looseBreaks frames = .error {} := (hvisit.bind _).outcome_eq (by omega)
  rw [checkBreaks, hspans]
  rfl

/-- **Printing a sum** overflows one level deep, where the printer stays. -/
theorem print_overflows (hframes : frames ≤ n) (hroom : 2 ≤ frames) (printer : Printer) :
    ∃ printer' : Printer,
      Printer.print (.program p) frames printer = .error {} printer' ∧ printer'.level = 1 := by
  obtain ⟨span, e, hchildren, he⟩ := h.exists_child
  have hitems (t : Printer) : OverflowsWithin
      (Walk.forEach Printer.visit [.statement (.expression span e)]) t (n + 2) := by
    rw [Walk.forEach, Printer.visit.eq_def]
    exact ((he.describe_overflows t).bind _).call.call.bind _
  -- two frames go to the program itself, whose line is written before the level goes up
  obtain ⟨frames, rfl⟩ := Nat.exists_eq_add_of_le' hroom
  let start : Printer := { printer with output := #[], level := 0 }
  have hvisit : Printer.visit (.program p) (frames + 2) start =
      .error {} (start.emit "Program").deeper := by
    rw [Printer.visit.eq_def]
    dsimp only
    rw [Walk.forEach_attach, hchildren]
    show (Walk.forEach Printer.visit _ >>= _) frames (start.emit "Program").deeper = _
    rw [Walk.run_bind, hitems _ frames (by omega)]
  refine ⟨(start.emit "Program").deeper, ?_, rfl⟩
  show (Printer.visit (.program p) >>= _) (frames + 2) start = _
  rw [Walk.run_bind, hvisit]

end Program.IsSum

end ArcLang
