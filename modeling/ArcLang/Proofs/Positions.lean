import Mathlib.Data.List.Flatten
import ArcLang.Proofs.Insertion
import ArcLang.Proofs.Nodes
import ArcLang.Proofs.Respanning

/-!
# Positions of statements

A statement may be put between the items of a program and between the statements of a body. Seen
from the tokens, it then stands before the first token of an item or of a statement, before the
brace that closes a body, or behind all tokens.

* `Program.IsPosition`: these positions, told by the spans of the tree.
* `Grammar.Program.not_firstFrom_of_position`: none of these comes first behind a position.
-/

namespace ArcLang

/-- The offset is not inside the span. -/
def Span.Avoids (s : Span) (offset : Nat) : Prop :=
  s.stop.offset ≤ offset ∨ (offset : Int) ≤ s.start.offset

instance (s : Span) (offset : Nat) : Decidable (s.Avoids offset) :=
  inferInstanceAs (Decidable (_ ∨ _))

/-- The node is a block, and the offset is between its braces and inside none of its statements. -/
def Node.Admits (offset : Nat) : Node → Prop
  | .block b => b.span.start.offset < offset ∧ (offset : Int) < b.span.stop.offset ∧
      ∀ s ∈ b.statements, s.span.Avoids offset
  | _ => False

instance (offset : Nat) : DecidablePred (Node.Admits offset)
  | .block _ => inferInstanceAs (Decidable (_ ∧ _))
  | .program _ | .function _ | .parameter _ | .struct _ | .field _ | .typeName _ | .statement _
  | .expression _ => .isFalse id

/-- At the offset a statement may be put into the source of the program: between its items, or
between the statements of one of its bodies. -/
def Program.IsPosition (p : Program) (offset : Nat) : Prop :=
  (∀ i ∈ p.items, i.span.Avoids offset) ∨ ∃ n ∈ (Node.program p).nodes, n.Admits offset

instance (p : Program) (offset : Nat) : Decidable (p.IsPosition offset) :=
  inferInstanceAs (Decidable (_ ∨ _))

namespace Grammar

/-! ## Bodies within a program -/

/-- The tokens of the body stand among those of the whole, and the closed ones of the whole are
around the body or closed in it. -/
def Body.Within (b : Body) (tokens closed : List Token) : Prop :=
  ∃ front back, tokens = front ++ (b.tokens ++ back) ∧
    ∀ t ∈ closed, t ∈ front ∨ t ∈ back ∨ t ∈ b.closed

theorem Body.Within.wrap {b : Body} {tokens closed tokens' closed' : List Token}
    (h : b.Within tokens closed) (front back : List Token)
    (htokens : tokens' = front ++ (tokens ++ back))
    (hclosed : ∀ t ∈ closed', t ∈ front ∨ t ∈ back ∨ t ∈ closed) : b.Within tokens' closed' := by
  obtain ⟨front', back', rfl, hin⟩ := h
  refine ⟨front ++ front', back' ++ back, by rw [htokens]; simp, fun t ht => ?_⟩
  have hin := hin t
  have ht := hclosed t ht
  simp only [List.mem_append]
  tauto

end Grammar

namespace Node

theorem eq_expression_of_mem_nodes {n : Node} {e : Expr} (h : n ∈ (expression e).nodes) :
    ∃ e', n = expression e' := by
  induction hn : sizeOf e using Nat.strongRecOn generalizing e with
  | ind size ih =>
    rw [nodes_eq] at h
    rcases List.mem_cons.1 h with rfl | h
    · exact ⟨e, rfl⟩
    · obtain ⟨c, hc, h⟩ := List.mem_flatMap.1 h
      obtain ⟨e', he', rfl⟩ := List.mem_map.1 hc
      exact ih (sizeOf e') (hn ▸ sizeOf_lt_of_mem_expressionChildren he') h rfl

theorem eq_typeName_of_mem_nodes {n : Node} {t : TypeName} (h : n ∈ (typeName t).nodes) :
    ∃ t', n = typeName t' := by
  induction t with
  | array span element length ih =>
    rw [nodes_eq] at h
    rcases List.mem_cons.1 h with rfl | h
    · exact ⟨_, rfl⟩
    · exact ih (by simpa [children] using h)
  | _ =>
    rw [nodes_eq] at h
    exact ⟨_, List.mem_singleton.1 h⟩

theorem block_notMem_expression {b : Block} {e : Expr} : block b ∉ (expression e).nodes := by
  intro h
  obtain ⟨e', he'⟩ := eq_expression_of_mem_nodes h
  cases he'

theorem block_notMem_parameter {b : Block} {d : Binding} : block b ∉ (parameter d).nodes := by
  intro h
  rw [nodes_eq] at h
  obtain ⟨t, ht⟩ := eq_typeName_of_mem_nodes (t := d.type) (by simpa [children] using h)
  cases ht

theorem block_notMem_field {b : Block} {d : Binding} : block b ∉ (field d).nodes := by
  intro h
  rw [nodes_eq] at h
  obtain ⟨t, ht⟩ := eq_typeName_of_mem_nodes (t := d.type) (by simpa [children] using h)
  cases ht

theorem block_notMem_struct {b : Block} {s : Struct} : block b ∉ (struct s).nodes := by
  intro h
  rw [nodes_eq] at h
  have h := List.mem_of_ne_of_mem (by rintro ⟨⟩) h
  obtain ⟨n, hn, h⟩ := List.mem_flatMap.1 h
  obtain ⟨p, -, rfl⟩ := List.mem_map.1 hn
  exact block_notMem_field h

end Node

namespace Grammar

variable {b : Block}

mutual

/-- **A body of the tree is that of a body in the derivation.** -/
theorem Statement.exists_body : (s : Statement) → Node.block b ∈ (Node.statement s.tree).nodes →
    ∃ d : Body, d.tree = b ∧ d.Within s.tokens s.closed
  | .breakLoop _ _, h => by
    rw [Node.nodes_eq] at h
    cases List.mem_singleton.1 h
  | .ret _ value _, h => by
    rw [Node.nodes_eq] at h
    obtain ⟨n, hn, h⟩ := List.mem_flatMap.1 (List.mem_of_ne_of_mem (by rintro ⟨⟩) h)
    obtain ⟨e, -, rfl⟩ := List.mem_map.1 hn
    exact absurd h Node.block_notMem_expression
  | .expression _ _, h => by
    rw [Node.nodes_eq] at h
    have h := List.mem_of_ne_of_mem (by rintro ⟨⟩) h
    simp only [Node.children, Node.statementChildren, Statement.tree, List.flatMap_cons,
      List.flatMap_nil, List.append_nil] at h
    exact absurd h Node.block_notMem_expression
  | .loop word condition body, h => by
    rw [Node.nodes_eq] at h
    have h := List.mem_of_ne_of_mem (by rintro ⟨⟩) h
    simp only [Node.children, Node.statementChildren, Statement.tree, List.flatMap_cons,
      List.flatMap_nil, List.append_nil, List.mem_append] at h
    obtain ⟨d, hd, hin⟩ := body.exists_body (h.resolve_left Node.block_notMem_expression)
    refine ⟨d, hd, hin.wrap (word.1 :: condition.tokens) [] (by simp [Statement.tokens]) ?_⟩
    intro t ht
    exact (List.mem_append.1 ht).imp (List.mem_cons_of_mem _) .inr
  | .branch word condition body, h => by
    rw [Node.nodes_eq] at h
    have h := List.mem_of_ne_of_mem (by rintro ⟨⟩) h
    simp only [Node.children, Node.statementChildren, Statement.tree, List.flatMap_cons,
      Option.toList_none, List.map_nil, List.flatMap_nil, List.append_nil, List.mem_append] at h
    obtain ⟨d, hd, hin⟩ := body.exists_body (h.resolve_left Node.block_notMem_expression)
    refine ⟨d, hd, hin.wrap (word.1 :: condition.tokens) [] (by simp [Statement.tokens]) ?_⟩
    intro t ht
    exact (List.mem_append.1 ht).imp (List.mem_cons_of_mem _) .inr
  | .branchElse word condition body other alternate, h => by
    rw [Node.nodes_eq] at h
    have h := List.mem_of_ne_of_mem (by rintro ⟨⟩) h
    simp only [Node.children, Node.statementChildren, Statement.tree, List.flatMap_cons,
      Option.toList_some, List.map_cons, List.map_nil, List.flatMap_nil, List.append_nil,
      List.mem_append] at h
    have hbody := body.mem_of_mem_closed
    have halternate := alternate.mem_of_mem_closed
    rcases h.resolve_left Node.block_notMem_expression with h | h
    · obtain ⟨d, hd, hin⟩ := body.exists_body h
      refine ⟨d, hd, hin.wrap (word.1 :: condition.tokens) (other.1 :: alternate.tokens)
        (by simp [Statement.tokens]) fun t ht => ?_⟩
      have halternate := halternate t
      simp only [Statement.closed, List.mem_append, List.mem_cons] at ht ⊢
      tauto
    · obtain ⟨d, hd, hin⟩ := alternate.exists_body h
      refine ⟨d, hd, hin.wrap (word.1 :: condition.tokens ++ (body.tokens ++ [other.1])) []
        (by simp [Statement.tokens]) fun t ht => ?_⟩
      have hbody := hbody t
      simp only [Statement.closed, List.mem_append, List.mem_cons, List.not_mem_nil] at ht ⊢
      tauto

theorem Body.exists_body : (d : Body) → Node.block b ∈ (Node.block d.tree).nodes →
    ∃ d' : Body, d'.tree = b ∧ d'.Within d.tokens d.closed
  | .mk opener statements closer, h => by
    rw [Node.nodes_eq] at h
    rcases List.mem_cons.1 h with h | h
    · cases h
      exact ⟨.mk opener statements closer, rfl, [], [], by simp, fun t ht => .inr (.inr ht)⟩
    · obtain ⟨d, hd, hin⟩ := statements_exists_body statements h
      refine ⟨d, hd, hin.wrap [opener.1] [closer.1] (by simp [Body.tokens]) fun t ht => ?_⟩
      exact (List.mem_cons.1 ht).imp (fun h => List.mem_singleton.2 h) .inr

theorem statements_exists_body : (ss : List Statement) →
    Node.block b ∈ ((statementsTrees ss).map Node.statement).flatMap Node.nodes →
      ∃ d : Body, d.tree = b ∧ d.Within (statementsTokens ss) (statementsClosed ss)
  | [], h => absurd h List.not_mem_nil
  | s :: more, h => by
    rw [statementsTrees, List.map_cons, List.flatMap_cons] at h
    rcases List.mem_append.1 h with h | h
    · obtain ⟨d, hd, hin⟩ := s.exists_body h
      refine ⟨d, hd, hin.wrap [] (statementsTokens more) rfl fun t ht => ?_⟩
      exact .inr ((List.mem_append.1 ht).symm.imp_left (statements_mem_of_mem_closed more t))
    · obtain ⟨d, hd, hin⟩ := statements_exists_body more h
      refine ⟨d, hd, hin.wrap s.tokens [] (by simp [statementsTokens]) fun t ht => ?_⟩
      exact (List.mem_append.1 ht).imp
        (fun h => List.mem_of_mem_tail (s.mem_of_mem_closed t h)) .inr

end

theorem Item.exists_body (i : Item) (h : Node.block b ∈ (Node.ofItem i.tree).nodes) :
    ∃ d : Body, d.tree = b ∧ d.Within i.tokens i.closed := by
  cases i with
  | function f =>
    rw [Item.tree, Node.ofItem, Node.nodes_eq] at h
    have h := List.mem_of_ne_of_mem (by rintro ⟨⟩) h
    simp only [Node.children, List.flatMap_append, List.mem_append] at h
    rcases h with (h | h) | h
    · obtain ⟨n, hn, h⟩ := List.mem_flatMap.1 h
      obtain ⟨p, -, rfl⟩ := List.mem_map.1 hn
      exact absurd h Node.block_notMem_parameter
    · obtain ⟨n, hn, h⟩ := List.mem_flatMap.1 h
      obtain ⟨t, -, rfl⟩ := List.mem_map.1 hn
      obtain ⟨t', ht'⟩ := Node.eq_typeName_of_mem_nodes h
      cases ht'
    · rw [List.flatMap_singleton] at h
      obtain ⟨d, hd, hin⟩ := f.body.exists_body h
      refine ⟨d, hd, hin.wrap f.front [] (by rw [List.append_nil]; exact f.tokens_eq) ?_⟩
      exact fun t ht => (List.mem_append.1 ht).imp List.mem_of_mem_tail .inr
  | struct s => exact absurd h Node.block_notMem_struct
  | statement s => exact s.exists_body h

theorem Program.exists_body (d : Program) {p : ArcLang.Program} (hitems : p.items = d.trees)
    (h : Node.block b ∈ (Node.program p).nodes) :
    ∃ db : Body, db.tree = b ∧ db.Within d.tokens d.closed := by
  rw [Node.nodes_eq] at h
  have h := List.mem_of_ne_of_mem (by rintro ⟨⟩) h
  obtain ⟨n, hn, h⟩ := List.mem_flatMap.1 h
  obtain ⟨i, hi, rfl⟩ := List.mem_map.1 hn
  rw [hitems] at hi
  obtain ⟨i, hmem, rfl⟩ := List.mem_map.1 hi
  obtain ⟨front, back, hsplit⟩ := List.append_of_mem hmem
  obtain ⟨db, hdb, hin⟩ := i.exists_body h
  refine ⟨db, hdb, hin.wrap (front.flatMap Item.tokens) (back.flatMap Item.tokens) ?_ ?_⟩
  · rw [Program.tokens, hsplit, List.flatMap_append, List.flatMap_cons]
  · intro t ht
    obtain ⟨j, hj, ht⟩ := List.mem_flatMap.1 ht
    have htokens := List.mem_of_mem_tail (j.mem_of_mem_closed t ht)
    rw [hsplit, List.mem_append, List.mem_cons] at hj
    rcases hj with hj | rfl | hj
    · exact .inl (List.mem_flatMap.2 ⟨j, hj, htokens⟩)
    · exact .inr (.inr ht)
    · exact .inr (.inl (List.mem_flatMap.2 ⟨j, hj, htokens⟩))

/-! ## Spans of statements and items -/

theorem Statement.span_tree : (s : Statement) → s.tree.span = cover s.tokens
  | .breakLoop _ _ => rfl
  | .ret _ _ _ => (cover_enclosed _ _ _).symm
  | .loop word condition body => by
    rw [Statement.tokens, cover_append (List.cons_ne_nil _ _) body.tokens_ne_nil, ← body.span_tree]
    rfl
  | .branch word condition body => by
    rw [Statement.tokens, cover_append (List.cons_ne_nil _ _) body.tokens_ne_nil, ← body.span_tree]
    rfl
  | .branchElse word condition body other alternate => by
    rw [Statement.tokens, cover_append (by simp) (List.cons_ne_nil _ _),
      cover_cons _ alternate.tokens_ne_nil, ← alternate.span_tree,
      cover_append (List.cons_ne_nil _ _) body.tokens_ne_nil]
    rfl
  | .expression e _ => by
    rw [Statement.tokens, cover_append e.starts.ne_nil (List.cons_ne_nil _ _), ← e.span_tree]
    rfl

theorem Item.span_tree (i : Item) : i.tree.span = cover i.tokens := by
  cases i with
  | function f =>
    have hfront : f.front ≠ [] := List.cons_ne_nil _ _
    rw [Item.tokens, f.tokens_eq, cover_append hfront f.body.tokens_ne_nil, ← f.body.span_tree]
    rfl
  | struct s => exact (cover_enclosed _ _ _).symm
  | statement s => exact s.span_tree

end Grammar

/-! ## The first token behind a position -/

/-- The tokens stand one after the other, and each brace is as long as it is written. -/
structure Standing (ts : List Token) : Prop where
  nonempty : ∀ t ∈ ts, t.span.start.offset < t.span.stop.offset
  ordered : ts.Pairwise fun a b => a.span.stop.offset ≤ b.span.start.offset
  brace : ∀ t ∈ ts, t.kind = .symbol .leftBrace ∨ t.kind = .symbol .rightBrace →
    t.span.stop.offset = t.span.start.offset + 1

namespace Standing

variable {ts us : List Token} {t : Token} {offset : Nat}

theorem sublist (h : Standing ts) (hus : us.Sublist ts) : Standing us where
  nonempty t ht := h.nonempty t (hus.subset ht)
  ordered := h.ordered.sublist hus
  brace t ht := h.brace t (hus.subset ht)

/-- Each token is inside the cover of all, and only the first stands at its start. -/
theorem cover_le (h : Standing ts) (ht : t ∈ ts) :
    (cover ts).start.offset ≤ t.span.start.offset ∧ t.span.stop.offset ≤ (cover ts).stop.offset ∧
      (t ∈ ts.tail → (cover ts).start.offset < t.span.start.offset) := by
  obtain ⟨a, rest, rfl⟩ := List.exists_cons_of_ne_nil (List.ne_nil_of_mem ht)
  obtain ⟨hbehind, -⟩ := List.pairwise_cons.1 h.ordered
  have hfirst : ∀ u ∈ rest, a.span.start.offset < u.span.start.offset := fun u hu =>
    lt_of_lt_of_le (h.nonempty a List.mem_cons_self) (hbehind u hu)
  have hordered := h.ordered
  rw [← List.dropLast_append_getLast (List.cons_ne_nil a rest)] at hordered
  have hlast := (List.pairwise_append.1 hordered).2.2
  refine ⟨?_, ?_, hfirst t⟩
  · rcases List.mem_cons.1 ht with rfl | hu
    · exact le_rfl
    · exact (hfirst t hu).le
  · show _ ≤ ((a :: rest).getLast (List.cons_ne_nil a rest)).span.stop.offset
    rw [← List.dropLast_append_getLast (List.cons_ne_nil a rest)] at ht
    rcases List.mem_append.1 ht with hu | hu
    · have hle := hlast t hu _ (List.mem_singleton_self _)
      exact hle.trans (h.nonempty _ (List.getLast_mem _)).le
    · rw [List.mem_singleton.1 hu]

/-- A position outside the cover of some tokens is before none of them but the first. -/
theorem of_avoids (h : Standing ts) (hus : us.Sublist ts) (havoids : (cover us).Avoids offset) :
    (∀ t ∈ us, t.span.Avoids offset) ∧ ∀ t ∈ us.tail, ¬ FirstFrom offset ts t := by
  have hsub := h.sublist hus
  refine ⟨fun t ht => ?_, fun t ht hfirst => ?_⟩
  · obtain ⟨hstart, hstop, -⟩ := hsub.cover_le ht
    exact havoids.imp hstop.trans fun hle => hle.trans hstart
  · have hmem := List.mem_of_mem_tail ht
    obtain ⟨-, hstop, hbehind⟩ := hsub.cover_le hmem
    have hbehind := hbehind ht
    rcases havoids with havoids | havoids
    · have := hfirst.behind
      have := hsub.nonempty t hmem
      omega
    · -- the first of the tokens would come before this one
      obtain ⟨a, rest, rfl⟩ := List.exists_cons_of_ne_nil (List.ne_nil_of_mem hmem)
      have hle := hfirst.first a (hus.subset List.mem_cons_self) havoids
      exact absurd hbehind (Int.not_lt.2 hle)

/-- What stands in front of two tokens and behind them. -/
theorem around {a b : Token} {front back : List Token}
    (h : Standing (front ++ a :: (us ++ b :: back))) :
    (∀ t ∈ front, t.span.stop.offset ≤ a.span.start.offset) ∧
      ∀ t ∈ back, b.span.stop.offset ≤ t.span.start.offset := by
  obtain ⟨-, hrest, hfront⟩ := List.pairwise_append.1 h.ordered
  obtain ⟨-, hrest⟩ := List.pairwise_cons.1 hrest
  obtain ⟨-, hrest, -⟩ := List.pairwise_append.1 hrest
  exact ⟨fun t ht => hfront t ht a List.mem_cons_self, (List.pairwise_cons.1 hrest).1⟩

end Standing

namespace Grammar

/-- Between two braces, and over no statement between them, no token stands and only the first
token of a statement or the second brace is the first behind. -/
theorem Body.not_firstFrom {d : Body} {ts closed : List Token} {offset : Nat}
    (h : Standing ts) (hin : d.Within ts closed) (hstart : d.tree.span.start.offset < offset)
    (hstop : (offset : Int) < d.tree.span.stop.offset)
    (havoids : ∀ s ∈ d.tree.statements, s.span.Avoids offset) :
    (∀ t ∈ ts, t.span.Avoids offset) ∧ ∀ t ∈ closed, ¬ FirstFrom offset ts t := by
  obtain ⟨front, back, rfl, hclosed⟩ := hin
  obtain ⟨opener, ss, closer⟩ := d
  simp only [Body.tokens, List.cons_append, List.append_assoc, List.nil_append] at h hclosed ⊢
  have hopener : opener.1.span.start.offset < offset := hstart
  have hcloser : (offset : Int) < closer.1.span.stop.offset := hstop
  have hmem : closer.1 ∈ front ++ opener.1 :: (statementsTokens ss ++ closer.1 :: back) := by simp
  have hopens := h.brace opener.1 (by simp) (.inl opener.2)
  have hcloses := h.brace closer.1 (by simp) (.inr closer.2)
  obtain ⟨hbefore, hback⟩ := h.around
  have hinside : ∀ s ∈ ss, (∀ t ∈ s.tokens, t.span.Avoids offset) ∧ ∀ t ∈ s.tokens.tail,
      ¬ FirstFrom offset (front ++ opener.1 :: (statementsTokens ss ++ closer.1 :: back)) t := by
    intro s hs
    have hsub : s.tokens.Sublist (statementsTokens ss) := by
      rw [statementsTokens_eq]
      simpa using (List.singleton_sublist.2 hs).flatMap Statement.tokens
    refine h.of_avoids ?_ ?_
    · exact (hsub.trans (List.sublist_append_left _ _)).trans
        ((List.sublist_cons_self _ _).trans (List.sublist_append_right _ _))
    · rw [← s.span_tree]
      refine havoids s.tree ?_
      show s.tree ∈ statementsTrees ss
      rw [statementsTrees_eq]
      exact List.mem_map_of_mem hs
  constructor
  · intro t ht
    rcases List.mem_append.1 ht with ht | ht
    · have := hbefore t ht
      exact .inl (by omega)
    rcases List.mem_cons.1 ht with rfl | ht
    · exact .inl (by omega)
    rcases List.mem_append.1 ht with ht | ht
    · rw [statementsTokens_eq] at ht
      obtain ⟨s, hs, ht⟩ := List.mem_flatMap.1 ht
      exact (hinside s hs).1 t ht
    rcases List.mem_cons.1 ht with rfl | ht
    · exact .inr (by omega)
    · have := hback t ht
      exact .inr (by omega)
  · intro t ht hfirst
    have hbehind := hfirst.behind
    rcases hclosed t ht with ht | ht | ht
    · have := hbefore t ht
      have := h.nonempty t (List.mem_append_left _ ht)
      omega
    · -- the second brace comes before it
      have := hfirst.first closer.1 hmem (by omega)
      have := hback t ht
      omega
    · rcases List.mem_cons.1 ht with rfl | ht
      · omega
      · rw [statementsClosed_eq] at ht
        obtain ⟨s, hs, ht⟩ := List.mem_flatMap.1 ht
        exact (hinside s hs).2 t (s.mem_of_mem_closed t ht) hfirst

/-- **The first token behind a position is not closed,** and no token stands over the position. -/
theorem Program.not_firstFrom_of_position {d : Program} {p : ArcLang.Program} {offset : Nat}
    (hitems : p.items = d.trees) (hpos : p.IsPosition offset) (h : Standing d.tokens) :
    (∀ t ∈ d.tokens, t.span.Avoids offset) ∧ ∀ t ∈ d.closed, ¬ FirstFrom offset d.tokens t := by
  rcases hpos with havoids | ⟨n, hmem, hadmits⟩
  · have hinside : ∀ i ∈ d.items, (∀ t ∈ i.tokens, t.span.Avoids offset) ∧
        ∀ t ∈ i.tokens.tail, ¬ FirstFrom offset d.tokens t := by
      intro i hi
      refine h.of_avoids ?_ ?_
      · unfold Program.tokens
        simpa using (List.singleton_sublist.2 hi).flatMap Item.tokens
      · rw [← i.span_tree]
        exact havoids i.tree (hitems ▸ List.mem_map_of_mem hi)
    refine ⟨fun t ht => ?_, fun t ht => ?_⟩
    · obtain ⟨i, hi, ht⟩ := List.mem_flatMap.1 ht
      exact (hinside i hi).1 t ht
    · obtain ⟨i, hi, ht⟩ := List.mem_flatMap.1 ht
      exact (hinside i hi).2 t (i.mem_of_mem_closed t ht)
  · cases n with
    | block b =>
      obtain ⟨hstart, hstop, havoids⟩ := hadmits
      obtain ⟨db, rfl, hin⟩ := d.exists_body hitems hmem
      exact Body.not_firstFrom h hin hstart hstop havoids
    | _ => exact hadmits.elim

end Grammar

/-- The tokens of a scan stand one after the other. -/
theorem standing_beforeEnd (source : Source) (text : String) :
    Standing (Scan.beforeEnd (scan source text)) := by
  obtain ⟨hplaced, hordered⟩ := tokensFrom_ordered source .start text.toList
  refine ⟨fun t ht => (hplaced t ht).2.1, hordered, fun t ht hbrace => ?_⟩
  have herror : t.isError = false := by
    rw [← Bool.not_eq_true, Token.isError_iff]
    rcases hbrace with hkind | hkind <;> rw [hkind] <;> decide
  have hspells := Scan.spells_of_mem_beforeEnd source text ht herror
  have hwidth := (scanFrom_covers source .start text.toList).width t
    ((List.takeWhile_prefix _).subset ht)
  have hlength : t.lexeme.toList.length = 1 := by
    rcases hbrace with hkind | hkind
    · rw [hkind] at hspells
      rw [show t.lexeme.toList = _ from hspells]
      rfl
    · rw [hkind] at hspells
      rw [show t.lexeme.toList = _ from hspells]
      rfl
  rw [hwidth, hlength]
  rfl

namespace Respanning

open Grammar

variable (f : Respanning)

mutual

theorem closed_statement : (s : Statement) → (f.statement s).closed = s.closed.map f.apply
  | .breakLoop _ _ | .ret _ none _ => rfl
  | .ret _ (some e) _ => by simp [statement, Statement.closed, f.tokens_expr e]
  | .loop _ condition b => by
    simp [statement, Statement.closed, f.tokens_expr condition, closed_body b]
  | .branch _ condition b => by
    simp [statement, Statement.closed, f.tokens_expr condition, closed_body b]
  | .branchElse _ condition b _ c => by
    simp [statement, Statement.closed, f.tokens_expr condition, closed_body b, closed_body c]
  | .expression e _ => by simp [statement, Statement.closed, f.tokens_expr e]

theorem closed_body : (b : Body) → (f.body b).closed = b.closed.map f.apply
  | .mk _ ss _ => by simp [body, Body.closed, closed_statements ss]

theorem closed_statements : (ss : List Statement) →
    statementsClosed (f.statements ss) = (statementsClosed ss).map f.apply
  | [] => rfl
  | s :: more => by
    simp [statements, statementsClosed, closed_statement s, closed_statements more]

end

theorem closed_item (i : Grammar.Item) : (f.item i).closed = i.closed.map f.apply := by
  cases i with
  | function d =>
    have hresult : ((f.function d).result.map fun r => r.1.1 :: r.2.tokens).getD [] =
        ((d.result.map fun r => r.1.1 :: r.2.tokens).getD []).map f.apply := by
      cases h : d.result <;> simp [function, h, f.tokens_typeName]
    simp [item, Item.closed, Function.front, hresult]
    simp [function, f.tokens_elements f.tokens_binding, f.closed_body]
  | struct d =>
    have htokens : (f.struct d).tokens = d.tokens.map f.apply := f.tokens_item (.struct d)
    simp [item, Item.closed, htokens]
  | statement s => exact f.closed_statement s

/-- Where statements may be put does not depend on spans. -/
theorem closed_program (d : Grammar.Program) : (f.program d).closed = d.closed.map f.apply := by
  unfold Program.closed program
  rw [List.flatMap_map, List.map_flatMap]
  exact List.flatMap_congr fun i _ => f.closed_item i

end Respanning

end ArcLang
