import Mathlib.Data.List.Induction
import ArcLang.Proofs.Positions

/-!
# Bodies at the end of a program

The bodies that end with a program stand in one another, each at the end of the next. If the braces
that close them are taken away, what is left leads into the innermost: the brace that opens a body,
its statements, and then what comes before the body that its last statement ends with.

* `Grammar.Body.Unclosed`: what is left of a body, with the bodies that stand at its end.
* `Grammar.Body.exists_unclosed`: every body is left so by the braces at its end.
* `Grammar.Program.exists_unclosed`: what is left of a program, with the blocks that end with it.
-/

namespace ArcLang

/-- The block that a node is. -/
def Node.block? : Node → Option Block
  | block b => some b
  | _ => none

namespace Program

/-- All blocks of a program, each before those in it. -/
def blocks (p : Program) : List Block := (Node.program p).nodes.filterMap Node.block?

theorem mem_blocks {p : Program} {b : Block} :
    b ∈ p.blocks ↔ Node.block b ∈ (Node.program p).nodes := by
  rw [blocks, List.mem_filterMap]
  constructor
  · rintro ⟨n, hn, hb⟩
    cases n <;> cases hb
    exact hn
  · exact fun h => ⟨_, h, rfl⟩

/-- Blocks of the program end with the braces behind an offset, which follow one another: the first
with the first of them, and so on. -/
def ClosedBehind (p : Program) (offset : Nat) (blocks : List Block) : Prop :=
  ∀ i (h : i < blocks.length), blocks[i] ∈ p.blocks ∧
    blocks[i].span.stop.offset = (offset + i + 1 : Nat)

end Program

namespace Grammar

/-! ## The last body -/

/-- The opening brace of a body. -/
def Body.opener : Body → Sign .leftBrace
  | mk opener _ _ => opener

/-- The closing brace of a body. -/
def Body.closer : Body → Sign .rightBrace
  | mk _ _ closer => closer

/-- The statement ends with a body, and these are its tokens before that. -/
inductive Statement.Ends : Statement → List Token → Body → Prop
  | loop (word : Word (.keyword .whileWord)) (condition : Expr) (body : Body) :
      Ends (.loop word condition body) (word.1 :: condition.tokens) body
  | branch (word : Word (.keyword .ifWord)) (condition : Expr) (body : Body) :
      Ends (.branch word condition body) (word.1 :: condition.tokens) body
  | branchElse (word : Word (.keyword .ifWord)) (condition : Expr) (consequent : Body)
      (other : Word (.keyword .elseWord)) (body : Body) :
      Ends (.branchElse word condition consequent other body)
        (word.1 :: condition.tokens ++ (consequent.tokens ++ [other.1])) body

/-- The item ends with a body, and these are its tokens before that. -/
inductive Item.Ends : Item → List Token → Body → Prop
  | function (f : Function) : Ends (.function f) f.front f.body
  | statement {s : Statement} {head : List Token} {b : Body} : s.Ends head b →
      Ends (.statement s) head b

variable {s : Statement} {i : Item} {b : Body} {head ts cs : List Token} {inner : List Body}
  {block : Block}

theorem Statement.Ends.tokens_eq (h : s.Ends head b) : s.tokens = head ++ b.tokens := by
  cases h <;> simp [Statement.tokens]

theorem Item.Ends.tokens_eq (h : i.Ends head b) : i.tokens = head ++ b.tokens := by
  cases h with
  | function f => exact f.tokens_eq
  | statement h => exact h.tokens_eq

theorem Statement.Ends.starts (h : s.Ends head b) : Starts Kind.beginsStatement head := by
  cases h with
  | loop word condition body => exact .of_word word rfl _
  | branch word condition body => exact .of_word word rfl _
  | branchElse word condition consequent other body => exact .of_word word rfl _

theorem Item.Ends.starts (h : i.Ends head b) : Starts Kind.beginsItem head := by
  cases h with
  | function f => exact .of_word f.word rfl _
  | statement h => exact h.starts.mono fun _ => Kind.beginsItem_of_beginsStatement

/-- What holds throughout a statement holds throughout the body at its end. -/
theorem Statement.Ends.throughout {P : Node → Prop} (h : s.Ends head b)
    (hs : (Node.statement s.tree).Throughout P) : (Node.block b.tree).Throughout P := by
  cases h with
  | loop word condition body =>
    exact hs.child (by simp [Node.children, Node.statementChildren, Statement.tree])
  | branch word condition body =>
    exact hs.child (by simp [Node.children, Node.statementChildren, Statement.tree])
  | branchElse word condition consequent other body =>
    exact hs.child (by simp [Node.children, Node.statementChildren, Statement.tree])

theorem Statement.Ends.need_le (h : s.Ends head b) : b.tree.need ≤ s.tree.need := by
  cases h with
  | loop word condition body => exact le_max_right _ _
  | branch word condition body => exact le_max_right _ _
  | branchElse word condition consequent other body => exact le_max_right _ _

theorem Item.Ends.throughout {P : Node → Prop} (h : i.Ends head b)
    (hi : (Node.ofItem i.tree).Throughout P) : (Node.block b.tree).Throughout P := by
  cases h with
  | function f => exact hi.child (List.mem_append_right _ (List.mem_singleton_self _))
  | statement h => exact h.throughout hi

theorem Item.Ends.need_le (h : i.Ends head b) : b.tree.need ≤ i.tree.need := by
  cases h with
  | function f => exact (le_max_right _ _).trans (le_max_right _ _)
  | statement h => exact h.need_le

/-- A statement whose last token is a closing brace ends with a body. -/
theorem Statement.exists_ends (s : Statement)
    (h : ∀ t ∈ s.tokens.getLast?, t.kind = .symbol .rightBrace) : ∃ head b, s.Ends head b := by
  cases s with
  | loop word condition body => exact ⟨_, _, .loop word condition body⟩
  | branch word condition body => exact ⟨_, _, .branch word condition body⟩
  | branchElse word condition consequent other body =>
    exact ⟨_, _, .branchElse word condition consequent other body⟩
  -- the others end with a semicolon
  | breakLoop word stop =>
    cases stop.2.symm.trans (h stop.1 rfl)
  | ret word value stop =>
    cases stop.2.symm.trans (h stop.1 (List.getLast?_concat))
  | expression e stop =>
    cases stop.2.symm.trans (h stop.1 (List.getLast?_concat))

theorem Body.stop_tree (b : Body) : b.tree.span.stop = b.closer.1.span.stop := by
  cases b
  rfl

theorem Body.closer_mem (b : Body) : b.closer.1 ∈ b.tokens := by
  cases b with
  | mk opener ss closer => exact List.mem_append_right _ (List.mem_singleton_self _)

/-- Where a body stands among tokens, one of them closes it. -/
theorem Body.Within.exists_stop {closed : List Token} (h : b.Within ts closed) :
    ∃ t ∈ ts, t.span.stop = b.tree.span.stop := by
  obtain ⟨front, back, rfl, -⟩ := h
  exact ⟨b.closer.1, List.mem_append_right _ (List.mem_append_left _ b.closer_mem),
    b.stop_tree.symm⟩

/-- A block of the statement that does not end before the last body is a block of that body. -/
theorem Statement.Ends.mem_nodes (h : s.Ends head b)
    (hblock : Node.block block ∈ (Node.statement s.tree).nodes)
    (hfree : ∀ t ∈ head, t.span.stop ≠ block.span.stop) :
    Node.block block ∈ (Node.block b.tree).nodes := by
  rw [Node.nodes_eq] at hblock
  have hblock := List.mem_of_ne_of_mem (by rintro ⟨⟩) hblock
  cases h with
  | loop word condition body =>
    simp only [Node.children, Node.statementChildren, Statement.tree, List.flatMap_cons,
      List.flatMap_nil, List.append_nil, List.mem_append] at hblock
    exact hblock.resolve_left Node.block_notMem_expression
  | branch word condition body =>
    simp only [Node.children, Node.statementChildren, Statement.tree, List.flatMap_cons,
      Option.toList_none, List.map_nil, List.flatMap_nil, List.append_nil,
      List.mem_append] at hblock
    exact hblock.resolve_left Node.block_notMem_expression
  | branchElse word condition consequent other body =>
    simp only [Node.children, Node.statementChildren, Statement.tree, List.flatMap_cons,
      Option.toList_some, List.map_cons, List.map_nil, List.flatMap_nil, List.append_nil,
      List.mem_append] at hblock
    refine (hblock.resolve_left Node.block_notMem_expression).resolve_left fun hmem => ?_
    obtain ⟨d, rfl, hin⟩ := consequent.exists_body hmem
    obtain ⟨t, ht, hstop⟩ := hin.exists_stop
    exact hfree t (List.mem_append_right _ (List.mem_append_left _ ht)) hstop

theorem Item.Ends.mem_nodes (h : i.Ends head b)
    (hblock : Node.block block ∈ (Node.ofItem i.tree).nodes)
    (hfree : ∀ t ∈ head, t.span.stop ≠ block.span.stop) :
    Node.block block ∈ (Node.block b.tree).nodes := by
  cases h with
  | statement h => exact h.mem_nodes hblock hfree
  | function f =>
    rw [Item.tree, Node.ofItem, Node.nodes_eq] at hblock
    have hblock := List.mem_of_ne_of_mem (by rintro ⟨⟩) hblock
    simp only [Node.children, List.flatMap_append, List.flatMap_singleton, List.mem_append]
      at hblock
    refine hblock.resolve_left ?_
    rintro (hmem | hmem)
    · obtain ⟨n, hn, hmem⟩ := List.mem_flatMap.1 hmem
      obtain ⟨p, -, rfl⟩ := List.mem_map.1 hn
      exact Node.block_notMem_parameter hmem
    · obtain ⟨n, hn, hmem⟩ := List.mem_flatMap.1 hmem
      obtain ⟨t, -, rfl⟩ := List.mem_map.1 hn
      obtain ⟨t', ht'⟩ := Node.eq_typeName_of_mem_nodes hmem
      cases ht'

/-! ## Bodies in bodies -/

/-- The tokens of a body without the braces at its end that close it and the bodies `inner`, which
stand there in one another, the innermost first. -/
inductive Body.Unclosed : Body → List Token → List Body → Prop
  | last (opener : Sign .leftBrace) (ss : List Statement) (closer : Sign .rightBrace) :
      Unclosed (.mk opener ss closer) (opener.1 :: statementsTokens ss) []
  | inner {head ts : List Token} {s : Statement} {b : Body} {inner : List Body}
      (opener : Sign .leftBrace) (ss : List Statement) (closer : Sign .rightBrace) :
      s.Ends head b → b.Unclosed ts inner →
        Unclosed (.mk opener (ss ++ [s]) closer)
          (opener.1 :: (statementsTokens ss ++ (head ++ ts))) (inner ++ [b])

theorem Body.Unclosed.firstKind (h : b.Unclosed ts inner) :
    firstKind ts = .symbol .leftBrace := by
  cases h with
  | last opener ss closer => exact opener.2
  | inner opener ss closer hs hb => exact opener.2

theorem statementsTokens_concat (ss : List Statement) (s : Statement) :
    statementsTokens (ss ++ [s]) = statementsTokens ss ++ s.tokens := by
  rw [statementsTokens_eq, statementsTokens_eq, List.flatMap_append, List.flatMap_singleton]

theorem statementsTrees_concat (ss : List Statement) (s : Statement) :
    statementsTrees (ss ++ [s]) = statementsTrees ss ++ [s.tree] := by
  rw [statementsTrees_eq, statementsTrees_eq, List.map_append, List.map_singleton]

/-- The braces that are missing are those of the bodies. -/
theorem Body.Unclosed.tokens_eq (h : b.Unclosed ts inner) :
    b.tokens = ts ++ (inner ++ [b]).map fun d => d.closer.1 := by
  induction h with
  | last opener ss closer => rfl
  | inner opener ss closer hs _ ih =>
    rw [Body.tokens, statementsTokens_concat, hs.tokens_eq, ih]
    simp [Body.closer]

/-- The braces that open the bodies are not missing. -/
theorem Body.Unclosed.opener_mem (h : b.Unclosed ts inner) :
    ∀ d ∈ inner ++ [b], d.opener.1 ∈ ts := by
  induction h with
  | last opener ss closer => exact List.forall_mem_singleton.2 List.mem_cons_self
  | inner opener ss closer _ _ ih =>
    refine List.forall_mem_append.2 ⟨fun d hd => ?_, List.forall_mem_singleton.2 List.mem_cons_self⟩
    exact List.mem_cons_of_mem _ (List.mem_append_right _ (List.mem_append_right _ (ih d hd)))

/-- What holds throughout a body holds of the blocks of the bodies at its end. -/
theorem Body.Unclosed.throughout {P : Node → Prop} (h : b.Unclosed ts inner)
    (hb : (Node.block b.tree).Throughout P) : ∀ d ∈ inner, P (.block d.tree) := by
  induction h with
  | last => exact List.forall_mem_nil _
  | @inner _ _ s _ _ opener ss closer hs _ ih =>
    have hmem : s.tree ∈ statementsTrees (ss ++ [s]) := by
      rw [statementsTrees_concat]
      exact List.mem_append_right _ (List.mem_singleton_self _)
    have hd := hs.throughout (hb.child (List.mem_map_of_mem hmem))
    exact List.forall_mem_append.2 ⟨ih hd, List.forall_mem_singleton.2 hd.root⟩

/-- The blocks of the bodies are in one another. -/
theorem Body.Unclosed.nested (h : b.Unclosed ts inner) :
    (inner ++ [b]).Pairwise fun d d' => Node.block d.tree ∈ (Node.block d'.tree).nodes := by
  induction h with
  | last => exact List.pairwise_singleton _ _
  | inner opener ss closer hs hd ih =>
    have hall := (Body.Unclosed.inner opener ss closer hs hd).throughout fun m hm => hm
    refine List.pairwise_append.2 ⟨ih, List.pairwise_singleton _ _, fun d hd d' hd' => ?_⟩
    rw [List.mem_singleton.1 hd']
    exact hall d hd

theorem Body.starts (b : Body) : Starts (· = .symbol .leftBrace) b.tokens := by
  cases b with
  | mk opener ss closer => exact .of_word opener (by decide) _

/-- Closing braces at the end of tokens stand behind what the last of these start with. -/
theorem Starts.exists_suffix {kinds : Kind → Bool} {front us : List Token} (h : Starts kinds us)
    (hkinds : kinds (.symbol .rightBrace) = false) (hcs : ∀ t ∈ cs, t.kind = .symbol .rightBrace)
    (heq : front ++ us = ts ++ cs) : ∃ vs, ts = front ++ vs ∧ us = vs ++ cs := by
  rcases List.append_eq_append_iff.1 heq with ⟨vs, hts, hus⟩ | ⟨vs, -, hvs⟩
  · exact ⟨vs, hts, hus⟩
  · -- their first token would be one of the braces
    obtain ⟨t, r, rfl, ht⟩ := h
    rw [hcs t (hvs ▸ List.mem_append_right _ List.mem_cons_self), hkinds] at ht
    cases ht

/-- A statement with closing braces at its end has them at the end of its last body. -/
theorem Statement.exists_ends_of_braces {s : Statement} (hne : cs ≠ [])
    (hcs : ∀ t ∈ cs, t.kind = .symbol .rightBrace) (h : s.tokens = ts ++ cs) :
    ∃ head b us, s.Ends head b ∧ ts = head ++ us ∧ b.tokens = us ++ cs := by
  obtain ⟨head, b, hs⟩ := s.exists_ends fun t ht => by
    rw [h, List.getLast?_append_of_ne_nil ts hne] at ht
    exact hcs t (List.mem_of_getLast? ht)
  obtain ⟨us, hts, hb⟩ := b.starts.exists_suffix (by decide) hcs (hs.tokens_eq.symm.trans h)
  exact ⟨head, b, us, hs, hts, hb⟩

/-- **Every body is left so** by the closing braces at its end. -/
theorem Body.exists_unclosed (hne : cs ≠ []) (hcs : ∀ t ∈ cs, t.kind = .symbol .rightBrace)
    (h : b.tokens = ts ++ cs) : ∃ inner, b.Unclosed ts inner := by
  induction cs using List.reverseRecOn generalizing b ts with
  | nil => exact absurd rfl hne
  | append_singleton cs c ih =>
    obtain ⟨opener, ss, closer⟩ := b
    rw [Body.tokens, ← List.append_assoc] at h
    obtain ⟨hfront, -⟩ := List.append_inj' h rfl
    obtain ⟨hcs, -⟩ := List.forall_mem_append.1 hcs
    by_cases hcsne : cs = []
    · subst hcsne
      rw [List.append_nil] at hfront
      exact ⟨[], hfront ▸ .last opener ss closer⟩
    -- the other braces are at the end of the last statement
    rcases List.eq_nil_or_concat' ss with rfl | ⟨ss, s, rfl⟩
    · have hmem : cs.getLast hcsne ∈ [opener.1] := by
        rw [show [opener.1] = ts ++ cs from hfront]
        exact List.mem_append_right _ (List.getLast_mem hcsne)
      have hkind := hcs _ (List.getLast_mem hcsne)
      rw [List.mem_singleton.1 hmem] at hkind
      cases opener.2.symm.trans hkind
    · rw [statementsTokens_concat, ← List.cons_append] at hfront
      obtain ⟨vs, rfl, hs⟩ := s.starts.exists_suffix (by decide) hcs hfront
      obtain ⟨head, b, us, hends, rfl, hb⟩ := Statement.exists_ends_of_braces hcsne hcs hs
      obtain ⟨inner, hinner⟩ := ih hcsne hcs hb
      exact ⟨inner ++ [b], .inner opener ss closer hends hinner⟩

/-- No block ends in statements where no token ends with it. -/
theorem block_notMem_statements {ss : List Statement}
    (hfree : ∀ t ∈ statementsTokens ss, t.span.stop ≠ block.span.stop) :
    Node.block block ∉ ((statementsTrees ss).map Node.statement).flatMap Node.nodes := by
  intro hmem
  obtain ⟨d, rfl, hin⟩ := statements_exists_body ss hmem
  obtain ⟨t, ht, hstop⟩ := hin.exists_stop
  exact hfree t ht hstop

/-- A block of the body that does not end before the missing braces is that of one of the bodies. -/
theorem Body.Unclosed.exists_of_mem_nodes (h : b.Unclosed ts inner)
    (hblock : Node.block block ∈ (Node.block b.tree).nodes)
    (hfree : ∀ t ∈ ts, t.span.stop ≠ block.span.stop) : ∃ d ∈ inner ++ [b], d.tree = block := by
  induction h with
  | last opener ss closer =>
    rw [Node.nodes_eq] at hblock
    rcases List.mem_cons.1 hblock with hself | hmem
    · exact ⟨_, List.mem_singleton_self _, (Node.block.inj hself).symm⟩
    · exact absurd hmem (block_notMem_statements fun t ht => hfree t (List.mem_cons_of_mem _ ht))
  | inner opener ss closer hs _ ih =>
    obtain ⟨-, hfree⟩ := List.forall_mem_cons.1 hfree
    obtain ⟨hbefore, hfree⟩ := List.forall_mem_append.1 hfree
    obtain ⟨hhead, hts⟩ := List.forall_mem_append.1 hfree
    rw [Node.nodes_eq] at hblock
    rcases List.mem_cons.1 hblock with hself | hmem
    · exact ⟨_, List.mem_append_right _ (List.mem_singleton_self _), (Node.block.inj hself).symm⟩
    -- it is in the last statement, and there in the body at its end
    rw [Node.children, Body.tree, Block.statements, statementsTrees_concat, List.map_append,
      List.flatMap_append, List.map_singleton, List.flatMap_singleton, List.mem_append] at hmem
    have hmem := hmem.resolve_left (block_notMem_statements hbefore)
    obtain ⟨d, hd, hblock⟩ := ih (hs.mem_nodes hmem hhead) hts
    exact ⟨d, List.mem_append_left _ hd, hblock⟩

/-! ## Items -/

/-- The tokens of an item without the braces at its end that close these bodies, the innermost
first. -/
inductive Item.Unclosed : Item → List Token → List Body → Prop
  | mk {i : Item} {head ts : List Token} {b : Body} {inner : List Body} : i.Ends head b →
      b.Unclosed ts inner → Unclosed i (head ++ ts) (inner ++ [b])

variable {bodies : List Body} {blocks : List Block} {offset : Nat}

theorem Item.Unclosed.tokens_eq (h : i.Unclosed ts bodies) :
    i.tokens = ts ++ bodies.map fun d => d.closer.1 := by
  cases h with
  | mk hends hinner => rw [hends.tokens_eq, hinner.tokens_eq, List.append_assoc]

theorem Item.Unclosed.opener_mem (h : i.Unclosed ts bodies) : ∀ d ∈ bodies, d.opener.1 ∈ ts := by
  cases h with
  | mk _ hinner => exact fun d hd => List.mem_append_right _ (hinner.opener_mem d hd)

theorem Item.Unclosed.nested (h : i.Unclosed ts bodies) :
    bodies.Pairwise fun d d' => Node.block d.tree ∈ (Node.block d'.tree).nodes := by
  cases h with
  | mk _ hinner => exact hinner.nested

theorem Item.Unclosed.exists_of_mem_nodes (h : i.Unclosed ts bodies)
    (hblock : Node.block block ∈ (Node.ofItem i.tree).nodes)
    (hfree : ∀ t ∈ ts, t.span.stop ≠ block.span.stop) : ∃ d ∈ bodies, d.tree = block := by
  cases h with
  | mk hends hinner =>
    obtain ⟨hhead, hts⟩ := List.forall_mem_append.1 hfree
    exact hinner.exists_of_mem_nodes (hends.mem_nodes hblock hhead) hts

/-- An item with a block is left so by the closing braces at its end. -/
theorem Item.exists_unclosed (hne : cs ≠ []) (hcs : ∀ t ∈ cs, t.kind = .symbol .rightBrace)
    (h : i.tokens = ts ++ cs) (hblock : Node.block block ∈ (Node.ofItem i.tree).nodes) :
    ∃ bodies, i.Unclosed ts bodies := by
  obtain ⟨head, b, us, hends, rfl, hb⟩ : ∃ head b us, i.Ends head b ∧ ts = head ++ us ∧
      b.tokens = us ++ cs := by
    cases i with
    | function f =>
      obtain ⟨us, hts, hb⟩ := f.body.starts.exists_suffix (by decide) hcs (f.tokens_eq.symm.trans h)
      exact ⟨f.front, f.body, us, .function f, hts, hb⟩
    | struct d => exact absurd hblock Node.block_notMem_struct
    | statement s =>
      obtain ⟨head, b, us, hends, hts, hb⟩ := Statement.exists_ends_of_braces hne hcs h
      exact ⟨head, b, us, .statement hends, hts, hb⟩
  obtain ⟨inner, hinner⟩ := Body.exists_unclosed hne hcs hb
  exact ⟨inner ++ [b], .mk hends hinner⟩

/-! ## Programs -/

/-- A block that does not end in the items in front is one of the last item. -/
theorem mem_nodes_last {d : Program} {p : ArcLang.Program} {front : List Item}
    (hitems : p.items = d.trees) (hsplit : d.items = front ++ [i])
    (hblock : Node.block block ∈ (Node.program p).nodes)
    (hfree : ∀ t ∈ front.flatMap Item.tokens, t.span.stop ≠ block.span.stop) :
    Node.block block ∈ (Node.ofItem i.tree).nodes := by
  rw [Node.nodes_eq] at hblock
  have hblock := List.mem_of_ne_of_mem (by rintro ⟨⟩) hblock
  rw [Node.children, hitems, Program.trees, hsplit, List.map_append, List.map_append,
    List.flatMap_append, List.map_singleton, List.map_singleton, List.flatMap_singleton,
    List.mem_append] at hblock
  refine hblock.resolve_left fun hmem => ?_
  obtain ⟨n, hn, hmem⟩ := List.mem_flatMap.1 hmem
  obtain ⟨tree, htree, rfl⟩ := List.mem_map.1 hn
  obtain ⟨j, hj, rfl⟩ := List.mem_map.1 htree
  obtain ⟨b, rfl, hin⟩ := j.exists_body hmem
  obtain ⟨t, ht, hstop⟩ := hin.exists_stop
  exact hfree t (List.mem_flatMap.2 ⟨j, hj, ht⟩) hstop

/-- **The blocks that end with a program,** the innermost first, are those of the bodies that are
left open without the braces at its end. -/
theorem Program.exists_unclosed {d : Program} {p : ArcLang.Program} (hitems : p.items = d.trees)
    (htokens : d.tokens = ts ++ cs) (hcs : ∀ t ∈ cs, t.kind = .symbol .rightBrace)
    (hbefore : ∀ t ∈ ts, t.span.stop.offset ≤ offset)
    (hplaces : ∀ i (h : i < cs.length), cs[i].span.stop.offset = (offset + i + 1 : Nat))
    (hlength : blocks.length = cs.length) (hne : blocks ≠ [])
    (hblocks : p.ClosedBehind offset blocks) :
    ∃ front i us bodies, d.items = front ++ [i] ∧ i.Unclosed us bodies ∧
      ts = front.flatMap Item.tokens ++ us ∧ bodies.map Body.tree = blocks := by
  have hlengths := List.length_pos_of_ne_nil hne
  have hcsne : cs ≠ [] := List.ne_nil_of_length_pos (hlength ▸ hlengths)
  -- no block ends before the braces
  have hfree : ∀ j (h : j < blocks.length), ∀ t ∈ ts, t.span.stop ≠ blocks[j].span.stop := by
    intro j hj t ht hstop
    have hle := hbefore t ht
    rw [hstop, (hblocks j hj).2] at hle
    omega
  rcases List.eq_nil_or_concat' d.items with hnil | ⟨front, i, hsplit⟩
  · rw [Program.tokens, hnil] at htokens
    exact absurd (List.append_eq_nil_iff.1 htokens.symm).2 hcsne
  rw [Program.tokens, hsplit, List.flatMap_append, List.flatMap_singleton] at htokens
  obtain ⟨us, rfl, hi⟩ := i.starts.exists_suffix (by decide) hcs htokens
  have hmem : ∀ j (h : j < blocks.length), Node.block blocks[j] ∈ (Node.ofItem i.tree).nodes :=
    fun j hj => mem_nodes_last hitems hsplit (Program.mem_blocks.1 (hblocks j hj).1) fun t ht =>
      hfree j hj t (List.mem_append_left _ ht)
  obtain ⟨bodies, hbodies⟩ := Item.exists_unclosed hcsne hcs hi (hmem 0 hlengths)
  have hclosers : bodies.map (fun d => d.closer.1) = cs :=
    List.append_cancel_left (hbodies.tokens_eq.symm.trans hi)
  refine ⟨front, i, us, bodies, hsplit, hbodies, rfl, List.ext_getElem ?_ fun j hj hj' => ?_⟩
  · rw [List.length_map, hlength, ← hclosers, List.length_map]
  · -- the body with this block is closed by the brace at its place
    obtain ⟨d, hd, htree⟩ := hbodies.exists_of_mem_nodes (hmem j hj') fun t ht =>
      hfree j hj' t (List.mem_append_right _ ht)
    obtain ⟨m, hm, rfl⟩ := List.getElem_of_mem hd
    have hm' : m < cs.length := by rwa [← hclosers, List.length_map]
    have hcloser : bodies[m].closer.1 = cs[m] := by simp [← hclosers]
    have hstop := hplaces m hm'
    rw [← hcloser, ← Body.stop_tree, htree, (hblocks j hj').2] at hstop
    obtain rfl : m = j := by omega
    rw [List.getElem_map, htree]

end Grammar

end ArcLang
