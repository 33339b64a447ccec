import ArcLang.Proofs.Derivations
import ArcLang.Proofs.Erasure
import ArcLang.Proofs.Seams

/-!
# Derivations of alike tokens

Tokens that are alike but for their spans are derived in the same way, and what is denoted has the
same shape.

* `Respanning`: a function that changes the spans of tokens at most.
* `Respanning.tokens_program`, `Respanning.erased_item`: what it does to a derivation.
-/

namespace ArcLang

/-- A function that changes the spans of tokens at most. -/
structure Respanning where
  apply : Token → Token
  alike : ∀ t : Token, t.Alike (apply t)

/-- Alike tokens are the images of those that they are alike to, if these differ. -/
theorem Respanning.exists_of_alike {ts us : List Token} (hnodup : ts.Nodup)
    (h : List.Forall₂ Token.Alike ts us) : ∃ f : Respanning, ts.map f.apply = us := by
  induction h with
  | nil => exact ⟨⟨id, fun _ => ⟨rfl, rfl⟩⟩, rfl⟩
  | @cons t u ts us htu hrest ih =>
    obtain ⟨hnotMem, hnodup⟩ := List.nodup_cons.1 hnodup
    obtain ⟨f, hf⟩ := ih hnodup
    refine ⟨⟨fun x => if x = t then u else f.apply x, fun x => ?_⟩, ?_⟩
    · split
      · next hx => rw [hx]; exact htu
      · exact f.alike x
    · show (if t = t then u else f.apply t) ::
        ts.map (fun x => if x = t then u else f.apply x) = u :: us
      rw [if_pos rfl, ← hf]
      congr 1
      exact List.map_congr_left fun x hx => if_neg (ne_of_mem_of_not_mem hx hnotMem)

namespace Expr

/-- Spans do not matter to grouping. -/
theorem erased_graft {op : BinaryOp} {right right' : Expr} (hright : right.erased = right'.erased) :
    (e : Expr) → {e' : Expr} → e.erased = e'.erased →
      (graft op right e).erased = (graft op right' e').erased
  | binary span o l r, e', h => by
    cases e' with
    | binary span' o' l' r' =>
      obtain ⟨-, rfl, hl, hr⟩ := binary.inj h
      unfold graft
      split
      · exact congrArg₂ (binary .blank o) hl (erased_graft hright r hr)
      · exact congrArg₂ (binary .blank op) h hright
    | _ => cases h
  | char .., e', h | string .., e', h | number .., e', h | boolean .., e', h | array .., e', h
  | name .., e', h | member .., e', h | index .., e', h | call .., e', h | unary .., e', h
  | paren .., e', h | assign .., e', h => by
    cases e' with
    | binary => cases h
    | _ => exact congrArg₂ (binary .blank op) h hright

end Expr

namespace Respanning

open Grammar

variable (f : Respanning)

/-- The image of a token of a kind. -/
def word {k : Kind} (w : Word k) : Word k := ⟨f.apply w.1, (f.alike w.1).kind.trans w.2⟩

/-- Elements with the images of their commas. -/
def elements {α : Type} (g : α → α) : Elements α → Elements α
  | .none => .none
  | .last a => .last (g a)
  | .more a comma rest => .more (g a) (f.word comma) (elements g rest)

/-- The derivation of the images of a type's tokens. -/
def typeName : Grammar.TypeName → Grammar.TypeName
  | .bool w => .bool (f.word w)
  | .float w => .float (f.word w)
  | .int signed width w => .int signed width (f.word w)
  | .named w => .named (f.word w)
  | .array opener element comma length closer =>
    .array (f.word opener) (typeName element) (f.word comma) (f.word length) (f.word closer)

mutual

/-- The derivation of the images of an expression's tokens. -/
def expr : Grammar.Expr → Grammar.Expr
  | .plain operand => .plain (chain operand)
  | .assign target op sign value => .assign (chain target) op (f.word sign) (expr value)

/-- The same for operands with operators between them. -/
def chain : Chain → Chain
  | .single e => .single (operand e)
  | .more front op sign e => .more (chain front) op (f.word sign) (operand e)

/-- The same for an operand. -/
def operand : Operand → Operand
  | .unary op sign e => .unary op (f.word sign) (operand e)
  | .trailed e => .trailed (trailed e)

/-- The same for a primary expression with what trails it. -/
def trailed : Trailed → Trailed
  | .primary e => .primary (primary e)
  | .member target dot name => .member (trailed target) (f.word dot) (f.word name)
  | .index target opener index closer =>
    .index (trailed target) (f.word opener) (expr index) (f.word closer)
  | .call callee opener arguments closer =>
    .call (trailed callee) (f.word opener) (exprs arguments) (f.word closer)

/-- The same for a primary expression. -/
def primary : Primary → Primary
  | .number w => .number (f.word w)
  | .char w => .char (f.word w)
  | .string w => .string (f.word w)
  | .boolean value w => .boolean value (f.word w)
  | .name w => .name (f.word w)
  | .paren opener inner closer => .paren (f.word opener) (expr inner) (f.word closer)
  | .array opener elements closer => .array (f.word opener) (exprs elements) (f.word closer)

/-- The same for expressions with commas between them. -/
def exprs : Elements Grammar.Expr → Elements Grammar.Expr
  | .none => .none
  | .last e => .last (expr e)
  | .more e comma rest => .more (expr e) (f.word comma) (exprs rest)

end

mutual

/-- The derivation of the images of a statement's tokens. -/
def statement : Statement → Statement
  | .breakLoop w stop => .breakLoop (f.word w) (f.word stop)
  | .ret w value stop => .ret (f.word w) (value.map f.expr) (f.word stop)
  | .loop w condition b => .loop (f.word w) (f.expr condition) (body b)
  | .branch w condition consequent => .branch (f.word w) (f.expr condition) (body consequent)
  | .branchElse w condition consequent other alternate =>
    .branchElse (f.word w) (f.expr condition) (body consequent) (f.word other) (body alternate)
  | .expression e stop => .expression (f.expr e) (f.word stop)

/-- The same for a body. -/
def body : Body → Body
  | .mk opener ss closer => .mk (f.word opener) (statements ss) (f.word closer)

/-- The same for the statements of a body. -/
def statements : List Statement → List Statement
  | [] => []
  | s :: more => statement s :: statements more

end

/-- The derivation of the images of the tokens of a name with its type. -/
def binding (b : Grammar.Binding) : Grammar.Binding :=
  ⟨f.word b.name, f.word b.colon, f.typeName b.type⟩

/-- The derivation of the images of a function's tokens. -/
def function (d : Grammar.Function) : Grammar.Function where
  word := f.word d.word
  name := f.word d.name
  opener := f.word d.opener
  parameters := f.elements f.binding d.parameters
  closer := f.word d.closer
  result := d.result.map fun r => (f.word r.1, f.typeName r.2)
  body := f.body d.body

/-- The derivation of the images of a struct's tokens. -/
def struct (d : Grammar.Struct) : Grammar.Struct where
  word := f.word d.word
  name := f.word d.name
  opener := f.word d.opener
  fields := f.elements f.binding d.fields
  closer := f.word d.closer

/-- The derivation of the images of an item's tokens. -/
def item : Grammar.Item → Grammar.Item
  | .function d => .function (f.function d)
  | .struct d => .struct (f.struct d)
  | .statement s => .statement (f.statement s)

/-- The derivation of the images of the tokens. -/
def program (d : Grammar.Program) : Grammar.Program := ⟨d.items.map f.item⟩

/-! ## Tokens -/

@[simp] theorem word_val {k : Kind} (w : Word k) : (f.word w).1 = f.apply w.1 := rfl

theorem tokens_elements {α : Type} {g : α → α} {tokens : α → List Token}
    (h : ∀ a, tokens (g a) = (tokens a).map f.apply) (es : Elements α) :
    (f.elements g es).tokens tokens = (es.tokens tokens).map f.apply := by
  induction es with
  | none => rfl
  | last a => exact h a
  | more a comma rest ih => simp [elements, Elements.tokens, h, ih]

theorem tokens_typeName (t : Grammar.TypeName) :
    (f.typeName t).tokens = t.tokens.map f.apply := by
  induction t with
  | array opener element comma length closer ih => simp [typeName, TypeName.tokens, ih]
  | _ => rfl

mutual

theorem tokens_expr : (e : Grammar.Expr) → (f.expr e).tokens = e.tokens.map f.apply
  | .plain e => tokens_chain e
  | .assign target op sign value => by
    simp [expr, Expr.tokens, tokens_chain target, tokens_expr value]

theorem tokens_chain : (e : Chain) → (f.chain e).tokens = e.tokens.map f.apply
  | .single e => tokens_operand e
  | .more front op sign e => by
    simp [chain, Chain.tokens, tokens_chain front, tokens_operand e]

theorem tokens_operand : (e : Operand) → (f.operand e).tokens = e.tokens.map f.apply
  | .unary op sign e => by simp [operand, Operand.tokens, tokens_operand e]
  | .trailed e => tokens_trailed e

theorem tokens_trailed : (e : Trailed) → (f.trailed e).tokens = e.tokens.map f.apply
  | .primary e => tokens_primary e
  | .member target dot name => by simp [trailed, Trailed.tokens, tokens_trailed target]
  | .index target opener index closer => by
    simp [trailed, Trailed.tokens, tokens_trailed target, tokens_expr index]
  | .call callee opener arguments closer => by
    simp [trailed, Trailed.tokens, tokens_trailed callee, tokens_exprs arguments]

theorem tokens_primary : (e : Primary) → (f.primary e).tokens = e.tokens.map f.apply
  | .number _ | .char _ | .string _ | .boolean _ _ | .name _ => rfl
  | .paren opener inner closer => by simp [primary, Primary.tokens, tokens_expr inner]
  | .array opener elements closer => by simp [primary, Primary.tokens, tokens_exprs elements]

theorem tokens_exprs : (es : Elements Grammar.Expr) →
    elementsTokens (f.exprs es) = (elementsTokens es).map f.apply
  | .none => rfl
  | .last e => tokens_expr e
  | .more e comma rest => by
    simp [exprs, elementsTokens, tokens_expr e, tokens_exprs rest]

end

mutual

theorem tokens_statement : (s : Statement) → (f.statement s).tokens = s.tokens.map f.apply
  | .breakLoop _ _ | .ret _ none _ => rfl
  | .ret w (some e) stop => by simp [statement, Statement.tokens, f.tokens_expr e]
  | .loop w condition b => by
    simp [statement, Statement.tokens, f.tokens_expr condition, tokens_body b]
  | .branch w condition b => by
    simp [statement, Statement.tokens, f.tokens_expr condition, tokens_body b]
  | .branchElse w condition b other c => by
    simp [statement, Statement.tokens, f.tokens_expr condition, tokens_body b, tokens_body c]
  | .expression e stop => by simp [statement, Statement.tokens, f.tokens_expr e]

theorem tokens_body : (b : Body) → (f.body b).tokens = b.tokens.map f.apply
  | .mk opener ss closer => by simp [body, Body.tokens, tokens_statements ss]

theorem tokens_statements : (ss : List Statement) →
    statementsTokens (f.statements ss) = (statementsTokens ss).map f.apply
  | [] => rfl
  | s :: more => by
    simp [statements, statementsTokens, tokens_statement s, tokens_statements more]

end

theorem tokens_binding (b : Grammar.Binding) : (f.binding b).tokens = b.tokens.map f.apply := by
  simp [binding, Binding.tokens, f.tokens_typeName]

theorem tokens_item (i : Grammar.Item) : (f.item i).tokens = i.tokens.map f.apply := by
  cases i with
  | function d =>
    have hresult : ((f.function d).result.map fun r => r.1.1 :: r.2.tokens).getD [] =
        ((d.result.map fun r => r.1.1 :: r.2.tokens).getD []).map f.apply := by
      cases h : d.result <;> simp [function, h, f.tokens_typeName]
    simp [item, Item.tokens, Function.tokens, hresult]
    simp [function, f.tokens_elements f.tokens_binding, f.tokens_body]
  | struct d =>
    simp [item, Item.tokens, Struct.tokens, struct, f.tokens_elements f.tokens_binding]
  | statement s => exact f.tokens_statement s

/-- **The derivation derives the images of the tokens.** -/
theorem tokens_program (d : Grammar.Program) : (f.program d).tokens = d.tokens.map f.apply := by
  unfold Program.tokens program
  rw [List.flatMap_map, List.map_flatMap]
  exact List.flatMap_congr fun i _ => f.tokens_item i

/-! ## Trees -/

@[simp] theorem lexeme_apply (t : Token) : (f.apply t).lexeme = t.lexeme := (f.alike t).lexeme

theorem lengthOf_word (w : Word .number) : lengthOf (f.word w) = lengthOf w := by
  unfold lengthOf
  rw [word_val, lexeme_apply]

theorem unquoted_apply (t : Token) : unquoted (f.apply t) = unquoted t := by
  unfold unquoted
  rw [lexeme_apply]

theorem erased_typeName (t : Grammar.TypeName) : (f.typeName t).tree.erased = t.tree.erased := by
  induction t with
  | named w => exact congrArg (ArcLang.TypeName.named .blank) (f.lexeme_apply w.1)
  | array opener element comma length closer ih =>
    exact congrArg₂ (ArcLang.TypeName.array .blank) ih (f.lengthOf_word length)
  | _ => rfl

mutual

theorem erased_expr : (e : Grammar.Expr) → (f.expr e).tree.erased = e.tree.erased
  | .plain e => erased_chain e
  | .assign target _ _ value => by
    simp [expr, Expr.tree, ArcLang.Expr.erased, erased_chain target, erased_expr value]

theorem erased_chain : (e : Chain) → (f.chain e).tree.erased = e.tree.erased
  | .single e => erased_operand e
  | .more front _ _ e => ArcLang.Expr.erased_graft (erased_operand e) _ (erased_chain front)

theorem erased_operand : (e : Operand) → (f.operand e).tree.erased = e.tree.erased
  | .unary op _ e => congrArg (ArcLang.Expr.unary .blank op) (erased_operand e)
  | .trailed e => erased_trailed e

theorem erased_trailed : (e : Trailed) → (f.trailed e).tree.erased = e.tree.erased
  | .primary e => erased_primary e
  | .member target _ name =>
    congrArg₂ (ArcLang.Expr.member .blank) (erased_trailed target) (f.lexeme_apply name.1)
  | .index target _ index _ =>
    congrArg₂ (ArcLang.Expr.index .blank) (erased_trailed target) (erased_expr index)
  | .call callee _ arguments _ =>
    congrArg₂ (ArcLang.Expr.call .blank) (erased_trailed callee) (erased_exprs arguments)

theorem erased_primary : (e : Primary) → (f.primary e).tree.erased = e.tree.erased
  | .number w => by simp [primary, Primary.tree, ArcLang.Expr.erased]
  | .char w => congrArg (ArcLang.Expr.char .blank) (f.unquoted_apply w.1)
  | .string w => congrArg (ArcLang.Expr.string .blank) (f.unquoted_apply w.1)
  | .boolean _ _ => rfl
  | .name w => congrArg (ArcLang.Expr.name .blank) (f.lexeme_apply w.1)
  | .paren _ inner _ => congrArg (ArcLang.Expr.paren .blank) (erased_expr inner)
  | .array _ elements _ => congrArg (ArcLang.Expr.array .blank) (erased_exprs elements)

theorem erased_exprs : (es : Elements Grammar.Expr) →
    ArcLang.Expr.erasedEach (elementsTrees (f.exprs es)) =
      ArcLang.Expr.erasedEach (elementsTrees es)
  | .none => rfl
  | .last e => congrArg ([·]) (erased_expr e)
  | .more e _ rest => congrArg₂ List.cons (erased_expr e) (erased_exprs rest)

end

mutual

theorem erased_statement : (s : Statement) → (f.statement s).tree.erased = s.tree.erased
  | .breakLoop _ _ | .ret _ none _ => rfl
  | .ret w (some e) stop => congrArg (fun e => Stmt.ret .blank (some e)) (f.erased_expr e)
  | .loop w condition b => congrArg₂ (Stmt.loop .blank) (f.erased_expr condition) (erased_body b)
  | .branch w condition b => by
    simp [statement, Statement.tree, Stmt.erased, f.erased_expr condition, erased_body b]
  | .branchElse w condition b other c => by
    simp [statement, Statement.tree, Stmt.erased, f.erased_expr condition, erased_body b,
      erased_body c]
  | .expression e stop => congrArg (Stmt.expression .blank) (f.erased_expr e)

theorem erased_body : (b : Body) → (f.body b).tree.erased = b.tree.erased
  | .mk _ ss _ => congrArg (Block.mk .blank) (erased_statements ss)

theorem erased_statements : (ss : List Statement) →
    Stmt.erasedEach (statementsTrees (f.statements ss)) = Stmt.erasedEach (statementsTrees ss)
  | [] => rfl
  | s :: more => congrArg₂ List.cons (erased_statement s) (erased_statements more)

end

theorem erased_binding (b : Grammar.Binding) : (f.binding b).tree.erased = b.tree.erased := by
  simp [binding, Binding.tree, ArcLang.Binding.erased, f.erased_typeName]

theorem list_elements {α : Type} (g : α → α) (es : Elements α) :
    (f.elements g es).list = es.list.map g := by
  induction es with
  | none => rfl
  | last a => rfl
  | more a comma rest ih => exact congrArg (g a :: ·) ih

theorem erased_bindings (es : Elements Grammar.Binding) :
    ((f.elements f.binding es).list.map Binding.tree).map ArcLang.Binding.erased =
      (es.list.map Binding.tree).map ArcLang.Binding.erased := by
  rw [list_elements, List.map_map, List.map_map, List.map_map]
  exact List.map_congr_left fun b _ => f.erased_binding b

/-- **What is denoted has the same shape.** -/
theorem erased_item (i : Grammar.Item) : (f.item i).tree.erased = i.tree.erased := by
  cases i with
  | function d =>
    have hresult : ((f.function d).result.map (·.2.tree)).map ArcLang.TypeName.erased =
        (d.result.map (·.2.tree)).map ArcLang.TypeName.erased := by
      cases h : d.result <;> simp [function, h, f.erased_typeName]
    unfold item Item.tree ArcLang.Item.erased ArcLang.Function.erased Function.tree
    simp only [hresult]
    simp only [function, word_val, lexeme_apply, f.erased_bindings, f.erased_body]
  | struct d =>
    simp [item, Item.tree, Struct.tree, ArcLang.Item.erased, ArcLang.Struct.erased, struct,
      f.erased_bindings]
  | statement s => exact congrArg Item.statement (f.erased_statement s)

theorem erased_program (d : Grammar.Program) :
    (f.program d).trees.map ArcLang.Item.erased = d.trees.map ArcLang.Item.erased := by
  unfold Program.trees program
  rw [List.map_map, List.map_map, List.map_map]
  exact List.map_congr_left fun i _ => f.erased_item i

theorem need_program (d : Grammar.Program) :
    needMost ArcLang.Item.need (f.program d).trees = needMost ArcLang.Item.need d.trees := by
  have herased (is : List ArcLang.Item) :
      needMost ArcLang.Item.need (is.map ArcLang.Item.erased) = needMost ArcLang.Item.need is :=
    needMost_map ArcLang.Item.need_erased is
  rw [← herased, f.erased_program, herased]

theorem placed_program {d : Grammar.Program}
    (h : ∀ i ∈ d.trees, (Node.ofItem i).Throughout Node.AssignsToPlace) :
    ∀ i ∈ (f.program d).trees, (Node.ofItem i).Throughout Node.AssignsToPlace := by
  have herased (i : ArcLang.Item) : (Node.ofItem i.erased).Throughout Node.AssignsToPlace ↔
      (Node.ofItem i).Throughout Node.AssignsToPlace := by
    rw [Node.ofItem_erased]
    exact Node.throughout_erased (fun _ => Node.assignsToPlace_erased) _
  intro i hi
  obtain ⟨_, he, rfl⟩ := List.mem_map.1 hi
  obtain ⟨e, hmem, rfl⟩ := List.mem_map.1 he
  rw [← herased, f.erased_item, herased]
  exact h _ (List.mem_map_of_mem hmem)

/-! ## Lengths -/

theorem lengths_typeName (t : Grammar.TypeName) :
    (f.typeName t).lengths = t.lengths.map f.apply := by
  induction t with
  | array opener element comma length closer ih => simp [typeName, TypeName.lengths, ih]
  | _ => rfl

theorem lengths_bindings (es : Elements Grammar.Binding) :
    (f.elements f.binding es).list.flatMap (·.type.lengths) =
      (es.list.flatMap (·.type.lengths)).map f.apply := by
  rw [list_elements, List.flatMap_map, List.map_flatMap]
  exact List.flatMap_congr fun b _ => f.lengths_typeName b.type

theorem lengths_item (i : Grammar.Item) : (f.item i).lengths = i.lengths.map f.apply := by
  cases i with
  | function d =>
    have hresult : ((f.function d).result.map (·.2.lengths)).getD [] =
        ((d.result.map (·.2.lengths)).getD []).map f.apply := by
      cases h : d.result <;> simp [function, h, f.lengths_typeName]
    show (f.elements f.binding d.parameters).list.flatMap (·.type.lengths) ++
      ((f.function d).result.map (·.2.lengths)).getD [] = List.map f.apply (_ ++ _)
    rw [hresult, f.lengths_bindings, List.map_append]
  | struct d => exact f.lengths_bindings d.fields
  | statement s => rfl

theorem resolve_program {d : Grammar.Program} (h : Resolve d.lengths) :
    Resolve (f.program d).lengths := by
  intro t ht
  obtain ⟨_, he, ht⟩ := List.mem_flatMap.1 ht
  obtain ⟨i, hmem, rfl⟩ := List.mem_map.1 he
  rw [lengths_item] at ht
  obtain ⟨u, hu, rfl⟩ := List.mem_map.1 ht
  rw [lexeme_apply]
  exact h u (List.mem_flatMap.2 ⟨i, hmem, hu⟩)

end Respanning

end ArcLang
