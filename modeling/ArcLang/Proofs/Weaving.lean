import ArcLang.Proofs.Derivations

/-!
# Lines between statements

Tokens with others put in between. Lines may be put in before the first token of an item or of a
statement, and before the brace that closes a body; before all other tokens of a program there is no
place for them.

* `weave`: tokens with others put in before each of them.
* `Grammar.Program.closed`: the tokens before which no line may be put.
-/

namespace ArcLang

/-! ## Weaving -/

/-- Tokens with lists of others put in before each of them. -/
def weave (before : Token → List (List Token)) (ts : List Token) : List Token :=
  ts.flatMap fun t => (before t).flatten ++ [t]

section Weaving

variable {before : Token → List (List Token)} {t : Token} {ts us : List Token}

theorem weave_cons : weave before (t :: ts) = (before t).flatten ++ t :: weave before ts := by
  unfold weave
  rw [List.flatMap_cons, List.append_assoc]
  rfl

theorem weave_append : weave before (ts ++ us) = weave before ts ++ weave before us :=
  List.flatMap_append

/-- Where nothing is put in, the tokens stay as they are. -/
theorem weave_of_quiet (h : ∀ t ∈ ts, before t = []) : weave before ts = ts := by
  induction ts with
  | nil => rfl
  | cons t ts ih =>
    obtain ⟨ht, hts⟩ := List.forall_mem_cons.1 h
    rw [weave_cons, ht, ih hts]
    rfl

theorem sublist_weave (before : Token → List (List Token)) (ts : List Token) :
    ts.Sublist (weave before ts) := by
  induction ts with
  | nil => exact .slnil
  | cons t ts ih =>
    rw [weave_cons]
    exact (ih.cons_cons t).trans (List.sublist_append_right _ _)

theorem weave_congr {before' : Token → List (List Token)} (h : ∀ t ∈ ts, before t = before' t) :
    weave before ts = weave before' ts :=
  List.flatMap_congr fun t ht => by rw [h t ht]

/-- Tokens with lists of others put in before each of them but the first. -/
def weaveBehind (before : Token → List (List Token)) : List Token → List Token
  | [] => []
  | t :: ts => t :: weave before ts

theorem weaveBehind_of_quiet (h : ∀ t ∈ ts.tail, before t = []) : weaveBehind before ts = ts := by
  cases ts with
  | nil => rfl
  | cons t ts => exact congrArg (t :: ·) (weave_of_quiet h)

theorem Grammar.Starts.weaveBehind {kinds : Kind → Bool} (h : Grammar.Starts kinds ts)
    (before : Token → List (List Token)) : Grammar.Starts kinds (weaveBehind before ts) := by
  obtain ⟨t, r, rfl, ht⟩ := h
  exact ⟨t, weave before r, rfl, ht⟩

/-- The lists put in before the first token. -/
def inFront (before : Token → List (List Token)) (ts : List Token) : List (List Token) :=
  ts.head?.toList.flatMap before

theorem weave_eq (before : Token → List (List Token)) (ts : List Token) :
    weave before ts = (inFront before ts).flatten ++ weaveBehind before ts := by
  cases ts with
  | nil => rfl
  | cons t ts => simp [weave_cons, inFront, weaveBehind]

theorem flatMap_eq_inFront (before : Token → List (List Token)) (ts : List Token) :
    ts.flatMap before = inFront before ts ++ ts.tail.flatMap before := by
  cases ts <;> simp [inFront]

theorem weave_flatMap {α : Type} (before : Token → List (List Token)) (tokens : α → List Token)
    (as : List α) :
    weave before (as.flatMap tokens) = as.flatMap fun a => weave before (tokens a) := by
  induction as with
  | nil => rfl
  | cons a as ih => rw [List.flatMap_cons, weave_append, ih, List.flatMap_cons]

theorem getLast?_weave (before : Token → List (List Token)) (ts : List Token) :
    (weave before ts).getLast? = ts.getLast? := by
  rcases List.eq_nil_or_concat ts with rfl | ⟨ts, t, rfl⟩
  · rfl
  · rw [List.concat_eq_append, weave_append, weave_cons]
    simp [weave]

/-- Spans end with the last token consumed, also where others are put in between. -/
theorem State.Consumes.endsAt_weave {before : Token → List (List Token)} {s s' : State}
    {ts : List Token} (h : s.Consumes (weave before ts) s') (hts : ts ≠ []) {span : Span}
    (hspan : span = cover ts) : s'.EndsAt span.stop := by
  rw [hspan]
  obtain ⟨t, ts, rfl⟩ := List.exists_cons_of_ne_nil hts
  unfold State.EndsAt
  rw [h.previous, getLast?_weave, List.getLast?_eq_some_getLast hts]
  rfl

end Weaving

namespace Grammar

/-! ## Tokens that no statement stands before -/

mutual

/-- The tokens behind the first one before which no statement may be put. -/
def Statement.closed : Statement → List Token
  | .breakLoop _ stop => [stop.1]
  | .ret _ value stop => (value.map Expr.tokens).getD [] ++ [stop.1]
  | .loop _ condition body => condition.tokens ++ body.closed
  | .branch _ condition consequent => condition.tokens ++ consequent.closed
  | .branchElse _ condition consequent other alternate =>
    condition.tokens ++ (consequent.closed ++ other.1 :: alternate.closed)
  | .expression e stop => (e.tokens ++ [stop.1]).tail

/-- The tokens of a body before which no statement of it may be put. -/
def Body.closed : Body → List Token
  | .mk opener statements _ => opener.1 :: statementsClosed statements

/-- The tokens of statements that stand inside one of them. -/
def statementsClosed : List Statement → List Token
  | [] => []
  | s :: more => s.closed ++ statementsClosed more

end

theorem statementsClosed_eq (ss : List Statement) :
    statementsClosed ss = ss.flatMap Statement.closed := by
  induction ss with
  | nil => rfl
  | cons s ss ih => rw [statementsClosed, ih]; rfl

/-- The tokens of a function in front of its body. -/
def Function.front (f : Function) : List Token :=
  f.word.1 :: f.name.1 :: f.opener.1 :: f.parameters.tokens Binding.tokens ++
    f.closer.1 :: (f.result.map fun r => r.1.1 :: r.2.tokens).getD []

theorem Function.tokens_eq (f : Function) : f.tokens = f.front ++ f.body.tokens := rfl

/-- The tokens of an item behind its first one before which no statement may be put. -/
def Item.closed : Item → List Token
  | function f => f.front.tail ++ f.body.closed
  | struct s => s.tokens.tail
  | statement s => s.closed

/-- The tokens of a program before which no statement may be put. -/
def Program.closed (p : Program) : List Token := p.items.flatMap Item.closed

mutual

theorem Statement.mem_of_mem_closed : (s : Statement) → ∀ t ∈ s.closed, t ∈ s.tokens.tail
  | .breakLoop _ _, _, h | .ret _ _ _, _, h | .expression _ _, _, h => h
  | .loop _ _ body, t, h => List.mem_append.2 ((List.mem_append.1 h).imp_right
      (body.mem_of_mem_closed t))
  | .branch _ _ body, t, h => List.mem_append.2 ((List.mem_append.1 h).imp_right
      (body.mem_of_mem_closed t))
  | .branchElse _ _ body _ alternate, t, h => by
    have hbody := body.mem_of_mem_closed t
    have halternate := alternate.mem_of_mem_closed t
    simp only [Statement.closed, Statement.tokens, List.mem_append, List.mem_cons, List.cons_append,
      List.tail_cons] at h ⊢
    tauto

theorem Body.mem_of_mem_closed : (b : Body) → ∀ t ∈ b.closed, t ∈ b.tokens
  | .mk opener statements closer, t, h => by
    rcases List.mem_cons.1 h with rfl | h
    · exact List.mem_cons_self
    · exact List.mem_append_left _ (List.mem_cons_of_mem _ (statements_mem_of_mem_closed _ t h))

theorem statements_mem_of_mem_closed : (ss : List Statement) →
    ∀ t ∈ statementsClosed ss, t ∈ statementsTokens ss
  | [], _, h => h
  | s :: more, t, h => List.mem_append.2 ((List.mem_append.1 h).imp
      (fun h => List.mem_of_mem_tail (s.mem_of_mem_closed t h))
      (statements_mem_of_mem_closed more t))

end

theorem Item.mem_of_mem_closed (i : Item) : ∀ t ∈ i.closed, t ∈ i.tokens.tail := by
  cases i with
  | function f =>
    intro t h
    exact List.mem_append.2 ((List.mem_append.1 h).imp_right (f.body.mem_of_mem_closed t))
  | struct s => exact fun _ => id
  | statement s => exact s.mem_of_mem_closed

theorem Program.mem_of_mem_closed (p : Program) : ∀ t ∈ p.closed, t ∈ p.tokens := by
  intro t ht
  obtain ⟨i, hi, ht⟩ := List.mem_flatMap.1 ht
  exact List.mem_flatMap.2 ⟨i, hi, List.mem_of_mem_tail (i.mem_of_mem_closed t ht)⟩

end Grammar

end ArcLang
