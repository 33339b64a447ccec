import ArcLang.Proofs.Mending
import ArcLang.Proofs.Weaving

/-!
# What statements and programs are read

The converse of soundness for the rules with recovery inside. On tokens that are derived, with lines
in between that recovery passes over, they give what the tokens denote and report each of the lines;
where no lines are in between, they recover from nothing. A statement must not be followed by
`else`.

* `Parser.statement_restores`, `Parser.body_restores`, `Parser.item_restores`: the rules with
  recovery inside.
* `Parser.program_restores`: the rule for programs.
* `Parser.item_complete`, `Parser.program_complete`: the rules where no lines are in between.
-/

namespace ArcLang

namespace Kind

theorem beginsStatement_ne {k : Kind} (h : k.beginsStatement = true) :
    k ≠ .endOfInput ∧ k ≠ .symbol .rightBrace ∧ k ≠ .keyword .elseWord := by
  refine ⟨?_, ?_, ?_⟩ <;> rintro rfl <;> exact absurd h (by decide)

theorem beginsItem_ne {k : Kind} (h : k.beginsItem = true) :
    k ≠ .endOfInput ∧ k ≠ .keyword .elseWord := by
  refine ⟨?_, ?_⟩ <;> rintro rfl <;> exact absurd h (by decide)

end Kind

/-! ## Tokens with lines in between -/

section Weaving

variable {before : Token → List (List Token)}

/-- A body starts with its brace, which no line is put in front of. -/
theorem Grammar.Body.weave_tokens (opener : Grammar.Sign .leftBrace)
    (statements : List Grammar.Statement) (closer : Grammar.Sign .rightBrace)
    (hquiet : before opener.1 = []) :
    weave before (Grammar.Body.mk opener statements closer).tokens =
      opener.1 :: (weave before (statements.flatMap Grammar.Statement.tokens) ++
        (before closer.1).flatten ++ [closer.1]) := by
  rw [Grammar.Body.tokens, Grammar.statementsTokens_eq, List.cons_append, weave_cons, hquiet,
    weave_append, weave_cons, List.append_assoc]
  rfl

theorem Grammar.Body.flatMap_tokens (opener : Grammar.Sign .leftBrace)
    (statements : List Grammar.Statement) (closer : Grammar.Sign .rightBrace)
    (hquiet : before opener.1 = []) :
    (Grammar.Body.mk opener statements closer).tokens.flatMap before =
      (statements.flatMap Grammar.Statement.tokens).flatMap before ++ before closer.1 := by
  rw [Grammar.Body.tokens, Grammar.statementsTokens_eq, List.cons_append, List.flatMap_cons,
    hquiet, List.flatMap_append, List.flatMap_singleton]
  rfl

theorem Grammar.Body.firstKind_weave {b : Grammar.Body} (hquiet : ∀ t ∈ b.closed, before t = [])
    (r : List Token) : firstKind (weave before b.tokens ++ r) = .symbol .leftBrace := by
  cases b with
  | mk opener statements closer =>
    rw [Grammar.Body.weave_tokens _ _ _ (hquiet _ List.mem_cons_self)]
    exact opener.2

end Weaving

namespace Parser

open State (Calm Takes Mends Spares)
open Grammar (Word Sign Elements)

variable {env : Setting} {s : State} {rest : List Token} {stops : Diagnostic → State → Prop}
  {before : Token → List (List Token)}

/-- The expression before a body ends there. -/
theorem endsExpression_body {b : Grammar.Body} (hquiet : ∀ t ∈ b.closed, before t = [])
    (r : List Token) : (firstKind (weave before b.tokens ++ r)).endsExpression = true := by
  rw [b.firstKind_weave hquiet]; rfl

/-- What reads tokens also does so where only the first has lines put in before. -/
theorem Completes.restores_weave {α : Type} {p : Parser α} {ts : List Token} {a : α}
    {ends : Kind → Prop} (h : Completes p ts a ends) (hquiet : ∀ t ∈ ts.tail, before t = []) :
    Restores env stops p (weaveBehind before ts) (ts.tail.flatMap before) a ends := by
  rw [weaveBehind_of_quiet hquiet, List.flatMap_eq_nil_iff.2 hquiet]
  exact h.restores

/-- Reads every body that is nested in at most so many levels and assigns to places, with lines in
between. -/
def RestoresBody (env : Setting) (stops : Diagnostic → State → Prop)
    (before : Token → List (List Token)) (k : Nat) (p : Parser Block) : Prop :=
  ∀ d : Grammar.Body, (Node.block d.tree).Throughout Node.AssignsToPlace → d.tree.need ≤ k →
    (∀ t ∈ d.closed, before t = []) →
      Restores env stops p (weave before d.tokens) (d.tokens.flatMap before) d.tree fun _ => True

/-! ## Statements -/

section Statements

variable {k : Nat} {expression : Parser Expr} {body : Parser Block}

theorem breakLoop_complete (start : Token) (stop : Sign .semicolon) :
    Completes (breakLoop start) [stop.1] (.breakLoop (start.span.upTo stop.1.span))
      fun _ => True := by
  intro env s rest hs hi _
  obtain ⟨s₁, hg₁, ht₁⟩ := expect_calm hs hi stop.2 "';' after break" env
  exact ⟨s₁, gives_bind hg₁ (gives_spanned ht₁.consumes.endsAt), ht₁⟩

theorem ret_complete (he : CompletesExpr (k + 1) expression) (start : Token)
    (value : Option Grammar.Expr) (stop : Sign .semicolon)
    (hplaced : ∀ d ∈ value, d.tree.Placed) (hneed : ∀ d ∈ value, d.tree.need ≤ k) :
    Completes (ret start expression) ((value.map Grammar.Expr.tokens).getD [] ++ [stop.1])
      (.ret (start.span.upTo stop.1.span) (value.map Grammar.Expr.tree)) fun _ => True := by
  intro env s rest hs hi _
  obtain ⟨s₁, hcheck, ht₁⟩ := check_calm hs (.symbol .semicolon) env
  cases value with
  | none =>
    have hi : s.input = stop.1 :: rest := hi
    rw [hi, decide_eq_true (by exact stop.2)] at hcheck
    obtain ⟨s₂, hstop, ht₂⟩ := expect_calm ht₁.calm (ht₁.input_eq.trans hi) stop.2
      "';' after return" env
    refine ⟨s₂, gives_bind hcheck (gives_bind (gives_pure none) (gives_bind hstop ?_)),
      ht₁.after ht₂⟩
    exact gives_spanned ht₂.consumes.endsAt
  | some d =>
    have hi : s.input = d.tokens ++ (stop.1 :: rest) := by rw [hi]; simp
    -- no expression starts with the semicolon of a bare return
    have hvalue : firstKind s.input ≠ .symbol .semicolon := by
      intro h
      have hstart := (d.starts.append (stop.1 :: rest)).firstKind
      rw [← hi, h] at hstart
      cases hstart
    rw [decide_eq_false hvalue] at hcheck
    obtain ⟨s₂, hg, ht₂⟩ := he d (hplaced d rfl) (Nat.lt_succ_of_le (hneed d rfl)) ht₁.calm
      (ht₁.input_eq.trans hi) (endsExpression_at stop rfl rest)
    have hi₂ := (ht₁.after ht₂).input hi
    obtain ⟨s₃, hstop, ht₃⟩ := expect_calm ht₂.calm hi₂ stop.2 "';' after return" env
    refine ⟨s₃, gives_bind hcheck (gives_bind (gives_map some hg) (gives_bind hstop ?_)),
      ht₁.after (ht₂.trans ht₃)⟩
    exact gives_spanned ht₃.consumes.endsAt

theorem expressionStatement_complete (he : CompletesExpr (k + 1) expression) (e : Grammar.Expr)
    (stop : Sign .semicolon) (hplaced : e.tree.Placed) (hneed : e.tree.need ≤ k) :
    Completes (statement expression body) (Grammar.Statement.expression e stop).tokens
      (Grammar.Statement.expression e stop).tree fun _ => True := by
  intro env s rest hs hi _
  have hi : s.input = e.tokens ++ (stop.1 :: rest) := by
    rw [hi]; simp [Grammar.Statement.tokens]
  obtain ⟨t, r, htokens, hstart⟩ := e.starts
  have hfirst : s.input = t :: (r ++ (stop.1 :: rest)) := by rw [hi, htokens]; rfl
  obtain ⟨s₁, hpeek, ht₁⟩ := peek_calm_of_input hs hfirst env
  obtain ⟨s₂, hg, ht₂⟩ := he e hplaced (Nat.lt_succ_of_le hneed) ht₁.calm
    (ht₁.input_eq.trans hi) (endsExpression_at stop rfl rest)
  obtain ⟨s₃, hstop', ht₃⟩ := expect_calm ht₂.calm ((ht₁.after ht₂).input hi) stop.2
    "';' after expression" env
  refine ⟨s₃, gives_bind hpeek ?_, ht₁.after (ht₂.trans ht₃)⟩
  -- no expression starts with the word of another statement
  split
  · next hk => rw [hk] at hstart; cases hstart
  · next hk => rw [hk] at hstart; cases hstart
  · next hk => rw [hk] at hstart; cases hstart
  · next hk => rw [hk] at hstart; cases hstart
  · rw [Grammar.Statement.tree, e.span_tree, htokens]
    refine gives_bind hg (gives_bind hstop' ?_)
    exact gives_spanned ht₃.consumes.endsAt

theorem loop_restores (he : CompletesExpr (k + 1) expression)
    (hb : RestoresBody env stops before k body) (word : Word (.keyword .whileWord))
    (condition : Grammar.Expr) (inner : Grammar.Body)
    (hplaced : (Node.statement (Grammar.Statement.loop word condition inner).tree).Throughout
      Node.AssignsToPlace)
    (hneed : (Grammar.Statement.loop word condition inner).tree.need ≤ k)
    (hquiet : ∀ t ∈ (Grammar.Statement.loop word condition inner).closed, before t = []) :
    Restores env stops (loop word.1 expression body)
      (weave before (condition.tokens ++ inner.tokens))
      ((condition.tokens ++ inner.tokens).flatMap before)
      (Grammar.Statement.loop word condition inner).tree fun _ => True := by
  obtain ⟨hcplaced, hplaced⟩ := List.forall_mem_cons.1 (Node.throughout_iff.1 hplaced).2
  obtain ⟨hbplaced, -⟩ := List.forall_mem_cons.1 hplaced
  obtain ⟨hcneed, hbneed⟩ := Nat.max_le.1 hneed
  obtain ⟨hcquiet, hbquiet⟩ := List.forall_mem_append.1 hquiet
  rw [weave_append, weave_of_quiet hcquiet, List.flatMap_append,
    List.flatMap_eq_nil_iff.2 hcquiet, List.nil_append]
  intro s rest hs hi _
  rw [List.append_assoc] at hi
  obtain ⟨s₁, hg₁, ht₁⟩ := he condition hcplaced (Nat.lt_succ_of_le hcneed) hs.calm hi
    (endsExpression_body hbquiet _)
  refine hg₁.runs_bind
    ((hb inner hbplaced hbneed hbquiet (ht₁.spares hs) (ht₁.input hi) trivial).bind ?_)
  rintro _ s₂ ⟨rfl, hm⟩
  have hend := hm.consumes.endsAt_weave inner.tokens_ne_nil inner.span_tree
  exact (gives_spanned hend).runs ⟨rfl, ht₁.mends_trans hm⟩

theorem branch_restores (he : CompletesExpr (k + 1) expression)
    (hb : RestoresBody env stops before k body) (word : Word (.keyword .ifWord))
    (condition : Grammar.Expr) (consequent : Grammar.Body)
    (hplaced : (Node.statement (Grammar.Statement.branch word condition consequent).tree).Throughout
      Node.AssignsToPlace)
    (hneed : (Grammar.Statement.branch word condition consequent).tree.need ≤ k)
    (hquiet : ∀ t ∈ (Grammar.Statement.branch word condition consequent).closed, before t = []) :
    Restores env stops (branch word.1 expression body)
      (weave before (condition.tokens ++ consequent.tokens))
      ((condition.tokens ++ consequent.tokens).flatMap before)
      (Grammar.Statement.branch word condition consequent).tree (· ≠ .keyword .elseWord) := by
  obtain ⟨hcplaced, hplaced⟩ := List.forall_mem_cons.1 (Node.throughout_iff.1 hplaced).2
  obtain ⟨hbplaced, -⟩ := List.forall_mem_cons.1 hplaced
  obtain ⟨hcneed, hbneed⟩ := Nat.max_le.1 hneed
  obtain ⟨hcquiet, hbquiet⟩ := List.forall_mem_append.1 hquiet
  rw [weave_append, weave_of_quiet hcquiet, List.flatMap_append,
    List.flatMap_eq_nil_iff.2 hcquiet, List.nil_append]
  intro s rest hs hi hend
  rw [List.append_assoc] at hi
  obtain ⟨s₁, hg₁, ht₁⟩ := he condition hcplaced (Nat.lt_succ_of_le hcneed) hs.calm hi
    (endsExpression_body hbquiet _)
  have hi₁ := ht₁.input hi
  refine hg₁.runs_bind ((hb consequent hbplaced hbneed hbquiet (ht₁.spares hs) hi₁ trivial).bind ?_)
  rintro _ s₂ ⟨rfl, hm⟩
  have hother : firstKind s₂.input ≠ .keyword .elseWord := by rw [hm.input hi₁]; exact hend
  have hcalm : s₂.Calm := (hm.spares (n := 0) (ht₁.spares hs)).calm
  obtain ⟨s₃, haccept, ht₃⟩ := accept_refused hcalm hother env
  have hm₃ := hm.before ht₃
  have hspan := hm₃.consumes.endsAt_weave consequent.tokens_ne_nil consequent.span_tree
  exact haccept.runs_bind ((gives_spanned hspan).runs ⟨rfl, ht₁.mends_trans hm₃⟩)

theorem branchElse_restores (he : CompletesExpr (k + 1) expression)
    (hb : RestoresBody env stops before k body) (word : Word (.keyword .ifWord))
    (condition : Grammar.Expr) (consequent : Grammar.Body) (other : Word (.keyword .elseWord))
    (alternate : Grammar.Body)
    (hplaced : (Node.statement
      (Grammar.Statement.branchElse word condition consequent other alternate).tree).Throughout
        Node.AssignsToPlace)
    (hneed :
      (Grammar.Statement.branchElse word condition consequent other alternate).tree.need ≤ k)
    (hquiet : ∀ t ∈ (Grammar.Statement.branchElse word condition consequent other alternate).closed,
      before t = []) :
    Restores env stops (branch word.1 expression body)
      (weave before (condition.tokens ++ (consequent.tokens ++ other.1 :: alternate.tokens)))
      ((condition.tokens ++ (consequent.tokens ++ other.1 :: alternate.tokens)).flatMap before)
      (Grammar.Statement.branchElse word condition consequent other alternate).tree
      fun _ => True := by
  obtain ⟨hcplaced, hplaced⟩ := List.forall_mem_cons.1 (Node.throughout_iff.1 hplaced).2
  obtain ⟨hbplaced, hplaced⟩ := List.forall_mem_cons.1 hplaced
  obtain ⟨haplaced, -⟩ := List.forall_mem_cons.1 hplaced
  obtain ⟨hneed, haneed⟩ := Nat.max_le.1 hneed
  obtain ⟨hcneed, hbneed⟩ := Nat.max_le.1 hneed
  obtain ⟨hcquiet, hquiet⟩ := List.forall_mem_append.1 hquiet
  obtain ⟨hbquiet, hquiet⟩ := List.forall_mem_append.1 hquiet
  obtain ⟨hother, haquiet⟩ := List.forall_mem_cons.1 hquiet
  rw [weave_append, weave_of_quiet hcquiet, weave_append, weave_cons, hother, List.flatMap_append,
    List.flatMap_eq_nil_iff.2 hcquiet, List.flatMap_append, List.flatMap_cons, hother]
  intro s rest hs hi _
  have hi : s.input = condition.tokens ++ (weave before consequent.tokens ++
      (other.1 :: (weave before alternate.tokens ++ rest))) := by rw [hi]; simp
  have hs : s.Spares ((consequent.tokens.flatMap before).length +
      (alternate.tokens.flatMap before).length) := by simpa using hs
  obtain ⟨s₁, hg₁, ht₁⟩ := he condition hcplaced (Nat.lt_succ_of_le hcneed) hs.calm hi
    (endsExpression_body hbquiet _)
  have hi₁ := ht₁.input hi
  have hs₁ := ht₁.spares hs
  refine hg₁.runs_bind
    ((hb consequent hbplaced hbneed hbquiet (hs₁.mono (Nat.le_add_right _ _)) hi₁ trivial).bind ?_)
  rintro _ s₂ ⟨rfl, hm₂⟩
  have hi₂ := hm₂.input hi₁
  have hs₂ := hm₂.spares hs₁
  obtain ⟨s₃, haccept, ht₃⟩ := accept_taken hs₂.calm hi₂ other.2 env
  have hi₃ := ht₃.input_cons hi₂
  obtain ⟨t, s₄, hpeek, ht₄, hshows⟩ := peek_calm ht₃.calm env
  -- behind the else comes a brace and not another if
  have hbrace : t.kind ≠ .keyword .ifWord := by
    rw [hshows.kind, hi₃, alternate.firstKind_weave haquiet]; decide
  have ht := ht₃.before ht₄
  refine haccept.runs_bind (hpeek.runs_bind ?_)
  rw [if_neg hbrace]
  refine (hb alternate haplaced haneed haquiet (ht.spares hs₂) (ht₄.input_eq.trans hi₃)
    trivial).bind ?_
  rintro _ s₅ ⟨rfl, hm₅⟩
  have hspan := hm₅.consumes.endsAt_weave alternate.tokens_ne_nil alternate.span_tree
  refine (gives_spanned hspan).runs ⟨rfl, ?_⟩
  exact ht₁.mends_trans (hm₂.trans (ht.mends_trans hm₅))

/-- **A statement that is derived is read** if its expressions and bodies are, with lines put in
between behind its first token. -/
theorem statement_restores (he : CompletesExpr (k + 1) expression)
    (hb : RestoresBody env stops before k body) (d : Grammar.Statement)
    (hplaced : (Node.statement d.tree).Throughout Node.AssignsToPlace) (hneed : d.tree.need ≤ k)
    (hquiet : ∀ t ∈ d.closed, before t = []) :
    Restores env stops (statement expression body) (weaveBehind before d.tokens)
      (d.tokens.tail.flatMap before) d.tree (· ≠ .keyword .elseWord) := by
  cases d with
  | breakLoop word stop =>
    have h : Completes (statement expression body) (Grammar.Statement.breakLoop word stop).tokens
        (Grammar.Statement.breakLoop word stop).tree fun _ => True :=
      headed_complete word breakLoop (breakLoop_complete word.1 stop) (by simp only [word.2])
    exact (h.restores_weave hquiet).imp fun _ _ => trivial
  | ret word value stop =>
    obtain ⟨-, hplaced⟩ := Node.throughout_iff.1 hplaced
    have hvplaced : ∀ d ∈ value, d.tree.Placed := by
      rintro d rfl
      exact hplaced _ List.mem_cons_self
    have hvneed : ∀ d ∈ value, d.tree.need ≤ k := by
      rintro d rfl
      exact hneed
    have h : Completes (statement expression body) (Grammar.Statement.ret word value stop).tokens
        (Grammar.Statement.ret word value stop).tree fun _ => True :=
      headed_complete word (fun t => ret t expression)
        (ret_complete he word.1 value stop hvplaced hvneed) (by simp only [word.2])
    exact (h.restores_weave hquiet).imp fun _ _ => trivial
  | loop word condition inner =>
    have h := loop_restores he hb word condition inner hplaced hneed hquiet
    exact (headed_restores word (fun t => loop t expression body) h
      (by simp only [word.2])).imp fun _ _ => trivial
  | branch word condition consequent =>
    have h := branch_restores he hb word condition consequent hplaced hneed hquiet
    exact headed_restores word (fun t => branch t expression body) h (by simp only [word.2])
  | branchElse word condition consequent other alternate =>
    have h := branchElse_restores he hb word condition consequent other alternate hplaced hneed
      hquiet
    have htokens : (Grammar.Statement.branchElse word condition consequent other alternate).tokens =
        word.1 :: (condition.tokens ++ (consequent.tokens ++ other.1 :: alternate.tokens)) := by
      simp [Grammar.Statement.tokens]
    rw [htokens]
    exact (headed_restores word (fun t => branch t expression body) h
      (by simp only [word.2])).imp fun _ _ => trivial
  | expression e stop =>
    obtain ⟨-, hplaced⟩ := Node.throughout_iff.1 hplaced
    have h : Completes (statement expression body) (Grammar.Statement.expression e stop).tokens
        (Grammar.Statement.expression e stop).tree fun _ => True :=
      expressionStatement_complete he e stop (hplaced _ List.mem_cons_self) hneed
    exact (h.restores_weave hquiet).imp fun _ _ => trivial

end Statements

/-! ## Repetition with recovery -/

section Repetition

variable {α δ : Type} {step : Array α → Parser (ForInStep (Array α))} {halts : State → Prop}

/-- The round of a member, with lines put in between behind its first token. -/
def Round.of (before : Token → List (List Token)) (tokens : List Token) (a : α) : Round α :=
  ⟨weaveBehind before tokens, tokens.tail.flatMap before, some a⟩

/-- The rounds over the lines in front of a member, and the round of the member. -/
def Round.upTo (before : Token → List (List Token)) (tokens : List Token) (a : α) :
    List (Round α) :=
  (inFront before tokens).map .skip ++ [.of before tokens a]

theorem Round.flatMap_skip (lines : List (List Token)) :
    (lines.map Round.skip : List (Round α)).flatMap Round.tokens = lines.flatten ∧
      (lines.map Round.skip : List (Round α)).flatMap Round.lines = lines ∧
        (lines.map Round.skip : List (Round α)).filterMap Round.member = [] := by
  induction lines with
  | nil => exact ⟨rfl, rfl, rfl⟩
  | cons line lines ih =>
    obtain ⟨htokens, hlines, hmember⟩ := ih
    refine ⟨?_, ?_, ?_⟩
    · rw [List.map_cons, List.flatMap_cons, htokens]
      rfl
    · rw [List.map_cons, List.flatMap_cons, hlines]
      rfl
    · rw [List.map_cons, List.filterMap_cons_none (rfl : (Round.skip line).member = none), hmember]

theorem Round.flatMap_upTo (before : Token → List (List Token)) (tokens : List Token) (a : α) :
    (Round.upTo before tokens a).flatMap Round.tokens = weave before tokens ∧
      (Round.upTo before tokens a).flatMap Round.lines = tokens.flatMap before ∧
        (Round.upTo before tokens a).filterMap Round.member = [a] := by
  obtain ⟨htokens, hlines, hmember⟩ := Round.flatMap_skip (α := α) (inFront before tokens)
  refine ⟨?_, ?_, ?_⟩
  · rw [Round.upTo, List.flatMap_append, htokens, List.flatMap_singleton, weave_eq]
    rfl
  · rw [Round.upTo, List.flatMap_append, hlines, List.flatMap_singleton, flatMap_eq_inFront]
    rfl
  · rw [Round.upTo, List.filterMap_append, hmember]
    rfl

/-- A repetition with recovery reads one member after the other and goes on from there, with the
lines in front of each, and those behind the last, passed over. -/
theorem repeated_restores {tokens : δ → List Token} {tree : δ → α} (progresses : Progresses step)
    (ds : List δ)
    (hmember : ∀ d ∈ ds, Performs env stops halts step (.of before (tokens d) (tree d)))
    {more : List (List Token)} (hskip : ∀ line, (∃ t, line ∈ before t) ∨ line ∈ more →
      Performs env stops halts step (.skip line)) {acc : Array α}
    {gives : Array α → State → Prop}
    (hs : s.Spares ((ds.flatMap tokens).flatMap before ++ more).length)
    (hi : s.input = weave before (ds.flatMap tokens) ++ more.flatten ++ rest)
    (hrest : firstKind rest ≠ .keyword .elseWord)
    (hthen : ∀ acc' s', acc'.toList = acc.toList ++ ds.map tree →
      s.Mends (weave before (ds.flatMap tokens) ++ more.flatten)
        ((ds.flatMap tokens).flatMap before ++ more) s' →
          Runs (iterate step acc') env s' gives (fun _ _ _ => False) stops)
    (hhalts : ∀ out s', halts s' → gives out s') :
    Runs (iterate step acc) env s gives (fun _ _ _ => False) stops := by
  let rounds : List (Round α) :=
    ds.flatMap (fun d => Round.upTo before (tokens d) (tree d)) ++ more.map .skip
  have hrounds : ∀ r ∈ rounds, Performs env stops halts step r := by
    refine List.forall_mem_append.2 ⟨fun r hr => ?_, List.forall_mem_map.2 fun line hline =>
      hskip line (.inr hline)⟩
    obtain ⟨d, hd, hr⟩ := List.mem_flatMap.1 hr
    rcases List.mem_append.1 hr with hr | hr
    · obtain ⟨line, hline, rfl⟩ := List.mem_map.1 hr
      obtain ⟨t, -, ht⟩ := List.mem_flatMap.1 hline
      exact hskip line (.inl ⟨t, ht⟩)
    · rw [List.mem_singleton.1 hr]
      exact hmember d hd
  have hparts (d : δ) := Round.flatMap_upTo before (tokens d) (tree d)
  obtain ⟨hmtokens, hmlines, hmnone⟩ := Round.flatMap_skip (α := α) more
  have htokens : rounds.flatMap Round.tokens =
      weave before (ds.flatMap tokens) ++ more.flatten := by
    rw [List.flatMap_append, hmtokens, List.flatMap_assoc, weave_flatMap]
    simp only [(hparts _).1]
  have hlines : rounds.flatMap Round.lines = (ds.flatMap tokens).flatMap before ++ more := by
    rw [List.flatMap_append, hmlines, List.flatMap_assoc, List.flatMap_assoc]
    simp only [(hparts _).2.1]
  have htrees : rounds.filterMap Round.member = ds.map tree := by
    rw [List.filterMap_append, hmnone, List.append_nil, List.filterMap_flatMap]
    simp only [(hparts _).2.2]
    exact List.flatMap_pure_eq_map tree ds
  rw [← htrees, ← htokens, ← hlines] at hthen
  rw [← hlines] at hs
  rw [← htokens] at hi
  exact runs_rounds progresses hrounds (n := 0) hs hi hrest hthen hhalts

end Repetition

/-! ## Bodies -/

theorem bodyStep_closes {rule : Parser Stmt} {acc : Array Stmt} (hs : s.Calm)
    (hi : firstKind s.input = .symbol .rightBrace) :
    ∃ s', Gives (bodyStep rule acc) env s (.done acc) s' ∧ s.Takes [] s' := by
  obtain ⟨t, s₁, hpeek, ht₁, hshows⟩ := peek_calm hs env
  obtain ⟨s₂, hend, ht₂⟩ := atEnd_calm ht₁.calm env
  refine ⟨s₂, gives_bind hpeek (gives_bind hend (gives_bind rfl ?_)), ht₁.after ht₂⟩
  rw [hshows.kind, hi]
  exact gives_pure _

/-- The lines in between are passed over in every body that is given less than so much room. -/
def SkipsLines (env : Setting) (stops : Diagnostic → State → Prop)
    (before : Token → List (List Token)) (room : Nat) : Prop :=
  ∀ k < room, ∀ line, (∃ t, line ∈ before t) →
    Performs env stops (fun _ => False) (bodyStep (statement (expression k) (body k))) (.skip line)

/-- The round over a statement. -/
theorem performs_statement {rule : Parser Stmt} (d : Grammar.Statement)
    (h : Restores env stops rule (weaveBehind before d.tokens) (d.tokens.tail.flatMap before) d.tree
      (· ≠ .keyword .elseWord)) :
    Performs env stops (fun _ => False) (bodyStep rule) (.of before d.tokens d.tree) := by
  have hstarts := d.starts.weaveBehind before
  obtain ⟨-, hbrace, helse⟩ := Kind.beginsStatement_ne hstarts.firstKind
  exact performs_bodyStep hstarts.ne_nil helse hbrace fun hs hi hrest => h.recover hs hi hrest

/-- The statements of a body are read up to the brace that closes it, with lines in between and
in front of the brace. -/
theorem statements_restores {rule : Parser Stmt} (progresses : Progresses (bodyStep rule))
    (ds : List Grammar.Statement)
    (hmember : ∀ d ∈ ds,
      Performs env stops (fun _ => False) (bodyStep rule) (.of before d.tokens d.tree))
    (hskip : ∀ line, (∃ t, line ∈ before t) →
      Performs env stops (fun _ => False) (bodyStep rule) (.skip line))
    (closer : Sign .rightBrace)
    (hs : s.Spares ((ds.flatMap Grammar.Statement.tokens).flatMap before ++ before closer.1).length)
    (hi : s.input = weave before (ds.flatMap Grammar.Statement.tokens) ++
      (before closer.1).flatten ++ closer.1 :: rest) :
    Runs (iterate (bodyStep rule) #[]) env s
      (fun out s' => out.toList = ds.map Grammar.Statement.tree ∧
        s.Mends (weave before (ds.flatMap Grammar.Statement.tokens) ++ (before closer.1).flatten)
          ((ds.flatMap Grammar.Statement.tokens).flatMap before ++ before closer.1) s')
      (fun _ _ _ => False) stops := by
  have hcloser : firstKind (closer.1 :: rest) = .symbol .rightBrace := closer.2
  have hrest : firstKind (closer.1 :: rest) ≠ .keyword .elseWord := by rw [hcloser]; decide
  have hskip' : ∀ line, (∃ t, line ∈ before t) ∨ line ∈ before closer.1 →
      Performs env stops (fun _ => False) (bodyStep rule) (.skip line) :=
    fun line hline => hskip line (hline.elim id fun hline => ⟨closer.1, hline⟩)
  refine repeated_restores progresses ds hmember hskip' hs hi hrest ?_ fun _ _ => False.elim
  intro out s' hout hm
  have hcalm : s'.Calm := (hm.spares (n := 0) hs).calm
  obtain ⟨s'', hdone, ht⟩ := bodyStep_closes hcalm ((hm.input hi).symm ▸ hcloser)
  exact (gives_iterate_done progresses hdone).runs ⟨hout, hm.before ht⟩

/-- **A body that is derived is read,** where there is room for it, with lines in between. -/
theorem body_restores (room : Nat) (hlines : SkipsLines env stops before room) :
    RestoresBody env stops before room (body room) := by
  induction room with
  | zero =>
    rintro ⟨opener, statements, closer⟩ _ hneed
    exact absurd hneed (Nat.not_succ_le_zero _)
  | succ room ih =>
    rintro ⟨opener, statements, closer⟩ hplaced hneed hquiet s rest hs hi -
    have hb := ih fun k hk => hlines k (Nat.lt_succ_of_lt hk)
    obtain ⟨-, hplaced⟩ := Node.throughout_iff.1 hplaced
    rw [Grammar.Body.tree, Grammar.statementsTrees_eq] at hplaced hneed ⊢
    obtain ⟨hoquiet, hquiet⟩ := List.forall_mem_cons.1 hquiet
    rw [Grammar.statementsClosed_eq] at hquiet
    have hmember : ∀ d ∈ statements, Performs env stops (fun _ => False)
        (bodyStep (statement (expression room) (body room))) (.of before d.tokens d.tree) := by
      intro d hd
      have hmem := List.mem_map_of_mem (f := Grammar.Statement.tree) hd
      have hneeds := Stmt.needEach_le_iff.1 (Nat.le_of_succ_le_succ hneed) d.tree hmem
      refine performs_statement d (statement_restores (expression_complete room) hb d
        (hplaced _ (List.mem_map_of_mem hmem)) hneeds fun t ht => ?_)
      exact hquiet t (List.mem_flatMap.2 ⟨d, hd, ht⟩)
    have hweave := Grammar.Body.weave_tokens opener statements closer hoquiet
    have hlist := Grammar.Body.flatMap_tokens opener statements closer hoquiet
    rw [hlist] at hs ⊢
    have hi : s.input = opener.1 :: (weave before (statements.flatMap Grammar.Statement.tokens) ++
        (before closer.1).flatten ++ closer.1 :: rest) := by
      rw [hi, hweave]; simp
    obtain ⟨s₁, hopen, ht₁⟩ := expect_calm hs.calm hi opener.2 (quotedSymbol .leftBrace) env
    have hi₁ := ht₁.input_cons hi
    have hs₁ := ht₁.spares hs
    refine hopen.runs_bind ((statements_restores
      (progresses_bodyStep (steady_statementWithin room) (eats_statementWithin room)) statements
      hmember (hlines room (Nat.lt_succ_self _)) closer hs₁ hi₁).bind ?_)
    rintro out s₂ ⟨hout, hm₂⟩
    have hs₂ : s₂.Calm := (hm₂.spares (n := 0) hs₁).calm
    obtain ⟨s₃, hclose, ht₃⟩ := expectClosing_calm hs₂ (hm₂.input hi₁) closer.2
      (quotedSymbol .rightBrace) opener.1 env
    rw [← hout, hweave]
    refine hclose.runs_bind ((gives_spanned ht₃.consumes.endsAt).runs ⟨rfl, ?_⟩)
    exact ht₁.mends_trans (hm₂.takes ht₃)

/-! ## Definitions -/

section Definitions

variable {room : Nat}

theorem binding_complete (what : String) (d : Grammar.Binding)
    (hlengths : Grammar.Resolve d.type.lengths) (hneed : d.type.tree.need ≤ room) :
    Completes (binding what room) d.tokens d.tree fun _ => True := by
  intro env s rest hs hi _
  obtain ⟨s₁, hname, ht₁⟩ := expect_calm hs hi d.name.2 s!"{what} name" env
  have hi₁ := ht₁.input_cons hi
  obtain ⟨s₂, hcolon, ht₂⟩ := expect_calm ht₁.calm hi₁ d.colon.2 s!"':' after {what} name" env
  obtain ⟨s₃, htype, ht₃⟩ := typeName_complete d.type hlengths hneed ht₂.calm (ht₂.input_cons hi₁)
    trivial
  refine ⟨s₃, gives_bind hname (gives_bind hcolon (gives_bind htype ?_)), ht₁.trans (ht₂.trans ht₃)⟩
  exact gives_spanned (ht₃.consumes.endsAt_eq d.type.tokens_ne_nil d.type.span_tree)

/-- The bindings of a definition with the symbol behind them. -/
theorem bindings_complete (what : String) {closer : Symbol} (hne : closer ≠ .comma)
    (ds : Elements Grammar.Binding) (hlengths : Grammar.Resolve (ds.list.flatMap (·.type.lengths)))
    (hneed : needMost (·.type.need) (ds.list.map Grammar.Binding.tree) ≤ room) (opener : Token)
    (sign : Sign closer) :
    Completes (delimited opener closer (binding what room))
      (ds.tokens Grammar.Binding.tokens ++ [sign.1]) (ds.list.map Grammar.Binding.tree)
      fun _ => True := by
  have he : ∀ d ∈ ds.list, Completes (binding what room) d.tokens d.tree (fun _ => True) ∧
      Grammar.Starts (· = .identifier) d.tokens := by
    intro d hd
    have hneeds := needMost_le_iff.1 hneed _ (List.mem_map_of_mem hd)
    refine ⟨binding_complete what d (fun t ht => ?_) hneeds, ?_⟩
    · exact hlengths t (List.mem_flatMap.2 ⟨d, hd, ht⟩)
    · exact .of_word d.name rfl _
  exact delimited_complete (steady_binding room what) ds he trivial trivial (by simp) hne opener
    sign

/-- The result type of a function, which may be missing, is read before the body. -/
theorem runs_result {next : Option TypeName → Parser Function}
    (d : Option (Sign .colon × Grammar.TypeName))
    (hlengths : Grammar.Resolve ((d.map (·.2.lengths)).getD []))
    (hneed : ((d.map (·.2.tree)).map TypeName.need).getD 0 ≤ room) {r : List Token}
    (hs : s.Calm) (hi : s.input = (d.map fun r => r.1.1 :: r.2.tokens).getD [] ++ r)
    (hr : firstKind r = .symbol .leftBrace) {gives : Function → State → Prop}
    {fails : Diagnostic → Bool → State → Prop}
    (hnext : ∀ s₁, s.Takes ((d.map fun r => r.1.1 :: r.2.tokens).getD []) s₁ →
      Runs (next (d.map (·.2.tree))) env s₁ gives fails stops) :
    Runs (do
      let result ← if ← accept (.symbol .colon) then some <$> typeName room else pure none
      next result) env s gives fails stops := by
  cases d with
  | none =>
    have hi : s.input = r := hi
    -- the body comes next, which starts with a brace
    have hcolon : firstKind s.input ≠ .symbol .colon := by rw [hi, hr]; decide
    obtain ⟨s₁, haccept, ht⟩ := accept_refused hs hcolon env
    exact haccept.runs_bind (Gives.runs_bind (gives_pure none) (hnext s₁ ht))
  | some d =>
    have hi : s.input = d.1.1 :: (d.2.tokens ++ r) := by rw [hi]; simp
    obtain ⟨s₁, haccept, ht₁⟩ := accept_taken hs hi d.1.2 env
    obtain ⟨s₂, htype, ht₂⟩ := typeName_complete d.2 hlengths hneed ht₁.calm (ht₁.input_cons hi)
      trivial
    exact haccept.runs_bind ((gives_map some htype).runs_bind (hnext s₂ (ht₁.trans ht₂)))

theorem function_restores (hskip : SkipsLines env stops before room) (f : Grammar.Function)
    (hplaced : (Node.function f.tree).Throughout Node.AssignsToPlace)
    (hlengths : Grammar.Resolve (Grammar.Item.function f).lengths) (hneed : f.tree.need ≤ room)
    (hquiet : ∀ t ∈ (Grammar.Item.function f).closed, before t = []) :
    Restores env stops (function f.word.1 room) (weave before f.tokens.tail)
      (f.tokens.tail.flatMap before) f.tree fun _ => True := by
  obtain ⟨-, hplaced⟩ := Node.throughout_iff.1 hplaced
  obtain ⟨hpneed, hneed⟩ := Nat.max_le.1 hneed
  obtain ⟨hrneed, hbneed⟩ := Nat.max_le.1 hneed
  obtain ⟨hplengths, hrlengths⟩ := List.forall_mem_append.1 hlengths
  obtain ⟨hfquiet, hbquiet⟩ := List.forall_mem_append.1 hquiet
  have hbplaced := hplaced _ (List.mem_append_right _ (List.mem_singleton_self _))
  have htail : f.tokens.tail = f.front.tail ++ f.body.tokens := rfl
  rw [htail, weave_append, weave_of_quiet hfquiet, List.flatMap_append,
    List.flatMap_eq_nil_iff.2 hfquiet, List.nil_append]
  intro s rest hs hi _
  have hi : s.input = f.name.1 :: f.opener.1 :: ((f.parameters.tokens Grammar.Binding.tokens ++
      [f.closer.1]) ++ ((f.result.map fun r => r.1.1 :: r.2.tokens).getD [] ++
        (weave before f.body.tokens ++ rest))) := by
    rw [hi]; simp [Grammar.Function.front]
  obtain ⟨s₁, hname, ht₁⟩ := expect_calm hs.calm hi f.name.2 "function name" env
  have hi₁ := ht₁.input_cons hi
  obtain ⟨s₂, hopen, ht₂⟩ := expect_calm ht₁.calm hi₁ f.opener.2 (quotedSymbol .leftParen) env
  have hi₂ := ht₂.input_cons hi₁
  obtain ⟨s₃, hlist, ht₃⟩ := bindings_complete "parameter" (by decide) f.parameters hplengths hpneed
    f.opener.1 f.closer ht₂.calm hi₂ trivial
  have hi₃ := ht₃.input hi₂
  refine hname.runs_bind (hopen.runs_bind (hlist.runs_bind (runs_result f.result hrlengths hrneed
    ht₃.calm hi₃ (f.body.firstKind_weave hbquiet rest) fun s₄ ht₄ => ?_)))
  have ht := ht₁.trans (ht₂.trans (ht₃.trans ht₄))
  refine (body_restores room hskip f.body hbplaced hbneed hbquiet (ht.spares hs) (ht₄.input hi₃)
    trivial).bind ?_
  rintro _ s₅ ⟨rfl, hm⟩
  let e : Event :=
    .parsedFunction f.name.1.lexeme (f.parameters.list.map Grammar.Binding.tree).length
  have hs₅ : s₅.Calm := (hm.spares (n := 0) (ht.spares hs)).calm
  have hnote : Gives (modify (·.note e)) env s₅ () (s₅.note e) := rfl
  have hm := hm.before (.note hs₅ e)
  have hspan := hm.consumes.endsAt_weave f.body.tokens_ne_nil f.body.span_tree
  refine hnote.runs_bind ((gives_spanned hspan).runs ⟨rfl, ?_⟩)
  simpa [Grammar.Function.front] using ht.mends_trans hm

theorem struct_complete (d : Grammar.Struct)
    (hlengths : Grammar.Resolve (Grammar.Item.struct d).lengths) (hneed : d.tree.need ≤ room) :
    Completes (struct d.word.1 room) d.tokens.tail d.tree fun _ => True := by
  intro env s rest hs hi _
  have hi : s.input = d.name.1 :: d.opener.1 :: ((d.fields.tokens Grammar.Binding.tokens ++
      [d.closer.1]) ++ rest) := by
    rw [hi]; simp [Grammar.Struct.tokens]
  obtain ⟨s₁, hname, ht₁⟩ := expect_calm hs hi d.name.2 "struct name" env
  have hi₁ := ht₁.input_cons hi
  obtain ⟨s₂, hopen, ht₂⟩ := expect_calm ht₁.calm hi₁ d.opener.2 (quotedSymbol .leftBrace) env
  obtain ⟨s₃, hlist, ht₃⟩ := bindings_complete "field" (by decide) d.fields hlengths hneed
    d.opener.1 d.closer ht₂.calm (ht₂.input_cons hi₁) trivial
  refine ⟨s₃, gives_bind hname (gives_bind hopen (gives_bind hlist ?_)), ?_⟩
  · exact gives_spanned ht₃.consumes.endsAt_concat
  · simpa [Grammar.Struct.tokens] using ht₁.trans (ht₂.trans ht₃)

end Definitions

/-! ## Items -/

/-- **An item that is derived is read,** where there is room for it, with lines put in between
behind its first token. -/
theorem item_restores {room : Nat} (hskip : SkipsLines env stops before room) (d : Grammar.Item)
    (hplaced : (Node.ofItem d.tree).Throughout Node.AssignsToPlace)
    (hlengths : Grammar.Resolve d.lengths) (hneed : d.tree.need ≤ room)
    (hquiet : ∀ t ∈ d.closed, before t = []) :
    Restores env stops (item room) (weaveBehind before d.tokens) (d.tokens.tail.flatMap before)
      d.tree (· ≠ .keyword .elseWord) := by
  cases d with
  | function f =>
    have h := (function_restores hskip f hplaced hlengths hneed hquiet).map Item.function
    exact (headed_restores f.word (fun t => Item.function <$> function t room) h
      (by simp only [f.word.2])).imp fun _ _ => trivial
  | struct d =>
    have h : Completes (item room) (Grammar.Item.struct d).tokens (Grammar.Item.struct d).tree
        fun _ => True :=
      headed_complete d.word (fun t => Item.struct <$> struct t room)
        ((struct_complete d hlengths hneed).map Item.struct) (by simp only [d.word.2])
    exact (h.restores_weave hquiet).imp fun _ _ => trivial
  | statement d =>
    have h := (statement_restores (expression_complete room) (body_restores room hskip) d hplaced
      hneed hquiet).map Item.statement
    intro s rest hs hi hend
    obtain ⟨t, r, htokens, hstart⟩ := d.starts
    have hfirst : s.input = t :: (weave before r ++ rest) := by
      rw [hi, Grammar.Item.tokens, htokens]; rfl
    obtain ⟨s₁, hpeek, ht₁⟩ := peek_calm_of_input hs.calm hfirst env
    refine hpeek.runs_bind ?_
    -- no statement starts with the word of a definition
    split
    · next hk => rw [hk] at hstart; cases hstart
    · next hk => rw [hk] at hstart; cases hstart
    · refine (h (ht₁.spares hs) (ht₁.input_eq.trans hi) hend).imp ?_ (fun _ _ _ => id) fun _ _ => id
      rintro i s₂ ⟨rfl, hm⟩
      exact ⟨rfl, ht₁.mends_trans hm⟩

theorem SkipsLines.of_none {room : Nat} : SkipsLines env stops (fun _ => []) room :=
  fun _ _ _ ⟨_, h⟩ => absurd h List.not_mem_nil

theorem itemStep_ends {room : Nat} {acc : Array Item} (hs : s.Calm) (hi : s.input = []) :
    ∃ s', Gives (itemStep room acc) env s (.done acc) s' ∧ s.Takes [] s' := by
  obtain ⟨s₁, hatEnd, ht⟩ := atEnd_calm hs env
  rw [decide_eq_true hi] at hatEnd
  exact ⟨s₁, gives_bind hatEnd (gives_bind rfl (gives_pure _)), ht⟩

/-- The round over an item. -/
theorem performs_item {room : Nat} {halts : State → Prop} (d : Grammar.Item)
    (hhalting : Halting stops halts)
    (h : Restores env stops (item room) (weaveBehind before d.tokens)
      (d.tokens.tail.flatMap before) d.tree (· ≠ .keyword .elseWord)) :
    Performs env Never halts (itemStep room) (.of before d.tokens d.tree) := by
  have hstarts := d.starts.weaveBehind before
  obtain ⟨-, helse⟩ := Kind.beginsItem_ne hstarts.firstKind
  exact performs_itemStep hstarts.ne_nil helse hhalting fun hs hi hrest => h.recover hs hi hrest

/-- **A program that is derived is read,** where there is room for it, with lines in between that
are passed over; or the parse halts. -/
theorem program_restores {d : Grammar.Program} {more : List (List Token)} {halts : State → Prop}
    (hhalting : Halting stops halts) (hlines : SkipsLines env stops before env.room)
    (hskip : ∀ line, (∃ t, line ∈ before t) ∨ line ∈ more →
      Performs env Never halts (itemStep env.room) (.skip line))
    (hs : s.Spares (d.tokens.flatMap before ++ more).length)
    (hi : s.input = weave before d.tokens ++ more.flatten)
    (hplaced : ∀ i ∈ d.trees, (Node.ofItem i).Throughout Node.AssignsToPlace)
    (hlengths : Grammar.Resolve d.lengths) (hneed : needMost Item.need d.trees ≤ env.room)
    (hquiet : ∀ t ∈ d.closed, before t = []) :
    Runs program env s (fun p s' =>
      (p.items = d.trees ∧ s.Mends (weave before d.tokens ++ more.flatten)
        (d.tokens.flatMap before ++ more) s') ∨ ∃ s₁, halts s₁ ∧ s₁.Consumes [] s')
      (fun _ _ _ => False) Never := by
  have progresses := progresses_itemStep (eats_item env.room)
  have hmember : ∀ i ∈ d.items, Performs env Never halts (itemStep env.room)
      (.of before i.tokens i.tree) := by
    intro i hi
    have hmem := List.mem_map_of_mem (f := Grammar.Item.tree) hi
    refine performs_item i hhalting (item_restores hlines i (hplaced _ hmem) (fun t ht => ?_)
      (needMost_le_iff.1 hneed _ hmem) fun t ht => ?_)
    · exact hlengths t (List.mem_flatMap.2 ⟨i, hi, ht⟩)
    · exact hquiet t (List.mem_flatMap.2 ⟨i, hi, ht⟩)
  have hi : s.input = weave before (d.items.flatMap Grammar.Item.tokens) ++ more.flatten ++ [] := by
    rw [hi, List.append_nil]; rfl
  have hread : Runs (iterate (itemStep env.room) #[]) env s (fun out s' =>
      (out.toList = d.trees ∧ s.Mends (weave before d.tokens ++ more.flatten)
        (d.tokens.flatMap before ++ more) s' ∧ s'.Calm) ∨ halts s') (fun _ _ _ => False) Never := by
    refine repeated_restores progresses d.items hmember hskip hs hi (by decide) ?_ fun _ _ => .inr
    intro out s₁ hout hm
    have hs₁ : s₁.Calm := (hm.spares (n := 0) hs).calm
    obtain ⟨s₂, hdone, ht⟩ := itemStep_ends hs₁ (hm.input hi)
    exact (gives_iterate_done progresses hdone).runs (.inl ⟨hout, hm.before ht, ht.calm⟩)
  refine Gives.runs_bind rfl (hread.bind ?_)
  rintro out s₁ (⟨hout, hm, hs₁⟩ | hhalt)
  · obtain ⟨t, s₂, hpeek, ht, -⟩ := peek_calm hs₁ env
    refine hpeek.runs_bind (Gives.runs_bind rfl ((gives_pure _).runs (.inl ⟨hout, hm.before ht⟩)))
  · obtain ⟨t, s₂, hpeek, -, -⟩ := peek_faultless (hhalting.faultless s₁ hhalt) env
    obtain ⟨hc, -⟩ := peek_gives hpeek
    exact hpeek.runs_bind (Gives.runs_bind rfl ((gives_pure _).runs (.inr ⟨s₁, hhalt, hc⟩)))

/-- **A program that is derived is read,** where there is room for it. -/
theorem program_complete {d : Grammar.Program} (hs : s.Calm) (hi : s.input = d.tokens)
    (hplaced : ∀ i ∈ d.trees, (Node.ofItem i).Throughout Node.AssignsToPlace)
    (hlengths : Grammar.Resolve d.lengths) (hneed : needMost Item.need d.trees ≤ env.room) :
    ∃ p s', Gives program env s p s' ∧ p.items = d.trees ∧ s.Takes d.tokens s' := by
  have hquiet : ∀ t ∈ d.tokens, (fun _ => []) t = ([] : List (List Token)) := fun _ _ => rfl
  have hweave := weave_of_quiet hquiet
  have hnone := List.flatMap_eq_nil_iff.2 hquiet
  have hlines : SkipsLines env Never (fun _ => []) env.room := .of_none
  have hinput : s.input = weave (fun _ => []) d.tokens ++ ([] : List (List Token)).flatten := by
    rw [hweave, hi]
    exact (List.append_nil _).symm
  have hrun := program_restores halting_never hlines
    (fun _ h => (h.elim (fun h => List.not_mem_nil h.choose_spec) List.not_mem_nil).elim)
    (by rw [hnone]; exact hs.spares) hinput hplaced hlengths hneed fun _ _ => rfl
  obtain ⟨p, s', hp, ⟨hitems, hm⟩ | ⟨s₁, hfalse, -⟩⟩ := hrun.exists_gives
  · rw [hweave, hnone, List.flatten_nil, List.append_nil] at hm
    exact ⟨p, s', hp, hitems, hm.takes_of_nil hs⟩
  · exact hfalse.elim

end Parser

end ArcLang
