import ArcLang.Proofs.ProgramCompleteness
import ArcLang.Proofs.Recording
import ArcLang.Proofs.Unclosed

/-!
# Bodies that are left open

Where the tokens end inside bodies that stand in one another, the innermost fails at the end token.
The body around it reports that, has nothing left to skip, and fails there itself; so does one body
after the other, up to the item, which is left out.

* `Parser.Unwinds`: a rule that fails at the end token, with what has been reported before.
* `Parser.body_unwinds`, `Parser.item_unwinds`: bodies and items.
* `Parser.program_unwinds`: one report for each body, the innermost first.
-/

namespace ArcLang

namespace State

/-- The tokens are all that is before the end token, and nothing is in the way. -/
structure Faces (s : State) (ts : List Token) (e : Token) : Prop where
  calm : s.Calm
  input : s.input = ts
  stream : s.stream = ts ++ [e]
  isEnd : e.isEnd = true

/-- All tokens up to the end token have been consumed, and that one is looked at; the diagnostics
have been recorded, as far as there was room for them. -/
structure Exhausts (s : State) (ts : List Token) (e : Token) (ds : List Diagnostic) (s' : State) :
    Prop where
  consumes : s.Consumes ts s'
  ahead : s'.ahead = some e
  errors : s'.errors = s.errors.addAll ds

variable {s s' s'' : State} {ts us : List Token} {e : Token} {ds : List Diagnostic}
  {why : Diagnostic}

theorem Faces.any_isEnd (h : s.Faces ts e) : s.stream.any Token.isEnd = true := by
  rw [h.stream, List.any_append, List.any_cons, h.isEnd, Bool.true_or, Bool.or_true]

theorem Faces.takes (h : s.Faces (ts ++ us) e) (ht : s.Takes ts s') : s'.Faces us e where
  calm := ht.calm
  input := ht.input h.input
  stream := by
    have hstream := ht.consumes.stream h.any_isEnd
    rw [h.stream, List.append_assoc] at hstream
    exact (List.append_cancel_left hstream).symm
  isEnd := h.isEnd

theorem Faces.takes_cons {t : Token} (h : s.Faces (t :: us) e) (ht : s.Takes [t] s') :
    s'.Faces us e := by
  have h : s.Faces ([t] ++ us) e := h
  exact h.takes ht

theorem Faces.quiet (h : s.Faces us e) (ht : s.Takes [] s') : s'.Faces us e := by
  have h : s.Faces ([] ++ us) e := h
  exact h.takes ht

theorem Takes.exhausts (h : s.Takes ts s') (h' : s'.Exhausts us e ds s'') :
    s.Exhausts (ts ++ us) e ds s'' :=
  ⟨h.consumes.trans h'.consumes, h'.ahead, h.errors ▸ h'.errors⟩

/-- One more diagnostic is recorded at the end token. -/
theorem Exhausts.report (h : s.Exhausts ts e ds s') (event : Event) :
    s.Exhausts ts e (ds ++ [why]) ((s'.record why).note event) where
  consumes := h.consumes.before ((State.Consumes.record why).trans (.note event))
  ahead := h.ahead
  errors := by
    show s'.errors.add why = s.errors.addAll (ds ++ [why])
    rw [h.errors, Collector.addAll, Collector.addAll, List.foldl_append]
    rfl

end State

namespace Parser

open State (Calm Takes Faces Exhausts)
open Grammar (Word Sign)

variable {α β : Type} {env : Setting} {s s' : State} {e : Token} {ts us : List Token}
  {why : Diagnostic} {ds : List Diagnostic}

/-! ## Failures at the end token -/

theorem error_bind_of_gives {p : Parser α} {f : α → Parser β} {a : α} {s₁ : State} {x : Failure}
    (h : Gives p env s a s₁) (hf : f a env s₁ = .error x s') :
    (p >>= f) env s = .error x s' := by
  unfold Gives at h
  rw [run_bind, h]
  exact hf

/-- On these tokens and then the end token, the rule fails at the latter, and has reported the
diagnostics before. -/
def Unwinds (env : Setting) (e : Token) (p : Parser α) (ts : List Token) (why : Diagnostic)
    (ds : List Diagnostic) : Prop :=
  ∀ ⦃s⦄, s.Faces ts e → ∃ s', p env s = .error (.syntactic why false) s' ∧ s.Exhausts ts e ds s'

/-- The same, told by how the rule's runs end. -/
theorem unwinds_iff_runs {p : Parser α} : Unwinds env e p ts why ds ↔ ∀ ⦃s : State⦄, s.Faces ts e →
    Runs p env s (fun _ _ => False)
      (fun why' echo s' => why' = why ∧ echo = false ∧ s.Exhausts ts e ds s') Never := by
  constructor
  · intro h s hs
    obtain ⟨s', hfail, hends⟩ := h hs
    exact runs_of_error hfail ⟨rfl, rfl, hends⟩
  · intro h s hs
    obtain ⟨_, _, s', hfail, rfl, rfl, hends⟩ := (h hs).exists_fails
    exact ⟨s', hfail, hends⟩

theorem Unwinds.map {p : Parser α} (h : Unwinds env e p ts why ds) (f : α → β) :
    Unwinds env e (f <$> p) ts why ds := by
  intro s hs
  obtain ⟨s', hfail, hends⟩ := h hs
  exact ⟨s', error_map hfail, hends⟩

/-- A rule that looks at a token, consumes it and goes on. -/
theorem headed_unwinds {k : Kind} (word : Word k) {rule : Token → Parser α}
    (next : Token → Parser α) (h : Unwinds env e (next word.1) ts why ds)
    (hrule : rule word.1 = do next (← advance)) :
    Unwinds env e (peek >>= rule) (word.1 :: ts) why ds := by
  intro s hs
  obtain ⟨s₁, s₂, hpeek, hadvance, ht, -⟩ := first_calm hs.calm hs.input env
  obtain ⟨s₃, hfail, hends⟩ := h (hs.takes_cons ht)
  refine ⟨s₃, error_bind_of_gives hpeek ?_, ht.exhausts hends⟩
  rw [hrule]
  exact error_bind_of_gives hadvance hfail

/-- The end token comes into view. -/
theorem peek_ended (hs : s.Faces [] e) (env : Setting) :
    ∃ s', Gives peek env s e s' ∧ s.Exhausts [] e [] s' := by
  obtain ⟨t, s', hpeek, ht, -⟩ := peek_calm hs.calm env
  obtain ⟨-, -, hahead⟩ := peek_gives hpeek
  have hstream := (hs.quiet ht).stream
  rw [State.stream, hahead] at hstream
  obtain ⟨rfl, -⟩ := List.cons.inj hstream
  exact ⟨s', hpeek, ht.consumes, hahead, ht.errors⟩

/-- What is reported at the end token for a body with this brace. -/
def unclosed (env : Setting) (e : Token) (opener : Token) : Diagnostic :=
  let place := s!"{opener.place.line}:{opener.place.column}"
  .ofPlace env.source e.place (.missingToken (quotedSymbol .rightBrace)
    (some s!"to match {opener.describe} at {place}"))

theorem expectClosing_ended (hahead : s.ahead = some e) (hend : e.isEnd = true) (opener : Token) :
    expectClosing (.symbol .rightBrace) (quotedSymbol .rightBrace) opener env s =
      .error (.syntactic (unclosed env e opener) false) s := by
  have hkind := Token.isEnd_iff.1 hend
  have hother : e.kind ≠ .symbol .rightBrace := by rw [hkind]; decide
  have herror : e.isError = false := by
    rw [← Bool.not_eq_true, Token.isError_iff, hkind]
    decide
  have hpeek : Gives peek env s e s := gives_peek hahead
  have hcheck : Gives (check (.symbol .rightBrace)) env s false s := by
    rw [← decide_eq_false hother]
    exact gives_bind hpeek (gives_pure _)
  refine error_bind_of_gives hcheck (error_bind_of_gives hpeek ?_)
  rw [← herror]
  rfl

/-! ## Recovery at the end token -/

theorem skipStatement_ended (hahead : s.ahead = some e) (hend : e.isEnd = true) :
    Gives skipStatement env s () s := by
  refine gives_iterate_done progresses_skipStatementStep (gives_bind (gives_peek hahead) ?_)
  rw [hend]
  exact gives_pure _

theorem skipItem_ended (hahead : s.ahead = some e) (hend : e.isEnd = true) :
    Gives skipItem env s () s := by
  have hskip : Gives (iterate skipItemStep 0) env s 0 s := by
    refine gives_iterate_done progresses_skipItemStep (gives_bind (gives_peek hahead) ?_)
    rw [hend]
    exact gives_pure _
  exact gives_bind hskip (gives_pure ())

/-- **Recovery at the end token** adds the failure to what has been reported. -/
theorem recover_ended {rule : Parser α} {skip : Parser Unit} {resting : Parser Bool}
    (hne : ts ≠ []) (h : Unwinds env e rule ts why ds)
    (hskip : ∀ {s : State}, s.ahead = some e → e.isEnd = true → Gives skip env s () s)
    (hs : s.Faces ts e) : ∃ s', Gives (recover rule skip resting) env s none s' ∧
      s.Exhausts ts e (ds ++ [why]) s' := by
  obtain ⟨s₁, hfail, hends⟩ := h hs
  let s₂ : State := (s₁.record why).note (.recovering why)
  have hreported : s.Exhausts ts e (ds ++ [why]) s₂ := hends.report (.recovering why)
  have hmoved : s₂.consumed ≠ s.consumed := by
    have hconsumed := hreported.consumes.consumed
    have hlength := List.length_pos_of_ne_nil hne
    omega
  have hmoveOn : Gives (moveOn s.consumed resting) env s₂ () s₂ := by
    unfold Gives
    rw [run_moveOn, if_neg hmoved]
  refine ⟨s₂, ?_, hreported⟩
  unfold Gives
  rw [run_recover, hfail]
  exact gives_bind rfl (gives_bind (hskip hreported.ahead hs.isEnd)
    (gives_bind hmoveOn (gives_pure none)))

/-! ## Repetition -/

/-- Members are read one after the other; what is left behind them adds nothing, and comes to the
end token. -/
theorem repeated_unwinds {δ : Type} {step : Array α → Parser (ForInStep (Array α))}
    {tokens : δ → List Token} {tree : δ → α} (progresses : Progresses step) (members : List δ)
    (hmember : ∀ d ∈ members,
      Performs env Never (fun _ => False) step (.of (fun _ => []) (tokens d) (tree d)))
    (hs : s.Faces (members.flatMap tokens ++ us) e) (hus : firstKind us ≠ .keyword .elseWord)
    (hthen : ∀ {acc s'}, s'.Faces us e →
      ∃ s'', Gives (iterate step acc) env s' acc s'' ∧ s'.Exhausts us e ds s'') :
    ∃ out s', Gives (iterate step #[]) env s out s' ∧ out.toList = members.map tree ∧
      s.Exhausts (members.flatMap tokens ++ us) e ds s' := by
  have hquiet : ∀ t ∈ members.flatMap tokens, (fun _ => []) t = ([] : List (List Token)) :=
    fun _ _ => rfl
  have hweave := weave_of_quiet hquiet
  have hnone := List.flatMap_eq_nil_iff.2 hquiet
  have hnolines : ∀ line : List Token, (∃ t : Token, line ∈ (fun _ => []) t) ∨ line ∈ [] →
      Performs env Never (fun _ => False) step (.skip line) := by
    rintro line (⟨t, ht⟩ | ht)
    · exact absurd ht List.not_mem_nil
    · exact absurd ht List.not_mem_nil
  refine (repeated_restores progresses members hmember hnolines ?_ ?_ hus ?_
    fun _ _ => False.elim).exists_gives
  · rw [hnone]
    exact hs.calm.spares
  · rw [hweave, hs.input]
    simp
  · intro acc s₁ hacc hm
    rw [hweave, hnone, List.flatten_nil, List.append_nil] at hm
    have ht := hm.takes_of_nil hs.calm
    obtain ⟨s₂, hgives, hends⟩ := hthen (hs.takes ht)
    exact hgives.runs ⟨hacc, ht.exhausts hends⟩

/-! ## Bodies -/

section Bodies

variable {rule : Parser Stmt} {acc : Array Stmt}

theorem bodyStep_ended (hpeek : Gives peek env s e s') (hend : e.isEnd = true) :
    Gives (bodyStep rule acc) env s (.done acc) s' := by
  obtain ⟨-, -, hahead⟩ := peek_gives hpeek
  have hatEnd : Gives atEnd env s' true s' := hend ▸ gives_bind (gives_peek hahead) (gives_pure _)
  refine gives_bind hpeek (gives_bind hatEnd (gives_bind rfl ?_))
  rw [Bool.or_true, Bool.true_or]
  exact gives_pure _

/-- A statement in a body that fails is left out. -/
theorem bodyStep_recovers {kinds : Kind → Bool} (hts : Grammar.Starts kinds ts)
    (hkinds : kinds (.symbol .rightBrace) = false)
    (h : Unwinds env e rule ts why ds) (hs : s.Faces ts e) :
    ∃ s', Gives (bodyStep rule acc) env s (.yield acc) s' ∧ s.Exhausts ts e (ds ++ [why]) s' := by
  obtain ⟨t, s₁, hpeek, ht₁, hshows⟩ := peek_calm hs.calm env
  obtain ⟨s₂, hatEnd, ht₂⟩ := atEnd_calm ht₁.calm env
  have hs₂ := (hs.quiet ht₁).quiet ht₂
  obtain ⟨s₃, hrecover, hends⟩ : ∃ s₃,
      Gives (recover rule skipStatement (check (.symbol .rightBrace))) env s₂ none s₃ ∧ _ :=
    recover_ended hts.ne_nil h skipStatement_ended hs₂
  have hother : t.kind ≠ .symbol .rightBrace := by
    rw [hshows.kind, hs.input]
    intro hkind
    have hstart := hts.firstKind
    rw [hkind, hkinds] at hstart
    cases hstart
  have hinput : s₁.input ≠ [] := by
    rw [ht₁.input_eq, hs.input]
    exact hts.ne_nil
  refine ⟨s₃, gives_bind hpeek (gives_bind hatEnd (gives_bind rfl ?_)),
    (ht₁.after ht₂).exhausts hends⟩
  rw [decide_eq_false hother, decide_eq_false hinput, ht₂.calm.roomy]
  exact gives_bind hrecover (gives_pure _)

/-- A body whose statements come to the end token fails there. -/
theorem opened_unwinds (opener : Sign .leftBrace)
    (h : ∀ {s}, s.Faces ts e →
      ∃ out s', Gives (iterate (bodyStep rule) #[]) env s out s' ∧ s.Exhausts ts e ds s') :
    Unwinds env e (do
      let t ← expect (.symbol .leftBrace) (quotedSymbol .leftBrace)
      bodyRest t rule) (opener.1 :: ts) (unclosed env e opener.1) ds := by
  intro s hs
  obtain ⟨s₁, hopen, ht⟩ := expect_calm hs.calm hs.input opener.2 (quotedSymbol .leftBrace) env
  obtain ⟨out, s₂, hstatements, hends⟩ := h (hs.takes_cons ht)
  refine ⟨s₂, error_bind_of_gives hopen (error_bind_of_gives hstatements (error_bind ?_)),
    ht.exhausts hends⟩
  exact expectClosing_ended hends.ahead hs.isEnd opener.1

end Bodies

/-! ## Statements -/

section Statements

variable {k : Nat} {expression : Parser Expr} {body : Parser Block}

/-- A condition, and then the body that is left open. -/
theorem condition_unwinds (he : CompletesExpr (k + 1) expression) {condition : Grammar.Expr}
    (hplaced : condition.tree.Placed) (hneed : condition.tree.need ≤ k)
    (hb : Unwinds env e body ts why ds) (hts : firstKind ts = .symbol .leftBrace)
    (next : Expr → Block → Parser α) :
    Unwinds env e (do
      let e ← expression
      let b ← body
      next e b) (condition.tokens ++ ts) why ds := by
  intro s hs
  have hend : (firstKind ts).endsExpression = true := by rw [hts]; rfl
  obtain ⟨s₁, hcondition, ht⟩ := he condition hplaced (Nat.lt_succ_of_le hneed) hs.calm hs.input
    hend
  obtain ⟨s₂, hfail, hends⟩ := hb (hs.takes ht)
  exact ⟨s₂, error_bind_of_gives hcondition (error_bind hfail), ht.exhausts hends⟩

/-- The body behind `else`, where what comes before it is read. -/
theorem alternate_unwinds (he : CompletesExpr (k + 1) expression) (start : Token)
    {condition : Grammar.Expr} {consequent : Grammar.Body} (other : Word (.keyword .elseWord))
    (hplaced : condition.tree.Placed) (hneed : condition.tree.need ≤ k)
    (hconsequent : Completes body consequent.tokens consequent.tree fun _ => True)
    (hb : Unwinds env e body ts why ds) (hts : firstKind ts = .symbol .leftBrace) :
    Unwinds env e (branch start expression body)
      (condition.tokens ++ (consequent.tokens ++ other.1 :: ts)) why ds := by
  intro s hs
  have hend : (firstKind (consequent.tokens ++ other.1 :: ts)).endsExpression = true := by
    rw [firstKind_append consequent.tokens_ne_nil, of_decide_eq_true consequent.starts.firstKind]
    rfl
  obtain ⟨s₁, hcondition, ht₁⟩ := he condition hplaced (Nat.lt_succ_of_le hneed) hs.calm hs.input
    hend
  have hs₁ := hs.takes ht₁
  obtain ⟨s₂, hbody, ht₂⟩ := hconsequent hs₁.calm hs₁.input trivial
  have hs₂ := hs₁.takes ht₂
  obtain ⟨s₃, haccept, ht₃⟩ := accept_taken hs₂.calm hs₂.input other.2 env
  have hs₃ := hs₂.takes_cons ht₃
  obtain ⟨t, s₄, hpeek, ht₄, hshows⟩ := peek_calm hs₃.calm env
  obtain ⟨s₅, hfail, hends⟩ := hb (hs₃.quiet ht₄)
  have hbrace : t.kind ≠ .keyword .ifWord := by
    rw [hshows.kind, hs₃.input, hts]
    decide
  refine ⟨s₅, error_bind_of_gives hcondition (error_bind_of_gives hbody
    (error_bind_of_gives haccept (error_bind_of_gives hpeek ?_))),
    ht₁.exhausts (ht₂.exhausts ((ht₃.before ht₄).exhausts hends))⟩
  rw [if_neg hbrace]
  exact error_bind hfail

end Statements

variable {room : Nat} {head : List Token} {inner : List Grammar.Body} {b : Grammar.Body}

/-- **A body that is derived is read,** where there is room for it. -/
theorem body_complete (b : Grammar.Body)
    (hplaced : (Node.block b.tree).Throughout Node.AssignsToPlace) (hneed : b.tree.need ≤ room) :
    Completes (body room) b.tokens b.tree fun _ => True := by
  refine completes_of_restores fun env => ?_
  have hlines : SkipsLines env Never (fun _ => []) room := .of_none
  have h := body_restores room hlines b hplaced hneed fun _ _ => rfl
  rwa [weave_of_quiet fun _ _ => rfl, List.flatMap_eq_nil_iff.2 fun _ _ => rfl] at h

/-- **A statement fails where the body at its end is left open.** -/
theorem statement_unwinds {s : Grammar.Statement} (h : s.Ends head b)
    (hb : Unwinds env e (body room) ts why ds) (hts : firstKind ts = .symbol .leftBrace)
    (hplaced : (Node.statement s.tree).Throughout Node.AssignsToPlace)
    (hneed : s.tree.need ≤ room) :
    Unwinds env e (statement (expression room) (body room)) (head ++ ts) why ds := by
  have he := expression_complete room
  obtain ⟨-, hplaced⟩ := Node.throughout_iff.1 hplaced
  cases h with
  | loop word condition b =>
    obtain ⟨hcplaced, -⟩ := List.forall_mem_cons.1 hplaced
    obtain ⟨hcneed, -⟩ := Nat.max_le.1 hneed
    exact headed_unwinds word (fun t => loop t (expression room) (body room))
      (condition_unwinds he hcplaced hcneed hb hts _) (by simp only [word.2])
  | branch word condition b =>
    obtain ⟨hcplaced, -⟩ := List.forall_mem_cons.1 hplaced
    obtain ⟨hcneed, -⟩ := Nat.max_le.1 hneed
    exact headed_unwinds word (fun t => branch t (expression room) (body room))
      (condition_unwinds he hcplaced hcneed hb hts _) (by simp only [word.2])
  | branchElse word condition consequent other b =>
    obtain ⟨hcplaced, hplaced⟩ := List.forall_mem_cons.1 hplaced
    obtain ⟨hbplaced, -⟩ := List.forall_mem_cons.1 hplaced
    obtain ⟨hneed, -⟩ := Nat.max_le.1 hneed
    obtain ⟨hcneed, hbneed⟩ := Nat.max_le.1 hneed
    have hbranch := alternate_unwinds he word.1 other hcplaced hcneed
      (body_complete consequent hbplaced hbneed) hb hts
    have htokens : word.1 :: condition.tokens ++ (consequent.tokens ++ [other.1]) ++ ts =
        word.1 :: (condition.tokens ++ (consequent.tokens ++ other.1 :: ts)) := by simp
    rw [htokens]
    exact headed_unwinds word (fun t => branch t (expression room) (body room)) hbranch
      (by simp only [word.2])

/-! ## Bodies in bodies -/

/-- What a body needs, its statements need one level further in. -/
theorem within_body {opener : Sign .leftBrace} {ss : List Grammar.Statement}
    {closer : Sign .rightBrace}
    (hplaced : (Node.block (Grammar.Body.mk opener ss closer).tree).Throughout Node.AssignsToPlace)
    (hneed : (Grammar.Body.mk opener ss closer).tree.need ≤ room + 1) :
    ∀ d ∈ ss, (Node.statement d.tree).Throughout Node.AssignsToPlace ∧ d.tree.need ≤ room := by
  intro d hd
  obtain ⟨-, hplaced⟩ := Node.throughout_iff.1 hplaced
  rw [Grammar.Body.tree, Grammar.statementsTrees_eq] at hplaced hneed
  have hmem := List.mem_map_of_mem (f := Grammar.Statement.tree) hd
  exact ⟨hplaced _ (List.mem_map_of_mem hmem),
    Stmt.needEach_le_iff.1 (Nat.le_of_succ_le_succ hneed) d.tree hmem⟩

/-- The statements of a body are read up to where its last one, or what is left of it, comes. -/
theorem statements_unwind {ss : List Grammar.Statement}
    (hss : ∀ d ∈ ss, (Node.statement d.tree).Throughout Node.AssignsToPlace ∧ d.tree.need ≤ room)
    (hs : s.Faces (Grammar.statementsTokens ss ++ us) e) (hus : firstKind us ≠ .keyword .elseWord)
    (hthen : ∀ {acc s'}, s'.Faces us e → ∃ s'',
      Gives (iterate (bodyStep (statement (expression room) (body room))) acc) env s' acc s'' ∧
        s'.Exhausts us e ds s'') :
    ∃ out s',
      Gives (iterate (bodyStep (statement (expression room) (body room))) #[]) env s out s' ∧
      s.Exhausts (Grammar.statementsTokens ss ++ us) e ds s' := by
  have hmember : ∀ d ∈ ss, Performs env Never (fun _ => False)
      (bodyStep (statement (expression room) (body room)))
      (.of (fun _ => []) d.tokens d.tree) := by
    intro d hd
    obtain ⟨hplaced, hneed⟩ := hss d hd
    exact performs_statement d (statement_restores (expression_complete room)
      (body_restores room .of_none) d hplaced hneed fun _ _ => rfl)
  rw [Grammar.statementsTokens_eq] at hs ⊢
  obtain ⟨out, s', hgives, -, hends⟩ := repeated_unwinds (progresses_bodyStep
    (steady_statementWithin room) (eats_statementWithin room)) ss hmember hs hus hthen
  exact ⟨out, s', hgives, hends⟩

/-- **A body that is left open fails at the end token,** and before that those in it are reported,
the innermost first. -/
theorem body_unwinds (h : b.Unclosed ts inner)
    (hplaced : (Node.block b.tree).Throughout Node.AssignsToPlace) (hneed : b.tree.need ≤ room) :
    Unwinds env e (body room) ts (unclosed env e b.opener.1)
      (inner.map fun d => unclosed env e d.opener.1) := by
  induction h generalizing room with
  | last opener ss closer =>
    cases room with
    | zero => exact absurd hneed (Nat.not_succ_le_zero _)
    | succ room =>
      refine opened_unwinds opener fun {s} hs => ?_
      have progresses := progresses_bodyStep (steady_statementWithin room)
        (eats_statementWithin room)
      rw [← List.append_nil (Grammar.statementsTokens ss)] at hs ⊢
      refine statements_unwind (within_body hplaced hneed) hs (by decide) fun {acc s₁} hs₁ => ?_
      -- nothing is left but the end token
      obtain ⟨s₂, hpeek, hends⟩ := peek_ended hs₁ env
      exact ⟨s₂, gives_iterate_done progresses (bodyStep_ended hpeek hs.isEnd), hends⟩
  | @inner head ts d b inner opener ss closer hstatement hinner ih =>
    cases room with
    | zero => exact absurd hneed (Nat.not_succ_le_zero _)
    | succ room =>
      refine opened_unwinds opener fun {s} hs => ?_
      have progresses := progresses_bodyStep (steady_statementWithin room)
        (eats_statementWithin room)
      obtain ⟨hss, hd⟩ := List.forall_mem_append.1 (within_body hplaced hneed)
      obtain ⟨hdplaced, hdneed⟩ := List.forall_mem_singleton.1 hd
      have hfails : Unwinds env e _ (head ++ ts) _ _ := statement_unwinds hstatement
        (ih (hstatement.throughout hdplaced) (hstatement.need_le.trans hdneed)) hinner.firstKind
        hdplaced hdneed
      have hstarts := hstatement.starts.append ts
      obtain ⟨-, -, helse⟩ := Kind.beginsStatement_ne hstarts.firstKind
      refine statements_unwind hss hs helse fun {acc s₁} hs₁ => ?_
      -- the last statement is left out, and then nothing is left but the end token
      obtain ⟨s₂, hstep, hends⟩ := bodyStep_recovers hstarts (by decide) hfails hs₁
      refine ⟨s₂, gives_iterate_yield progresses hstep (gives_iterate_done progresses
        (bodyStep_ended (gives_peek hends.ahead) hs.isEnd)), ?_⟩
      rw [List.map_append, List.map_singleton]
      exact hends

/-! ## Items -/

section Items

variable {bodies : List Grammar.Body} {acc : Array Item}

theorem function_unwinds (f : Grammar.Function)
    (hlengths : Grammar.Resolve (Grammar.Item.function f).lengths) (hneed : f.tree.need ≤ room)
    (hb : Unwinds env e (body room) ts why ds) (hts : firstKind ts = .symbol .leftBrace) :
    Unwinds env e (function f.word.1 room) (f.front.tail ++ ts) why ds := by
  obtain ⟨hpneed, hneed⟩ := Nat.max_le.1 hneed
  obtain ⟨hrneed, -⟩ := Nat.max_le.1 hneed
  obtain ⟨hplengths, hrlengths⟩ := List.forall_mem_append.1 hlengths
  let result : List Token := (f.result.map fun r => r.1.1 :: r.2.tokens).getD []
  have htokens : f.front.tail ++ ts = f.name.1 :: f.opener.1 ::
      ((f.parameters.tokens Grammar.Binding.tokens ++ [f.closer.1]) ++ (result ++ ts)) := by
    simp [Grammar.Function.front, result]
  rw [htokens, unwinds_iff_runs]
  intro s hs
  obtain ⟨s₁, hname, ht₁⟩ := expect_calm hs.calm hs.input f.name.2 "function name" env
  have hs₁ := hs.takes_cons ht₁
  obtain ⟨s₂, hopen, ht₂⟩ := expect_calm hs₁.calm hs₁.input f.opener.2 (quotedSymbol .leftParen) env
  have hs₂ := hs₁.takes_cons ht₂
  obtain ⟨s₃, hlist, ht₃⟩ := bindings_complete "parameter" (by decide) f.parameters hplengths hpneed
    f.opener.1 f.closer hs₂.calm hs₂.input trivial
  have hs₃ := hs₂.takes ht₃
  refine hname.runs_bind (hopen.runs_bind (hlist.runs_bind (runs_result f.result hrlengths hrneed
    hs₃.calm hs₃.input hts fun s₄ ht₄ => ?_)))
  obtain ⟨s₅, hfail, hends⟩ := hb (hs₃.takes ht₄)
  exact runs_of_error (error_bind hfail)
    ⟨rfl, rfl, ht₁.exhausts (ht₂.exhausts (ht₃.exhausts (ht₄.exhausts hends)))⟩

/-- **An item fails where the body at its end is left open.** -/
theorem item_unwinds {i : Grammar.Item} (h : i.Ends head b)
    (hb : Unwinds env e (body room) ts why ds) (hts : firstKind ts = .symbol .leftBrace)
    (hplaced : (Node.ofItem i.tree).Throughout Node.AssignsToPlace)
    (hlengths : Grammar.Resolve i.lengths) (hneed : i.tree.need ≤ room) :
    Unwinds env e (item room) (head ++ ts) why ds := by
  cases h with
  | function f =>
    exact headed_unwinds f.word (fun t => Item.function <$> function t room)
      ((function_unwinds f hlengths hneed hb hts).map _) (by simp only [f.word.2])
  | statement h =>
    have hfails := (statement_unwinds h hb hts hplaced hneed).map Item.statement
    rw [unwinds_iff_runs]
    intro s hs
    obtain ⟨t, s₁, hpeek, ht, hshows⟩ := peek_calm hs.calm env
    have hstart := (h.starts.append ts).firstKind
    rw [← hs.input, ← hshows.kind] at hstart
    obtain ⟨s₂, hfail, hends⟩ := hfails (hs.quiet ht)
    refine hpeek.runs_bind ?_
    -- no statement starts with the word of a definition
    split
    next hk => rw [hk] at hstart; cases hstart
    next hk => rw [hk] at hstart; cases hstart
    next => exact runs_of_error hfail ⟨rfl, rfl, ht.exhausts hends⟩

theorem itemStep_ended (hpeek : Gives peek env s e s') (hend : e.isEnd = true) :
    Gives (itemStep room acc) env s (.done acc) s' := by
  unfold Gives
  rw [run_itemStep hpeek, hend]
  rfl

/-- An item that fails is left out. -/
theorem itemStep_recovers (hne : ts ≠ []) (h : Unwinds env e (item room) ts why ds)
    (hs : s.Faces ts e) : ∃ s', Gives (itemStep room acc) env s (.yield acc) s' ∧
      s.Exhausts ts e (ds ++ [why]) s' := by
  obtain ⟨t, s₁, hpeek, ht, hshows⟩ := peek_calm hs.calm env
  obtain ⟨s₂, hrecover, hends⟩ : ∃ s₂,
      Gives (recover (item room) skipItem (pure false)) env s₁ none s₂ ∧ _ :=
    recover_ended hne h skipItem_ended (hs.quiet ht)
  refine ⟨s₂, ?_, ht.exhausts hends⟩
  have hend : t.isEnd = false := by
    rw [← Bool.not_eq_true, isEnd_iff_of_shows hshows, hs.input]
    exact hne
  unfold Gives at hrecover ⊢
  rw [run_itemStep hpeek, hend, ht.calm.roomy, if_neg (by decide), run_haltDeep, run_bind, hrecover]
  rfl

end Items

/-! ## Programs -/

/-- **Every body that is left open is reported,** the innermost first; the item that they are in is
left out, and those before it are kept. -/
theorem program_unwinds {d : Grammar.Program} {front : List Grammar.Item} {i : Grammar.Item}
    {bodies : List Grammar.Body} (hsplit : d.items = front ++ [i]) (hi : i.Unclosed us bodies)
    (hs : s.Faces (front.flatMap Grammar.Item.tokens ++ us) e)
    (hplaced : ∀ i ∈ d.trees, (Node.ofItem i).Throughout Node.AssignsToPlace)
    (hlengths : Grammar.Resolve d.lengths) (hneed : needMost Item.need d.trees ≤ env.room) :
    ∃ p s', Gives program env s p s' ∧ p.items = front.map Grammar.Item.tree ∧
      s'.errors = s.errors.addAll (bodies.map fun d => unclosed env e d.opener.1) := by
  obtain ⟨hends, hinner⟩ := hi
  rename_i head ts b inner
  have hfits : ∀ j ∈ d.items, (Node.ofItem j.tree).Throughout Node.AssignsToPlace ∧
      Grammar.Resolve j.lengths ∧ j.tree.need ≤ env.room := by
    intro j hj
    have hmem := List.mem_map_of_mem (f := Grammar.Item.tree) hj
    exact ⟨hplaced _ hmem, fun t ht => hlengths t (List.mem_flatMap.2 ⟨j, hj, ht⟩),
      needMost_le_iff.1 hneed _ hmem⟩
  rw [hsplit] at hfits
  obtain ⟨hfront, hlast⟩ := List.forall_mem_append.1 hfits
  obtain ⟨hiplaced, hilengths, hineed⟩ := List.forall_mem_singleton.1 hlast
  have hmember : ∀ j ∈ front, Performs env Never (fun _ => False) (itemStep env.room)
      (.of (fun _ => []) j.tokens j.tree) := by
    intro j hj
    obtain ⟨hjplaced, hjlengths, hjneed⟩ := hfront j hj
    exact performs_item j halting_never (item_restores .of_none j hjplaced hjlengths hjneed
      fun _ _ => rfl)
  have hfails : Unwinds env e (item env.room) (head ++ ts) _ _ :=
    item_unwinds hends (body_unwinds hinner (hends.throughout hiplaced)
      (hends.need_le.trans hineed)) hinner.firstKind hiplaced hilengths hineed
  have hstarts := hends.starts.append ts
  obtain ⟨-, helse⟩ := Kind.beginsItem_ne hstarts.firstKind
  have progresses := progresses_itemStep (eats_item env.room)
  obtain ⟨out, s₁, hitems, hout, hexhausts⟩ := repeated_unwinds progresses front hmember hs helse
    fun {acc s₁} hs₁ => by
      obtain ⟨s₂, hstep, hends⟩ := itemStep_recovers hstarts.ne_nil hfails hs₁
      exact ⟨s₂, gives_iterate_yield progresses hstep (gives_iterate_done progresses
        (itemStep_ended (gives_peek hends.ahead) hs.isEnd)), hends⟩
  have hclose := gives_bind hitems (gives_close (gives_peek hexhausts.ahead) out)
  unfold Gives at hclose
  rw [← run_program] at hclose
  refine ⟨_, s₁, hclose, hout, ?_⟩
  rw [hexhausts.errors, List.map_append, List.map_singleton]

end Parser

end ArcLang
