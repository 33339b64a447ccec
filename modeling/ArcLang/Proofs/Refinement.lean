import ArcLang.Proofs.Steady
import ArcLang.Parser.Program

/-!
# Rules with more room

A rule that is given more levels of nesting does what it does with fewer, unless that one stops
because the nesting is too deep; and in a stream without faults, whatever that one has recorded by
then, the other one records too (`Parser.Refines`). The property passes from the parts of a rule to
the rule, and it holds that the rules are steady, so each rule has one line here for both.

* `Parser.refines_expression`, `Parser.refines_body`, `Parser.refines_item`: more levels.
* `Parser.steady_statementWithin`, `Parser.steady_body`, `Parser.steady_item`: rules keep to the
  input.
-/

namespace ArcLang

theorem State.Leads.faultless {s s' : State} (h : s.Leads s') (hs : Scan.faults s.pending = []) :
    Scan.faults s'.pending = [] := by
  obtain ⟨ts, h⟩ := h
  exact h.faultless hs

/-- Looking at the stream does not end the parse: it has no faults, or they are collected. -/
def State.Yields (s : State) : Prop := Scan.faults s.pending = [] ∨ s.faults = .shared

theorem State.Leads.yields {s s' : State} (h : s.Leads s') (hs : s.Yields) : s'.Yields := by
  obtain ⟨ts, h⟩ := h
  exact hs.imp h.faultless h.shared

theorem State.Leads.errors {s s' : State} (h : s.Leads s') :
    s.errors.errors <+: s'.errors.errors := by
  obtain ⟨ts, h⟩ := h
  exact h.errors

namespace Parser

variable {α β : Type} {seen : List Token} {p q : Parser α} {env : Setting} {s s' : State}

/-- The run has not been given up, and ends in the state. -/
def Ends (r : EStateM.Result Failure State α) (s' : State) : Prop :=
  match r with
  | .ok _ s => s = s'
  | .error (.syntactic _ _) s | .error (.tooDeep _) s => s = s'
  | .error (.aborted _) _ => False

theorem Steady.ends (h : Steady seen p) (hs : Ends (p env s) s') : s.Leads s' := by
  have hp := h env s
  revert hp hs
  cases p env s with
  | ok a s₁ => rintro rfl; exact id
  | error e s₁ =>
    cases e with
    | syntactic why echo => rintro rfl; exact And.left
    | tooDeep why => rintro rfl; exact id
    | aborted why => rintro ⟨⟩

/-- The first rule stops because the nesting is too deep. Where the stream has no faults, all that
it has recorded by then is also there where the second rule ends. -/
def StopsWithin (p q : Parser α) (env : Setting) (s : State) : Prop :=
  ∃ why s₁, p env s = .error (.tooDeep why) s₁ ∧ why.cause = .tooDeep env.maxDepth ∧
    (Scan.faults s.pending = [] → ∀ s', Ends (q env s) s' →
      s₁.errors.errors <+: s'.errors.errors)

/-- Where the stream does not end the parse, the first rule does what the second does, unless it
stops because the nesting is too deep. The second rule is steady. -/
structure Refines (seen : List Token) (p q : Parser α) : Prop where
  steady : Steady seen q
  runs : ∀ env s, s.Yields → p env s = q env s ∨ StopsWithin p q env s

/-- A steady rule does what it does. -/
theorem Steady.refines (h : Steady seen p) : Refines seen p p := ⟨h, fun _ _ _ => .inl rfl⟩

namespace Refines

theorem pure (a : α) : Refines seen (Pure.pure a) (Pure.pure a) := (Steady.pure a).refines

theorem bind {f g : α → Parser β} (hp : Refines seen p q) (hf : ∀ a, Refines seen (f a) (g a)) :
    Refines seen (p >>= f) (q >>= g) where
  steady := hp.steady.bind fun a => (hf a).steady
  runs env s hs := by
    rcases hp.runs env s hs with heq | ⟨why, s₁, hstop, hcause, hwithin⟩
    · cases hq : q env s with
      | error e s₁ => exact .inl (by rw [run_bind, run_bind, heq, hq])
      | ok a s₁ =>
        have hleads := hp.steady.leads hq
        have hsame : (p >>= f) env s = f a env s₁ ∧ (q >>= g) env s = g a env s₁ := by
          rw [run_bind, run_bind, heq, hq]; exact ⟨rfl, rfl⟩
        rcases (hf a).runs env s₁ (hleads.yields hs) with heq' | ⟨why, s₂, hstop, hcause, hrest⟩
        · exact .inl (by rw [hsame.1, hsame.2, heq'])
        · refine .inr ⟨why, s₂, hsame.1.trans hstop, hcause, fun hf => ?_⟩
          rw [hsame.2]
          exact hrest (hleads.faultless hf)
    · refine .inr ⟨why, s₁, by rw [run_bind, hstop], hcause, fun hfaultless s' hs' => ?_⟩
      have hwithin := hwithin hfaultless
      -- what was recorded where the second rule succeeded is still there at its end
      rw [run_bind] at hs'
      cases hq : q env s with
      | error e s₂ =>
        rw [hq] at hs' hwithin
        refine hwithin s' ?_
        cases e <;> exact hs'
      | ok a s₂ =>
        rw [hq] at hs' hwithin
        exact (hwithin s₂ rfl).trans ((hf a).steady.ends hs').errors

/-- Two rules that begin alike. -/
theorem after {p : Parser α} {f g : α → Parser β} (hp : Steady seen p)
    (hf : ∀ a, Refines seen (f a) (g a)) : Refines seen (p >>= f) (p >>= g) := hp.refines.bind hf

theorem map (f : α → β) (hp : Refines seen p q) : Refines seen (f <$> p) (f <$> q) := by
  rw [map_eq_pure_bind, map_eq_pure_bind]
  exact hp.bind fun a => .pure (f a)

theorem ite {c : Prop} [Decidable c] {p' q' : Parser α} (hp : Refines seen p q)
    (hp' : Refines seen p' q') :
    Refines seen (if c then p else p') (if c then q else q') := by
  split
  · exact hp
  · exact hp'

/-- What follows a look may count on the token having been seen. -/
theorem peek_bind {f g : Token → Parser β} (hf : ∀ t, Refines (t :: seen) (f t) (g t)) :
    Refines seen (peek >>= f) (peek >>= g) where
  steady := .peek_bind fun t => (hf t).steady
  runs env s hs := by
    rw [StopsWithin, run_bind, run_bind]
    rcases peek_cases env s with ⟨t, s₁, h, hc, -⟩ | ⟨why, s₁, h⟩
    · have hleads : s.Leads s₁ := ⟨[], hc⟩
      rw [h]
      rcases (hf t).runs env s₁ (hleads.yields hs) with heq | ⟨why, s₂, hstop, hcause, hrest⟩
      · exact .inl heq
      · exact .inr ⟨why, s₂, hstop, hcause, fun hf => hrest (hc.faultless hf)⟩
    · rw [h]
      exact .inl rfl

/-- A rule that has no room for a level of nesting stops at once. -/
theorem tooDeep (h : Steady seen q) : Refines seen Parser.tooDeep q where
  steady := h
  runs env s hs := by
    have hstop : ∃ t s₁, Gives peek env s t s₁ ∧
        (Scan.faults s.pending = [] → s₁.errors = s.errors) := by
      rcases hs with hfaultless | hshared
      · obtain ⟨t, s₁, hpeek, -, herrors⟩ := peek_faultless hfaultless env
        exact ⟨t, s₁, hpeek, fun _ => herrors⟩
      · obtain ⟨t, s₁, hpeek, -⟩ := peek_looks hshared env
        refine ⟨t, s₁, hpeek, fun hfaultless => ?_⟩
        obtain ⟨u, s₂, hpeek', -, herrors⟩ := peek_faultless hfaultless env
        rw [(hpeek.unique hpeek').2, herrors]
    obtain ⟨t, s₁, hpeek, herrors⟩ := hstop
    refine .inr ⟨.ofPlace env.source t.place (.tooDeep env.maxDepth), s₁, ?_, rfl, ?_⟩
    · rw [Parser.tooDeep, run_bind, hpeek]; rfl
    · intro hfaultless s' hs'
      rw [herrors hfaultless]
      exact (h.ends hs').errors

end Refines

/-! ## Repetition and recovery -/

theorem refines_iterate {step step' : β → Parser (ForInStep β)}
    (h : ∀ b, Refines seen (step b) (step' b)) (b : β) :
    Refines seen (iterate step b) (iterate step' b) :=
  iterate_related (Refines seen) .pure Steady.get.refines .bind h b

/-- Recovery does not catch a nesting that is too deep. -/
theorem refines_recover {rule rule' : Parser α} {skip : Parser Unit} {resting : Parser Bool}
    (h : Refines seen rule rule') (hskip : Steady seen skip) (hresting : Steady seen resting) :
    Refines seen (recover rule skip resting) (recover rule' skip resting) where
  steady := steady_recover h.steady hskip hresting
  runs env s hs := by
    obtain ⟨handle, hrecover, hsyntactic, hdeep, haborted⟩ :=
      recover_eq_rescue (α := α) skip resting env s
    rw [StopsWithin, hrecover, hrecover]
    unfold rescue
    rcases (h.map some).runs env s hs with heq | ⟨why, s₁, hstop, hcause, hwithin⟩
    · rw [heq]
      exact .inl rfl
    · refine .inr ⟨why, s₁, by rw [hstop]; exact congrFun₂ (hdeep why) env s₁, hcause, ?_⟩
      intro hfaultless s' hs'
      have hwithin := hwithin hfaultless
      cases hrule : (some <$> rule') env s with
      | ok a s₂ =>
        rw [hrule] at hs' hwithin
        exact hwithin s' hs'
      | error e s₂ =>
        rw [hrule] at hs' hwithin
        dsimp only at hs'
        cases e with
        | tooDeep why => rw [hdeep] at hs'; exact hwithin s' hs'
        | aborted why => rw [haborted] at hs'; exact hwithin s' hs'
        | syntactic why echo =>
          rw [hsyntactic] at hs'
          have rest : Steady seen _ := steady_goOn (α := α) why echo s.consumed hskip hresting
          exact (hwithin s₂ rfl).trans (rest.ends hs').errors

/-! ## Types -/

theorem steady_arrayLength : Steady seen arrayLength := by
  refine .peek_bind fun t => ?_
  split
  · exact steady_failAt List.mem_cons_self
  · split
    · exact steady_advance.bind fun _ => .pure _
    · exact steady_failAt List.mem_cons_self
    · exact fun _ _ => trivial
  · exact steady_failAt List.mem_cons_self

theorem refines_typeNameWith {element element' : Parser TypeName}
    (h : ∀ seen, Refines seen element element') :
    Refines seen (typeNameWith element) (typeNameWith element') := by
  refine .peek_bind fun t => ?_
  split
  · exact .after steady_advance fun _ => .pure _
  · exact .after steady_advance fun _ => .pure _
  · exact .after steady_advance fun _ => .pure _
  · exact .after steady_advance fun _ => .pure _
  · exact .after steady_advance fun _ => .bind (h _) fun _ => .after (steady_expect _ _) fun _ =>
      .after steady_arrayLength fun _ => .after (steady_expectClosing _ _ _) fun _ =>
        .after (steady_spanFrom _) fun _ => .pure _
  · exact (steady_failAt List.mem_cons_self).refines

/-- **Types with more room.** -/
theorem refines_typeName {m n : Nat} (h : m ≤ n) : Refines seen (typeName m) (typeName n) := by
  induction n generalizing m seen with
  | zero =>
    rw [Nat.le_zero.1 h]
    exact refines_typeNameWith fun _ => .tooDeep steady_tooDeep
  | succ n ih =>
    cases m with
    | zero => exact refines_typeNameWith fun _ => .tooDeep (ih le_rfl).steady
    | succ m => exact refines_typeNameWith fun _ => ih (Nat.le_of_succ_le_succ h)

/-! ## Expressions -/

theorem refines_delimitedStep {element element' : Parser α} (h : Refines seen element element')
    (closer : Symbol) (acc : Array α) :
    Refines seen (delimitedStep closer element acc) (delimitedStep closer element' acc) :=
  .after (steady_check _) fun _ => .ite (.pure _) (h.bind fun _ =>
    .after (steady_accept _) fun _ => .ite (.pure _) (.pure _))

theorem steady_delimitedStep {element : Parser α} (h : Steady seen element) (closer : Symbol)
    (acc : Array α) : Steady seen (delimitedStep closer element acc) :=
  (refines_delimitedStep h.refines closer acc).steady

theorem refines_delimited {element element' : Parser α} (h : Refines seen element element')
    (opener : Token) (closer : Symbol) :
    Refines seen (delimited opener closer element) (delimited opener closer element') :=
  (refines_iterate (refines_delimitedStep h closer) _).bind fun _ =>
    .after (steady_expectClosing _ _ _) fun _ => .pure _

section Expressions

variable {expression expression' : Parser Expr} {inner inner' : Form → Parser Expr}

theorem refines_primary (h : ∀ seen, Refines seen expression expression') :
    Refines seen (primary expression) (primary expression') := by
  refine .peek_bind fun t => ?_
  split
  · exact .after steady_advance fun _ => .pure _
  · exact .after steady_advance fun _ => .pure _
  · exact .after steady_advance fun _ => .pure _
  · exact .after steady_advance fun _ => .pure _
  · exact .after steady_advance fun _ => .pure _
  · exact .after steady_advance fun _ => .bind (h _) fun _ =>
      .after (steady_expectClosing _ _ _) fun _ => .after (steady_spanFrom _) fun _ => .pure _
  · exact .after steady_advance fun _ => .bind (refines_delimited (h _) _ _) fun _ =>
      .after (steady_spanFrom _) fun _ => .pure _
  · exact (steady_failAt List.mem_cons_self).refines

theorem refines_trailingStep (h : ∀ seen, Refines seen expression expression') (e : Expr) :
    Refines seen (trailingStep expression e) (trailingStep expression' e) := by
  refine .peek_bind fun t => ?_
  split
  · exact .after steady_advance fun _ => .after (steady_expect _ _) fun _ =>
      .after (steady_spanFrom _) fun _ => .pure _
  · exact .after steady_advance fun _ => .bind (h _) fun _ =>
      .after (steady_expectClosing _ _ _) fun _ => .after (steady_spanFrom _) fun _ => .pure _
  · exact .after steady_advance fun _ => .bind (refines_delimited (h _) _ _) fun _ =>
      .after (steady_spanFrom _) fun _ => .pure _
  · exact .pure _

theorem refines_trailed (h : ∀ seen, Refines seen expression expression') :
    Refines seen (trailed expression) (trailed expression') :=
  (refines_primary h).bind fun e => refines_iterate (refines_trailingStep h) e

theorem refines_assignment (h : ∀ seen form, Refines seen (inner form) (inner' form)) :
    Refines seen (Form.assignment inner) (Form.assignment inner') := by
  refine .peek_bind fun start => .bind (h _ _) fun target => .after steady_peek fun t => ?_
  split
  · exact .pure _
  · exact .ite (.after steady_advance fun _ => .bind (h _ _) fun _ => .pure _)
      (steady_failAt List.mem_cons_self).refines

theorem steady_assignment (h : ∀ seen form, Steady seen (inner form)) :
    Steady seen (Form.assignment inner) :=
  (refines_assignment fun _ form => (h _ form).refines).steady

theorem refines_operand (h : ∀ seen form, Refines seen (inner form) (inner' form)) :
    Refines seen (Form.operand inner) (Form.operand inner') := by
  refine .peek_bind fun t => ?_
  split
  · exact refines_trailed fun _ => refines_assignment h
  · exact .after steady_advance fun _ => .bind (h _ _) fun _ =>
      .after (steady_spanFrom _) fun _ => .pure _

theorem refines_binaryStep (h : ∀ seen form, Refines seen (inner form) (inner' form)) (least : Nat)
    (left : Expr) :
    Refines seen (Form.binaryStep inner least left) (Form.binaryStep inner' least left) := by
  refine .after steady_peek fun t => ?_
  split
  · exact .pure _
  · exact .ite (.pure _) (.after steady_advance fun _ => .bind (h _ _) fun _ => .pure _)

theorem refines_around (h : ∀ seen form, Refines seen (inner form) (inner' form)) (form : Form) :
    Refines seen (Form.around inner form) (Form.around inner' form) := by
  cases form with
  | whole => exact refines_assignment h
  | binary least =>
    exact (refines_operand h).bind fun e => refines_iterate (refines_binaryStep h least) e
  | unary => exact refines_operand h

/-- **Expressions with more room.** -/
theorem refines_within {m n : Nat} (h : m ≤ n) (form : Form) :
    Refines seen (Form.within m form) (Form.within n form) := by
  induction n generalizing m seen form with
  | zero =>
    rw [Nat.le_zero.1 h]
    exact refines_around (fun _ _ => .tooDeep steady_tooDeep) form
  | succ n ih =>
    cases m with
    | zero => exact refines_around (fun _ form => .tooDeep (ih le_rfl form).steady) form
    | succ m => exact refines_around (fun _ form => ih (Nat.le_of_succ_le_succ h) form) form

theorem steady_within (room : Nat) (form : Form) : Steady seen (Form.within room form) :=
  (refines_within le_rfl form).steady

end Expressions

theorem refines_expression {m n : Nat} (h : m ≤ n) :
    Refines seen (expression m) (expression n) := refines_within h .whole

theorem steady_expression (room : Nat) : Steady seen (expression room) := steady_within room .whole

/-! ## Statements -/

section Statements

variable {expression expression' : Parser Expr} {body body' : Parser Block}

theorem refines_branch (start : Token) (he : ∀ seen, Refines seen expression expression')
    (hb : ∀ seen, Refines seen body body') :
    Refines seen (branch start expression body) (branch start expression' body') :=
  .bind (he _) fun _ => .bind (hb _) fun _ => .after (steady_accept _) fun _ =>
    .ite
      (.peek_bind fun _ => .ite (steady_failAt List.mem_cons_self).refines
        (.bind (hb _) fun _ => .after (steady_spanFrom _) fun _ => .pure _))
      (.after (steady_spanFrom _) fun _ => .pure _)

theorem refines_loop (start : Token) (he : ∀ seen, Refines seen expression expression')
    (hb : ∀ seen, Refines seen body body') :
    Refines seen (loop start expression body) (loop start expression' body') :=
  .bind (he _) fun _ => .bind (hb _) fun _ => .after (steady_spanFrom _) fun _ => .pure _

theorem steady_breakLoop (start : Token) : Steady seen (breakLoop start) :=
  (steady_expect _ _).bind fun _ => (steady_spanFrom _).bind fun _ => .pure _

theorem refines_ret (start : Token) (he : ∀ seen, Refines seen expression expression') :
    Refines seen (ret start expression) (ret start expression') := by
  have rest (value : Option Expr) : Steady seen (do
      let _ ← expect (.symbol .semicolon) "';' after return"
      return Stmt.ret (← spanFrom start.place) value) :=
    (steady_expect _ _).bind fun _ => (steady_spanFrom _).bind fun _ => .pure _
  exact .after (steady_check _) fun _ =>
    .ite (.after (.pure none) fun value => (rest value).refines)
    (((he _).map some).bind fun value => (rest value).refines)

theorem refines_statement (he : ∀ seen, Refines seen expression expression')
    (hb : ∀ seen, Refines seen body body') :
    Refines seen (statement expression body) (statement expression' body') := by
  refine .peek_bind fun t => ?_
  split
  · exact .after steady_advance fun _ => refines_branch _ he hb
  · exact .after steady_advance fun _ => refines_loop _ he hb
  · exact .after steady_advance fun _ => refines_ret _ he
  · exact .after steady_advance fun _ => (steady_breakLoop _).refines
  · exact .bind (he _) fun _ => .after (steady_expect _ _) fun _ =>
      .after (steady_spanFrom _) fun _ => .pure _

end Statements

theorem steady_isSated : Steady seen isSated := .get_bind fun _ => .pure _

theorem refines_bodyStep {rule rule' : Parser Stmt} (h : ∀ seen, Refines seen rule rule')
    (statements : Array Stmt) :
    Refines seen (bodyStep rule statements) (bodyStep rule' statements) := by
  refine .after steady_peek fun t => .after steady_atEnd fun _ => .after steady_isSated fun _ => ?_
  refine .ite (.pure _)
    ((refines_recover (h _) steady_skipStatement (steady_check _)).bind fun r => ?_)
  cases r with
  | none => exact .pure _
  | some s => exact .pure _

/-- **Bodies with more room.** -/
theorem refines_body {m n : Nat} (h : m ≤ n) : Refines seen (body m) (body n) := by
  induction n generalizing m seen with
  | zero =>
    rw [Nat.le_zero.1 h]
    exact ((steady_expect _ _).bind fun _ => steady_tooDeep).refines
  | succ n ih =>
    have rest {m : Nat} (h : m ≤ n) (seen : List Token) (opener : Token) :
        Refines seen (bodyRest opener (statement (expression m) (body m)))
          (bodyRest opener (statement (expression n) (body n))) := by
      have rule (seen : List Token) : Refines seen (statement (expression m) (body m))
          (statement (expression n) (body n)) :=
        refines_statement (fun _ => refines_expression h) fun _ => ih h
      exact (refines_iterate (refines_bodyStep rule) _).bind fun _ =>
        .after (steady_expectClosing _ _ _) fun _ => .after (steady_spanFrom _) fun _ => .pure _
    cases m with
    | zero =>
      exact .after (steady_expect _ _) fun opener => .tooDeep (rest le_rfl _ opener).steady
    | succ m =>
      exact .after (steady_expect _ _) fun opener => rest (Nat.le_of_succ_le_succ h) _ opener

theorem steady_body (room : Nat) : Steady seen (body room) := (refines_body le_rfl).steady

/-- The rule for statements, with the rules for what is inside at one level of nesting. -/
theorem steady_statementWithin (room : Nat) :
    Steady seen (statement (expression room) (body room)) :=
  (refines_statement (fun _ => refines_expression le_rfl) fun _ => refines_body le_rfl).steady

/-! ## Items -/

section Items

variable {m n : Nat}

theorem refines_binding (what : String) (h : m ≤ n) :
    Refines seen (binding what m) (binding what n) :=
  .after (steady_expect _ _) fun _ => .after (steady_expect _ _) fun _ =>
    .bind (refines_typeName h) fun _ => .after (steady_spanFrom _) fun _ => .pure _

theorem refines_function (start : Token) (h : m ≤ n) :
    Refines seen (function start m) (function start n) := by
  refine .after (steady_expect _ _) fun name => .after (steady_expect _ _) fun opener => ?_
  refine .bind (refines_delimited (refines_binding _ h) _ _) fun parameters => ?_
  have rest (result : Option TypeName) : Refines seen
      (do
        let body ← body m
        modify (·.note (.parsedFunction name.lexeme parameters.length))
        return (⟨← spanFrom start.place, name.lexeme, parameters, result, body⟩ : Function))
      (do
        let body ← body n
        modify (·.note (.parsedFunction name.lexeme parameters.length))
        return (⟨← spanFrom start.place, name.lexeme, parameters, result, body⟩ : Function)) :=
    .bind (refines_body h) fun _ => .after (steady_modify fun _ => ⟨[], .note _⟩) fun _ =>
      .after (steady_spanFrom _) fun _ => .pure _
  exact .after (steady_accept _) fun _ =>
    .ite (((refines_typeName h).map some).bind rest) (.after (.pure none) rest)

theorem refines_struct (start : Token) (h : m ≤ n) :
    Refines seen (struct start m) (struct start n) :=
  .after (steady_expect _ _) fun _ => .after (steady_expect _ _) fun _ =>
    .bind (refines_delimited (refines_binding _ h) _ _) fun _ =>
      .after (steady_spanFrom _) fun _ => .pure _

/-- **Items with more room.** -/
theorem refines_item (h : m ≤ n) : Refines seen (item m) (item n) := by
  refine .peek_bind fun t => ?_
  split
  · exact .after steady_advance fun _ => (refines_function _ h).map _
  · exact .after steady_advance fun _ => (refines_struct _ h).map _
  · exact (refines_statement (fun _ => refines_expression h) fun _ => refines_body h).map _

variable (room : Nat)

theorem steady_binding (what : String) : Steady seen (binding what room) :=
  (refines_binding what le_rfl).steady

theorem steady_function (start : Token) : Steady seen (function start room) :=
  (refines_function start le_rfl).steady

theorem steady_struct (start : Token) : Steady seen (struct start room) :=
  (refines_struct start le_rfl).steady

theorem steady_item : Steady seen (item room) := (refines_item le_rfl).steady

end Items

end Parser

end ArcLang
