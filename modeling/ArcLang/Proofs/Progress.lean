import ArcLang.Proofs.Regime

/-!
# Every round goes forward

Lists, chains of operators, bodies, items and the skipping behind a failure are repetitions. Each of
their rounds consumes a token or is the last, and so does every rule that succeeds. A repetition
without any bound on its rounds therefore comes to an end, and it ends as `iterate` says, which
stops counting where no token is left.

* `Parser.IsLoop`, `Parser.IsRule`, `Parser.IsRecovery`: the repetitions, the rules, and the parts
  of recovery.
* `Parser.Rounds`: a repetition without a bound, in so many rounds.
* `Parser.advances_of_loop`, `Parser.advances_of_rule`: rounds and rules consume tokens.
* `parse_progresses`: the statement.
-/

namespace ArcLang

namespace State

/-- Tokens have been consumed, one at least. -/
def Advances (s s' : State) : Prop := ∃ t ts, s.Consumes (t :: ts) s'

/-- Tokens may have been consumed, none of them an end token; one that was to come is to come
still. -/
def KeepsEnd (s s' : State) : Prop :=
  ∃ ts, s.Consumes ts s' ∧ (∀ t ∈ ts, t.isEnd = false) ∧
    (s.stream.any Token.isEnd = true → s.stream = ts ++ s'.stream ∧
      s'.stream.any Token.isEnd = true)

variable {s s' s'' : State} {ts : List Token}

theorem Consumes.advances (h : s.Consumes ts s') (hne : ts ≠ []) : s.Advances s' := by
  obtain ⟨t, ts, rfl⟩ := List.exists_cons_of_ne_nil hne
  exact ⟨t, ts, h⟩

theorem Leads.advances (h : s.Leads s') (h' : s'.Advances s'') : s.Advances s'' := by
  obtain ⟨ts, h⟩ := h
  obtain ⟨u, us, h'⟩ := h'
  exact (h.trans h').advances (by simp)

theorem Advances.leads (h : s.Advances s') (h' : s'.Leads s'') : s.Advances s'' := by
  obtain ⟨t, ts, h⟩ := h
  obtain ⟨us, h'⟩ := h'
  exact ⟨t, ts ++ us, h.trans h'⟩

/-- **Whatever is consumed is no end token.** -/
theorem Leads.keepsEnd (h : s.Leads s') : s.KeepsEnd s' := by
  obtain ⟨ts, h⟩ := h
  have hnone : ∀ t ∈ ts, t.isEnd = false := fun t ht =>
    not_isEnd_of_mem_input (h.input ▸ List.mem_append_left _ ht)
  refine ⟨ts, h, hnone, fun hend => ?_⟩
  have hstream := h.stream hend
  rw [hstream, List.any_append, List.any_eq_false.2 fun t ht => by simp [hnone t ht],
    Bool.false_or] at hend
  exact ⟨hstream, hend⟩

end State

namespace Parser

variable {α β : Type} {env : Setting} {s s' : State}

/-! ## Repetitions, rules, and recovery -/

namespace Form

/-- The rules of the level inside, where so many levels of nesting are left. -/
def inside : Nat → Form → Parser Expr
  | 0 => fun _ => tooDeep
  | room + 1 => within room

theorem within_eq (room : Nat) : within room = around (inside room) := by
  funext form
  cases room <;> rfl

theorem steady_inside (room : Nat) (form : Form) : Steady [] (inside room form) := by
  cases room with
  | zero => exact steady_tooDeep
  | succ room => exact steady_within room form

end Form

/-- The steps of the repetitions: items, statements of a body, elements of lists, operators, what
trails an expression, and the tokens that are skipped behind a failure. -/
inductive IsLoop : {β : Type} → (β → Parser (ForInStep β)) → Prop
  | items (room : Nat) : IsLoop (itemStep room)
  | statements (room : Nat) : IsLoop (bodyStep (statement (expression room) (body room)))
  | bindings (closer : Symbol) (what : String) (room : Nat) :
      IsLoop (delimitedStep closer (binding what room))
  | expressions (closer : Symbol) (room : Nat) : IsLoop (delimitedStep closer (expression room))
  | operators (room least : Nat) : IsLoop (Form.binaryStep (Form.inside room) least)
  | trailing (room : Nat) : IsLoop (trailingStep (expression room))
  | skippedOfStatement : IsLoop skipStatementStep
  | skippedOfItem : IsLoop skipItemStep

/-- The rules of the grammar, and what follows the first word of those that have one. -/
inductive IsRule : {α : Type} → Parser α → Prop
  | item (room : Nat) : IsRule (item room)
  | function (start : Token) (room : Nat) : IsRule (function start room)
  | struct (start : Token) (room : Nat) : IsRule (struct start room)
  | binding (what : String) (room : Nat) : IsRule (binding what room)
  | bindings (opener : Token) (closer : Symbol) (what : String) (room : Nat) :
      IsRule (delimited opener closer (binding what room))
  | typeName (room : Nat) : IsRule (typeName room)
  | arrayType (room : Nat) : IsRule (arrayType (typeName room))
  | arrayLength : IsRule arrayLength
  | body (room : Nat) : IsRule (body room)
  | bodyRest (opener : Token) (room : Nat) :
      IsRule (bodyRest opener (statement (expression room) (body room)))
  | statement (room : Nat) : IsRule (statement (expression room) (body room))
  | branch (start : Token) (room : Nat) : IsRule (branch start (expression room) (body room))
  | loop (start : Token) (room : Nat) : IsRule (loop start (expression room) (body room))
  | ret (start : Token) (room : Nat) : IsRule (ret start (expression room))
  | breakLoop (start : Token) : IsRule (breakLoop start)
  | expression (room : Nat) : IsRule (expression room)
  | chain (room least : Nat) : IsRule (Form.chain (Form.inside room) least)
  | operand (room : Nat) : IsRule (Form.operand (Form.inside room))
  | trailed (room : Nat) : IsRule (trailed (expression room))
  | primary (room : Nat) : IsRule (primary (expression room))
  | expressions (opener : Token) (closer : Symbol) (room : Nat) :
      IsRule (delimited opener closer (expression room))

/-- What recovery does behind a failure, in a body and between items. -/
inductive IsRecovery : Parser Unit → Prop
  | skipStatement : IsRecovery skipStatement
  | skipItem : IsRecovery skipItem
  | moveOnInBody (before : Nat) : IsRecovery (moveOn before (check (.symbol .rightBrace)))
  | moveOnBetweenItems (before : Nat) : IsRecovery (moveOn before (pure false))

/-! ## Rules that consume -/

/-- Every success of the rule has consumed a token. -/
def Feeds (p : Parser α) : Prop := ∀ env s a s', Gives p env s a s' → s.Advances s'

namespace Feeds

variable {p : Parser α} {f : α → Parser β}

theorem bind (h : Feeds p) (hf : ∀ a, Steady [] (f a)) : Feeds (p >>= f) := by
  intro env s b s' hb
  obtain ⟨a, s₁, ha, hb⟩ := bind_gives hb
  exact (h env s a s₁ ha).leads ((hf a).leads hb)

theorem after (h : Steady [] p) (hf : ∀ a, Feeds (f a)) : Feeds (p >>= f) := by
  intro env s b s' hb
  obtain ⟨a, s₁, ha, hb⟩ := bind_gives hb
  exact (h.leads ha).advances (hf a env s₁ b s' hb)

theorem map (f : α → β) (h : Feeds p) : Feeds (f <$> p) := by
  intro env s b s' hb
  obtain ⟨a, ha, -⟩ := map_gives hb
  exact h env s a s' ha

theorem ite {c : Prop} [Decidable c] {q : Parser α} (hp : Feeds p) (hq : Feeds q) :
    Feeds (if c then p else q) := by
  split
  · exact hp
  · exact hq

/-- What is left of such a rule is the span that it covers. -/
theorem spanned {start : Location} {f : α → Span → β} (h : Feeds p) :
    Feeds (do
      let a ← p
      return f a (← spanFrom start)) :=
  h.bind fun _ => (steady_spanFrom _).bind fun _ => .pure _

theorem expect {kind : Kind} (hend : kind ≠ .endOfInput) (expected : String) :
    Feeds (expect kind expected) := fun env s a s' h => by
  obtain ⟨-, hc⟩ := expect_gives hend h
  exact ⟨_, [], hc⟩

theorem expectClosing {kind : Kind} (hend : kind ≠ .endOfInput) (expected : String)
    (opener : Token) : Feeds (expectClosing kind expected opener) := fun env s a s' h => by
  obtain ⟨-, hc⟩ := expectClosing_gives hend h
  exact ⟨_, [], hc⟩

theorem delimited {element : Parser α} (h : Steady [] element) (opener : Token)
    (closer : Symbol) : Feeds (delimited opener closer element) :=
  .after (steady_iterate (steady_delimitedStep h _) _) fun _ =>
    (expectClosing (by rintro ⟨⟩) _ _).bind fun _ => .pure _

end Feeds

variable (room : Nat)

theorem feeds_typeName : Feeds (typeName room) := fun env s a s' h => by
  obtain ⟨d, hd, -⟩ := typeName_sound room h
  exact hd.advances d.tokens_ne_nil

theorem feeds_arrayLength : Feeds arrayLength := fun env s a s' h => by
  obtain ⟨t, -, -, hc⟩ := arrayLength_gives h
  exact ⟨t, [], hc⟩

theorem feeds_arrayType : Feeds (arrayType (typeName room)) :=
  .after steady_advance fun _ => .after (refines_typeName le_rfl).steady fun _ =>
    .after (steady_expect _ _) fun _ => .after steady_arrayLength fun _ =>
      .spanned (.expectClosing (by decide) _ _)

theorem feeds_binding (what : String) : Feeds (binding what room) :=
  .after (steady_expect _ _) fun _ => .after (steady_expect _ _) fun _ =>
    .spanned (feeds_typeName room)

theorem feeds_within (form : Form) : Feeds (Form.within room form) := fun env s a s' h => by
  cases form with
  | whole =>
    obtain ⟨d, hd, -⟩ := (within_sound room).whole h
    exact hd.advances d.starts.ne_nil
  | binary least =>
    obtain ⟨d, hd, -⟩ := (within_sound room).binary h
    exact hd.advances d.starts.ne_nil
  | unary =>
    obtain ⟨d, hd, -⟩ := (within_sound room).unary h
    exact hd.advances d.starts.ne_nil

theorem feeds_expression : Feeds (expression room) := feeds_within room .whole

theorem feeds_chain (least : Nat) : Feeds (Form.chain (Form.inside room) least) := by
  have h := feeds_within room (.binary least)
  rwa [Form.within_eq] at h

theorem feeds_operand : Feeds (Form.operand (Form.inside room)) := by
  have h := feeds_within room .unary
  rwa [Form.within_eq] at h

theorem feeds_primary : Feeds (primary (expression room)) := fun env s a s' h => by
  obtain ⟨d, hd, -⟩ := primary_sound (Nat.succ_pos room) (steady_expression room)
    (expression_sound room) h
  exact hd.advances d.starts.ne_nil

theorem feeds_trailed : Feeds (trailed (expression room)) := fun env s a s' h => by
  obtain ⟨d, hd, -⟩ := trailed_sound (Nat.succ_pos room) (steady_expression room)
    (expression_sound room) h
  exact hd.advances d.starts.ne_nil

theorem feeds_bodyRest (opener : Token) :
    Feeds (bodyRest opener (statement (expression room) (body room))) :=
  have steady (acc : Array Stmt) :
      Steady [] (bodyStep (statement (expression room) (body room)) acc) :=
    (refines_bodyStep (fun _ => (steady_statementWithin room).refines) acc).steady
  .after (steady_iterate steady _) fun _ => .spanned (.expectClosing (by decide) _ _)

theorem feeds_body : Feeds (body room) := by
  cases room with
  | zero => exact (Feeds.expect (by decide) _).bind fun _ => steady_tooDeep
  | succ room => exact .after (steady_expect _ _) fun opener => feeds_bodyRest room opener

theorem feeds_branch (start : Token) : Feeds (branch start (expression room) (body room)) := by
  refine .after (steady_expression room) fun _ => (feeds_body room).bind fun _ => ?_
  refine (steady_accept _).bind fun _ => .ite (.peek_bind fun _ => ?_) ?_
  · exact .ite (steady_failAt List.mem_cons_self)
      ((steady_body room).bind fun _ => (steady_spanFrom _).bind fun _ => .pure _)
  · exact (steady_spanFrom _).bind fun _ => .pure _

theorem feeds_loop (start : Token) : Feeds (loop start (expression room) (body room)) :=
  .after (steady_expression room) fun _ => .spanned (feeds_body room)

theorem feeds_ret (start : Token) : Feeds (ret start (expression room)) := by
  have rest (value : Option Expr) : Feeds (do
      let _ ← expect (.symbol .semicolon) "';' after return"
      return Stmt.ret (← spanFrom start.place) value) := .spanned (.expect (by decide) _)
  exact .after (steady_check _) fun _ => .ite (.after (.pure none) rest)
    (.after ((steady_expression room).map some) rest)

theorem feeds_breakLoop (start : Token) : Feeds (breakLoop start) :=
  .spanned (.expect (by decide) _)

theorem feeds_statement : Feeds (statement (expression room) (body room)) := by
  refine .after steady_peek fun t => ?_
  split
  · exact .after steady_advance fun _ => feeds_branch room _
  · exact .after steady_advance fun _ => feeds_loop room _
  · exact .after steady_advance fun _ => feeds_ret room _
  · exact .after steady_advance fun _ => feeds_breakLoop _
  · exact .after (steady_expression room) fun _ => .spanned (.expect (by decide) _)

theorem feeds_function (start : Token) : Feeds (function start room) := by
  refine .after (steady_expect _ _) fun name => .after (steady_expect _ _) fun opener => ?_
  refine .after (refines_delimited (steady_binding room _).refines _ _).steady fun parameters => ?_
  have rest (result : Option TypeName) : Feeds (do
      let body ← body room
      modify (·.note (.parsedFunction name.lexeme parameters.length))
      return (⟨← spanFrom start.place, name.lexeme, parameters, result, body⟩ : Function)) :=
    (feeds_body room).bind fun _ => (steady_modify fun _ => ⟨[], .note _⟩).bind fun _ =>
      (steady_spanFrom _).bind fun _ => .pure _
  exact .after (steady_accept _) fun _ =>
    .ite (.after ((refines_typeName le_rfl).steady.map some) rest) (.after (.pure none) rest)

theorem feeds_struct (start : Token) : Feeds (struct start room) :=
  .after (steady_expect _ _) fun _ => .after (steady_expect _ _) fun _ =>
    .spanned (.delimited (steady_binding room _) _ _)

theorem feeds_item : Feeds (item room) := by
  refine .after steady_peek fun t => ?_
  split
  · exact .after steady_advance fun _ => (feeds_function room _).map _
  · exact .after steady_advance fun _ => (feeds_struct room _).map _
  · exact (feeds_statement room).map _

variable {room}

/-- **A rule that succeeds has consumed a token.** -/
theorem advances_of_rule {p : Parser α} (hp : IsRule p) : Feeds p := by
  cases hp with
  | item room => exact feeds_item room
  | function start room => exact feeds_function room start
  | struct start room => exact feeds_struct room start
  | binding what room => exact feeds_binding room what
  | bindings opener closer what room => exact .delimited (steady_binding room what) opener closer
  | typeName room => exact feeds_typeName room
  | arrayType room => exact feeds_arrayType room
  | arrayLength => exact feeds_arrayLength
  | body room => exact feeds_body room
  | bodyRest opener room => exact feeds_bodyRest room opener
  | statement room => exact feeds_statement room
  | branch start room => exact feeds_branch room start
  | loop start room => exact feeds_loop room start
  | ret start room => exact feeds_ret room start
  | breakLoop start => exact feeds_breakLoop start
  | expression room => exact feeds_expression room
  | chain room least => exact feeds_chain room least
  | operand room => exact feeds_operand room
  | trailed room => exact feeds_trailed room
  | primary room => exact feeds_primary room
  | expressions opener closer room => exact .delimited (steady_expression room) opener closer

/-! ## Rounds that consume -/

/-- Recovery consumes a token, unless the rule may rest where it began. -/
theorem advances_of_recover {rule : Parser α} {skip : Parser Unit} {resting : Parser Bool}
    {x : Option α} (feeds : Feeds rule) (hrule : Steady [] rule) (hskip : Steady [] skip)
    (hresting : Steady [] resting) (hinput : s.input ≠ [])
    (rests : ∀ s₁ s₂, s.Consumes [] s₁ → ¬ Gives resting env s₁ true s₂)
    (h : Gives (recover rule skip resting) env s x s') : s.Advances s' := by
  cases x with
  | none => exact consumes_of_recover_none hrule hskip hresting hinput rests h
  | some a =>
    rcases recover_gives h with ⟨a', -, ha⟩ | ⟨hnone, -⟩
    · exact feeds env s a' s' ha
    · cases hnone

theorem advances_of_delimitedStep {closer : Symbol} {element : Parser α} {acc acc' : Array α}
    (hsteady : Steady [] element)
    (h : Gives (delimitedStep closer element acc) env s (.yield acc') s') :
    s.Advances s' := by
  rcases delimitedStep_gives h with ⟨hr, -⟩ | ⟨a, s₁, s₂, hc, ha, ⟨t, -, -, hc'⟩ | ⟨hr, -⟩⟩
  · cases hr
  · exact (hc.leads.trans (hsteady.leads ha)).advances ⟨t, [], hc'⟩
  · cases hr

/-- **A round that is not the last has consumed a token.** -/
theorem advances_of_loop {step : β → Parser (ForInStep β)} (hstep : IsLoop step) {b b' : β}
    (h : Gives (step b) env s (.yield b') s') : s.Advances s' := by
  cases hstep with
  | items room =>
    rcases itemStep_gives h with ⟨hr, -⟩ | ⟨hr, -⟩ | ⟨x, s₁, hne, hc, hx, -⟩
    · cases hr
    · cases hr
    · exact hc.leads.advances (advances_of_recover (feeds_item room) (steady_item room)
        steady_skipItem (.pure false) (by rwa [hc.input_eq]) (fun s₂ s₃ _ h => by cases h) hx)
  | statements room =>
    rcases bodyStep_gives h with ⟨hr, -⟩ | ⟨x, s₁, hne, hbrace, hc, hx, -⟩
    · cases hr
    -- before a closing brace the body ends, so recovery may not rest there
    · refine hc.leads.advances (advances_of_recover (feeds_statement room)
        (steady_statementWithin room) steady_skipStatement (steady_check _)
        (by rwa [hc.input_eq]) (fun s₂ s₃ hc' hcheck => hbrace ?_) hx)
      rw [← (check_gives hcheck).2.1 rfl, hc'.input_eq, hc.input_eq]
  | bindings closer what room => exact advances_of_delimitedStep (steady_binding room what) h
  | expressions closer room => exact advances_of_delimitedStep (steady_expression room) h
  | operators room least =>
    rcases binaryStep_gives h with ⟨hr, -⟩ | ⟨op, t, right, s₁, -, -, hc, hright, -⟩
    · cases hr
    · exact State.Advances.leads ⟨t, [], hc⟩ ((Form.steady_inside room _).leads hright)
  | trailing room =>
    have steady : Steady [] (expression room) := steady_expression room
    rcases trailingStep_gives h with ⟨hr, -⟩ | ⟨dot, name, -, -, hc, -⟩ |
      ⟨opener, index, closer, s₁, s₂, -, -, hc, hi, hc', -⟩ |
      ⟨opener, arguments, closer, s₁, s₂, -, -, hc, ha, hc', -⟩
    · cases hr
    · exact ⟨dot, [name], hc⟩
    · exact (hc.leads.trans (steady.leads hi)).advances ⟨closer, [], hc'⟩
    · exact (hc.leads.trans ((steady_iterate (steady_delimitedStep steady _) _).leads ha)).advances
        ⟨closer, [], hc'⟩
  | skippedOfStatement =>
    rcases skipStatementStep_gives h with ⟨hr, -⟩ | ⟨t, hc, -⟩
    · cases hr
    · exact ⟨t, [], hc⟩
  | skippedOfItem =>
    rcases skipItemStep_gives h with ⟨hr, -⟩ | ⟨t, hc, -⟩
    · cases hr
    · exact ⟨t, [], hc⟩

theorem progresses_of_loop {step : β → Parser (ForInStep β)} (hstep : IsLoop step) :
    Progresses step := by
  intro env b s b' s' h
  obtain ⟨t, ts, hc⟩ := advances_of_loop hstep h
  exact hc.remaining_lt

theorem steady_of_recovery {p : Parser Unit} (h : IsRecovery p) : Steady [] p := by
  cases h with
  | skipStatement => exact steady_skipStatement
  | skipItem => exact steady_skipItem
  | moveOnInBody before => exact steady_moveOn before (steady_check _)
  | moveOnBetweenItems before => exact steady_moveOn before (.pure false)

/-! ## Repetitions without a bound -/

/-- A repetition ends so after so many rounds: its last step is done or fails, all others ask for
another round. -/
inductive Rounds (step : β → Parser (ForInStep β)) (env : Setting) :
    Nat → β → State → EStateM.Result Failure State β → Prop
  | done {b b' : β} {s s' : State} : step b env s = .ok (.done b') s' →
      Rounds step env 1 b s (.ok b' s')
  | failed {b : β} {e : Failure} {s s' : State} : step b env s = .error e s' →
      Rounds step env 1 b s (.error e s')
  | again {n : Nat} {b b₁ : β} {s s₁ : State} {r : EStateM.Result Failure State β} :
      step b env s = .ok (.yield b₁) s₁ → Rounds step env n b₁ s₁ r →
      Rounds step env (n + 1) b s r

/-- **A repetition that goes forward ends,** after no more rounds than one for each token and one
more. -/
theorem rounds_iterate {step : β → Parser (ForInStep β)} (progresses : Progresses step) (b : β)
    (env : Setting) (s : State) :
    ∃ n ≤ s.remaining + 1, Rounds step env n b s (iterate step b env s) := by
  induction b, s using iterate_rounds progresses env with
  | error b s e s₁ hstep hrun =>
    rw [hrun]
    exact ⟨1, Nat.le_add_left 1 _, .failed hstep⟩
  | done b s b₁ s₁ hstep hrun =>
    rw [hrun]
    exact ⟨1, Nat.le_add_left 1 _, .done hstep⟩
  | yield b s b₁ s₁ hstep hrun ih =>
    have hlt := progresses env b s b₁ s₁ hstep
    obtain ⟨n, hle, hrounds⟩ := ih
    rw [hrun]
    exact ⟨n + 1, by omega, .again hstep hrounds⟩

/-- **A parse goes forward until it ends.** Every round of a repetition consumes a token or is the
last, every rule that succeeds has consumed one, and recovery never consumes the end token. So each
repetition ends by itself, and `iterate` gives what it ends with; and a parse ends with a program,
or it is given up at a length with too many digits or at a fault that the stream raises. -/
theorem parse_progresses :
    (∀ {β : Type} {step : β → Parser (ForInStep β)}, IsLoop step → ∀ env b s b' s',
      Gives (step b) env s (.yield b') s' → s.Advances s') ∧
    (∀ {α : Type} {p : Parser α}, IsRule p → ∀ env s a s', Gives p env s a s' → s.Advances s') ∧
    (∀ {p : Parser Unit}, IsRecovery p → ∀ env s s', Gives p env s () s' → s.KeepsEnd s') ∧
    (∀ {β : Type} {step : β → Parser (ForInStep β)}, IsLoop step → ∀ b env s,
      ∃ n ≤ s.remaining + 1, Rounds step env n b s (iterate step b env s)) ∧
    ∀ setting errors faults scans,
      (∃ p s, parseScans setting errors faults scans = .ok (p, s)) ∨
      (∃ digits s, parseScans setting errors faults scans = .error (.hugeLength digits, s)) ∨
      faults = .raise ∧ ∃ why t s, Scan.fault why t ∈ scans ∧
        parseScans setting errors faults scans = .error (.raised why, s) := by
  refine ⟨fun hstep _ _ _ _ _ => advances_of_loop hstep, advances_of_rule,
    fun hp _ _ _ h => ((steady_of_recovery hp).leads h).keepsEnd,
    fun hstep => rounds_iterate (progresses_of_loop hstep), parseScans_ends⟩

/-- A run that ends without a failure gives something. -/
theorem exists_gives {p : Parser α} {env : Setting} {s : State}
    (h : (match p env s with | .ok .. => true | .error .. => false) = true) :
    ∃ a s', Gives p env s a s' := by
  cases hrun : p env s with
  | ok a s' => exact ⟨a, s', hrun⟩
  | error why s' =>
    rw [hrun] at h
    cases h

/-- An item, and a brace behind it that closes nothing. Reading the item goes forward, and so does
the round of the reading of items in which it is read; what recovery would skip there keeps the end
token. There are seven rounds at most, as there are six tokens, and then the parse ends. -/
theorem parse_progresses_of_stray : ∃ env start,
    env = settingOf "a; \x7d else (" "m.arc" {} ∧
    start = startOf "a; \x7d else (" "m.arc" 2 ∧
    (∃ i s, Gives (item 8) env start i s ∧ start.Advances s) ∧
    (∃ b s, Gives (itemStep 8 #[]) env start (.yield b) s ∧ start.Advances s) ∧
    (∃ s, Gives skipItem env start () s ∧ start.KeepsEnd s) ∧
    (∃ n ≤ 7, Rounds (itemStep 8) env n #[] start (iterate (itemStep 8) #[] env start)) ∧
    ((∃ p s, parseScans env { capacity := 2 } .shared (scansOf "a; \x7d else (" "m.arc") =
        .ok (p, s)) ∨
      ∃ digits s, parseScans env { capacity := 2 } .shared (scansOf "a; \x7d else (" "m.arc") =
        .error (.hugeLength digits, s)) := by
  let env := settingOf "a; \x7d else (" "m.arc" {}
  let start := startOf "a; \x7d else (" "m.arc" 2
  obtain ⟨hround, hrule, hrecovery, hrounds, hends⟩ := parse_progresses
  have hitem : ∃ i s, Gives (item 8) env start i s := exists_gives (by decide +kernel)
  have hyield : ∃ b s, Gives (itemStep 8 #[]) env start (.yield b) s := by
    have hrun : (match itemStep 8 #[] env start with | .ok (.yield _) _ => true | _ => false) =
        true := by
      decide +kernel
    cases h : itemStep 8 #[] env start with
    | ok r s =>
      rw [h] at hrun
      cases r with
      | yield b => exact ⟨b, s, h⟩
      | done b => cases hrun
    | error why s => rw [h] at hrun; cases hrun
  have hskip : ∃ u s, Gives skipItem env start u s := exists_gives (by decide +kernel)
  have hremaining : start.remaining = 6 := by decide +kernel
  refine ⟨env, start, rfl, rfl, ?_, ?_, ?_, ?_, ?_⟩
  · obtain ⟨i, s, h⟩ := hitem
    exact ⟨i, s, h, hrule (.item 8) env start i s h⟩
  · obtain ⟨b, s, h⟩ := hyield
    exact ⟨b, s, h, hround (.items 8) env #[] start b s h⟩
  · obtain ⟨_, s, h⟩ := hskip
    exact ⟨s, h, hrecovery .skipItem env start s h⟩
  · obtain ⟨n, hn, h⟩ := hrounds (.items 8) #[] env start
    rw [hremaining] at hn
    exact ⟨n, hn, h⟩
  · rcases hends env { capacity := 2 } .shared (scansOf "a; \x7d else (" "m.arc") with h | h | h
    · exact .inl h
    · exact .inr h
    · cases h.1

end Parser

end ArcLang
