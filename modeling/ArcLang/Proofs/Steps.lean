import ArcLang.Proofs.Refinement

/-!
# Steps of the repetitions

One inversion for the step of each repetition: all that a successful step can have done. From
these, every step that asks for another round has consumed a token, so each repetition is its
first step and what follows it.

* `Parser.iterate_induction`: reasoning about a whole repetition from its steps.
* `Parser.delimitedStep_gives`, `Parser.trailingStep_gives`, `Parser.binaryStep_gives`,
  `Parser.bodyStep_gives`, `Parser.itemStep_gives`: the inversions.
-/

namespace ArcLang

namespace Kind

theorem binaryOp?_eq_some_iff {k : Kind} {op : BinaryOp} :
    k.binaryOp? = some op ↔ k = .symbol op.symbol := by
  cases k with
  | symbol s =>
    rw [Kind.symbol.injEq, Kind.binaryOp?, BinaryOp.ofSymbol?_eq_some_iff]; exact eq_comm
  | _ => simp [binaryOp?]

theorem unaryOp?_eq_some_iff {k : Kind} {op : UnaryOp} :
    k.unaryOp? = some op ↔ k = .symbol op.symbol := by
  cases k with
  | symbol s =>
    rw [Kind.symbol.injEq, Kind.unaryOp?, UnaryOp.ofSymbol?_eq_some_iff]; exact eq_comm
  | _ => simp [unaryOp?]

theorem assignOp?_eq_some_iff {k : Kind} {op : AssignOp} :
    k.assignOp? = some op ↔ k = .symbol op.symbol := by
  cases k with
  | symbol s =>
    rw [Kind.symbol.injEq, Kind.assignOp?, AssignOp.ofSymbol?_eq_some_iff]; exact eq_comm
  | _ => simp [assignOp?]

end Kind

theorem State.Leads.remaining_le {s s' : State} (h : s.Leads s') : s'.remaining ≤ s.remaining := by
  obtain ⟨ts, h⟩ := h
  have := h.remaining
  omega

theorem State.Consumes.remaining_lt {s s' : State} {t : Token} {ts : List Token}
    (h : s.Consumes (t :: ts) s') : s'.remaining < s.remaining := by
  have := h.remaining
  rw [List.length_cons] at this
  omega

namespace Parser

variable {α β : Type} {env : Setting} {s s' : State}

/-- **A whole repetition from its steps:** what holds behind a last step, and holds of a
repetition if it holds of the repetition from its second step on, holds of every repetition. -/
theorem iterate_induction {step : β → Parser (ForInStep β)} (hstep : Progresses step)
    {motive : β → State → β → State → Prop}
    (done : ∀ b s b' s', Gives (step b) env s (.done b') s' → motive b s b' s')
    (yield : ∀ b s b₁ s₁ b' s', Gives (step b) env s (.yield b₁) s₁ → motive b₁ s₁ b' s' →
      motive b s b' s')
    {b b' : β} (h : Gives (iterate step b) env s b' s') : motive b s b' s' := by
  unfold Gives at h
  induction b, s using iterate_rounds hstep env with
  | error b s e s₁ hs hrun =>
    rw [hrun] at h
    cases h
  | done b s b₁ s₁ hs hrun =>
    rw [hrun] at h
    cases h
    exact done b s b' s' hs
  | yield b s b₁ s₁ hs hrun ih =>
    rw [hrun] at h
    exact yield b s b₁ s₁ b' s' hs (ih h)

/-! ## Lists -/

theorem delimitedStep_gives {closer : Symbol} {element : Parser α} {acc : Array α}
    {r : ForInStep (Array α)} (h : Gives (delimitedStep closer element acc) env s r s') :
    (r = .done acc ∧ firstKind s.input = .symbol closer ∧ s.Consumes [] s') ∨
      ∃ a s₁ s₂, s.Consumes [] s₁ ∧ Gives element env s₁ a s₂ ∧
        ((∃ t, r = .yield (acc.push a) ∧ t.kind = .symbol .comma ∧ s₂.Consumes [t] s') ∨
          r = .done (acc.push a) ∧ s₂.Consumes [] s') := by
  obtain ⟨closed, s₁, hclosed, h⟩ := bind_gives h
  obtain ⟨hc, hb⟩ := check_gives hclosed
  cases closed with
  | true => obtain ⟨rfl, rfl⟩ := pure_gives h; exact .inl ⟨rfl, hb.1 rfl, hc⟩
  | false =>
    obtain ⟨a, s₂, ha, h⟩ := bind_gives h
    obtain ⟨more, s₃, hmore, h⟩ := bind_gives h
    refine .inr ⟨a, s₁, s₂, hc, ha, ?_⟩
    rcases accept_gives (by decide) hmore with ⟨rfl, t, ht, hc'⟩ | ⟨rfl, -, hc'⟩
    · obtain ⟨rfl, rfl⟩ := pure_gives h
      exact .inl ⟨t, rfl, ht, hc'⟩
    · obtain ⟨rfl, rfl⟩ := pure_gives h
      exact .inr ⟨rfl, hc'⟩

theorem progresses_delimitedStep {element : Parser α} (h : Steady [] element) (closer : Symbol) :
    Progresses (delimitedStep closer element) := by
  intro env acc s acc' s' hs
  rcases delimitedStep_gives hs with ⟨hr, -⟩ | ⟨a, s₁, s₂, hc, ha, ⟨t, -, -, hc'⟩ | ⟨hr, -⟩⟩
  · cases hr
  · have h₁ := (State.Leads.remaining_le ⟨_, hc⟩)
    have h₂ := (h.leads ha).remaining_le
    have h₃ := hc'.remaining_lt
    omega
  · cases hr

/-- A list that ends well has read its elements and then its closing symbol. -/
theorem delimited_gives {opener : Token} {closer : Symbol} {element : Parser α} {elements : List α}
    (h : Gives (delimited opener closer element) env s elements s') :
    ∃ acc s₁ t, Gives (iterate (delimitedStep closer element) #[]) env s acc s₁ ∧
      t.kind = .symbol closer ∧ s₁.Consumes [t] s' ∧ elements = acc.toList := by
  obtain ⟨acc, s₁, hacc, h⟩ := bind_gives h
  obtain ⟨t, s₂, ht, h⟩ := bind_gives h
  obtain ⟨rfl, rfl⟩ := pure_gives h
  obtain ⟨hk, hc⟩ := expectClosing_gives (by rintro ⟨⟩) ht
  exact ⟨acc, s₁, t, hacc, hk, hc, rfl⟩

/-! ## Expressions -/

/-- What a step behind an expression can have done: nothing, or one access, index or call. -/
theorem trailingStep_gives {expression : Parser Expr} {e : Expr} {r : ForInStep Expr}
    (h : Gives (trailingStep expression e) env s r s') :
    (r = .done e ∧ s.Consumes [] s') ∨
    (∃ dot name, dot.kind = .symbol .dot ∧ name.kind = .identifier ∧
      s.Consumes [dot, name] s' ∧ r = .yield (.member (e.span.upTo name.span) e name.lexeme)) ∨
    (∃ opener index closer s₁ s₂, opener.kind = .symbol .leftBracket ∧
      closer.kind = .symbol .rightBracket ∧ s.Consumes [opener] s₁ ∧
      Gives expression env s₁ index s₂ ∧ s₂.Consumes [closer] s' ∧
      r = .yield (.index (e.span.upTo closer.span) e index)) ∨
    (∃ opener arguments closer s₁ s₂, opener.kind = .symbol .leftParen ∧
      closer.kind = .symbol .rightParen ∧ s.Consumes [opener] s₁ ∧
      Gives (iterate (delimitedStep .rightParen expression) #[]) env s₁ arguments s₂ ∧
      s₂.Consumes [closer] s' ∧
      r = .yield (.call (e.span.upTo closer.span) e arguments.toList)) := by
  -- in each case the token looked at is the one consumed, as looking consumes nothing
  obtain ⟨t, s₁, ht, h⟩ := bind_gives h
  obtain ⟨hc, hs, -⟩ := peek_gives ht
  have hs₁ := hc.shows hs
  split at h
  case h_1 hk =>
    obtain ⟨dot, s₂, hd, h⟩ := bind_gives h
    obtain ⟨name, s₃, hn, h⟩ := bind_gives h
    obtain ⟨rfl, rfl⟩ := spanned_gives h
    obtain ⟨rfl, hc₂⟩ := advance_shown hd hs₁ hk (by decide)
    obtain ⟨hnk, hc₃⟩ := expect_gives (by decide) hn
    refine .inr (.inl ⟨dot, name, hk, hnk, hc.after (hc₂.trans hc₃), ?_⟩)
    rw [hc₃.previousEnd]; rfl
  case h_2 hk =>
    obtain ⟨opener, s₂, ho, h⟩ := bind_gives h
    obtain ⟨index, s₃, hi, h⟩ := bind_gives h
    obtain ⟨closer, s₄, hcl, h⟩ := bind_gives h
    obtain ⟨rfl, rfl⟩ := spanned_gives h
    obtain ⟨rfl, hc₂⟩ := advance_shown ho hs₁ hk (by decide)
    obtain ⟨hck, hc₃⟩ := expectClosing_gives (by decide) hcl
    refine .inr (.inr (.inl ⟨opener, index, closer, s₂, s₃, hk, hck, hc.after hc₂, hi, hc₃, ?_⟩))
    rw [hc₃.previousEnd]; rfl
  case h_3 hk =>
    obtain ⟨opener, s₂, ho, h⟩ := bind_gives h
    obtain ⟨arguments, s₃, ha, h⟩ := bind_gives h
    obtain ⟨rfl, rfl⟩ := spanned_gives h
    obtain ⟨rfl, hc₂⟩ := advance_shown ho hs₁ hk (by decide)
    obtain ⟨acc, s₅, closer, hacc, hck, hc₃, rfl⟩ := delimited_gives ha
    refine .inr (.inr (.inr ⟨opener, acc, closer, s₂, s₅, hk, hck, hc.after hc₂, hacc, hc₃, ?_⟩))
    rw [hc₃.previousEnd]; rfl
  case h_4 =>
    obtain ⟨rfl, rfl⟩ := pure_gives h
    exact .inl ⟨rfl, hc⟩

theorem progresses_trailingStep {expression : Parser Expr} (h : Steady [] expression) :
    Progresses (trailingStep expression) := by
  intro env e s e' s' hs
  rcases trailingStep_gives hs with ⟨hr, -⟩ | ⟨dot, name, -, -, hc, -⟩ |
    ⟨opener, index, closer, s₁, s₂, -, -, hc, hi, hc', -⟩ |
    ⟨opener, arguments, closer, s₁, s₂, -, -, hc, ha, hc', -⟩
  · cases hr
  · exact hc.remaining_lt
  · have := hc.remaining_lt
    have := (h.leads hi).remaining_le
    have := hc'.remaining_lt
    omega
  · have := hc.remaining_lt
    have := ((steady_iterate (steady_delimitedStep h _) _).leads ha).remaining_le
    have := hc'.remaining_lt
    omega

section Expressions

variable {inner : Form → Parser Expr}

/-- What a step in a chain of operators can have done: nothing, where the operator to come does not
bind tightly enough; or an operator and its right operand. -/
theorem binaryStep_gives {least : Nat} {left : Expr} {r : ForInStep Expr}
    (h : Gives (Form.binaryStep inner least left) env s r s') :
    (r = .done left ∧ s.Consumes [] s' ∧
      ∀ op, (firstKind s.input).binaryOp? = some op → op.rank < least) ∨
    (∃ op t right s₁, t.kind = .symbol op.symbol ∧ least ≤ op.rank ∧ s.Consumes [t] s₁ ∧
      Gives (inner (.binary (op.rank + 1))) env s₁ right s' ∧
      r = .yield (.binary (left.span.upTo right.span) op left right)) := by
  obtain ⟨t, s₁, ht, h⟩ := bind_gives h
  obtain ⟨hc, hs, -⟩ := peek_gives ht
  -- no operator to come, one that binds too loosely, or one to fold
  split at h
  case h_1 hnone =>
    obtain ⟨rfl, rfl⟩ := pure_gives h
    refine .inl ⟨rfl, hc, fun op hop => ?_⟩
    rw [← hs.kind, hnone] at hop; cases hop
  case h_2 op hop =>
    split at h
    case isTrue hlt =>
      obtain ⟨rfl, rfl⟩ := pure_gives h
      refine .inl ⟨rfl, hc, fun op' hop' => ?_⟩
      rw [← hs.kind, hop] at hop'; cases hop'; exact hlt
    case isFalse hle =>
      obtain ⟨t', s₂, ht', h⟩ := bind_gives h
      obtain ⟨right, s₃, hr, h⟩ := bind_gives h
      obtain ⟨rfl, rfl⟩ := pure_gives h
      have hk := Kind.binaryOp?_eq_some_iff.1 hop
      obtain ⟨rfl, hc'⟩ := advance_shown ht' (hc.shows hs) hk (by rintro ⟨⟩)
      exact .inr ⟨op, t', right, s₂, hk, Nat.le_of_not_lt hle, hc.after hc', hr, rfl⟩

theorem progresses_binaryStep (h : ∀ form, Steady [] (inner form)) (least : Nat) :
    Progresses (Form.binaryStep inner least) := by
  intro env left s left' s' hs
  rcases binaryStep_gives hs with ⟨hr, -⟩ | ⟨op, t, right, s₁, -, -, hc, hr, -⟩
  · cases hr
  · have := hc.remaining_lt
    have := ((h _).leads hr).remaining_le
    omega

end Expressions

/-! ## Recovery -/

/-- A rule eats if every success of it has consumed a token. -/
def Eats (p : Parser α) : Prop :=
  ∀ env s a s', Gives p env s a s' → s'.remaining < s.remaining

theorem report_gives {why : Diagnostic} {echo : Bool} {u : Unit}
    (h : Gives (report why echo) env s u s') :
    s.Consumes [] s' ∧ (s.Candid → echo = false → s'.errors.errors ≠ []) := by
  cases h
  cases echo with
  | true => exact ⟨.note _, fun _ he => by cases he⟩
  | false =>
    exact ⟨(State.Consumes.record why).trans (.note _),
      fun hc _ => State.record_errors_ne_nil hc.capacity why⟩

theorem moveOn_gives {before : Nat} {resting : Parser Bool} {u : Unit}
    (h : Gives (moveOn before resting) env s u s') :
    (s.consumed ≠ before ∧ s' = s) ∨ (s.consumed = before ∧ ∃ b s₁, Gives resting env s b s₁ ∧
      (b = true ∧ s' = s₁ ∨ b = false ∧ ∃ t, Gives advance env s₁ t s')) := by
  obtain ⟨s₀, s₁, hs₀, h⟩ := bind_gives h
  cases hs₀
  split at h
  case isFalse hne => obtain ⟨-, rfl⟩ := pure_gives h; exact .inl ⟨hne, rfl⟩
  case isTrue heq =>
    obtain ⟨b, s₂, hb, h⟩ := bind_gives h
    refine .inr ⟨heq, b, s₂, hb, ?_⟩
    cases b with
    | true => obtain ⟨-, rfl⟩ := pure_gives h; exact .inl ⟨rfl, rfl⟩
    | false =>
      obtain ⟨t, s₃, ht, h⟩ := bind_gives h
      obtain ⟨-, rfl⟩ := pure_gives h
      exact .inr ⟨rfl, t, ht⟩

theorem rescue_gives {p : Parser α} {handle : Failure → Parser α} {a : α}
    (h : Gives (rescue p handle) env s a s') :
    Gives p env s a s' ∨ ∃ e s₁, p env s = .error e s₁ ∧ Gives (handle e) env s₁ a s' := by
  unfold Gives rescue at h
  cases hp : p env s with
  | ok b s₁ => rw [hp] at h; exact .inl (hp.trans h)
  | error e s₁ => rw [hp] at h; exact .inr ⟨e, s₁, rfl, h⟩

theorem bind_error {p : Parser α} {f : α → Parser β} {e : Failure}
    (h : (p >>= f) env s = .error e s') :
    p env s = .error e s' ∨ ∃ a s₁, Gives p env s a s₁ ∧ f a env s₁ = .error e s' := by
  rw [run_bind] at h
  cases hp : p env s with
  | ok a s₁ => rw [hp] at h; exact .inr ⟨a, s₁, hp, h⟩
  | error e' s₁ => rw [hp] at h; cases h; exact .inl rfl

theorem map_error {p : Parser α} {f : α → β} {e : Failure} (h : (f <$> p) env s = .error e s') :
    p env s = .error e s' := by
  rw [run_map] at h
  cases hp : p env s with
  | ok a s₁ => rw [hp] at h; cases h
  | error e s₁ => rw [hp] at h; cases h; rfl

/-- Recovery gives the result of the rule; or nothing, where the rule failed on the syntax, that
was reported, and tokens were skipped. -/
theorem recover_gives {rule : Parser α} {skip : Parser Unit} {resting : Parser Bool}
    {x : Option α} (h : Gives (recover rule skip resting) env s x s') :
    (∃ a, x = some a ∧ Gives rule env s a s') ∨
    (x = none ∧ ∃ why echo s₁ s₂ s₃, rule env s = .error (.syntactic why echo) s₁ ∧
      Gives (report why echo) env s₁ () s₂ ∧ Gives skip env s₂ () s₃ ∧
      Gives (moveOn s.consumed resting) env s₃ () s') := by
  obtain ⟨s₀, s₁, hs₀, h⟩ := bind_gives h
  cases hs₀
  rcases rescue_gives h with h | ⟨e, s₁, he, h⟩
  · obtain ⟨a, ha, rfl⟩ := map_gives h
    exact .inl ⟨a, rfl, ha⟩
  · have he := map_error he
    cases e with
    | tooDeep why => cases h
    | aborted why => cases h
    | syntactic why echo =>
      obtain ⟨_, s₂, h₂, h⟩ := bind_gives h
      obtain ⟨_, s₃, h₃, h⟩ := bind_gives h
      obtain ⟨_, s₄, h₄, h⟩ := bind_gives h
      obtain ⟨rfl, rfl⟩ := pure_gives h
      exact .inr ⟨rfl, why, echo, s₁, s₂, s₃, he, h₂, h₃, h₄⟩

/-- **A recovered failure leaves a diagnostic.** -/
theorem errors_ne_nil_of_recover_none {rule : Parser α} {skip : Parser Unit}
    {resting : Parser Bool} (hrule : Steady [] rule) (hskip : Steady [] skip)
    (hresting : Steady [] resting) (candid : s.Candid)
    (h : Gives (recover rule skip resting) env s none s') : s'.errors.errors ≠ [] := by
  rcases recover_gives h with ⟨a, ha, -⟩ | ⟨-, why, echo, s₁, s₂, s₃, hr, h₂, h₃, h₄⟩
  · cases ha
  · have failed := hrule env s
    rw [hr] at failed
    obtain ⟨⟨ts, hc⟩, echoed⟩ := failed
    obtain ⟨hc₂, reported⟩ := report_gives h₂
    obtain ⟨us, hc₃⟩ := hskip.leads h₃
    obtain ⟨vs, hc₄⟩ := (steady_moveOn _ hresting).leads h₄
    have told : s₂.errors.errors ≠ [] := by
      -- an echo is not reported, but then an error token was
      cases echo with
      | true =>
        exact hc₂.errors_ne_nil (echoed candid (List.forall_mem_nil _) rfl)
      | false => exact reported (hc.candid candid) rfl
    exact hc₄.errors_ne_nil (hc₃.errors_ne_nil told)

/-- Recovery from a failure consumes a token, unless it may rest where the rule began. -/
theorem consumes_of_recover_none {rule : Parser α} {skip : Parser Unit} {resting : Parser Bool}
    (hrule : Steady [] rule) (hskip : Steady [] skip) (hresting : Steady [] resting)
    (hinput : s.input ≠ []) (rests : ∀ s₁ s₂, s.Consumes [] s₁ → ¬ Gives resting env s₁ true s₂)
    (h : Gives (recover rule skip resting) env s none s') : ∃ t ts, s.Consumes (t :: ts) s' := by
  rcases recover_gives h with ⟨a, ha, -⟩ | ⟨-, why, echo, s₁, s₂, s₃, hr, h₂, h₃, h₄⟩
  · cases ha
  · have failed := hrule env s
    rw [hr] at failed
    obtain ⟨⟨ts, hc⟩, -⟩ := failed
    obtain ⟨us, hc₃⟩ := hskip.leads h₃
    have hc := (hc.trans (report_gives h₂).1).trans hc₃
    generalize ts ++ [] ++ us = skipped at hc
    rcases moveOn_gives h₄ with ⟨hne, rfl⟩ | ⟨heq, b, s₄, hb, h₄⟩
    · -- the rule or the skipping consumed something
      cases skipped with
      | nil => exact absurd hc.consumed (by simpa using hne)
      | cons t ts => exact ⟨t, ts, hc⟩
    · -- nothing was consumed so far: the rule may not rest, so one token is moved over
      obtain rfl : skipped = [] := by
        have := hc.consumed
        rw [heq] at this
        exact List.length_eq_zero_iff.1 (by omega)
      rcases h₄ with ⟨rfl, rfl⟩ | ⟨rfl, t, ht⟩
      · exact absurd hb (rests _ _ hc)
      · obtain ⟨vs, hc₄⟩ := hresting.leads hb
        obtain ⟨hs, hc₅⟩ := advance_gives ht
        cases vs with
        | cons v vs => exact ⟨v, _, hc.after (hc₄.trans hc₅)⟩
        | nil =>
          have hi : s₄.input = s.input := by rw [hc₄.input_eq, hc.input_eq]
          have hend : t.isEnd = false := by
            rcases hs with hs | ⟨hs, -⟩
            · exact State.not_isEnd_of_mem_input (List.mem_of_mem_head? hs)
            · exact absurd (hi ▸ hs) hinput
          rw [hend] at hc₅
          exact ⟨t, [], hc.after (hc₄.after hc₅)⟩

/-- Recovery consumes a token, unless the rule may rest where it began. -/
theorem remaining_lt_of_recover {rule : Parser α} {skip : Parser Unit} {resting : Parser Bool}
    {x : Option α} (eats : Eats rule) (hrule : Steady [] rule) (hskip : Steady [] skip)
    (hresting : Steady [] resting) (hinput : s.input ≠ [])
    (rests : ∀ s₁ s₂, s.Consumes [] s₁ → ¬ Gives resting env s₁ true s₂)
    (h : Gives (recover rule skip resting) env s x s') : s'.remaining < s.remaining := by
  cases x with
  | none =>
    obtain ⟨t, ts, hc⟩ := consumes_of_recover_none hrule hskip hresting hinput rests h
    exact hc.remaining_lt
  | some a =>
    rcases recover_gives h with ⟨a', -, ha⟩ | ⟨hnone, -⟩
    · exact eats env s a' s' ha
    · cases hnone

theorem isSated_gives {b : Bool} (h : Gives isSated env s b s') :
    s = s' ∧ b = s.errors.isFull := by
  cases h; exact ⟨rfl, rfl⟩

/-- What a step in a body can have done: nothing; or a statement, read or recovered from. -/
theorem bodyStep_gives {rule : Parser Stmt} {acc : Array Stmt} {r : ForInStep (Array Stmt)}
    (h : Gives (bodyStep rule acc) env s r s') :
    (r = .done acc ∧ s.Consumes [] s') ∨
    (∃ x s₁, s.input ≠ [] ∧ firstKind s.input ≠ .symbol .rightBrace ∧ s.Consumes [] s₁ ∧
      Gives (recover rule skipStatement (check (.symbol .rightBrace))) env s₁ x s' ∧
      r = .yield (x.elim acc acc.push)) := by
  obtain ⟨t, s₁, ht, h⟩ := bind_gives h
  obtain ⟨b, s₂, hb, h⟩ := bind_gives h
  obtain ⟨full, s₃, hfull, h⟩ := bind_gives h
  obtain ⟨hc, hs, -⟩ := peek_gives ht
  obtain ⟨hc₂, hend⟩ := atEnd_gives hb
  obtain ⟨rfl, -⟩ := isSated_gives hfull
  rw [hc.input_eq] at hend
  split at h
  case isTrue => obtain ⟨rfl, rfl⟩ := pure_gives h; exact .inl ⟨rfl, hc.after hc₂⟩
  case isFalse hgo =>
    obtain ⟨x, s₃, hx, h⟩ := bind_gives h
    simp only [Bool.or_eq_true, decide_eq_true_eq, not_or, hend, hs.kind] at hgo
    refine .inr ⟨x, s₂, hgo.1.2, hgo.1.1, hc.after hc₂, ?_⟩
    cases x with
    | none => obtain ⟨rfl, rfl⟩ := pure_gives h; exact ⟨hx, rfl⟩
    | some stmt => obtain ⟨rfl, rfl⟩ := pure_gives h; exact ⟨hx, rfl⟩

/-- A step that goes on in a body has looked at the next token first. -/
theorem bodyStep_goes {rule : Parser Stmt} {acc out : Array Stmt}
    (h : Gives (bodyStep rule acc) env s (.yield out) s') : ∃ t s₁ x, Gives peek env s t s₁ ∧
      Gives (recover rule skipStatement (check (.symbol .rightBrace))) env s₁ x s' ∧
        out = x.elim acc acc.push := by
  obtain ⟨t, s₁, ht, h⟩ := bind_gives h
  obtain ⟨ended, s₂, hended, h⟩ := bind_gives h
  obtain ⟨full, s₃, hfull, h⟩ := bind_gives h
  obtain ⟨u, s₄, hu, hended⟩ := bind_gives hended
  obtain ⟨rfl, rfl⟩ := pure_gives hended
  obtain ⟨rfl, -⟩ := isSated_gives hfull
  obtain ⟨rfl, rfl⟩ := (gives_peek (peek_gives ht).2.2).unique hu
  split at h
  case isTrue => obtain ⟨hr, -⟩ := pure_gives h; cases hr
  case isFalse =>
    obtain ⟨x, s₃, hx, h⟩ := bind_gives h
    refine ⟨t, s₁, x, ht, ?_⟩
    cases x with
    | none => obtain ⟨hr, rfl⟩ := pure_gives h; cases hr; exact ⟨hx, rfl⟩
    | some stmt => obtain ⟨hr, rfl⟩ := pure_gives h; cases hr; exact ⟨hx, rfl⟩

theorem progresses_bodyStep {rule : Parser Stmt} (h : Steady [] rule) (eats : Eats rule) :
    Progresses (bodyStep rule) := by
  intro env acc s acc' s' hs
  rcases bodyStep_gives hs with ⟨hr, -⟩ | ⟨x, s₁, hne, hbrace, hc, hx, -⟩
  · cases hr
  -- before a closing brace the body ends, so recovery may not rest there
  · have := hc.remaining
    have := remaining_lt_of_recover eats h steady_skipStatement (steady_check _)
      (by rw [hc.input_eq]; exact hne) (fun s₂ s₃ hc' hcheck => hbrace ?_) hx
    · omega
    · rw [← (check_gives hcheck).2.1 rfl, hc'.input_eq, hc.input_eq]

/-- What a step between items can have done: nothing, at the end or with no room for diagnostics;
the report of a nesting too deep; or an item, read or recovered from. -/
theorem itemStep_gives {room : Nat} {acc : Array Item} {r : ForInStep (Array Item)}
    (h : Gives (itemStep room acc) env s r s') :
    (r = .done acc ∧ s.Consumes [] s' ∧ (s.input = [] ∨ s'.errors.isFull = true)) ∨
    (r = .done acc ∧ s.Leads s' ∧ (s.Candid → s'.errors.errors ≠ [])) ∨
    (∃ x s₁, s.input ≠ [] ∧ s.Consumes [] s₁ ∧
      Gives (recover (item room) skipItem (pure false)) env s₁ x s' ∧
      r = .yield (x.elim acc acc.push)) := by
  obtain ⟨b, s₁, hb, h⟩ := bind_gives h
  obtain ⟨full, s₂, hfull, h⟩ := bind_gives h
  obtain ⟨hc, hend⟩ := atEnd_gives hb
  obtain ⟨rfl, rfl⟩ := isSated_gives hfull
  split at h
  case isTrue hstop =>
    obtain ⟨rfl, rfl⟩ := pure_gives h
    rw [Bool.or_eq_true, hend] at hstop
    exact .inl ⟨rfl, hc, hstop⟩
  case isFalse hgo =>
    rw [Bool.or_eq_true, hend, not_or] at hgo
    have steady : Steady [] (recover (item room) skipItem (pure false)) :=
      steady_recover (steady_item room) steady_skipItem (.pure false)
    rcases rescue_gives h with h | ⟨e, s₂, he, h⟩
    · obtain ⟨x, s₂, hx, h⟩ := bind_gives h
      refine .inr (.inr ⟨x, s₁, hgo.1, hc, ?_⟩)
      cases x with
      | none => obtain ⟨rfl, rfl⟩ := pure_gives h; exact ⟨hx, rfl⟩
      | some i => obtain ⟨rfl, rfl⟩ := pure_gives h; exact ⟨hx, rfl⟩
    · cases e with
      | syntactic why echo => cases h
      | aborted why => cases h
      | tooDeep why =>
        cases h
        -- the failure can only be that of the item: what is done with its result does not fail
        have failed : (recover (item room) skipItem (pure false)) env s₁ =
            .error (.tooDeep why) s₂ := by
          rcases bind_error he with he | ⟨x, s₃, -, he⟩
          · exact he
          · cases x <;> cases he
        have failed : s₁.Leads s₂ := by
          have := steady env s₁
          rwa [failed] at this
        have hl : s.Leads s₂ := .trans ⟨[], hc⟩ failed
        have recorded : s₂.Consumes [] ((s₂.record why).note (.stopped why)) :=
          (State.Consumes.record why).trans (.note _)
        refine .inr (.inl ⟨rfl, hl.trans ⟨[], recorded⟩, fun candid => ?_⟩)
        exact State.record_errors_ne_nil (hl.choose_spec.candid candid).capacity why

/-- A step that goes on to another item has looked at the next token first. -/
theorem itemStep_goes {room : Nat} {acc out : Array Item}
    (h : Gives (itemStep room acc) env s (.yield out) s') : ∃ t s₁ x, Gives peek env s t s₁ ∧
      t.isEnd = false ∧ s₁.errors.isFull = false ∧
        Gives (recover (item room) skipItem (pure false)) env s₁ x s' ∧
          out = x.elim acc acc.push := by
  obtain ⟨ended, s₁, hended, h⟩ := bind_gives h
  obtain ⟨full, s₂, hfull, h⟩ := bind_gives h
  obtain ⟨t, s₃, ht, hended⟩ := bind_gives hended
  obtain ⟨rfl, rfl⟩ := pure_gives hended
  obtain ⟨rfl, rfl⟩ := isSated_gives hfull
  split at h
  case isTrue => obtain ⟨hr, -⟩ := pure_gives h; cases hr
  case isFalse hgo =>
    rw [Bool.not_eq_true, Bool.or_eq_false_iff] at hgo
    rcases rescue_gives h with h | ⟨e, s₂, -, h⟩
    · obtain ⟨x, s₂, hx, h⟩ := bind_gives h
      refine ⟨t, s₃, x, ht, hgo.1, hgo.2, ?_⟩
      cases x with
      | none => obtain ⟨hr, rfl⟩ := pure_gives h; cases hr; exact ⟨hx, rfl⟩
      | some i => obtain ⟨hr, rfl⟩ := pure_gives h; cases hr; exact ⟨hx, rfl⟩
    · cases e <;> cases h

theorem progresses_itemStep {room : Nat} (eats : Eats (item room)) :
    Progresses (itemStep room) := by
  intro env acc s acc' s' hs
  rcases itemStep_gives hs with ⟨hr, -⟩ | ⟨hr, -⟩ | ⟨x, s₁, hne, hc, hx, -⟩
  · cases hr
  · cases hr
  · have := hc.remaining
    have := remaining_lt_of_recover eats (steady_item room) steady_skipItem (.pure false)
      (by rw [hc.input_eq]; exact hne) (fun s₂ s₃ _ h => by cases h) hx
    omega

/-! ## Skipping -/

/-- A token that was looked at and is no end token is the one consumed. -/
theorem consumes_of_advance {t u : Token} {s'' : State} (hpeek : Gives peek env s t s')
    (hadvance : Gives advance env s' u s'') (hend : t.isEnd = false) : s.Consumes [t] s'' := by
  obtain ⟨hc, hshows, -⟩ := peek_gives hpeek
  have hne : t.kind ≠ .endOfInput := by
    rw [Ne, ← Token.isEnd_iff, hend]
    decide
  obtain ⟨rfl, hc'⟩ := advance_shown hadvance (hc.shows hshows) rfl hne
  exact hc.after hc'

/-- What a step on the way to the end of a statement can have done: nothing, where the skipping
stops; or a token is consumed, and a semicolon is the last. -/
theorem skipStatementStep_gives {r : ForInStep Unit}
    (h : Gives (skipStatementStep ()) env s r s') :
    (r = .done () ∧ s.Consumes [] s') ∨
    (∃ t, s.Consumes [t] s' ∧
      r = if t.kind = .symbol .semicolon then .done () else .yield ()) := by
  obtain ⟨t, s₁, hpeek, h⟩ := bind_gives h
  split at h
  case isTrue =>
    obtain ⟨rfl, rfl⟩ := pure_gives h
    exact .inl ⟨rfl, (peek_gives hpeek).1⟩
  case isFalse hgo =>
    obtain ⟨u, s₂, hadvance, h⟩ := bind_gives h
    obtain ⟨rfl, rfl⟩ := pure_gives h
    simp only [Bool.or_eq_true, not_or, Bool.not_eq_true] at hgo
    exact .inr ⟨t, consumes_of_advance hpeek hadvance hgo.1.1, rfl⟩

theorem progresses_skipStatementStep : Progresses skipStatementStep := by
  intro env b s b' s' h
  rcases skipStatementStep_gives h with ⟨hr, -⟩ | ⟨t, hc, -⟩
  · cases hr
  · exact hc.remaining_lt

/-- What follows a token that is skipped between items, given the number of open braces. -/
def behindSkipped (opened : Nat) (k : Kind) : ForInStep Nat :=
  if k = .symbol .leftBrace then .yield (opened + 1)
  else if k = .symbol .rightBrace then if opened ≤ 1 then .done 0 else .yield (opened - 1)
  else if opened = 0 && k = .symbol .semicolon then .done 0
  else .yield opened

/-- What a step on the way to the end of an item can have done: nothing, where the skipping stops;
or a token is consumed. -/
theorem skipItemStep_gives {opened : Nat} {r : ForInStep Nat}
    (h : Gives (skipItemStep opened) env s r s') :
    (r = .done opened ∧ s.Consumes [] s') ∨
    (∃ t, s.Consumes [t] s' ∧ r = behindSkipped opened t.kind) := by
  obtain ⟨t, s₁, hpeek, h⟩ := bind_gives h
  split at h
  case isTrue =>
    obtain ⟨rfl, rfl⟩ := pure_gives h
    exact .inl ⟨rfl, (peek_gives hpeek).1⟩
  case isFalse hend =>
    rw [Bool.not_eq_true] at hend
    split at h
    case isTrue =>
      obtain ⟨rfl, rfl⟩ := pure_gives h
      exact .inl ⟨rfl, (peek_gives hpeek).1⟩
    case isFalse =>
      obtain ⟨u, s₂, hadvance, h⟩ := bind_gives h
      have hc := consumes_of_advance hpeek hadvance hend
      refine .inr ⟨t, ?_⟩
      split at h
      case isTrue hopen =>
        obtain ⟨rfl, rfl⟩ := pure_gives h
        exact ⟨hc, (if_pos hopen).symm⟩
      case isFalse hopen =>
        rw [behindSkipped, if_neg hopen]
        split at h
        case isTrue hclose =>
          obtain ⟨rfl, rfl⟩ := pure_gives h
          exact ⟨hc, (if_pos hclose).symm⟩
        case isFalse hclose =>
          obtain ⟨rfl, rfl⟩ := pure_gives h
          exact ⟨hc, (if_neg hclose).symm⟩

theorem progresses_skipItemStep : Progresses skipItemStep := by
  intro env b s b' s' h
  rcases skipItemStep_gives h with ⟨hr, -⟩ | ⟨t, hc, -⟩
  · cases hr
  · exact hc.remaining_lt

end Parser

end ArcLang
