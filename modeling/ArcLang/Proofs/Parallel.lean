import ArcLang.Proofs.Moving
import ArcLang.Proofs.ProgramSoundness

/-!
# Rules in parallel

Two rules that differ only in the places of the tokens that they were given do the same, step by
step. How the rules of the parser are put together from a few primitive steps is gone through once,
here; what is to be shown of all of them is then shown of the steps.

* `Parser.Known`: what a rule may count on where it starts.
* `Parser.Parallel`: the steps that rules are put together from.
* `Parser.parallel_expression`, `Parser.parallel_body`, `Parser.parallel_itemStep`: the rules.
* `Parser.run_itemStep`, `Parser.run_program`: a program in its steps.
-/

namespace ArcLang

/-- The cause is a fault of syntax, or of the name of a type. -/
def Cause.IsSyntactic (c : Cause) : Prop := c.category = .syntactic ∨ c.category = .typeName

namespace Parser

/-! ## Steps -/

/-- What a rule may count on where it starts. -/
structure Known where
  /-- Tokens that have been looked at. -/
  seen : List Token := []
  /-- The token that is looked at, where that is known. -/
  next : Option Token := none
  /-- A token has been consumed. -/
  fed : Bool := false
  /-- Failures may be recovered from, so tokens may be skipped. -/
  mends : Bool := true
  /-- A nesting that is too deep may be reported, which is the last that is. -/
  halts : Bool := true

namespace Known

/-- Behind a look at a token. -/
def look (k : Known) (t : Token) : Known := { k with seen := t :: k.seen, next := some t }

/-- Behind the token that was looked at. -/
def took (k : Known) : Known := { k with next := none, fed := true }

/-- Behind some rule. -/
def on (k : Known) : Known := { k with next := none }

/-- At the start of a rule that recovers from nothing and only counts on what it sees itself. -/
def calm (k : Known) : Known := { k with seen := [], mends := false }

/-- Where a nesting that is too deep is left to others. -/
def nested (k : Known) : Known := { k with halts := false }

end Known

/-- A step with its values mapped. -/
def mapStep {β γ : Type} (v : β → γ) : ForInStep β → ForInStep γ
  | .done b => .done (v b)
  | .yield b => .yield (v b)

theorem mapStep_id {β : Type} (r : ForInStep β) : mapStep id r = r := by
  cases r <;> rfl

/-- Ends a repetition where the nesting is too deep, which is reported. -/
def haltDeep {α : Type} (p : Parser α) (a : α) : Parser α := rescue p fun
  | .tooDeep why => do
    modify fun s => (s.record why).note (.stopped why)
    return a
  | failure => throw failure

variable (f : Location → Location)

/-- The second rule does with moved tokens what the first does, step by step, and `v` maps what the
first gives to what the second gives. -/
inductive Parallel : {α β : Type} → Known → (α → β) → Parser α → Parser β → Prop
  | pure {α β : Type} {k : Known} {v : α → β} {a : α} {b : β} : v a = b →
      Parallel k v (Pure.pure a) (Pure.pure b)
  | bind {α α' β β' : Type} {k : Known} {u : α → α'} {v : β → β'} {p : Parser α} {p' : Parser α'}
      {r : α → Parser β} {r' : α' → Parser β'} : Parallel k u p p' →
      (∀ a, Parallel k.on v (r a) (r' (u a))) → Parallel k v (p >>= r) (p' >>= r')
  | look {α β : Type} {k : Known} {v : α → β} {r : Token → Parser α} {r' : Token → Parser β} :
      (∀ t, Parallel (k.look t) v (r t) (r' (t.moved f))) →
      Parallel k v (peek >>= r) (peek >>= r')
  /-- An error token is only consumed where tokens are skipped. -/
  | take {α β : Type} {k : Known} {v : α → β} {t : Token} {r : Token → Parser α}
      {r' : Token → Parser β} : k.next = some t → t.isEnd = false →
      (k.mends = true ∨ t.isError = false) → Parallel k.took v (r t) (r' (t.moved f)) →
      Parallel k v (advance >>= r) (advance >>= r')
  | calm {α β : Type} {k : Known} {v : α → β} {p : Parser α} {p' : Parser β} :
      Parallel k.calm v p p' → Parallel k v p p'
  /-- A rule fails at the token that is looked at. One that recovers from nothing may also fail at a
  token that it has seen before, if it does not look at an error token now. -/
  | failAt {α β : Type} {k : Known} {v : α → β} {t u : Token} {c c' : Cause} : t ∈ k.seen →
      k.next = some u → (u = t ∨ k.mends = false ∧ u.isError = false) →
      c.IsSyntactic → c.Moves f c' → Parallel k v (failAt t c) (failAt (t.moved f) c')
  | tooDeep {α β : Type} {k : Known} {v : α → β} : Parallel k v tooDeep tooDeep
  | hugeLength {α β : Type} {k : Known} {v : α → β} {t : Token} {n : Nat} : t ∈ k.seen →
      t.kind = .number → Numeral.resolve t.lexeme = .tooManyDigits n →
      Parallel k v (throw (.aborted (.hugeLength n))) (throw (.aborted (.hugeLength n)))
  | spanFrom {k : Known} {l : Location} : k.fed = true →
      Parallel k (Span.moved f) (spanFrom l) (spanFrom (f l))
  | note {k : Known} (e e' : Event) :
      Parallel k id (modify (·.note e) : Parser PUnit) (modify (·.note e'))
  | isSated {k : Known} : Parallel k id isSated isSated
  | iterate {β β' : Type} {k : Known} {v : β → β'} {step : β → Parser (ForInStep β)}
      {step' : β' → Parser (ForInStep β')} {b : β} {b' : β'} : v b = b' → Progresses step →
      Progresses step' → (∀ b, Parallel k.on (mapStep v) (step b) (step' (v b))) →
      Parallel k v (iterate step b) (iterate step' b')
  | recover {α β : Type} {k : Known} {v : α → β} {p : Parser α} {p' : Parser β}
      {skip : Parser Unit} {resting : Parser Bool} : k.mends = true → Parallel k.on v p p' →
      Parallel (Known.nested {}) id skip skip → Parallel (Known.nested {}) id resting resting →
      Parallel k (Option.map v) (recover p skip resting) (recover p' skip resting)
  | haltDeep {α β : Type} {k : Known} {v : α → β} {p : Parser α} {p' : Parser β} (a : α) :
      k.mends = true → k.halts = true → Parallel k.nested v p p' →
      Parallel k v (haltDeep p a) (haltDeep p' (v a))

variable {f} {α α' β β' : Type} {k : Known} {u : α → α'} {v : β → β'}

theorem failAt_bind (t : Token) (c : Cause) (r : α → Parser β) :
    failAt t c >>= r = failAt t c := by
  funext env s
  rfl

theorem check_bind (kind : Kind) (r : Bool → Parser β) :
    check kind >>= r = peek >>= fun t => r (t.kind = kind) := by
  simp [check]

theorem isEnd_of_kind {t : Token} {kind : Kind} (h : t.kind = kind) (hend : kind ≠ .endOfInput) :
    t.isEnd = false := by
  rw [← Bool.not_eq_true, Token.isEnd_iff, h]
  exact hend

theorem isError_of_kind {t : Token} {kind : Kind} (h : t.kind = kind) (herror : kind ≠ .error) :
    t.isError = false := by
  rw [← Bool.not_eq_true, Token.isError_iff, h]
  exact herror

namespace Parallel

theorem map {p : Parser α} {p' : Parser α'} {g : α → β} {g' : α' → β'} (h : Parallel f k u p p')
    (hg : ∀ a, v (g a) = g' (u a)) : Parallel f k v (g <$> p) (g' <$> p') := by
  rw [map_eq_pure_bind, map_eq_pure_bind]
  exact h.bind fun a => .pure (hg a)

/-- The token looked at is consumed, where it is of a kind that is known. -/
theorem advance {t : Token} {kind : Kind} {r : Token → Parser β} {r' : Token → Parser β'}
    (hk : t.kind = kind) (hend : kind ≠ .endOfInput) (herror : kind ≠ .error)
    (h : Parallel f (k.look t).took v (r t) (r' (t.moved f))) :
    Parallel f (k.look t) v (advance >>= r) (advance >>= r') :=
  .take rfl (isEnd_of_kind hk hend) (.inr (isError_of_kind hk herror)) h

theorem ite {c c' : Prop} [Decidable c] [Decidable c'] {p q : Parser β} {p' q' : Parser β'}
    (hc : c ↔ c') (htrue : c → Parallel f k v p p') (hfalse : ¬c → Parallel f k v q q') :
    Parallel f k v (if c then p else q) (if c' then p' else q') := by
  by_cases h : c
  · rw [if_pos h, if_pos (hc.1 h)]
    exact htrue h
  · rw [if_neg h, if_neg (mt hc.2 h)]
    exact hfalse h

theorem check_bind {kind : Kind} {r : Bool → Parser β} {r' : Bool → Parser β'}
    (h : ∀ t, Parallel f (k.look t) v (r (t.kind = kind)) (r' (t.kind = kind))) :
    Parallel f k v (check kind >>= r) (check kind >>= r') := by
  rw [Parser.check_bind, Parser.check_bind]
  exact .look h

section Kinds

variable {kind : Kind} (hend : kind ≠ .endOfInput) (herror : kind ≠ .error)

include hend herror

theorem accept_bind {r : Bool → Parser β} {r' : Bool → Parser β'}
    (htrue : ∀ t, Parallel f (k.look t).took v (r true) (r' true))
    (hfalse : ∀ t, Parallel f (k.look t) v (r false) (r' false)) :
    Parallel f k v (accept kind >>= r) (accept kind >>= r') := by
  have haccept {γ : Type} (r : Bool → Parser γ) : accept kind >>= r = check kind >>= fun found =>
      if found then Parser.advance >>= fun _ => r true else r false := by
    simp only [accept, bind_assoc]
    congr 1
    funext found
    cases found <;> simp
  rw [haccept, haccept]
  refine .check_bind fun t => ?_
  by_cases hk : t.kind = kind
  · rw [decide_eq_true hk]
    exact .advance hk hend herror (htrue t)
  · rw [decide_eq_false hk]
    exact hfalse t

/-- What is expected is consumed, or the rule fails at another token. -/
theorem expected_bind {rule : Parser Token} {rule' : Parser Token} {c c' : Token → Cause}
    (hrule : rule = do if ← check kind then Parser.advance else let t ← peek; Parser.failAt t (c t))
    (hrule' : rule' = do
      if ← check kind then Parser.advance else let t ← peek; Parser.failAt t (c' t))
    (hc : ∀ t, (c t).Moves f (c' (t.moved f))) (hsyntactic : ∀ t, (c t).IsSyntactic)
    {r : Token → Parser β} {r' : Token → Parser β'}
    (h : ∀ t, Parallel f (k.look t).took v (r t) (r' (t.moved f))) :
    Parallel f k v (rule >>= r) (rule' >>= r') := by
  have hbind {γ : Type} (c : Token → Cause) (r : Token → Parser γ) : (do
      if ← check kind then Parser.advance else let t ← peek; Parser.failAt t (c t)) >>= r =
      check kind >>= fun found => if found then Parser.advance >>= r
        else peek >>= fun t => Parser.failAt t (c t) := by
    rw [bind_assoc]
    congr 1
    funext found
    cases found with
    | true => rfl
    | false =>
      simp only [Bool.false_eq_true, if_false, bind_assoc, failAt_bind]
  rw [hrule, hrule', hbind, hbind]
  refine .check_bind fun t => ?_
  by_cases hk : t.kind = kind
  · rw [decide_eq_true hk]
    exact .advance hk hend herror (h t)
  · rw [decide_eq_false hk]
    exact .look fun u => .failAt List.mem_cons_self rfl (.inl rfl) (hsyntactic u) (hc u)

theorem expect_bind (expected : String) {r : Token → Parser β} {r' : Token → Parser β'}
    (h : ∀ t, Parallel f (k.look t).took v (r t) (r' (t.moved f))) :
    Parallel f k v (expect kind expected >>= r) (expect kind expected >>= r') :=
  expected_bind hend herror rfl rfl (fun t => .found expected t.describe) (fun _ => .inl rfl) h

theorem expectClosing_bind (expected : String) (opener : Token) {r : Token → Parser β}
    {r' : Token → Parser β'}
    (h : ∀ t, Parallel f (k.look t).took v (r t) (r' (t.moved f))) :
    Parallel f k v (expectClosing kind expected opener >>= r)
      (expectClosing kind expected (opener.moved f) >>= r') :=
  expected_bind hend herror rfl rfl (fun _ => .unclosed expected opener.describe opener.place)
    (fun _ => .inl rfl) h

end Kinds

/-- A rule that ends by making something of the span it covers. -/
theorem spanned {l l' : Location} (hl : f l = l') (hfed : k.fed = true) {g : Span → β}
    {g' : Span → β'} (hg : ∀ span, v (g span) = g' (span.moved f)) :
    Parallel f k v (do return g (← Parser.spanFrom l)) (do return g' (← Parser.spanFrom l')) := by
  subst hl
  exact .bind (.spanFrom hfed) fun span => .pure (hg span)

end Parallel

section Kinds

variable {kind : Kind} (hend : kind ≠ .endOfInput) (herror : kind ≠ .error)

include hend herror

theorem parallel_accept : Parallel f k id (accept kind) (accept kind) := by
  have h : Parallel f k id (accept kind >>= Pure.pure) (accept kind >>= Pure.pure) :=
    .accept_bind hend herror (fun _ => .pure rfl) fun _ => .pure rfl
  simpa only [bind_pure] using h

theorem parallel_expect (expected : String) :
    Parallel f k (Token.moved f) (expect kind expected) (expect kind expected) := by
  have h : Parallel f k (Token.moved f) (expect kind expected >>= Pure.pure)
      (expect kind expected >>= Pure.pure) := .expect_bind hend herror expected fun _ => .pure rfl
  simpa only [bind_pure] using h

theorem parallel_expectClosing (expected : String) (opener : Token) :
    Parallel f k (Token.moved f) (expectClosing kind expected opener)
      (expectClosing kind expected (opener.moved f)) := by
  have h : Parallel f k (Token.moved f) (expectClosing kind expected opener >>= Pure.pure)
      (expectClosing kind expected (opener.moved f) >>= Pure.pure) :=
    .expectClosing_bind hend herror expected opener fun _ => .pure rfl
  simpa only [bind_pure] using h

end Kinds

variable {room : Nat}

/-! ## Types -/

theorem parallel_arrayLength : Parallel f k id arrayLength arrayLength := by
  refine .look fun t => ?_
  dsimp only [Token.kind_moved, Token.lexeme_moved, Token.describe_moved]
  split
  next => exact .failAt List.mem_cons_self rfl (.inl rfl) (.inr rfl) (.plain nofun)
  next hk =>
    split
    next => exact .advance hk (by decide) (by decide) (.pure rfl)
    next => exact .failAt List.mem_cons_self rfl (.inl rfl) (.inr rfl) (.plain nofun)
    next hmany => exact .hugeLength List.mem_cons_self hk hmany
  next => exact .failAt List.mem_cons_self rfl (.inl rfl) (.inr rfl) (.plain nofun)

theorem parallel_typeNameWith {element : Parser TypeName}
    (h : ∀ k, Parallel f k (TypeName.moved f) element element) :
    Parallel f k (TypeName.moved f) (typeNameWith element) (typeNameWith element) := by
  refine .look fun t => ?_
  dsimp only [Token.kind_moved, Token.lexeme_moved, Token.describe_moved]
  split
  next hk => exact .advance hk (by decide) (by decide) (.pure rfl)
  next hk => exact .advance hk (by decide) (by decide) (.pure rfl)
  next hk => exact .advance hk (by rintro ⟨⟩) (by rintro ⟨⟩) (.pure rfl)
  next hk => exact .advance hk (by decide) (by decide) (.pure rfl)
  next hk =>
    refine .advance hk (by decide) (by decide) (.bind (h _) fun inner => ?_)
    refine .expect_bind (by decide) (by decide) _ fun _ => .bind parallel_arrayLength fun n => ?_
    exact .expectClosing_bind (by decide) (by decide) _ t fun _ => .spanned rfl rfl fun _ => rfl
  next => exact .failAt List.mem_cons_self rfl (.inl rfl) (.inr rfl) (.plain nofun)

theorem parallel_typeName : Parallel f k (TypeName.moved f) (typeName room) (typeName room) := by
  induction room generalizing k with
  | zero => exact parallel_typeNameWith fun _ => .tooDeep
  | succ room ih => exact parallel_typeNameWith fun _ => ih

/-! ## Expressions -/

section Expressions

variable {expression : Parser Expr} {inner : Form → Parser Expr}

/-- Lists between delimiters. -/
theorem parallel_delimited {element : Parser α} {v : α → β} {element' : Parser β}
    (h : ∀ k, Parallel f k v element element') (steady : Steady [] element)
    (steady' : Steady [] element') (opener : Token) (closer : Symbol) :
    Parallel f k (List.map v) (delimited opener closer element)
      (delimited (opener.moved f) closer element') := by
  have hstep (k : Known) (acc : Array α) : Parallel f k (mapStep (Array.map v))
      (delimitedStep closer element acc) (delimitedStep closer element' (acc.map v)) := by
    refine .check_bind fun t => ?_
    split
    next => exact .pure rfl
    next =>
      refine .bind (h _) fun a => ?_
      refine .accept_bind (by decide) (by decide) (fun _ => .pure ?_) fun _ => .pure ?_
      · exact congrArg ForInStep.yield (Array.map_push ..)
      · exact congrArg ForInStep.done (Array.map_push ..)
  have hloop : Parallel f k (Array.map v) (iterate (delimitedStep closer element) #[])
      (iterate (delimitedStep closer element') #[]) :=
    .iterate (Array.map_empty ..) (progresses_delimitedStep steady closer)
      (progresses_delimitedStep steady' closer) fun acc => hstep _ acc
  refine .bind hloop fun acc => ?_
  exact .expectClosing_bind (by rintro ⟨⟩) (by rintro ⟨⟩) _ opener fun _ =>
    .pure (Array.toList_map ..).symm

theorem parallel_primary (h : ∀ k, Parallel f k (Expr.moved f) expression expression)
    (steady : Steady [] expression) :
    Parallel f k (Expr.moved f) (primary expression) (primary expression) := by
  refine .look fun t => ?_
  dsimp only [Token.kind_moved, Token.lexeme_moved, Token.describe_moved]
  split
  next hk => exact .advance hk (by decide) (by decide) (.pure rfl)
  next hk => exact .advance hk (by rintro ⟨⟩) (by rintro ⟨⟩) (.pure rfl)
  next hk => exact .advance hk (by decide) (by decide) (.pure rfl)
  next hk => exact .advance hk (by decide) (by decide) (.pure rfl)
  next hk => exact .advance hk (by decide) (by decide) (.pure rfl)
  next hk =>
    refine .advance hk (by decide) (by decide) (.bind (h _) fun inner => ?_)
    exact .expectClosing_bind (by decide) (by decide) _ t fun _ => .spanned rfl rfl fun _ => rfl
  next hk =>
    refine .advance hk (by decide) (by decide) (.bind (parallel_delimited h steady steady t _)
      fun elements => .spanned rfl rfl fun _ => ?_)
    rw [Expr.moved, Expr.movedEach_eq]
  next => exact .failAt List.mem_cons_self rfl (.inl rfl) (.inl rfl) (.plain nofun)

theorem parallel_trailingStep (h : ∀ k, Parallel f k (Expr.moved f) expression expression)
    (steady : Steady [] expression) (e : Expr) : Parallel f k (mapStep (Expr.moved f))
      (trailingStep expression e) (trailingStep expression (e.moved f)) := by
  have hstart : f e.span.start = (e.moved f).span.start := by rw [Expr.span_moved]; rfl
  refine .look fun t => ?_
  dsimp only [Token.kind_moved]
  split
  next hk =>
    refine .advance hk (by decide) (by decide) ?_
    exact .expect_bind (by decide) (by decide) _ fun _ => .spanned hstart rfl fun _ => rfl
  next hk =>
    refine .advance hk (by decide) (by decide) (.bind (h _) fun index => ?_)
    exact .expectClosing_bind (by decide) (by decide) _ t fun _ => .spanned hstart rfl fun _ => rfl
  next hk =>
    refine .advance hk (by decide) (by decide) (.bind (parallel_delimited h steady steady t _)
      fun arguments => .spanned hstart rfl fun _ => ?_)
    rw [mapStep, Expr.moved, Expr.movedEach_eq]
  next => exact .pure rfl

theorem parallel_assignment (h : ∀ k form, Parallel f k (Expr.moved f) (inner form) (inner form)) :
    Parallel f k (Expr.moved f) (Form.assignment inner) (Form.assignment inner) := by
  refine .calm (.look fun start => .bind (h _ _) fun target => .look fun t => ?_)
  dsimp only [Token.kind_moved, Expr.isAddressable_moved]
  split
  next => exact .pure rfl
  next op hop =>
    rw [Expr.isAddressable_moved]
    split
    next =>
      refine .advance (Kind.assignOp?_eq_some_iff.1 hop) (by rintro ⟨⟩) (by rintro ⟨⟩)
        (.bind (h _ _) fun value => .pure ?_)
      rw [Expr.moved, Expr.span_moved, Expr.span_moved, Span.moved_upTo]
    next =>
      -- the operator is looked at, and the target is what is wrong
      have hproper : t.isError = false :=
        isError_of_kind (Kind.assignOp?_eq_some_iff.1 hop) (by rintro ⟨⟩)
      exact .failAt (List.mem_cons_of_mem _ List.mem_cons_self) rfl (.inr ⟨rfl, hproper⟩) (.inl rfl)
        (.plain nofun)

theorem parallel_operand (h : ∀ k form, Parallel f k (Expr.moved f) (inner form) (inner form))
    (steady : ∀ seen form, Steady seen (inner form)) :
    Parallel f k (Expr.moved f) (Form.operand inner) (Form.operand inner) := by
  have hsteady : Steady [] (Form.assignment inner) := steady_assignment steady
  refine .look fun t => ?_
  dsimp only [Token.kind_moved]
  split
  next =>
    refine .bind (parallel_primary (fun _ => parallel_assignment h) hsteady) fun e => ?_
    exact .iterate rfl (progresses_trailingStep hsteady) (progresses_trailingStep hsteady)
      (parallel_trailingStep (fun _ => parallel_assignment h) hsteady)
  next op hop =>
    refine .advance (Kind.unaryOp?_eq_some_iff.1 hop) (by rintro ⟨⟩) (by rintro ⟨⟩)
      (.bind (h _ _) fun operand => .spanned rfl rfl fun _ => rfl)

theorem parallel_binaryStep (h : ∀ k form, Parallel f k (Expr.moved f) (inner form) (inner form))
    (least : Nat) (left : Expr) : Parallel f k (mapStep (Expr.moved f))
      (Form.binaryStep inner least left) (Form.binaryStep inner least (left.moved f)) := by
  refine .look fun t => ?_
  dsimp only [Token.kind_moved]
  split
  next => exact .pure rfl
  next op hop =>
    split
    next => exact .pure rfl
    next =>
      refine .advance (Kind.binaryOp?_eq_some_iff.1 hop) (by rintro ⟨⟩) (by rintro ⟨⟩)
        (.bind (h _ _) fun right => .pure ?_)
      rw [mapStep, Expr.moved, Expr.span_moved, Expr.span_moved, Span.moved_upTo]

theorem parallel_around (h : ∀ k form, Parallel f k (Expr.moved f) (inner form) (inner form))
    (steady : ∀ seen form, Steady seen (inner form)) (form : Form) :
    Parallel f k (Expr.moved f) (Form.around inner form) (Form.around inner form) := by
  cases form with
  | whole => exact parallel_assignment h
  | binary least =>
    refine .bind (parallel_operand h steady) fun e => ?_
    exact .iterate rfl (progresses_binaryStep (steady []) least)
      (progresses_binaryStep (steady []) least) (parallel_binaryStep h least)
  | unary => exact parallel_operand h steady

theorem parallel_within (form : Form) :
    Parallel f k (Expr.moved f) (Form.within room form) (Form.within room form) := by
  induction room generalizing k form with
  | zero => exact parallel_around (fun _ _ => .tooDeep) (fun _ _ => steady_tooDeep) form
  | succ room ih => exact parallel_around (fun _ => ih) (fun _ => steady_within room) form

end Expressions

theorem parallel_expression :
    Parallel f k (Expr.moved f) (expression room) (expression room) := parallel_within .whole

/-! ## Statements -/

section Statements

variable {expression : Parser Expr} {body : Parser Block}

theorem parallel_branch (start : Token) (hfed : k.fed = true) (hmends : k.mends = true)
    (he : ∀ k, Parallel f k (Expr.moved f) expression expression)
    (hb : ∀ k : Known, k.mends = true → Parallel f k (Block.moved f) body body) :
    Parallel f k (Stmt.moved f) (branch start expression body)
      (branch (start.moved f) expression body) := by
  refine .bind (he _) fun condition => .bind (hb k.on hmends) fun consequent => ?_
  refine .accept_bind (by decide) (by decide) (fun t => ?_) fun t => ?_
  · simp only [if_true]
    refine .look fun u => .ite Iff.rfl (fun _ => ?_) fun _ => ?_
    · exact .failAt List.mem_cons_self rfl (.inl rfl) (.inl rfl) (.missingToken (by decide))
    · refine .bind (u := Block.moved f) (hb _ ?_) fun alternate => .spanned rfl rfl fun _ => rfl
      exact hmends
  · simp only [Bool.false_eq_true, if_false]
    refine .spanned rfl ?_ fun _ => rfl
    exact hfed

theorem parallel_loop (start : Token) (hfed : k.fed = true) (hmends : k.mends = true)
    (he : ∀ k, Parallel f k (Expr.moved f) expression expression)
    (hb : ∀ k : Known, k.mends = true → Parallel f k (Block.moved f) body body) :
    Parallel f k (Stmt.moved f) (loop start expression body)
      (loop (start.moved f) expression body) := by
  refine .bind (he _) fun condition => .bind (hb k.on hmends) fun inner => ?_
  refine .spanned rfl ?_ fun _ => rfl
  exact hfed

theorem parallel_ret (start : Token)
    (he : ∀ k, Parallel f k (Expr.moved f) expression expression) :
    Parallel f k (Stmt.moved f) (ret start expression) (ret (start.moved f) expression) := by
  have hrest (value : Option Expr) (k : Known) : Parallel f k (Stmt.moved f) (do
      let _ ← expect (.symbol .semicolon) "';' after return"
      return Stmt.ret (← spanFrom start.place) value) (do
      let _ ← expect (.symbol .semicolon) "';' after return"
      return Stmt.ret (← spanFrom (start.moved f).place) (value.map (Expr.moved f))) :=
    .expect_bind (by decide) (by decide) _ fun _ => .spanned rfl rfl fun _ => rfl
  refine .check_bind fun t => .ite Iff.rfl (fun _ => ?_) fun _ => ?_
  · exact .bind (u := Option.map (Expr.moved f)) (.pure rfl) fun value => hrest value _
  · exact .bind (u := Option.map (Expr.moved f)) ((he _).map fun _ => rfl) fun value =>
      hrest value _

theorem parallel_breakLoop (start : Token) :
    Parallel f k (Stmt.moved f) (breakLoop start) (breakLoop (start.moved f)) :=
  .expect_bind (by decide) (by decide) _ fun _ => .spanned rfl rfl fun _ => rfl

theorem parallel_statement (hmends : k.mends = true)
    (he : ∀ k, Parallel f k (Expr.moved f) expression expression)
    (hb : ∀ k : Known, k.mends = true → Parallel f k (Block.moved f) body body) :
    Parallel f k (Stmt.moved f) (statement expression body) (statement expression body) := by
  refine .look fun t => ?_
  dsimp only [Token.kind_moved]
  split
  next hk => exact .advance hk (by decide) (by decide) (parallel_branch t rfl hmends he hb)
  next hk => exact .advance hk (by decide) (by decide) (parallel_loop t rfl hmends he hb)
  next hk => exact .advance hk (by decide) (by decide) (parallel_ret t he)
  next hk => exact .advance hk (by decide) (by decide) (parallel_breakLoop t)
  next =>
    refine .bind (he _) fun e => ?_
    exact .expect_bind (by decide) (by decide) _ fun _ => .spanned rfl rfl fun _ => rfl

end Statements

theorem parallel_check (kind : Kind) : Parallel f k id (check kind) (check kind) :=
  .look fun _ => .pure rfl

theorem parallel_atEnd : Parallel f k id atEnd atEnd := .look fun _ => .pure rfl

theorem parallel_skipStatement (hmends : k.mends = true) :
    Parallel f k id skipStatement skipStatement := by
  refine .iterate rfl progresses_skipStatementStep progresses_skipStatementStep fun _ =>
    .look fun t => .ite Iff.rfl (fun _ => .pure rfl) fun hgo => ?_
  simp only [Bool.or_eq_true, not_or, Bool.not_eq_true] at hgo
  refine .take rfl hgo.1.1 (.inl hmends) ?_
  exact .pure (mapStep_id _)

theorem parallel_skipItem (hmends : k.mends = true) : Parallel f k id skipItem skipItem := by
  have hstep (k : Known) (hmends : k.mends = true) (opened : Nat) :
      Parallel f k (mapStep id) (skipItemStep opened) (skipItemStep opened) := by
    refine .look fun t => .ite Iff.rfl (fun _ => .pure rfl) fun hend => ?_
    refine .ite Iff.rfl (fun _ => .pure rfl) fun _ => ?_
    refine .take rfl (by simpa using hend) (.inl hmends) ?_
    refine .ite Iff.rfl (fun _ => .pure rfl) fun _ => ?_
    exact .ite Iff.rfl (fun _ => .pure (mapStep_id _)) fun _ => .pure (mapStep_id _)
  have hloop : Parallel f k id (iterate skipItemStep 0) (iterate skipItemStep 0) :=
    .iterate rfl progresses_skipItemStep progresses_skipItemStep (hstep _ hmends)
  exact hloop.bind fun _ => .pure rfl

theorem parallel_bodyStep {rule : Parser Stmt} (hmends : k.mends = true)
    (hrule : ∀ k : Known, k.mends = true → Parallel f k (Stmt.moved f) rule rule)
    (acc : Array Stmt) : Parallel f k (mapStep (Array.map (Stmt.moved f))) (bodyStep rule acc)
      (bodyStep rule (acc.map (Stmt.moved f))) := by
  refine .look fun t => .bind parallel_atEnd fun ended => .bind .isSated fun full =>
    .ite Iff.rfl (fun _ => .pure rfl) fun _ => ?_
  refine .bind (.recover hmends (hrule _ hmends) (parallel_skipStatement rfl)
    (parallel_check _)) fun read => ?_
  cases read with
  | none => exact .pure rfl
  | some st => exact .pure (congrArg ForInStep.yield (Array.map_push ..))

theorem parallel_body (hmends : k.mends = true) :
    Parallel f k (Block.moved f) (body room) (body room) := by
  induction room generalizing k with
  | zero => exact .expect_bind (by decide) (by decide) _ fun _ => .tooDeep
  | succ room ih =>
    refine .expect_bind (by decide) (by decide) _ fun opener => ?_
    have hstatement (k : Known) (hmends : k.mends = true) : Parallel f k (Stmt.moved f)
        (statement (expression room) (body room)) (statement (expression room) (body room)) :=
      parallel_statement hmends (fun _ => parallel_expression) fun _ => ih
    have progresses : Progresses (bodyStep (statement (expression room) (body room))) :=
      progresses_bodyStep (steady_statementWithin room) (eats_statementWithin room)
    refine .bind (.iterate (Array.map_empty ..) progresses progresses fun acc =>
      parallel_bodyStep (by exact hmends) hstatement acc) fun acc => ?_
    refine .expectClosing_bind (by decide) (by decide) _ opener fun _ => ?_
    refine .spanned rfl rfl fun _ => ?_
    rw [Block.moved, Stmt.movedEach_eq, Array.toList_map]

/-! ## Items -/

theorem parallel_binding (what : String) :
    Parallel f k (Binding.moved f) (binding what room) (binding what room) := by
  refine .expect_bind (by decide) (by decide) _ fun name => ?_
  refine .expect_bind (by decide) (by decide) _ fun _ => .bind parallel_typeName fun type => ?_
  exact .spanned rfl rfl fun _ => rfl

theorem parallel_function (start : Token) (hmends : k.mends = true) :
    Parallel f k (Function.moved f) (function start room) (function (start.moved f) room) := by
  refine .expect_bind (by decide) (by decide) _ fun name => ?_
  refine .expect_bind (by decide) (by decide) _ fun opener => ?_
  refine .bind (parallel_delimited (fun _ => parallel_binding _) (steady_binding room _)
    (steady_binding room _) opener _) fun parameters => ?_
  have hrest (result : Option TypeName) (k : Known) (hmends : k.mends = true)
      (hfed : k.fed = true) : Parallel f k (Function.moved f) (do
      let body ← body room
      modify (·.note (.parsedFunction name.lexeme parameters.length))
      return ⟨← spanFrom start.place, name.lexeme, parameters, result, body⟩) (do
      let body ← body room
      modify (·.note (.parsedFunction name.lexeme (parameters.map (Binding.moved f)).length))
      return ⟨← spanFrom (start.moved f).place, name.lexeme, parameters.map (Binding.moved f),
        result.map (TypeName.moved f), body⟩) := by
    refine .bind (parallel_body hmends) fun body => .bind (.note _ _) fun _ => ?_
    refine .spanned rfl ?_ fun _ => rfl
    exact hfed
  refine .accept_bind (by decide) (by decide) (fun _ => ?_) fun _ => ?_
  · exact .bind (u := Option.map (TypeName.moved f)) (parallel_typeName.map fun _ => rfl)
      fun result => hrest result _ hmends rfl
  · exact .bind (u := Option.map (TypeName.moved f)) (.pure rfl)
      fun result => hrest result _ hmends rfl

theorem parallel_struct (start : Token) :
    Parallel f k (Struct.moved f) (struct start room) (struct (start.moved f) room) := by
  refine .expect_bind (by decide) (by decide) _ fun name => ?_
  refine .expect_bind (by decide) (by decide) _ fun opener => ?_
  refine .bind (parallel_delimited (fun _ => parallel_binding _) (steady_binding room _)
    (steady_binding room _) opener _) fun fields => ?_
  exact .spanned rfl rfl fun _ => rfl

theorem parallel_item (hmends : k.mends = true) :
    Parallel f k (Item.moved f) (item room) (item room) := by
  refine .look fun t => ?_
  dsimp only [Token.kind_moved]
  split
  next hk =>
    refine .advance hk (by decide) (by decide) (.map (u := Function.moved f) ?_ fun _ => rfl)
    exact parallel_function t hmends
  next hk =>
    refine .advance hk (by decide) (by decide) (.map (u := Struct.moved f) ?_ fun _ => rfl)
    exact parallel_struct t
  next =>
    refine .map (u := Stmt.moved f) ?_ fun _ => rfl
    exact parallel_statement hmends (fun _ => parallel_expression) fun _ => parallel_body

/-- One item is read; where it is nested too deeply, that is reported, and nothing follows. -/
theorem itemStep_eq (items : Array Item) : itemStep room items = (do
    if (← atEnd) || (← isSated) then return .done items
    haltDeep (do
      match ← recover (item room) skipItem (pure false) with
      | some i => return .yield (items.push i)
      | none => return .yield items) (.done items)) := rfl

theorem run_itemStep {env : Setting} {s s' : State} {t : Token} (hpeek : Gives peek env s t s')
    (room : Nat) (items : Array Item) :
    itemStep room items env s = if t.isEnd || s'.errors.isFull then .ok (.done items) s'
      else haltDeep (do
        match ← recover (item room) skipItem (pure false) with
        | some i => return .yield (items.push i)
        | none => return .yield items) (.done items) env s' := by
  have hended : Gives atEnd env s t.isEnd s' := by
    unfold Gives atEnd
    rw [run_bind, hpeek]
    rfl
  have hsated : Gives isSated env s' s'.errors.isFull s' := rfl
  rw [itemStep_eq, run_bind, hended]
  dsimp only
  rw [run_bind, hsated]
  dsimp only
  split
  · rfl
  · rfl

theorem parallel_recoverItem (hmends : k.mends = true) : Parallel f k (Option.map (Item.moved f))
    (recover (item room) skipItem (pure false)) (recover (item room) skipItem (pure false)) :=
  .recover hmends (parallel_item hmends) (parallel_skipItem rfl) (.pure rfl)

variable (f) in
/-- The items of one parse, moved, behind those that were there before. -/
def joined (before acc : Array Item) : Array Item := before ++ acc.map (Item.moved f)

/-- It does not matter which items are there already. -/
theorem parallel_itemStep (before : Array Item) (hmends : k.mends = true) (hhalts : k.halts = true)
    (acc : Array Item) : Parallel f k (mapStep (joined f before)) (itemStep room acc)
      (itemStep room (joined f before acc)) := by
  rw [itemStep_eq, itemStep_eq]
  refine .bind parallel_atEnd fun ended => ?_
  refine .bind .isSated fun full => .ite Iff.rfl (fun _ => .pure rfl) fun _ => ?_
  refine .haltDeep (v := mapStep (joined f before)) _ hmends hhalts ?_
  refine .bind (parallel_recoverItem hmends) fun read => ?_
  cases read with
  | none => exact .pure rfl
  | some i =>
    refine .pure (congrArg ForInStep.yield ?_)
    rw [joined, Array.map_push, Array.append_push, joined]

theorem parallel_items (before : Array Item) (hmends : k.mends = true) (hhalts : k.halts = true) :
    Parallel f k (joined f before) (iterate (itemStep room) #[])
      (iterate (itemStep room) before) :=
  .iterate (by simp [joined]) (progresses_itemStep (eats_item _))
    (progresses_itemStep (eats_item _)) fun acc =>
      parallel_itemStep before (by exact hmends) (by exact hhalts) acc

/-- What a program does behind its items. -/
def close (items : Array Item) : Parser Program := do
  let env ← read
  let last ← peek
  let s ← get
  let stop := if last.isEnd then last.span.stop else s.previousEnd env.source.file
  return ⟨⟨.start env.source.file, stop⟩, items.toList⟩

theorem gives_close {env : Setting} {s s' : State} {t : Token} (h : Gives peek env s t s')
    (items : Array Item) : Gives (close items) env s ⟨⟨.start env.source.file,
      if t.isEnd then t.span.stop else s'.previousEnd env.source.file⟩, items.toList⟩ s' := by
  unfold Gives close
  rw [run_bind, run_read]
  dsimp only
  rw [run_bind, h]
  rfl

theorem run_program (env : Setting) (s : State) :
    program env s = (iterate (itemStep env.room) #[] >>= close) env s := rfl

end Parser

end ArcLang
