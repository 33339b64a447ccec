import ArcLang.Proofs.Soundness

/-!
# Runs of rules

What a rule has done where it gives a result: which tokens of its own it has consumed, and between
which states it has run the rules inside it. Bodies and programs are read in rounds, each of which
keeps a member or recovers from it.

* `StatementRun`, `FunctionRun`, `ItemRun`: the forms of statements and items.
* `RepeatedRun`: repetitions with recovery, round by round.
* `statement_gives`, `body_gives`, `function_gives`, `struct_gives`, `item_gives`, `program_gives`:
  whatever a rule gives is given in such a run.
-/

namespace ArcLang

namespace State

variable {s s' s'' : State}

theorem Leads.candid (h : s.Leads s') (hs : s.Candid) : s'.Candid := by
  obtain ⟨ts, h⟩ := h
  exact h.candid hs

theorem Leads.errors_eq_nil (h : s.Leads s') (hs : s'.errors.errors = []) :
    s.errors.errors = [] := by
  obtain ⟨ts, h⟩ := h
  exact h.errors_eq_nil hs

theorem Consumes.leads {ts : List Token} (h : s.Consumes ts s') : s.Leads s' := ⟨ts, h⟩

/-- From a state whose faults are all recorded up to a state without diagnostics. -/
structure Clean (s s' : State) : Prop where
  candid : s.Candid
  silent : s'.errors.errors = []

theorem Clean.until (h : s.Clean s'') (hl : s'.Leads s'') : s.Clean s' :=
  ⟨h.candid, hl.errors_eq_nil h.silent⟩

theorem Clean.since (h : s.Clean s'') (hl : s.Leads s') : s'.Clean s'' :=
  ⟨hl.candid h.candid, h.silent⟩

end State

namespace Parser

open Grammar (Word Sign)

variable {α : Type} {env : Setting} {s s' : State} {room : Nat}

/-- A rule that consumes the token it has looked at. -/
theorem headed_gives {rule : Token → Parser α} {t : Token} {k : Kind} {s₁ : State} {a : α}
    (hc : s.Consumes [] s₁) (hs : s.Shows t) (hk : t.kind = k) (hne : k ≠ .endOfInput)
    (h : Gives (do rule (← advance)) env s₁ a s') :
    ∃ (word : Word k) (s₂ : State), s.Consumes [word.1] s₂ ∧ Gives (rule word.1) env s₂ a s' := by
  obtain ⟨u, s₂, hu, h⟩ := bind_gives h
  obtain ⟨rfl, hc'⟩ := advance_shown hu (hc.shows hs) hk hne
  exact ⟨⟨u, hk⟩, s₂, hc.after hc', h⟩

/-! ## Statements -/

/-- A run of the rule for statements: the tokens of its own, and the runs of other rules in it. -/
inductive StatementRun (expression : Parser Expr) (body : Parser Block) (env : Setting)
    (s : State) : Stmt → State → Prop
  | breakLoop {s' : State} (word : Word (.keyword .breakWord)) (stop : Sign .semicolon) :
      s.Consumes [word.1, stop.1] s' →
        StatementRun expression body env s (.breakLoop (word.1.span.upTo stop.1.span)) s'
  | ret {s' : State} (word : Word (.keyword .returnWord)) (stop : Sign .semicolon) :
      s.Consumes [word.1, stop.1] s' →
        StatementRun expression body env s (.ret (word.1.span.upTo stop.1.span) none) s'
  | retValue {s₁ s₂ s' : State} {value : Expr} (word : Word (.keyword .returnWord))
      (stop : Sign .semicolon) : s.Consumes [word.1] s₁ → Gives expression env s₁ value s₂ →
        s₂.Consumes [stop.1] s' →
          StatementRun expression body env s (.ret (word.1.span.upTo stop.1.span) (some value)) s'
  | loop {s₁ s₂ s' : State} {condition : Expr} {inner : Block} (word : Word (.keyword .whileWord)) :
      s.Consumes [word.1] s₁ → Gives expression env s₁ condition s₂ → Gives body env s₂ inner s' →
        StatementRun expression body env s
          (.loop ⟨word.1.place, s'.previousEnd env.source.file⟩ condition inner) s'
  | branch {s₁ s₂ s₃ s' : State} {condition : Expr} {consequent : Block}
      (word : Word (.keyword .ifWord)) : s.Consumes [word.1] s₁ →
        Gives expression env s₁ condition s₂ → Gives body env s₂ consequent s₃ →
          s₃.Consumes [] s' → StatementRun expression body env s
            (.branch ⟨word.1.place, s'.previousEnd env.source.file⟩ condition consequent none) s'
  | branchElse {s₁ s₂ s₃ s₄ s' : State} {condition : Expr} {consequent alternate : Block}
      (word : Word (.keyword .ifWord)) (other : Word (.keyword .elseWord)) :
      s.Consumes [word.1] s₁ → Gives expression env s₁ condition s₂ →
        Gives body env s₂ consequent s₃ → s₃.Consumes [other.1] s₄ →
          Gives body env s₄ alternate s' → StatementRun expression body env s (.branch
            ⟨word.1.place, s'.previousEnd env.source.file⟩ condition consequent (some alternate)) s'
  | expression {s₁ s₂ s' : State} {e : Expr} (first : Token) (stop : Sign .semicolon) :
      s.Shows first → s.Consumes [] s₁ → Gives expression env s₁ e s₂ → s₂.Consumes [stop.1] s' →
        StatementRun expression body env s (.expression (first.span.upTo stop.1.span) e) s'

/-- A token that is expected, and the span up to it. -/
theorem ended_gives {k : Kind} {expected : String} {start : Location} {f : Span → α} {a : α}
    (hk : k ≠ .endOfInput) (h : Gives (do
      let _ ← expect k expected
      return f (← spanFrom start)) env s a s') :
    ∃ stop : Word k, s.Consumes [stop.1] s' ∧ f ⟨start, stop.1.span.stop⟩ = a := by
  obtain ⟨stop, s₁, hstop, h⟩ := bind_gives h
  obtain ⟨rfl, rfl⟩ := spanned_gives h
  obtain ⟨hkind, hc⟩ := expect_gives hk hstop
  exact ⟨⟨stop, hkind⟩, hc, by rw [hc.previousEnd]⟩

section Statements

variable {expression : Parser Expr} {body : Parser Block} {st : Stmt} {s₁ : State}

theorem branch_gives (word : Word (.keyword .ifWord)) (hword : s.Consumes [word.1] s₁)
    (h : Gives (branch word.1 expression body) env s₁ st s') :
    StatementRun expression body env s st s' := by
  obtain ⟨condition, s₂, hcondition, h⟩ := bind_gives h
  obtain ⟨consequent, s₃, hconsequent, h⟩ := bind_gives h
  obtain ⟨other, s₄, hother, h⟩ := bind_gives h
  rcases accept_gives (by decide) hother with ⟨rfl, other, hk, hc⟩ | ⟨rfl, -, hc⟩
  · obtain ⟨t, s₅, ht, h⟩ := bind_gives h
    obtain ⟨hc', -⟩ := peek_gives ht
    split at h
    -- another if behind the else is refused
    case isTrue => exact absurd h not_gives_failAt
    case isFalse =>
      obtain ⟨alternate, s₆, halternate, h⟩ := bind_gives h
      obtain ⟨rfl, rfl⟩ := spanned_gives h
      exact .branchElse word ⟨other, hk⟩ hword hcondition hconsequent (hc.before hc') halternate
  · obtain ⟨rfl, rfl⟩ := spanned_gives h
    exact .branch word hword hcondition hconsequent hc

theorem loop_gives (word : Word (.keyword .whileWord)) (hword : s.Consumes [word.1] s₁)
    (h : Gives (loop word.1 expression body) env s₁ st s') :
    StatementRun expression body env s st s' := by
  obtain ⟨condition, s₂, hcondition, h⟩ := bind_gives h
  obtain ⟨inner, s₃, hinner, h⟩ := bind_gives h
  obtain ⟨rfl, rfl⟩ := spanned_gives h
  exact .loop word hword hcondition hinner

theorem ret_gives (word : Word (.keyword .returnWord)) (hword : s.Consumes [word.1] s₁)
    (h : Gives (ret word.1 expression) env s₁ st s') :
    StatementRun expression body env s st s' := by
  obtain ⟨bare, s₂, hbare, h⟩ := bind_gives h
  obtain ⟨hc, -⟩ := check_gives hbare
  have hword := hword.before hc
  cases bare with
  | true =>
    obtain ⟨value, s₃, hvalue, h⟩ := bind_gives h
    obtain ⟨rfl, rfl⟩ := pure_gives hvalue
    obtain ⟨stop, hstop, rfl⟩ := ended_gives (by decide) h
    exact .ret word stop (hword.trans hstop)
  | false =>
    obtain ⟨value, s₃, hvalue, h⟩ := bind_gives h
    obtain ⟨e, he, rfl⟩ := map_gives hvalue
    obtain ⟨stop, hstop, rfl⟩ := ended_gives (by decide) h
    exact .retValue word stop hword he hstop

/-- **Whatever the rule for statements gives, it gives in such a run.** -/
theorem statement_gives (h : Gives (statement expression body) env s st s') :
    StatementRun expression body env s st s' := by
  obtain ⟨t, s₁, ht, h⟩ := bind_gives h
  obtain ⟨hc, hs, -⟩ := peek_gives ht
  split at h
  case h_1 hk =>
    obtain ⟨word, s₂, hword, h⟩ := headed_gives hc hs hk (by decide) h
    exact branch_gives word hword h
  case h_2 hk =>
    obtain ⟨word, s₂, hword, h⟩ := headed_gives hc hs hk (by decide) h
    exact loop_gives word hword h
  case h_3 hk =>
    obtain ⟨word, s₂, hword, h⟩ := headed_gives hc hs hk (by decide) h
    exact ret_gives word hword h
  case h_4 hk =>
    obtain ⟨word, s₂, hword, h⟩ := headed_gives hc hs hk (by decide) h
    obtain ⟨stop, hstop, rfl⟩ := ended_gives (by decide) h
    exact .breakLoop word stop (hword.trans hstop)
  case h_5 =>
    obtain ⟨e, s₂, he, h⟩ := bind_gives h
    obtain ⟨stop, hstop, rfl⟩ := ended_gives (by decide) h
    exact .expression t stop hs hc he hstop

theorem eats_statement {k : Nat} (he : ReadsExpr k expression)
    (leads : ∀ {env s b s'}, Gives body env s b s' → s.Leads s') :
    Eats (statement expression body) := by
  intro env s st s' h
  cases statement_gives h with
  | breakLoop word stop hc | ret word stop hc => exact hc.remaining_lt
  | retValue word stop hword hvalue hstop =>
    obtain ⟨d, hd, -⟩ := he hvalue
    exact (hword.trans (hd.trans hstop)).remaining_lt
  | loop word hword hcondition hinner =>
    obtain ⟨d, hd, -⟩ := he hcondition
    exact Nat.lt_of_le_of_lt (leads hinner).remaining_le (hword.trans hd).remaining_lt
  | branch word hword hcondition hconsequent hc =>
    obtain ⟨d, hd, -⟩ := he hcondition
    exact Nat.lt_of_le_of_lt ((leads hconsequent).trans ⟨_, hc⟩).remaining_le
      (hword.trans hd).remaining_lt
  | branchElse word other hword hcondition hconsequent hother halternate =>
    obtain ⟨d, hd, -⟩ := he hcondition
    have hbodies := (leads hconsequent).trans (.trans ⟨_, hother⟩ (leads halternate))
    exact Nat.lt_of_le_of_lt hbodies.remaining_le (hword.trans hd).remaining_lt
  | expression first stop _ hc hexpr hstop =>
    -- an expression has a first token
    obtain ⟨d, hd, -⟩ := he hexpr
    obtain ⟨u, r, htokens, -⟩ := d.starts
    rw [htokens] at hd
    exact (hc.after (hd.trans hstop)).remaining_lt

end Statements

theorem eats_statementWithin (room : Nat) : Eats (statement (expression room) (body room)) :=
  eats_statement (expression_sound room) fun h => (steady_body room : Steady [] _).leads h

/-! ## Definitions -/

theorem binding_sound {what : String} {b : Binding} (h : Gives (binding what room) env s b s') :
    ∃ d : Grammar.Binding, s.Consumes d.tokens s' ∧ d.tree = b ∧
      Grammar.Resolve d.type.lengths ∧ d.type.tree.need ≤ room := by
  obtain ⟨name, s₁, hn, h⟩ := bind_gives h
  obtain ⟨colon, s₂, hcolon, h⟩ := bind_gives h
  obtain ⟨type, s₃, htype, h⟩ := bind_gives h
  obtain ⟨rfl, rfl⟩ := spanned_gives h
  obtain ⟨hnk, hnc⟩ := expect_gives (by decide) hn
  obtain ⟨hck, hcc⟩ := expect_gives (by decide) hcolon
  obtain ⟨d, hd, rfl, hlengths, hneed⟩ := typeName_sound room htype
  refine ⟨⟨⟨name, hnk⟩, ⟨colon, hck⟩, d⟩, hnc.trans (hcc.trans hd), ?_, hlengths,
    Nat.le_of_lt_succ hneed⟩
  rw [hd.previousEnd_eq d.tokens_ne_nil d.span_tree]
  rfl

/-- Bindings with commas between them. -/
theorem bindings_sound {what : String} {opener : Token} {closer : Symbol} {bs : List Binding}
    (h : Gives (delimited opener closer (binding what room)) env s bs s') :
    ∃ (ds : Grammar.Elements Grammar.Binding) (close : Sign closer),
      s.Consumes (ds.tokens Grammar.Binding.tokens ++ [close.1]) s' ∧
      ds.list.map Grammar.Binding.tree = bs ∧
      Grammar.Resolve (ds.list.flatMap (·.type.lengths)) ∧ needMost (·.type.need) bs ≤ room := by
  obtain ⟨acc, s₁, close, hacc, hkind, hclose, rfl⟩ := delimited_gives h
  obtain ⟨ds, hds, hlist, hgood⟩ := elements_sound (steady_binding room what) binding_sound hacc
  have hlist : ds.list.map Grammar.Binding.tree = acc.toList := by simpa using hlist.symm
  refine ⟨ds, ⟨close, hkind⟩, hds.trans hclose, hlist, fun t ht => ?_, ?_⟩
  · obtain ⟨d, hd, ht⟩ := List.mem_flatMap.1 ht
    exact (hgood d hd).1 t ht
  · rw [← hlist, needMost_le_iff]
    intro b hb
    obtain ⟨d, hd, rfl⟩ := List.mem_map.1 hb
    exact (hgood d hd).2

/-- The type behind the parameters of a function, if there is one. -/
theorem result_sound {rest : Option TypeName → Parser Function} {f : Function}
    (h : Gives (do
      let result ← if ← accept (.symbol .colon) then some <$> typeName room else pure none
      rest result) env s f s') :
    ∃ (d : Option (Sign .colon × Grammar.TypeName)) (s₁ : State),
      s.Consumes ((d.map fun r => r.1.1 :: r.2.tokens).getD []) s₁ ∧
      Gives (rest (d.map (·.2.tree))) env s₁ f s' ∧
      Grammar.Resolve ((d.map (·.2.lengths)).getD []) ∧
      ((d.map (·.2.tree)).map TypeName.need).getD 0 ≤ room := by
  obtain ⟨typed, s₁, htyped, h⟩ := bind_gives h
  rcases accept_gives (by decide) htyped with ⟨rfl, colon, hk, hc⟩ | ⟨rfl, -, hc⟩
  · obtain ⟨result, s₂, hresult, h⟩ := bind_gives h
    obtain ⟨type, htype, rfl⟩ := map_gives hresult
    obtain ⟨d, hd, rfl, hlengths, hneed⟩ := typeName_sound room htype
    exact ⟨some (⟨colon, hk⟩, d), s₂, hc.trans hd, h, hlengths, Nat.le_of_lt_succ hneed⟩
  · obtain ⟨result, s₂, hresult, h⟩ := bind_gives h
    obtain ⟨rfl, rfl⟩ := pure_gives hresult
    exact ⟨none, s₁, hc, h, List.forall_mem_nil _, Nat.zero_le room⟩

/-- A run of the rule for the rest of a function: what stands before the body, and the run of the
rule for bodies. -/
inductive FunctionRun (start : Token) (room : Nat) (env : Setting) (s : State) :
    Function → State → Prop
  | mk {s₁ s₂ s' : State} {inner : Block} (name : Word .identifier) (opener : Sign .leftParen)
      (parameters : Grammar.Elements Grammar.Binding) (closer : Sign .rightParen)
      (result : Option (Sign .colon × Grammar.TypeName)) :
      s.Consumes (name.1 :: opener.1 :: (parameters.tokens Grammar.Binding.tokens ++
        closer.1 :: (result.map fun r => r.1.1 :: r.2.tokens).getD [])) s₁ →
      Grammar.Resolve (parameters.list.flatMap (·.type.lengths)) →
      Grammar.Resolve ((result.map (·.2.lengths)).getD []) →
      needMost (·.type.need) (parameters.list.map Grammar.Binding.tree) ≤ room →
      ((result.map (·.2.tree)).map TypeName.need).getD 0 ≤ room →
      Gives (body room) env s₁ inner s₂ → s₂.Consumes [] s' →
      FunctionRun start room env s ⟨⟨start.place, s'.previousEnd env.source.file⟩,
        name.1.lexeme, parameters.list.map Grammar.Binding.tree, result.map (·.2.tree), inner⟩ s'

theorem function_gives {start : Token} {f : Function}
    (h : Gives (function start room) env s f s') : FunctionRun start room env s f s' := by
  obtain ⟨name, s₁, hn, h⟩ := bind_gives h
  obtain ⟨opener, s₂, ho, h⟩ := bind_gives h
  obtain ⟨parameters, s₃, hp, h⟩ := bind_gives h
  obtain ⟨result, s₄, hresult, h, hrlengths, hrneed⟩ := result_sound h
  obtain ⟨inner, s₅, hinner, h⟩ := bind_gives h
  obtain ⟨_, s₆, hnote, h⟩ := bind_gives h
  obtain ⟨rfl, rfl⟩ := spanned_gives h
  cases hnote
  obtain ⟨hnk, hnc⟩ := expect_gives (by decide) hn
  obtain ⟨hok, hoc⟩ := expect_gives (by decide) ho
  obtain ⟨ds, closer, hds, rfl, hplengths, hpneed⟩ := bindings_sound hp
  have hfront := hnc.trans (hoc.trans (hds.trans hresult))
  refine .mk ⟨name, hnk⟩ ⟨opener, hok⟩ ds closer result (by simpa using hfront) hplengths
    hrlengths hpneed hrneed hinner ?_
  -- telling of the function consumes nothing
  exact .note _

theorem struct_gives {start : Token} {d : Struct} (h : Gives (struct start room) env s d s') :
    ∃ (name : Word .identifier) (opener : Sign .leftBrace)
      (fields : Grammar.Elements Grammar.Binding) (closer : Sign .rightBrace),
      s.Consumes (name.1 :: opener.1 :: (fields.tokens Grammar.Binding.tokens ++ [closer.1])) s' ∧
      Grammar.Resolve (fields.list.flatMap (·.type.lengths)) ∧
      needMost (·.type.need) (fields.list.map Grammar.Binding.tree) ≤ room ∧
      d = ⟨start.span.upTo closer.1.span, name.1.lexeme,
        fields.list.map Grammar.Binding.tree⟩ := by
  obtain ⟨name, s₁, hn, h⟩ := bind_gives h
  obtain ⟨opener, s₂, ho, h⟩ := bind_gives h
  obtain ⟨fields, s₃, hf, h⟩ := bind_gives h
  obtain ⟨rfl, rfl⟩ := spanned_gives h
  obtain ⟨hnk, hnc⟩ := expect_gives (by decide) hn
  obtain ⟨hok, hoc⟩ := expect_gives (by decide) ho
  obtain ⟨ds, closer, hds, rfl, hlengths, hneed⟩ := bindings_sound hf
  refine ⟨⟨name, hnk⟩, ⟨opener, hok⟩, ds, closer, hnc.trans (hoc.trans hds), hlengths, hneed, ?_⟩
  rw [(State.Consumes.endsAt_concat hds).previousEnd]
  rfl

/-- A run of the rule for items: the first word of a definition, and the run of another rule. -/
inductive ItemRun (room : Nat) (env : Setting) (s : State) : Item → State → Prop
  | function {s₁ s' : State} {f : Function} (word : Word (.keyword .function)) :
      s.Consumes [word.1] s₁ → Gives (function word.1 room) env s₁ f s' →
        ItemRun room env s (.function f) s'
  | struct {s₁ s' : State} {d : Struct} (word : Word (.keyword .struct)) :
      s.Consumes [word.1] s₁ → Gives (struct word.1 room) env s₁ d s' →
        ItemRun room env s (.struct d) s'
  | statement {s₁ s' : State} {st : Stmt} : s.Consumes [] s₁ →
      Gives (statement (expression room) (body room)) env s₁ st s' →
        ItemRun room env s (.statement st) s'

theorem item_gives {i : Item} (h : Gives (item room) env s i s') : ItemRun room env s i s' := by
  obtain ⟨t, s₁, ht, h⟩ := bind_gives h
  obtain ⟨hc, hs, -⟩ := peek_gives ht
  split at h
  case h_1 hk =>
    obtain ⟨word, s₂, hword, h⟩ := headed_gives hc hs hk (by decide) h
    obtain ⟨f, hf, rfl⟩ := map_gives h
    exact .function word hword hf
  case h_2 hk =>
    obtain ⟨word, s₂, hword, h⟩ := headed_gives hc hs hk (by decide) h
    obtain ⟨d, hd, rfl⟩ := map_gives h
    exact .struct word hword hd
  case h_3 =>
    obtain ⟨st, hst, rfl⟩ := map_gives h
    exact .statement hc hst

theorem eats_item (room : Nat) : Eats (item room) := by
  intro env s i s' h
  cases item_gives h with
  | function word hword hf =>
    exact Nat.lt_of_le_of_lt ((steady_function room word.1 : Steady [] _).leads hf).remaining_le
      hword.remaining_lt
  | struct word hword hd =>
    exact Nat.lt_of_le_of_lt ((steady_struct room word.1 : Steady [] _).leads hd).remaining_le
      hword.remaining_lt
  | statement hc hst =>
    exact Nat.lt_of_lt_of_le (eats_statementWithin room env _ _ _ hst) hc.leads.remaining_le

/-! ## Repetition with recovery -/

/-- A run of a repetition with recovery, round by round: each keeps what the rule gives, or has
skipped tokens. `last` holds of the last state where nothing has been recorded. -/
inductive RepeatedRun (rule : Parser α) (skip : Parser Unit) (resting : Parser Bool)
    (last : State → Prop) (env : Setting) : State → List α → State → Prop
  | done {s s' : State} : s.Leads s' → (s.Clean s' → s.Consumes [] s' ∧ last s') →
      RepeatedRun rule skip resting last env s [] s'
  | kept {s s₁ s₂ s' : State} {a : α} {as : List α} : s.Consumes [] s₁ → Gives rule env s₁ a s₂ →
      RepeatedRun rule skip resting last env s₂ as s' →
        RepeatedRun rule skip resting last env s (a :: as) s'
  | skipped {s s₁ s₂ s' : State} {as : List α} : s.Consumes [] s₁ →
      Gives (recover rule skip resting) env s₁ none s₂ →
        RepeatedRun rule skip resting last env s₂ as s' →
          RepeatedRun rule skip resting last env s as s'

section Repetition

variable {rule : Parser α} {skip : Parser Unit} {resting : Parser Bool} {last : State → Prop}

/-- **A repetition is a run of rounds** if each of its steps is a round. -/
theorem repeatedRun_of_iterate {step : Array α → Parser (ForInStep (Array α))}
    (progresses : Progresses step)
    (done : ∀ {env acc s out s'}, Gives (step acc) env s (.done out) s' →
      out = acc ∧ s.Leads s' ∧ (s.Clean s' → s.Consumes [] s' ∧ last s'))
    (yield : ∀ {env acc s out s'}, Gives (step acc) env s (.yield out) s' →
      ∃ x s₁, s.Consumes [] s₁ ∧ Gives (recover rule skip resting) env s₁ x s' ∧
        out = x.elim acc acc.push)
    {acc out : Array α} (h : Gives (iterate step acc) env s out s') :
    ∃ as, RepeatedRun rule skip resting last env s as s' ∧ out.toList = acc.toList ++ as := by
  refine iterate_induction progresses (motive := fun acc s out s' => ∃ as,
    RepeatedRun rule skip resting last env s as s' ∧ out.toList = acc.toList ++ as) ?_ ?_ h
  · intro acc s out s' hstep
    obtain ⟨rfl, hl, hclean⟩ := done hstep
    exact ⟨[], .done hl hclean, (List.append_nil _).symm⟩
  · rintro acc s acc₁ s₁ out s' hstep ⟨as, has, hout⟩
    obtain ⟨x, s₀, hc, hx, rfl⟩ := yield hstep
    rcases recover_gives hx with ⟨a, rfl, ha⟩ | ⟨rfl, -⟩
    · refine ⟨a :: as, .kept hc ha has, ?_⟩
      rw [hout]
      simp
    · exact ⟨as, .skipped hc hx has, hout⟩

theorem RepeatedRun.leads {as : List α} (h : RepeatedRun rule skip resting last env s as s')
    (hrule : Steady [] rule) (hskip : Steady [] skip) (hresting : Steady [] resting) :
    s.Leads s' := by
  induction h with
  | done hl _ => exact hl
  | kept hc ha _ ih => exact .trans ⟨_, hc⟩ ((hrule.leads ha).trans ih)
  | skipped hc hx _ ih =>
    exact .trans ⟨_, hc⟩ (((steady_recover hrule hskip hresting).leads hx).trans ih)

end Repetition

theorem bodyStep_done {rule : Parser Stmt} {acc out : Array Stmt}
    (h : Gives (bodyStep rule acc) env s (.done out) s') :
    out = acc ∧ s.Leads s' ∧ (s.Clean s' → s.Consumes [] s' ∧ True) := by
  rcases bodyStep_gives h with ⟨hr, hc⟩ | ⟨_, _, _, _, _, _, hr⟩
  · cases hr; exact ⟨rfl, hc.leads, fun _ => ⟨hc, trivial⟩⟩
  · cases hr

theorem bodyStep_yield {rule : Parser Stmt} {acc out : Array Stmt}
    (h : Gives (bodyStep rule acc) env s (.yield out) s') :
    ∃ x s₁, s.Consumes [] s₁ ∧
      Gives (recover rule skipStatement (check (.symbol .rightBrace))) env s₁ x s' ∧
      out = x.elim acc acc.push := by
  rcases bodyStep_gives h with ⟨hr, -⟩ | ⟨x, s₁, -, -, hc, hx, hr⟩
  · cases hr
  · cases hr; exact ⟨x, s₁, hc, hx, rfl⟩

/-- The statements of a body, read and recovered from. -/
abbrev StatementsRun (room : Nat) : Setting → State → List Stmt → State → Prop :=
  RepeatedRun (statement (expression room) (body room)) skipStatement (check (.symbol .rightBrace))
    fun _ => True

theorem not_gives_body_zero {b : Block} : ¬ Gives (body 0) env s b s' := by
  intro h
  obtain ⟨opener, s₁, -, h⟩ := bind_gives h
  exact not_gives_tooDeep h

/-- **A body is its statements between braces.** -/
theorem body_gives {b : Block} (h : Gives (body (room + 1)) env s b s') :
    ∃ (opener : Sign .leftBrace) (statements : List Stmt) (closer : Sign .rightBrace)
      (s₁ s₂ : State), s.Consumes [opener.1] s₁ ∧ StatementsRun room env s₁ statements s₂ ∧
        s₂.Consumes [closer.1] s' ∧ b = .mk (opener.1.span.upTo closer.1.span) statements := by
  obtain ⟨opener, s₁, ho, h⟩ := bind_gives h
  obtain ⟨acc, s₂, hacc, h⟩ := bind_gives h
  obtain ⟨closer, s₃, hcl, h⟩ := bind_gives h
  obtain ⟨rfl, rfl⟩ := spanned_gives h
  obtain ⟨hok, hoc⟩ := expect_gives (by decide) ho
  obtain ⟨hclk, hclc⟩ := expectClosing_gives (by decide) hcl
  obtain ⟨statements, hrun, hlist⟩ := repeatedRun_of_iterate
    (progresses_bodyStep (steady_statementWithin room) (eats_statementWithin room)) bodyStep_done
    bodyStep_yield hacc
  refine ⟨⟨opener, hok⟩, statements, ⟨closer, hclk⟩, s₁, s₂, hoc, hrun, hclc, ?_⟩
  rw [hclc.previousEnd, hlist]
  rfl

theorem itemStep_done {acc out : Array Item} (h : Gives (itemStep room acc) env s (.done out) s') :
    out = acc ∧ s.Leads s' ∧ (s.Clean s' → s.Consumes [] s' ∧ s'.input = []) := by
  rcases itemStep_gives h with ⟨hr, hc, hend⟩ | ⟨hr, hl, hfault⟩ | ⟨_, _, _, _, _, hr⟩
  · cases hr
    refine ⟨rfl, hc.leads, fun clean =>
      ⟨hc, hc.input_eq.trans (hend.resolve_right fun hfull => ?_)⟩⟩
    -- a collector with nothing in it is not full
    have hcap := (hc.candid clean.candid).capacity
    rw [Collector.isFull_iff, clean.silent, List.length_nil] at hfull
    omega
  -- the nesting was too deep, which has been reported
  · cases hr
    exact ⟨rfl, hl, fun clean => absurd clean.silent (hfault clean.candid)⟩
  · cases hr

theorem itemStep_yield {acc out : Array Item}
    (h : Gives (itemStep room acc) env s (.yield out) s') :
    ∃ x s₁, s.Consumes [] s₁ ∧ Gives (recover (item room) skipItem (pure false)) env s₁ x s' ∧
      out = x.elim acc acc.push := by
  rcases itemStep_gives h with ⟨hr, -⟩ | ⟨hr, -⟩ | ⟨x, s₁, -, hc, hx, hr⟩
  · cases hr
  · cases hr
  · cases hr; exact ⟨x, s₁, hc, hx, rfl⟩

/-- The items of a program, read and recovered from. -/
abbrev ItemsRun (room : Nat) : Setting → State → List Item → State → Prop :=
  RepeatedRun (item room) skipItem (pure false) fun s => s.input = []

theorem items_give {acc : Array Item} (h : Gives (iterate (itemStep room) #[]) env s acc s') :
    ItemsRun room env s acc.toList s' := by
  obtain ⟨items, hrun, hlist⟩ :=
    repeatedRun_of_iterate (progresses_itemStep (eats_item room)) itemStep_done itemStep_yield h
  rw [hlist]
  exact hrun

/-- A program is what its items are, from the start of the file to the end of the input. -/
theorem program_gives {p : Program} (h : Gives program env s p s') : ∃ acc s₁ t,
    Gives (iterate (itemStep env.room) #[]) env s acc s₁ ∧ s₁.Consumes [] s' ∧
      s'.ahead = some t ∧ p.items = acc.toList ∧ p.span = ⟨.start env.source.file,
        if t.isEnd then t.span.stop else s'.previousEnd env.source.file⟩ := by
  obtain ⟨env', s₀, henv, h⟩ := bind_gives h
  cases henv
  obtain ⟨acc, s₁, hacc, h⟩ := bind_gives h
  obtain ⟨t, s₂, ht, h⟩ := bind_gives h
  obtain ⟨s₃, s₄, hget, h⟩ := bind_gives h
  cases hget
  obtain ⟨rfl, rfl⟩ := pure_gives h
  obtain ⟨hc, -, hahead⟩ := peek_gives ht
  exact ⟨acc, s₁, t, hacc, hc, hahead, rfl, rfl⟩

end Parser

end ArcLang
