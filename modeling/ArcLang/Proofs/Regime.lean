import ArcLang.Proofs.Totality

/-!
# What rules keep, whatever becomes of faults

A law speaks of parses that collect the faults of their stream. A regime does without that: a look
may end the parse, and then nothing is said of the state that is left. It tells rules that recover
from failures from those that do not, so it can say that the latter record nothing.

* `Parser.Regime`: what the single steps keep, and how they may fail.
* `Parser.Parallel.abides`: what every rule keeps, and how it may fail.
* `parseScans_ends`: how a parse ends.
-/

namespace ArcLang

namespace Parser

variable {α β : Type} {env : Setting} {s s' : State} {k : Known}

/-! ## Regimes -/

/-- What the single steps of rules keep: `Holds` of the state, where the tokens looked at are `Met`;
and what they fail with is `Fair`. Only where rules mend failures are diagnostics recorded that the
stream does not bring. -/
structure Regime (env : Setting) (mends : Bool) (Holds : State → Prop) (Met : Token → Prop)
    (Fair : Failure → Prop) : Prop where
  look {s : State} : Holds s → (∃ t s', Gives peek env s t s' ∧ Holds s' ∧ Met t) ∨
    ∃ why s', peek env s = .error (.aborted why) s' ∧ Fair (.aborted why)
  take {s : State} {t : Token} : Holds s → s.ahead = some t → t.isEnd = false →
    Holds { s with ahead := none, previous := some t, consumed := s.consumed + 1 }
  note {s : State} (e : Event) : Holds s → Holds (s.note e)
  record {s : State} (why : Diagnostic) : mends = true → Holds s → Holds (s.record why)
  fail {t : Token} (c : Cause) : Met t →
    Fair (.syntactic (.ofPlace env.source t.place c) t.isError)
  deep {t : Token} : Met t → Fair (.tooDeep (.ofPlace env.source t.place (.tooDeep env.maxDepth)))
  hugeLength (digits : Nat) : Fair (.aborted (.hugeLength digits))

/-- The run ends where the state is as it should be, and does not forget that a token was consumed;
it fails in a fair way. -/
def Abides (Holds : State → Prop) (Fair : Failure → Prop) (s : State) :
    EStateM.Result Failure State α → Prop
  | .ok _ s' => Holds s' ∧ (s.previous ≠ none → s'.previous ≠ none)
  | .error e s' => Fair e ∧ (e.told ≠ none → Holds s' ∧ (s.previous ≠ none → s'.previous ≠ none))

variable {mends : Bool} {Holds : State → Prop} {Met : Token → Prop} {Fair : Failure → Prop}

namespace Abides

theorem after {r : EStateM.Result Failure State α} (h : s.previous ≠ none → s'.previous ≠ none)
    (hr : Abides Holds Fair s' r) : Abides Holds Fair s r := by
  cases r with
  | ok a s'' => exact ⟨hr.1, hr.2 ∘ h⟩
  | error e s'' => exact ⟨hr.1, fun htold => ⟨(hr.2 htold).1, (hr.2 htold).2 ∘ h⟩⟩

theorem bind {p : Parser α} {r : α → Parser β} (hp : Abides Holds Fair s (p env s))
    (hr : ∀ a s₁, Holds s₁ → (s.previous ≠ none → s₁.previous ≠ none) →
      Abides Holds Fair s₁ (r a env s₁)) : Abides Holds Fair s ((p >>= r) env s) := by
  rw [run_bind]
  cases hrun : p env s with
  | error e s₁ =>
    rw [hrun] at hp
    exact hp
  | ok a s₁ =>
    rw [hrun] at hp
    exact .after hp.2 (hr a s₁ hp.1 hp.2)

/-- A look at the current token, and what follows. -/
theorem look {r : Token → Parser α} (regime : Regime env mends Holds Met Fair) (hs : Holds s)
    (hr : ∀ t s₁, Holds s₁ → (s.previous ≠ none → s₁.previous ≠ none) → Met t →
      s₁.ahead = some t → Abides Holds Fair s₁ (r t env s₁)) :
    Abides Holds Fair s ((peek >>= r) env s) := by
  rw [run_bind]
  rcases regime.look hs with ⟨t, s₁, hpeek, hs₁, hmet⟩ | ⟨why, s₁, hpeek, hfair⟩
  · obtain ⟨hc, -, hahead⟩ := peek_gives hpeek
    have hprevious : s.previous ≠ none → s₁.previous ≠ none := by
      rw [hc.previous]
      exact id
    rw [hpeek]
    exact .after hprevious (hr t s₁ hs₁ hprevious hmet hahead)
  · rw [hpeek]
    exact ⟨hfair, nofun⟩

/-- Whatever comes next is consumed. -/
theorem advance (regime : Regime env mends Holds Met Fair) (hs : Holds s) :
    Abides Holds Fair s (advance env s) := by
  refine look regime hs fun t s₁ hs₁ _ _ hahead => ?_
  cases hend : t.isEnd with
  | true => exact ⟨hs₁, id⟩
  | false => exact ⟨regime.take hs₁ hahead hend, fun _ => Option.some_ne_none t⟩

theorem moveOn {before : Nat} {resting : Parser Bool} (regime : Regime env mends Holds Met Fair)
    (hs : Holds s) (hresting : Abides Holds Fair s (resting env s)) :
    Abides Holds Fair s (moveOn before resting env s) := by
  rw [run_moveOn]
  split
  next =>
    refine hresting.bind fun rests s₁ hs₁ _ => ?_
    cases rests with
    | true => exact ⟨hs₁, id⟩
    | false => exact (advance regime hs₁).bind fun _ s₂ hs₂ _ => ⟨hs₂, id⟩
  next => exact ⟨hs, id⟩

theorem report (regime : Regime env mends Holds Met Fair) (hmends : mends = true) (hs : Holds s)
    (why : Diagnostic) (echo : Bool) : Abides Holds Fair s (report why echo env s) := by
  cases echo with
  | true => exact ⟨regime.note (.suppressed why) hs, id⟩
  | false => exact ⟨regime.note (.recovering why) (regime.record why hmends hs), id⟩

/-- A repetition, given its steps. -/
theorem iterate {step : β → Parser (ForInStep β)} (progresses : Progresses step)
    (hstep : ∀ b s', Holds s' → (s.previous ≠ none → s'.previous ≠ none) →
      Abides Holds Fair s' (step b env s')) (hs : Holds s) (b : β) :
    Abides Holds Fair s (iterate step b env s) := by
  induction b, s using iterate_rounds progresses env with
  | error b s e s₁ hfirst hrun | done b s b₁ s₁ hfirst hrun =>
    have habides := hstep b s hs id
    rw [hfirst] at habides
    rwa [hrun]
  | yield b s b₁ s₁ hfirst hrun ih =>
    have habides := hstep b s hs id
    rw [hfirst] at habides
    rw [hrun]
    exact .after habides.2 (ih (fun b s' hs' h => hstep b s' hs' (h ∘ habides.2)) habides.1)

end Abides

/-- **Every rule keeps what its steps keep,** and fails as they do. -/
theorem Parallel.abides {f : Location → Location} {v : α → β} {p : Parser α} {q : Parser β}
    (h : Parallel f k v p q) (regime : Regime env mends Holds Met Fair)
    (hmends : k.mends = true → mends = true) {s : State} (hs : Holds s) (hat : k.At s)
    (hfed : k.fed = true → s.previous ≠ none) (hseen : ∀ t ∈ k.seen, Met t) :
    Abides Holds Fair s (p env s) := by
  induction h generalizing s with
  | pure heq => exact ⟨hs, id⟩
  | bind hp hr ihp ihr =>
    exact (ihp hmends hs hat hfed hseen).bind fun a s₁ hs₁ h =>
      ihr a hmends hs₁ (Known.at_on _ _) (h ∘ hfed) hseen
  | look hr ih =>
    exact .look regime hs fun t s₁ hs₁ h hmet hahead =>
      ih t hmends hs₁ (Known.at_look _ hahead) (h ∘ hfed) (List.forall_mem_cons.2 ⟨hmet, hseen⟩)
  | @take _ _ k v t r r' hlook hend hproper hr ih =>
    rw [run_bind, gives_advance (hat _ hlook) hend]
    exact .after (fun _ => Option.some_ne_none t) (ih hmends (regime.take hs (hat _ hlook) hend)
      (Known.at_took _ _) (fun _ => Option.some_ne_none t) hseen)
  | calm hp ih => exact ih nofun hs hat hfed (List.forall_mem_nil _)
  | failAt ht hnext hlook hsyntactic hc => exact ⟨regime.fail _ (hseen _ ht), fun _ => ⟨hs, id⟩⟩
  | tooDeep =>
    exact .look regime hs fun t s₁ hs₁ _ hmet _ => ⟨regime.deep hmet, fun _ => ⟨hs₁, id⟩⟩
  | hugeLength => exact ⟨regime.hugeLength _, fun _ => ⟨hs, id⟩⟩
  | spanFrom hfed' =>
    rw [run_spanFrom]
    cases hprevious : s.previous with
    | none => exact absurd hprevious (hfed hfed')
    | some t => exact ⟨hs, id⟩
  | note e => exact ⟨regime.note e hs, id⟩
  | isSated => exact ⟨hs, id⟩
  | iterate heq progresses progresses' hstep ih =>
    exact .iterate progresses (fun b s₁ hs₁ h =>
      ih b hmends hs₁ (Known.at_on _ _) (h ∘ hfed) hseen) hs _
  | recover hmends' hp hskip hresting ihp ihskip ihresting =>
    have hmends : mends = true := hmends hmends'
    refine recover_cases (ihp (fun _ => hmends) hs (Known.at_on _ _) hfed hseen) (fun _ _ h => h)
      (fun _ _ h => h) fun why echo s₁ hrule => ?_
    obtain ⟨hs₁, hbefore⟩ := hrule.2 nofun
    refine .after hbefore ((Abides.report regime hmends hs₁ why echo).bind fun _ s₂ hs₂ _ => ?_)
    have hskips := ihskip (fun _ => hmends) hs₂ (Known.at_nothing s₂) nofun
      (List.forall_mem_nil _)
    refine hskips.bind fun _ s₃ hs₃ _ => ?_
    have hrests := ihresting (fun _ => hmends) hs₃ (Known.at_nothing s₃) nofun
      (List.forall_mem_nil _)
    exact (hrests.moveOn regime hs₃).bind fun _ s₄ hs₄ _ => ⟨hs₄, id⟩
  | haltDeep a hmends' hhalts hp ih =>
    refine haltDeep_cases (ih hmends hs hat hfed hseen) fun why s₁ hrule => ?_
    obtain ⟨hs₁, hbefore⟩ := hrule.2 nofun
    exact ⟨regime.note (.stopped why) (regime.record why (hmends hmends') hs₁), hbefore⟩

/-- **A program keeps what the steps of its rules keep,** and fails as they do. -/
theorem program_abides (regime : Regime env true Holds Met Fair) (hs : Holds s) :
    Abides Holds Fair s (program env s) := by
  have hitems : Abides Holds Fair s (iterate (itemStep env.room) #[] env s) :=
    (parallel_items (f := id) (k := {}) #[] rfl rfl).abides regime (fun _ => rfl) hs
      (Known.at_nothing s) nofun (List.forall_mem_nil _)
  rw [run_program]
  exact hitems.bind fun _ s₁ hs₁ _ => .look regime hs₁ fun _ s₂ hs₂ _ _ _ => ⟨hs₂, id⟩

/-! ## Reasons to give up -/

end Parser

/-- There is a reason to fail so with that stream. -/
inductive Failure.Warranted (faults : FaultSink) (scans : List Scan) : Failure → Prop
  | syntactic (why : Diagnostic) (echo : Bool) : Warranted faults scans (.syntactic why echo)
  | tooDeep (why : Diagnostic) : Warranted faults scans (.tooDeep why)
  | hugeLength (digits : Nat) : Warranted faults scans (.aborted (.hugeLength digits))
  | raised {why : Diagnostic} {t : Token} : faults = .raise → Scan.fault why t ∈ scans →
      Warranted faults scans (.aborted (.raised why))

namespace Parser

/-- The stream is what is left of these scans, and its faults end the parse only if they did so
before. -/
structure Draws (faults : FaultSink) (scans : List Scan) (s : State) : Prop where
  pending : s.pending <:+ scans
  raise : s.faults = .raise → faults = .raise

theorem regime_draws (env : Setting) (faults : FaultSink) (scans : List Scan) :
    Regime env true (Draws faults scans) (fun _ => True) (Failure.Warranted faults scans) where
  look {s} hs := by
    unfold Gives peek
    rw [run_bind, run_get]
    dsimp only
    cases hahead : s.ahead with
    | some t => exact .inl ⟨t, s, rfl, hs, trivial⟩
    | none =>
      simp only [run_bind, run_pull]
      rcases hpending : s.pending with _ | ⟨t | ⟨why, t⟩, rest⟩
      · exact .inl ⟨_, _, rfl, ⟨hpending ▸ hs.pending, hs.raise⟩, trivial⟩
      · have hrest : rest <:+ scans := (List.suffix_cons _ rest).trans (hpending ▸ hs.pending)
        exact .inl ⟨t, _, rfl, ⟨hrest, hs.raise⟩, trivial⟩
      · have hrest : rest <:+ scans := (List.suffix_cons _ rest).trans (hpending ▸ hs.pending)
        cases hfaults : s.faults with
        | shared => exact .inl ⟨t, _, rfl, ⟨hrest, nofun⟩, trivial⟩
        | separate errors => exact .inl ⟨t, _, rfl, ⟨hrest, nofun⟩, trivial⟩
        | raise =>
          have hfault : Scan.fault why t ∈ scans :=
            hs.pending.subset (hpending ▸ List.mem_cons_self)
          exact .inr ⟨_, _, rfl, .raised (hs.raise hfaults) hfault⟩
  take hs _ _ := ⟨hs.pending, hs.raise⟩
  note _ hs := ⟨hs.pending, hs.raise⟩
  record _ _ hs := ⟨hs.pending, hs.raise⟩
  fail _ _ := .syntactic _ _
  deep _ := .tooDeep _
  hugeLength := .hugeLength

theorem failsOnly_program : FailsOnly GivesUp program := by
  refine .bind (.of_ok fun env s => ⟨env, s, rfl⟩) fun env => ?_
  refine (FailsOnly.iterate (failsOnly_itemStep _) _).bind fun items => ?_
  exact FailsOnly.peek.bind fun _ => FailsOnly.get.bind fun _ => .pure _

end Parser

/-- **A parse has a result,** or is given up at a length with too many digits, or at a fault that
the stream raises. -/
theorem parseScans_ends (setting : Setting) (errors : Collector) (faults : FaultSink)
    (scans : List Scan) :
    (∃ p s, parseScans setting errors faults scans = .ok (p, s)) ∨
      (∃ digits s, parseScans setting errors faults scans = .error (.hugeLength digits, s)) ∨
      faults = .raise ∧ ∃ why t s, Scan.fault why t ∈ scans ∧
        parseScans setting errors faults scans = .error (.raised why, s) := by
  have habides := Parser.program_abides (Parser.regime_draws setting faults scans)
    (s := { pending := scans, errors, faults }) ⟨List.suffix_refl _, id⟩
  unfold parseScans
  cases hrun : Parser.program setting { pending := scans, errors, faults } with
  | ok p s => exact .inl ⟨p, s, rfl⟩
  | error e s =>
    have hup : e.told = none := Parser.failsOnly_program _ _ _ _ hrun
    rw [hrun] at habides
    cases habides.1 with
    | syntactic why echo => cases hup
    | tooDeep why => cases hup
    | hugeLength digits => exact .inr (.inl ⟨digits, s, rfl⟩)
    | raised hraise hfault => exact .inr (.inr ⟨hraise, _, _, s, hfault, rfl⟩)

end ArcLang
