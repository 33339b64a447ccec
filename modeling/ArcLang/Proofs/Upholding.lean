import ArcLang.Proofs.Telling

/-!
# Invariants of a parse

What holds of the state of a parse is shown of the few steps that rules are put together from: a
look at a token, its consumption, and the report of a failure. It holds then wherever a rule comes
to.

* `Parser.Law`: what the single steps keep.
* `Parser.Parallel.upholds`: what every rule keeps.
* `Parser.program_upheld`: what a program keeps.
-/

namespace ArcLang

variable {s s' : State} {t : Token}

/-! ## Steps -/

theorem Collector.mem_of_mem_add {c : Collector} {d e : Diagnostic} (h : e ∈ (c.add d).errors) :
    e ∈ c.errors ∨ e = d := by
  rw [Collector.errors_add] at h
  split at h
  · exact .inl h
  · rcases List.mem_append.1 h with h | h
    · exact .inl h
    · exact .inr (List.mem_singleton.1 h)

namespace Parser

variable {α β : Type} {env : Setting} {k : Known}

/-! ## Laws -/

/-- What the single steps of rules keep: `Holds` of the state, given that the tokens looked at are
`Met`, and that what a rule fails with is `Fair`. -/
structure Law (env : Setting) (Holds : State → Prop) (Met : Token → Prop) (Fair : Failure → Prop) :
    Prop where
  shared {s : State} : Holds s → s.faults = .shared
  look {s s' : State} {t : Token} : Holds s → Gives peek env s t s' → Holds s' ∧ Met t
  take {s : State} {t : Token} : Holds s → s.ahead = some t → t.isEnd = false →
    Holds { s with ahead := none, previous := some t, consumed := s.consumed + 1 }
  note {s : State} (e : Event) : Holds s → Holds (s.note e)
  fail {t : Token} {c : Cause} : Met t → c.IsSyntactic →
    Fair (.syntactic (.ofPlace env.source t.place c) t.isError)
  deep {t : Token} : Met t → Fair (.tooDeep (.ofPlace env.source t.place (.tooDeep env.maxDepth)))
  record {s : State} {why : Diagnostic} : Holds s →
    Fair (.syntactic why false) ∨ Fair (.tooDeep why) → Holds (s.record why)

/-- A run that ends where the state is as it should be, and fails in a fair way unless the parse is
given up. -/
def Upheld (Holds : State → Prop) (Fair : Failure → Prop) :
    EStateM.Result Failure State α → Prop
  | .ok _ s' => Holds s'
  | .error e s' => Holds s' ∧ (e.told ≠ none → Fair e)

variable {Holds : State → Prop} {Met : Token → Prop} {Fair : Failure → Prop}

namespace Upheld

theorem bind {p : Parser α} {r : α → Parser β} (hp : Upheld Holds Fair (p env s))
    (hr : ∀ a s₁, Holds s₁ → Upheld Holds Fair (r a env s₁)) :
    Upheld Holds Fair ((p >>= r) env s) := by
  rw [run_bind]
  cases hrun : p env s with
  | error e s₁ =>
    rw [hrun] at hp
    exact hp
  | ok a s₁ =>
    rw [hrun] at hp
    exact hr a s₁ hp

/-- A look at the current token, and what follows. -/
theorem look {r : Token → Parser α} (law : Law env Holds Met Fair) (hs : Holds s)
    (hr : ∀ t s₁, Holds s₁ → Met t → s₁.ahead = some t → Upheld Holds Fair (r t env s₁)) :
    Upheld Holds Fair ((peek >>= r) env s) := by
  obtain ⟨t, s₁, hpeek, -⟩ := peek_looks (law.shared hs) env
  obtain ⟨-, -, hahead⟩ := peek_gives hpeek
  obtain ⟨hs₁, hmet⟩ := law.look hs hpeek
  rw [run_bind, hpeek]
  exact hr t s₁ hs₁ hmet hahead

/-- Whatever comes next is consumed. -/
theorem advance (law : Law env Holds Met Fair) (hs : Holds s) :
    Upheld Holds Fair (advance env s) := by
  refine look law hs fun t s₁ hs₁ _ hahead => ?_
  cases hend : t.isEnd with
  | true => exact hs₁
  | false => exact law.take hs₁ hahead hend

theorem moveOn {resting : Parser Bool} (law : Law env Holds Met Fair) (before : Nat) (hs : Holds s)
    (hresting : Upheld Holds Fair (resting env s)) :
    Upheld Holds Fair (moveOn before resting env s) := by
  rw [run_moveOn]
  split
  next =>
    refine hresting.bind fun rests s₁ hs₁ => ?_
    cases rests with
    | true => exact hs₁
    | false => exact (advance law hs₁).bind fun _ s₂ hs₂ => hs₂
  next => exact hs

/-- A failure is reported, unless it is an echo. -/
theorem report {why : Diagnostic} {echo : Bool} (law : Law env Holds Met Fair) (hs : Holds s)
    (hwhy : Fair (.syntactic why echo)) : Upheld Holds Fair (report why echo env s) := by
  cases echo with
  | true => exact law.note (.suppressed why) hs
  | false => exact law.note (.recovering why) (law.record hs (.inl hwhy))

/-- Behind a failure, it is reported, and tokens are skipped. -/
theorem goOn {skip : Parser Unit} {resting : Parser Bool} {why : Diagnostic} {echo : Bool}
    (law : Law env Holds Met Fair) (before : Nat) (hs : Holds s) (hwhy : Fair (.syntactic why echo))
    (hskip : ∀ s, Holds s → Upheld Holds Fair (skip env s))
    (hresting : ∀ s, Holds s → Upheld Holds Fair (resting env s)) :
    Upheld Holds Fair ((do
      Parser.report why echo; skip; Parser.moveOn before resting; pure none :
        Parser (Option α)) env s) :=
  (report law hs hwhy).bind fun _ s₁ hs₁ => (hskip s₁ hs₁).bind fun _ s₂ hs₂ =>
    (moveOn law before hs₂ (hresting s₂ hs₂)).bind fun _ _ hs₃ => hs₃

/-- A repetition, given its steps. -/
theorem iterate {step : β → Parser (ForInStep β)} (progresses : Progresses step)
    (hstep : ∀ b (s : State), Holds s → Upheld Holds Fair (step b env s)) (hs : Holds s) (b : β) :
    Upheld Holds Fair (iterate step b env s) := by
  induction b, s using iterate_rounds progresses env with
  | error b s e s₁ hfirst hrun | done b s b₁ s₁ hfirst hrun =>
    have hkept := hstep b s hs
    rw [hfirst] at hkept
    rwa [hrun]
  | yield b s b₁ s₁ hfirst hrun ih =>
    have hkept := hstep b s hs
    rw [hfirst] at hkept
    rw [hrun]
    exact ih hkept

end Upheld

/-- **Every rule keeps what its steps keep.** -/
theorem Parallel.upholds {f : Location → Location} {v : α → β} {p : Parser α} {q : Parser β}
    (h : Parallel f k v p q) (law : Law env Holds Met Fair) {s : State} (hs : Holds s)
    (hat : k.At s) (hseen : ∀ t ∈ k.seen, Met t) : Upheld Holds Fair (p env s) := by
  induction h generalizing s with
  | pure heq => exact hs
  | bind hp hr ihp ihr =>
    exact (ihp hs hat hseen).bind fun a s₁ hs₁ => ihr a hs₁ (Known.at_on _ _) hseen
  | look hr ih =>
    exact .look law hs fun t s₁ hs₁ hmet hahead =>
      ih t hs₁ (Known.at_look _ hahead) (List.forall_mem_cons.2 ⟨hmet, hseen⟩)
  | take hlook hend hproper hr ih =>
    rw [run_bind, gives_advance (hat _ hlook) hend]
    exact ih (law.take hs (hat _ hlook) hend) (Known.at_took _ _) hseen
  | calm hp ih => exact ih hs hat (List.forall_mem_nil _)
  | failAt ht hnext hlook hsyntactic hc => exact ⟨hs, fun _ => law.fail (hseen _ ht) hsyntactic⟩
  | tooDeep => exact .look law hs fun t s₁ hs₁ hmet _ => ⟨hs₁, fun _ => law.deep hmet⟩
  | hugeLength => exact ⟨hs, fun htold => absurd rfl htold⟩
  | spanFrom =>
    rw [run_spanFrom]
    cases s.previous with
    | none => exact ⟨hs, fun htold => absurd rfl htold⟩
    | some t => exact hs
  | note e => exact law.note e hs
  | isSated => exact hs
  | iterate heq progresses progresses' hstep ih =>
    exact .iterate progresses (fun b s₁ hs₁ => ih b hs₁ (Known.at_on _ _) hseen) hs _
  | recover hmends hp hskip hresting ihp ihskip ihresting =>
    refine recover_cases (ihp hs (Known.at_on _ _) hseen) (fun _ _ h => h) (fun _ _ h => h) ?_
    exact fun why echo s₁ hrule => .goOn law s.consumed hrule.1 (hrule.2 nofun)
      (fun s₂ hs₂ => ihskip hs₂ (Known.at_nothing s₂) (List.forall_mem_nil _))
      fun s₂ hs₂ => ihresting hs₂ (Known.at_nothing s₂) (List.forall_mem_nil _)
  | haltDeep a hmends hhalts hp ih =>
    refine haltDeep_cases (ih hs hat hseen) fun why s₁ hrule => ?_
    exact law.note (.stopped why) (law.record hrule.1 (.inr (hrule.2 nofun)))

/-- **A program keeps what the steps of its rules keep,** however it ends. -/
theorem program_upheld (law : Law env Holds Met Fair) (hs : Holds s) :
    Upheld Holds Fair (program env s) := by
  have hitems : Upheld Holds Fair (iterate (itemStep env.room) #[] env s) :=
    (parallel_items (f := id) #[] rfl rfl).upholds law hs (Known.at_nothing s)
      (List.forall_mem_nil _)
  rw [run_program]
  exact hitems.bind fun _ s₁ hs₁ => .look law hs₁ fun _ _ hs₂ _ _ => hs₂

theorem program_upholds {p : Program} (law : Law env Holds Met Fair) (hs : Holds s)
    (h : Gives program env s p s') : Holds s' := by
  have hupheld := program_upheld law hs
  rwa [h] at hupheld

end Parser

end ArcLang
