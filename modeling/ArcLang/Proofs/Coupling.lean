import ArcLang.Proofs.Recording

/-!
# Two runs side by side

The same rule is run from two states that are alike, maybe within different bounds. The runs do the
same, and end in states that are alike again, until they part for good. It is enough to show this of
the few steps that rules are put together from.

* `Parser.Coupling`: what the single steps keep of two states.
* `Parser.Coupled`: two runs that end alike, or have parted.
* `Parser.Parallel.coupled`: every rule keeps what its steps keep.
* `Parser.program_coupled`: two runs of a program.
-/

namespace ArcLang

/-- Two runs fail alike: in the same way, or at the same token because the nesting is too deep, each
for its own bound. -/
inductive Failure.Alike (env env' : Setting) : Failure → Failure → Prop
  | same (e : Failure) : Alike env env' e e
  | tooDeep (t : Token) : Alike env env'
      (.tooDeep (.ofPlace env.source t.place (.tooDeep env.maxDepth)))
      (.tooDeep (.ofPlace env'.source t.place (.tooDeep env'.maxDepth)))

namespace Parser

variable {α β : Type} {env env' : Setting} {k : Known} {s s' : State}

/-! ## Steps -/

/-- What the single steps of rules keep of two states: they stay `Alike`, or have `Parted`, and then
they stay so while both only gain diagnostics. -/
structure Coupling (env env' : Setting) (Alike Parted : State → State → Prop) : Prop where
  source : env'.source = env.source
  ahead {s s' : State} : Alike s s' → s'.ahead = s.ahead
  previous {s s' : State} : Alike s s' → s'.previous = s.previous
  consumed {s s' : State} : Alike s s' → s'.consumed = s.consumed
  isFull {s s' : State} : Alike s s' → s'.errors.isFull = s.errors.isFull
  look {s s' : State} : Alike s s' → ∃ t s₁ s₁', Gives peek env s t s₁ ∧
    Gives peek env' s' t s₁' ∧ (Alike s₁ s₁' ∨ Parted s₁ s₁')
  take {s s' : State} {t : Token} : Alike s s' → s.ahead = some t → t.isEnd = false →
    Alike { s with ahead := none, previous := some t, consumed := s.consumed + 1 }
      { s' with ahead := none, previous := some t, consumed := s'.consumed + 1 }
  note {s s' : State} (e : Event) : Alike s s' → Alike (s.note e) (s'.note e)
  record {s s' : State} (why : Diagnostic) : Alike s s' →
    Alike (s.record why) (s'.record why) ∨ Parted (s.record why) (s'.record why)
  stop {s s' : State} (t : Token) : Alike s s' →
    let why : Diagnostic := .ofPlace env.source t.place (.tooDeep env.maxDepth)
    let why' : Diagnostic := .ofPlace env'.source t.place (.tooDeep env'.maxDepth)
    Alike ((s.record why).note (.stopped why)) ((s'.record why').note (.stopped why')) ∨
      Parted ((s.record why).note (.stopped why)) ((s'.record why').note (.stopped why'))
  shared {s s' : State} : Parted s s' → s.faults = .shared ∧ s'.faults = .shared
  parted {s s' z z' : State} : Parted s s' → s.Grows z → s'.Grows z' → Parted z z'

/-- Two runs that end alike, or have parted. -/
inductive Coupled (env env' : Setting) (Alike Parted : State → State → Prop)
    (r r' : EStateM.Result Failure State α) : Prop
  | ok (a : α) (s s' : State) : r = .ok a s → r' = .ok a s' → Alike s s' →
      Coupled env env' Alike Parted r r'
  | error (e e' : Failure) (s s' : State) : r = .error e s → r' = .error e' s' →
      e.Alike env env' e' → Alike s s' → Coupled env env' Alike Parted r r'
  | parted : Parted (final r) (final r') → Coupled env env' Alike Parted r r'

variable {Alike Parted : State → State → Prop}

/-! ## Runs -/

namespace Coupled

variable (law : Coupling env env' Alike Parted)

theorem of_states (a : α) (h : Alike s s' ∨ Parted s s') :
    Coupled env env' Alike Parted (.ok a s) (.ok a s') :=
  h.elim (.ok a s s' rfl rfl) fun hparted => .parted hparted

/-- The states in which two runs end. -/
theorem ends {r r' : EStateM.Result Failure State α} (h : Coupled env env' Alike Parted r r') :
    Alike (final r) (final r') ∨ Parted (final r) (final r') := by
  cases h with
  | ok a s s' hr hr' hs =>
    rw [hr, hr']
    exact .inl hs
  | error e e' s s' hr hr' he hs =>
    rw [hr, hr']
    exact .inl hs
  | parted hparted => exact .inr hparted

theorem fail (e : Failure) (h : Alike s s') :
    Coupled env env' Alike Parted (.error e s : EStateM.Result Failure State α) (.error e s') :=
  .error e e s s' rfl rfl (.same e) h

include law

theorem bind {p p' : Parser α} {r : α → Parser β}
    (hp : Coupled env env' Alike Parted (p env s) (p' env' s')) (hgrows : ∀ a, Growing (r a))
    (hr : ∀ a s₁ s₁', Alike s₁ s₁' →
      Coupled env env' Alike Parted (r a env s₁) (r a env' s₁')) :
    Coupled env env' Alike Parted ((p >>= r) env s) ((p' >>= r) env' s') := by
  cases hp with
  | ok a s₁ s₁' hrun hrun' hs₁ =>
    rw [run_bind, run_bind, hrun, hrun']
    exact hr a s₁ s₁' hs₁
  | error e e' s₁ s₁' hrun hrun' he hs₁ =>
    rw [run_bind, run_bind, hrun, hrun']
    exact .error e e' s₁ s₁' rfl rfl he hs₁
  | parted hparted =>
    obtain ⟨hshared, hshared'⟩ := law.shared hparted
    exact .parted (law.parted hparted (grows_bind hshared hgrows) (grows_bind hshared' hgrows))

/-- A look at the current token, and what follows. -/
theorem look {r : Token → Parser α} (hs : Alike s s')
    (hgrows : ∀ t env (s : State), s.ahead = some t → s.faults = .shared →
      s.Grows (final (r t env s)))
    (hr : ∀ t s₁ s₁', Alike s₁ s₁' → s₁.ahead = some t →
      Coupled env env' Alike Parted (r t env s₁) (r t env' s₁')) :
    Coupled env env' Alike Parted ((peek >>= r) env s) ((peek >>= r) env' s') := by
  obtain ⟨t, s₁, s₁', hpeek, hpeek', hnext⟩ := law.look hs
  obtain ⟨-, -, hahead⟩ := peek_gives hpeek
  obtain ⟨-, -, hahead'⟩ := peek_gives hpeek'
  rw [run_bind, run_bind, hpeek, hpeek']
  rcases hnext with hs₁ | hparted
  · exact hr t s₁ s₁' hs₁ hahead
  · obtain ⟨hshared, hshared'⟩ := law.shared hparted
    exact .parted (law.parted hparted (hgrows t env s₁ hahead hshared)
      (hgrows t env' s₁' hahead' hshared'))

/-- Whatever comes next is consumed. -/
theorem advance (hs : Alike s s') :
    Coupled env env' Alike Parted (Parser.advance env s) (Parser.advance env' s') := by
  refine look law hs (fun t env s _ hshared => ?_) fun t s₁ s₁' hs₁ hahead => ?_
  · split
    · exact .refl hshared
    · exact ⟨hshared, .refl _⟩
  · cases hend : t.isEnd with
    | true => exact .ok t s₁ s₁' rfl rfl hs₁
    | false => exact .ok t _ _ rfl rfl (law.take hs₁ hahead hend)

theorem moveOn {resting : Parser Bool} (before : Nat) (hs : Alike s s')
    (hresting : Coupled env env' Alike Parted (resting env s) (resting env' s')) :
    Coupled env env' Alike Parted (Parser.moveOn before resting env s)
      (Parser.moveOn before resting env' s') := by
  have hgoes (rests : Bool) :
      Growing (do unless rests do let _ ← Parser.advance : Parser Unit) := by
    cases rests with
    | true => exact .pure ()
    | false => exact Growing.advance.bind fun _ => .pure ()
  rw [run_moveOn, run_moveOn, law.consumed hs]
  split
  · refine hresting.bind law hgoes fun rests s₁ s₁' hs₁ => ?_
    cases rests with
    | true => exact .ok () s₁ s₁' rfl rfl hs₁
    | false =>
      exact (advance law hs₁).bind law (fun _ => .pure ()) fun _ s₂ s₂' hs₂ =>
        .ok () s₂ s₂' rfl rfl hs₂
  · exact .ok () s s' rfl rfl hs

theorem report (why : Diagnostic) (echo : Bool) (hs : Alike s s') :
    Coupled env env' Alike Parted (Parser.report why echo env s)
      (Parser.report why echo env' s') := by
  cases echo with
  | true => exact .ok _ _ _ rfl rfl (law.note (.suppressed why) hs)
  | false => exact of_states _ (law.record why (law.note (.recovering why) hs))

/-- What recovery does behind a failure. -/
theorem goOn {skip : Parser Unit} {resting : Parser Bool} (why : Diagnostic) (echo : Bool)
    (before : Nat) (hs : Alike s s') (gskip : Growing skip) (gresting : Growing resting)
    (hskip : ∀ s s', Alike s s' → Coupled env env' Alike Parted (skip env s) (skip env' s'))
    (hresting : ∀ s s', Alike s s' →
      Coupled env env' Alike Parted (resting env s) (resting env' s')) :
    let rest : Parser (Option α) := do
      Parser.report why echo; skip; Parser.moveOn before resting; return none
    Coupled env env' Alike Parted (rest env s) (rest env' s') := by
  refine (report law why echo hs).bind law (fun _ => gskip.skips before gresting) ?_
  intro _ s₁ s₁' hs₁
  refine (hskip s₁ s₁' hs₁).bind law
    (fun _ => (gresting.moveOn before).bind fun _ => .pure none) fun _ s₂ s₂' hs₂ => ?_
  exact (moveOn law before hs₂ (hresting s₂ s₂' hs₂)).bind law (fun _ => .pure none)
    fun _ s₃ s₃' hs₃ => .ok none s₃ s₃' rfl rfl hs₃

/-- A repetition, given its steps. -/
theorem iterate {step step' : β → Parser (ForInStep β)} (progresses : Progresses step)
    (progresses' : Progresses step') (gstep : ∀ b, Growing (step b))
    (gstep' : ∀ b, Growing (step' b))
    (hstep : ∀ b s s', Alike s s' →
      Coupled env env' Alike Parted (step b env s) (step' b env' s'))
    (hs : Alike s s') (b : β) :
    Coupled env env' Alike Parted (Parser.iterate step b env s)
      (Parser.iterate step' b env' s') := by
  induction hn : s.remaining using Nat.strong_induction_on generalizing b s s' with
  | _ left ih =>
    cases hstep b s s' hs with
    | ok r s₁ s₁' hrun hrun' hs₁ =>
      rw [iterate_eq progresses, iterate_eq progresses', hrun, hrun']
      cases r with
      | done b₁ => exact .ok b₁ s₁ s₁' rfl rfl hs₁
      | yield b₁ =>
        have hlt := progresses env b s b₁ s₁ hrun
        exact ih s₁.remaining (by omega) hs₁ b₁ rfl
    | error e e' s₁ s₁' hrun hrun' he hs₁ =>
      rw [iterate_eq progresses, iterate_eq progresses', hrun, hrun']
      exact .error e e' s₁ s₁' rfl rfl he hs₁
    | parted hparted =>
      obtain ⟨hshared, hshared'⟩ := law.shared hparted
      exact .parted (law.parted hparted (grows_iterate progresses gstep hshared)
        (grows_iterate progresses' gstep' hshared'))

theorem recover {p : Parser α} {skip : Parser Unit} {resting : Parser Bool} (hs : Alike s s')
    (hp : Coupled env env' Alike Parted (p env s) (p env' s')) (gskip : Growing skip)
    (gresting : Growing resting)
    (hskip : ∀ s s', Alike s s' → Coupled env env' Alike Parted (skip env s) (skip env' s'))
    (hresting : ∀ s s', Alike s s' →
      Coupled env env' Alike Parted (resting env s) (resting env' s')) :
    Coupled env env' Alike Parted (Parser.recover p skip resting env s)
      (Parser.recover p skip resting env' s') := by
  cases hp with
  | ok a s₁ s₁' hrun hrun' hs₁ =>
    rw [run_recover, run_recover, hrun, hrun']
    exact .ok (some a) s₁ s₁' rfl rfl hs₁
  | error e e' s₁ s₁' hrun hrun' he hs₁ =>
    rw [run_recover, run_recover, hrun, hrun', law.consumed hs]
    cases he with
    | tooDeep t => exact .error _ _ s₁ s₁' rfl rfl (.tooDeep t) hs₁
    | same e =>
      cases e with
      | syntactic why echo =>
        exact goOn law why echo s.consumed hs₁ gskip gresting hskip hresting
      | tooDeep why => exact .fail _ hs₁
      | aborted why => exact .fail _ hs₁
  | parted hparted =>
    obtain ⟨hshared, hshared'⟩ := law.shared hparted
    exact .parted (law.parted hparted (grows_recover hshared gskip gresting)
      (grows_recover hshared' gskip gresting))

theorem haltDeep {p : Parser α} (hp : Coupled env env' Alike Parted (p env s) (p env' s'))
    (a : α) : Coupled env env' Alike Parted (Parser.haltDeep p a env s)
      (Parser.haltDeep p a env' s') := by
  cases hp with
  | ok b s₁ s₁' hrun hrun' hs₁ =>
    rw [run_haltDeep, run_haltDeep, hrun, hrun']
    exact .ok b s₁ s₁' rfl rfl hs₁
  | error e e' s₁ s₁' hrun hrun' he hs₁ =>
    rw [run_haltDeep, run_haltDeep, hrun, hrun']
    cases he with
    | tooDeep t => exact of_states a (law.stop t hs₁)
    | same e =>
      cases e with
      | syntactic why echo => exact .fail _ hs₁
      | tooDeep why => exact of_states a (law.record why (law.note (.stopped why) hs₁))
      | aborted why => exact .fail _ hs₁
  | parted hparted =>
    obtain ⟨hshared, hshared'⟩ := law.shared hparted
    exact .parted (law.parted hparted (grows_haltDeep hshared a) (grows_haltDeep hshared' a))

/-- What a program does behind its items. -/
theorem close (hs : Alike s s') (items : Array Item) :
    Coupled env env' Alike Parted (Parser.close items env s) (Parser.close items env' s') := by
  obtain ⟨t, s₁, s₁', hpeek, hpeek', hnext⟩ := law.look hs
  rw [gives_close hpeek, gives_close hpeek', law.source]
  rcases hnext with hs₁ | hparted
  · have hprevious : s₁'.previousEnd env.source.file = s₁.previousEnd env.source.file := by
      rw [State.previousEnd, State.previousEnd, law.previous hs₁]
    rw [hprevious]
    exact .ok _ s₁ s₁' rfl rfl hs₁
  · exact .parted hparted

end Coupled

/-- **Every rule keeps of two runs what its steps keep.** -/
theorem Parallel.coupled {f : Location → Location} {v : α → β} {p : Parser α} {q : Parser β}
    (h : Parallel f k v p q) (law : Coupling env env' Alike Parted) (hs : Alike s s')
    (hat : k.At s) : Coupled env env' Alike Parted (p env s) (p env' s') := by
  induction h generalizing s s' with
  | pure heq => exact .ok _ s s' rfl rfl hs
  | bind hp hr ihp ihr =>
    exact (ihp hs hat).bind law (fun a env s hshared => (hr a).grows env hshared (Known.at_on _ s))
      fun a s₁ s₁' hs₁ => ihr a hs₁ (Known.at_on _ s₁)
  | look hr ih =>
    exact .look law hs
      (fun t env s hahead hshared => (hr t).grows env hshared (Known.at_look _ hahead))
      fun t s₁ s₁' hs₁ hahead => ih t hs₁ (Known.at_look _ hahead)
  | @take _ _ k v t r r' hlook hend hproper hr ih =>
    have hahead : s.ahead = some t := hat _ hlook
    have hahead' : s'.ahead = some t := (law.ahead hs).trans hahead
    rw [run_bind, run_bind, gives_advance hahead hend, gives_advance hahead' hend]
    exact ih (law.take hs hahead hend) (Known.at_took _ _)
  | calm hp ih => exact ih hs hat
  | @failAt α _ k v t u c c' ht hnext hlook hsyntactic hc =>
    have hfail : (Parser.failAt t c : Parser α) env' s' =
        .error (.syntactic (.ofPlace env.source t.place c) t.isError) s' := by
      rw [← law.source]
      rfl
    rw [hfail]
    exact .fail _ hs
  | tooDeep =>
    exact .look law hs (fun _ _ _ _ hshared => .refl hshared) fun t s₁ s₁' hs₁ _ =>
      .error _ _ s₁ s₁' rfl rfl (.tooDeep t) hs₁
  | hugeLength => exact .fail _ hs
  | spanFrom =>
    rw [run_spanFrom, run_spanFrom, law.previous hs]
    cases s.previous with
    | none => exact .fail _ hs
    | some t => exact .ok _ s s' rfl rfl hs
  | note e => exact .ok _ _ _ rfl rfl (law.note e hs)
  | isSated =>
    have hsated : Parser.isSated env' s' = .ok s.errors.isFull s' := by
      rw [← law.isFull hs]
      rfl
    rw [hsated]
    exact .ok _ s s' rfl rfl hs
  | iterate heq progresses progresses' hstep ih =>
    have gstep b : Growing _ := fun env s hshared => (hstep b).grows env hshared (Known.at_on _ s)
    exact .iterate law progresses progresses gstep gstep
      (fun b s₁ s₁' hs₁ => ih b hs₁ (Known.at_on _ s₁)) hs _
  | recover hmends hp hskip hresting ihp ihskip ihresting =>
    exact .recover law hs (ihp hs (Known.at_on _ s)) hskip.growing hresting.growing
      (fun s₁ s₁' hs₁ => ihskip hs₁ (Known.at_nothing s₁))
      fun s₁ s₁' hs₁ => ihresting hs₁ (Known.at_nothing s₁)
  | haltDeep a hmends hhalts hp ih => exact .haltDeep law (ih hs hat) a

/-! ## Programs -/

theorem growing_itemStep (room : Nat) (acc : Array Item) : Growing (itemStep room acc) :=
  (parallel_itemStep (f := id) (k := {}) #[] rfl rfl acc).growing

/-- **Two runs of a program,** given what reading one item keeps of them. -/
theorem program_coupled (law : Coupling env env' Alike Parted)
    (hstep : ∀ acc s s', Alike s s' → Coupled env env' Alike Parted (itemStep env.room acc env s)
      (itemStep env'.room acc env' s')) (hs : Alike s s') :
    Coupled env env' Alike Parted (program env s) (program env' s') := by
  have progresses (room : Nat) : Progresses (itemStep room) := progresses_itemStep (eats_item room)
  have hitems : Coupled env env' Alike Parted (iterate (itemStep env.room) #[] env s)
      (iterate (itemStep env'.room) #[] env' s') :=
    .iterate law (progresses _) (progresses _) (growing_itemStep _) (growing_itemStep _) hstep hs
      #[]
  rw [run_program, run_program]
  exact hitems.bind law growing_close fun items s₁ s₁' hs₁ => .close law hs₁ items

end Parser

end ArcLang
