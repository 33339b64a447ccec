import ArcLang.Proofs.Coupling
import ArcLang.Proofs.Reporting

/-!
# Reading a stream without haste

A parse never holds more than one token that it has not consumed. So at each time what was consumed,
that token, and what the stream still holds make up the stream. And a stream that ends without an
end token is the same as one with it: when the end is noticed, everything before has been consumed,
and the end token that is put there stands where the last token ends.

* `State.Reads`: what a state has to do with the stream that it reads.
* `Parser.regime_reads`: every step keeps that.
* `Parser.coupling_completed`: a stream and the same with an end token, side by side.
* `parseScans_reads`: the statement.
-/

namespace ArcLang

/-- The end token that belongs behind a stream of tokens: where the last one ends. -/
def endBehind (file : String) (stream : List Token) : Token :=
  .endAt (stream.getLast?.elim (.start file) (·.span.stop))

namespace State

/-- Just these tokens of the stream have been consumed. One more may have been looked at, and the
rest is still there; or all have been consumed, and behind them an end token is seen that the stream
does not hold. -/
structure Reads (file : String) (stream taken : List Token) (s : State) : Prop where
  consumed : s.consumed = taken.length
  previous : s.previous = taken.getLast?
  proper : ∀ t ∈ taken, t.isEnd = false
  rest : stream = taken ++ (s.ahead.toList ++ Scan.tokens s.pending) ∨
    stream = taken ∧ s.pending = [] ∧ s.ahead = some (endBehind file stream)

variable {file : String} {stream taken : List Token} {s s' : State} {t : Token}

theorem reads_start (file : String) (scans : List Scan) (errors : Collector) (faults : FaultSink) :
    State.Reads file (Scan.tokens scans) [] { pending := scans, errors, faults } :=
  ⟨rfl, rfl, List.forall_mem_nil _, .inl rfl⟩

/-- Where nothing is left, the last token consumed is the last of the stream. -/
theorem Reads.endAt_previousEnd (h : s.Reads file stream taken) (hahead : s.ahead = none)
    (hpending : s.pending = []) :
    stream = taken ∧ Token.endAt (s.previousEnd file) = endBehind file stream := by
  have hall : stream = taken := by
    rcases h.rest with hrest | ⟨-, -, hrest⟩
    · simpa [hahead, hpending, Scan.tokens] using hrest
    · rw [hahead] at hrest
      cases hrest
  exact ⟨hall, by rw [State.previousEnd, endBehind, h.previous, hall]⟩

/-- What is consumed is the next token of the stream. -/
theorem Reads.take (h : s.Reads file stream taken) (hahead : s.ahead = some t)
    (hend : t.isEnd = false) : State.Reads file stream (taken ++ [t])
      { s with ahead := none, previous := some t, consumed := s.consumed + 1 } where
  consumed := by rw [List.length_append, List.length_singleton, h.consumed]
  previous := by rw [List.getLast?_concat]
  proper := List.forall_mem_append.2 ⟨h.proper, List.forall_mem_singleton.2 hend⟩
  rest := by
    rcases h.rest with hrest | ⟨-, -, hrest⟩
    · refine .inl ?_
      rw [hrest, hahead, List.append_assoc]
      rfl
    · rw [hahead] at hrest
      cases hrest
      cases hend

/-- What a look does, wherever faults go: nothing; or the next token is taken off the stream; or
there is none, and an end token is put behind the last. -/
inductive Pulls (file : String) (s : State) (t : Token) : State → Prop
  | again : s.ahead = some t → Pulls file s t s
  | beyond : s.ahead = none → s.pending = [] → t = .endAt (s.previousEnd file) →
      Pulls file s t { s with ahead := some t }
  | next {x : Scan} {s' : State} : s.ahead = none → s.pending = x :: s'.pending → x.shown = t →
      s'.ahead = some t → s'.previous = s.previous → s'.consumed = s.consumed →
      s.events <:+ s'.events → Pulls file s t s'

/-- **A look keeps what was consumed.** -/
theorem Reads.pull (h : s.Reads file stream taken) (hpulls : s.Pulls file t s') :
    s'.Reads file stream taken := by
  cases hpulls with
  | again => exact h
  | beyond hahead hpending ht =>
    obtain ⟨hall, hplace⟩ := h.endAt_previousEnd hahead hpending
    exact { h with rest := .inr ⟨hall, hpending, congrArg some (ht.trans hplace)⟩ }
  | @next x _ hahead hpending ht hahead' hprevious hconsumed =>
    refine ⟨hconsumed.trans h.consumed, hprevious.trans h.previous, h.proper, .inl ?_⟩
    rcases h.rest with hrest | ⟨-, hrest, -⟩
    · rw [hrest, hahead, hahead', hpending, ← ht]
      rfl
    · rw [hpending] at hrest
      cases hrest

theorem Pulls.events (h : s.Pulls file t s') : s.events <:+ s'.events := by
  cases h with
  | again => exact List.suffix_refl _
  | beyond => exact List.suffix_refl _
  | next _ _ _ _ _ _ hevents => exact hevents

end State

namespace Parser

variable {env : Setting} {s s' : State} {t e : Token} {stream : List Token}

/-! ## Looking -/

theorem peek_pulls (h : Gives peek env s t s') : s.Pulls env.source.file t s' := by
  unfold Gives peek at h
  rw [run_bind, run_get] at h
  dsimp only at h
  cases hahead : s.ahead with
  | some u =>
    rw [hahead] at h
    cases h
    exact .again hahead
  | none =>
    rw [hahead] at h
    simp only [run_bind, run_pull] at h
    rcases hpending : s.pending with _ | ⟨u | ⟨why, u⟩, rest⟩
    · rw [hpending] at h
      cases h
      exact .beyond hahead hpending rfl
    · rw [hpending] at h
      cases h
      exact .next hahead hpending rfl rfl rfl rfl (List.suffix_refl _)
    · rw [hpending] at h
      cases hfaults : s.faults with
      | shared =>
        rw [hfaults] at h
        cases h
        exact .next hahead hpending rfl rfl rfl rfl (List.suffix_cons _ _)
      | separate errors =>
        rw [hfaults] at h
        cases h
        exact .next hahead hpending rfl rfl rfl rfl (List.suffix_cons _ _)
      | raise =>
        rw [hfaults] at h
        cases h

/-- **Every step keeps what a state has to do with its stream.** -/
theorem regime_reads (env : Setting) (stream : List Token) :
    Regime env true (fun s => ∃ taken, s.Reads env.source.file stream taken) (fun _ => True)
      fun _ => True where
  look {s} := by
    rintro ⟨taken, hs⟩
    rcases peek_cases env s with ⟨t, s', hpeek, -⟩ | ⟨why, s', hpeek⟩
    · exact .inl ⟨t, s', hpeek, ⟨taken, hs.pull (peek_pulls hpeek)⟩, trivial⟩
    · exact .inr ⟨why, s', hpeek, trivial⟩
  take := by
    rintro s t ⟨taken, hs⟩ hahead hend
    exact ⟨_, hs.take hahead hend⟩
  note := by
    rintro s e ⟨taken, hs⟩
    exact ⟨taken, { hs with }⟩
  record := by
    rintro s why - ⟨taken, hs⟩
    exact ⟨taken, { hs with }⟩
  fail _ _ := trivial
  deep _ := trivial
  hugeLength _ := trivial

/-- **A parse ends where it has read the stream as far as it says.** If it has not stopped for a
reason of its own, and no end token is but at the end, the stream is used up. -/
theorem program_reads {scans : List Scan} {errors : Collector} {faults : FaultSink} {p : Program}
    (h : Gives program env { pending := scans, errors, faults } p s) :
    (∃ taken, s.Reads env.source.file (Scan.tokens scans) taken) ∧
      ((∀ t ∈ (Scan.tokens scans).dropLast, t.isEnd = false) → s.pending = [] ∨
        s.errors.isFull = true ∨
          ∃ why : Diagnostic, why.category = .recursionLimit ∧ .stopped why ∈ s.events) := by
  have habides : Abides _ _ _ (program env { pending := scans, errors, faults }) :=
    program_abides (regime_reads env (Scan.tokens scans)) ⟨[], State.reads_start _ _ _ _⟩
  have hgives := h
  unfold Gives at hgives
  rw [hgives] at habides
  obtain ⟨taken, hreads⟩ := habides.1
  refine ⟨⟨taken, hreads⟩, fun hends => ?_⟩
  rw [run_program] at hgives
  obtain ⟨items, s₁, hitems, hclose⟩ := bind_gives hgives
  obtain ⟨t, s₂, hpeek⟩ : ∃ t s₂, Gives peek env s₁ t s₂ := by
    obtain ⟨_, _, hread, hclose⟩ := bind_gives hclose
    cases hread
    obtain ⟨t, s₂, hpeek, -⟩ := bind_gives hclose
    exact ⟨t, s₂, hpeek⟩
  obtain ⟨-, rfl⟩ := (gives_close hpeek items).unique hclose
  obtain ⟨hc, hshows, hahead⟩ := peek_gives hpeek
  rcases stops_of_items hitems with hinput | hfull | ⟨why, s₀, hdeep, rfl⟩
  · -- the end token that is seen is the last of the stream, or stands behind it
    have hend : t.isEnd = true := (isEnd_iff_of_shows hshows).2 hinput
    rcases hreads.rest with hrest | ⟨-, hpending, -⟩
    · refine .inl ?_
      by_contra hne
      have hmem : t ∈ (Scan.tokens scans).dropLast := by
        rw [hrest, hahead, Option.toList_some, List.singleton_append,
          List.dropLast_append_of_ne_nil (List.cons_ne_nil _ _),
          List.dropLast_cons_of_ne_nil (by simpa [Scan.tokens] using hne)]
        simp
      rw [hends t hmem] at hend
      cases hend
    · exact .inl hpending
  · refine .inr (.inl ?_)
    rw [Collector.isFull_iff] at hfull ⊢
    have hlength := hc.errors.length_le
    rw [hc.capacity]
    omega
  · exact .inr (.inr ⟨why, hdeep, (peek_pulls hpeek).events.subset List.mem_cons_self⟩)

/-! ## Streams without an end token -/

end Parser

namespace State

/-- The state with an end token behind what the stream still holds. -/
def closedBy (e : Token) (s : State) : State := { s with pending := s.pending ++ [.token e] }

/-- The second state reads the stream of the first with an end token behind it, or both see that end
token. The stream of the first raises no fault. -/
structure Completed (file : String) (stream : List Token) (s s' : State) : Prop where
  reads : ∃ taken, s.Reads file stream taken
  unraised : s.faults = .raise → Scan.faults s.pending = []
  same : s' = s.closedBy (endBehind file stream) ∨ s' = s ∧ s.ahead = some (endBehind file stream)

end State

namespace Parser

/-- As long as something is left, a look does not depend on what is behind it. -/
theorem look_closedBy (e : Token) (env : Setting)
    (hraise : s.faults = .raise → Scan.faults s.pending = [])
    (hleft : s.ahead ≠ none ∨ s.pending ≠ []) : ∃ t s₁, Gives peek env s t s₁ ∧
      Gives peek env (s.closedBy e) t (s₁.closedBy e) ∧
        (s₁.faults = .raise → Scan.faults s₁.pending = []) := by
  obtain ⟨pending, ahead, previous, consumed, errors, faults, events⟩ := s
  cases ahead with
  | some t => exact ⟨t, _, gives_peek rfl, gives_peek rfl, hraise⟩
  | none =>
    rcases pending with _ | ⟨t | ⟨why, t⟩, rest⟩
    · simp at hleft
    · exact ⟨t, _, rfl, rfl, hraise⟩
    · cases faults with
      | shared => exact ⟨t, _, rfl, rfl, nofun⟩
      | separate errors => exact ⟨t, _, rfl, rfl, nofun⟩
      | raise => cases hraise rfl

/-- Where nothing is left, the end token that is put behind the stream is the one that might have
been there. -/
theorem look_end (env : Setting) (hahead : s.ahead = none) (hpending : s.pending = []) :
    let e : Token := .endAt (s.previousEnd env.source.file)
    Gives peek env s e { s with ahead := some e } ∧
      Gives peek env (s.closedBy e) e { s with ahead := some e } := by
  obtain ⟨pending, ahead, previous, consumed, errors, faults, events⟩ := s
  cases hahead
  cases hpending
  exact ⟨rfl, rfl⟩

theorem look_completed {file : String} (hfile : env.source.file = file)
    (hs : s.Completed file stream s') : ∃ t s₁ s₁', Gives peek env s t s₁ ∧
      Gives peek env s' t s₁' ∧ s₁.Completed file stream s₁' := by
  subst hfile
  obtain ⟨⟨taken, hreads⟩, hraise, rfl | ⟨rfl, hahead⟩⟩ := hs
  · by_cases hleft : s.ahead = none ∧ s.pending = []
    · -- one puts an end token behind the stream, and the other takes it off the stream
      obtain ⟨hahead, hpending⟩ := hleft
      obtain ⟨-, hend⟩ := hreads.endAt_previousEnd hahead hpending
      obtain ⟨hpeek, hpeek'⟩ := look_end env hahead hpending
      rw [hend] at hpeek hpeek'
      exact ⟨_, _, _, hpeek, hpeek', ⟨taken, hreads.pull (peek_pulls hpeek)⟩, hraise,
        .inr ⟨rfl, rfl⟩⟩
    · obtain ⟨t, s₁, hpeek, hpeek', hraise₁⟩ := look_closedBy _ env hraise (by tauto)
      exact ⟨t, s₁, _, hpeek, hpeek', ⟨taken, hreads.pull (peek_pulls hpeek)⟩, hraise₁, .inl rfl⟩
  · exact ⟨_, s', s', gives_peek hahead, gives_peek hahead, ⟨taken, hreads⟩, hraise,
      .inr ⟨rfl, hahead⟩⟩

/-- **A stream and the same with an end token are read alike.** -/
theorem coupling_completed (env : Setting) (stream : List Token) :
    Coupling env env (State.Completed env.source.file stream) fun _ _ => False where
  source := rfl
  ahead := by rintro s _ ⟨-, -, rfl | ⟨rfl, -⟩⟩ <;> rfl
  previous := by rintro s _ ⟨-, -, rfl | ⟨rfl, -⟩⟩ <;> rfl
  consumed := by rintro s _ ⟨-, -, rfl | ⟨rfl, -⟩⟩ <;> rfl
  isFull := by rintro s _ ⟨-, -, rfl | ⟨rfl, -⟩⟩ <;> rfl
  look hs := by
    obtain ⟨t, s₁, s₁', hpeek, hpeek', hs₁⟩ := look_completed rfl hs
    exact ⟨t, s₁, s₁', hpeek, hpeek', .inl hs₁⟩
  take := by
    rintro s _ t ⟨⟨taken, hreads⟩, hraise, rfl | ⟨rfl, hend'⟩⟩ hahead hend
    · exact ⟨⟨_, hreads.take hahead hend⟩, hraise, .inl rfl⟩
    · -- the end token is never consumed
      obtain rfl := Option.some.inj (hahead.symm.trans hend')
      cases hend
  note := by
    rintro s _ e ⟨⟨taken, hreads⟩, hraise, rfl | ⟨rfl, hahead⟩⟩
    · exact ⟨⟨taken, { hreads with }⟩, hraise, .inl rfl⟩
    · exact ⟨⟨taken, { hreads with }⟩, hraise, .inr ⟨rfl, hahead⟩⟩
  record := by
    rintro s _ why ⟨⟨taken, hreads⟩, hraise, rfl | ⟨rfl, hahead⟩⟩
    · exact .inl ⟨⟨taken, { hreads with }⟩, hraise, .inl rfl⟩
    · exact .inl ⟨⟨taken, { hreads with }⟩, hraise, .inr ⟨rfl, hahead⟩⟩
  stop := by
    rintro s _ t ⟨⟨taken, hreads⟩, hraise, rfl | ⟨rfl, hahead⟩⟩ why -
    · exact .inl ⟨⟨taken, { hreads with }⟩, hraise, .inl rfl⟩
    · exact .inl ⟨⟨taken, { hreads with }⟩, hraise, .inr ⟨rfl, hahead⟩⟩
  shared := nofun
  parted := nofun

theorem program_completed (hs : s.Completed env.source.file stream s') :
    Coupled env env (State.Completed env.source.file stream) (fun _ _ => False) (program env s)
      (program env s') :=
  program_coupled (coupling_completed env stream)
    (fun acc s₁ _ hs₁ => (parallel_itemStep (f := id) (k := {}) #[] rfl rfl acc).coupled
      (coupling_completed env stream) hs₁ (Known.at_nothing s₁)) hs

end Parser

/-! ## Parses -/

variable {setting : Setting} {errors : Collector} {faults : FaultSink} {scans : List Scan}

/-- With an end token behind its stream, a parse ends alike. -/
theorem parseScans_closed (hraise : faults = .raise → Scan.faults scans = []) :
    let closed := scans ++ [.token (endBehind setting.source.file (Scan.tokens scans))]
    (∀ p s, parseScans setting errors faults scans = .ok (p, s) →
      ∃ s', parseScans setting errors faults closed = .ok (p, s') ∧ s'.errors = s.errors ∧
        s'.faults = s.faults) ∧
    ∀ why s, parseScans setting errors faults scans = .error (why, s) →
      ∃ s', parseScans setting errors faults closed = .error (why, s') ∧ s'.errors = s.errors ∧
        s'.faults = s.faults := by
  intro closed
  have hsame {s s' : State} (h : s.Completed setting.source.file (Scan.tokens scans) s') :
      s'.errors = s.errors ∧ s'.faults = s.faults := by
    obtain ⟨-, -, rfl | ⟨rfl, -⟩⟩ := h
    · exact ⟨rfl, rfl⟩
    · exact ⟨rfl, rfl⟩
  have hstart : State.Completed setting.source.file (Scan.tokens scans)
      { pending := scans, errors, faults } { pending := closed, errors, faults } :=
    ⟨⟨[], State.reads_start _ _ _ _⟩, hraise, .inl rfl⟩
  have hruns := Parser.program_completed hstart
  unfold parseScans
  generalize Parser.program setting { pending := scans, errors, faults } = r,
    Parser.program setting { pending := closed, errors, faults } = r' at hruns ⊢
  cases hruns with
  | ok p s s' hrun hrun' hs =>
    rw [hrun, hrun']
    constructor
    · rintro _ _ ⟨⟩
      exact ⟨s', rfl, hsame hs⟩
    · rintro _ _ ⟨⟩
  | error e e' s s' hrun hrun' he hs =>
    rw [hrun, hrun']
    constructor
    · rintro _ _ ⟨⟩
    · rintro _ _ ⟨⟩
      refine ⟨s', ?_, hsame hs⟩
      cases he with
      | same e => rfl
      | tooDeep t => rfl
  | parted hparted => exact hparted.elim

/-- **A parse holds no more than one token that it has not consumed,** and that token is the next of
the stream, or an end token that is not there. When the parse has ended, the stream is used up,
unless the collector is full or the nesting was too deep. An end token behind the stream, where its
last token ends, makes no difference to the program or to what is told. -/
theorem parseScans_reads (setting : Setting) (errors : Collector) (faults : FaultSink)
    (scans : List Scan) :
    (∀ p s, parseScans setting errors faults scans = .ok (p, s) →
      (∃ taken, s.Reads setting.source.file (Scan.tokens scans) taken) ∧
        ((∀ t ∈ (Scan.tokens scans).dropLast, t.isEnd = false) → s.pending = [] ∨
          s.errors.isFull = true ∨
            ∃ why : Diagnostic, why.category = .recursionLimit ∧ .stopped why ∈ s.events)) ∧
    ((faults = .raise → Scan.faults scans = []) →
      let closed := scans ++ [.token (endBehind setting.source.file (Scan.tokens scans))]
      (∀ p s, parseScans setting errors faults scans = .ok (p, s) →
        ∃ s', parseScans setting errors faults closed = .ok (p, s') ∧ s'.errors = s.errors ∧
          s'.faults = s.faults) ∧
      ∀ why s, parseScans setting errors faults scans = .error (why, s) →
        ∃ s', parseScans setting errors faults closed = .error (why, s') ∧
          s'.errors = s.errors ∧ s'.faults = s.faults) := by
  refine ⟨fun p s h => ?_, parseScans_closed⟩
  unfold parseScans at h
  cases hrun : Parser.program setting { pending := scans, errors, faults } with
  | error e s₁ =>
    rw [hrun] at h
    cases h
  | ok p₁ s₁ =>
    rw [hrun] at h
    cases h
    exact Parser.program_reads hrun

/-- A name and a semicolon, without and with an end token. -/
theorem parseScans_reads_of_open :
    let setting : Setting := ⟨.ofText "m.arc" "a;", 8⟩
    let scans : List Scan := [.token ⟨.identifier, "a", ⟨⟨"m.arc", 1, 1, 0⟩, ⟨"m.arc", 1, 2, 1⟩⟩⟩,
      .token ⟨.symbol .semicolon, ";", ⟨⟨"m.arc", 1, 2, 1⟩, ⟨"m.arc", 1, 3, 2⟩⟩⟩]
    ∃ p s s', parseScans setting {} .raise scans = .ok (p, s) ∧ s.pending = [] ∧
      p.items.length = 1 ∧ p.span.stop = ⟨"m.arc", 1, 3, 2⟩ ∧
      parseScans setting {} .raise (scans ++ [.token (.endAt ⟨"m.arc", 1, 3, 2⟩)]) = .ok (p, s') ∧
      s'.errors = s.errors := by
  intro setting scans
  have hrun : (parseScans setting {} .raise scans).toOption.map (fun r =>
      (r.1.items.length, r.1.span.stop, r.2.errors.isFull, r.2.events.length)) =
        some (1, ⟨"m.arc", 1, 3, 2⟩, false, 0) := by
    decide +kernel
  have hends : ∀ t ∈ (Scan.tokens scans).dropLast, t.isEnd = false := by decide +kernel
  obtain ⟨⟨p, s⟩, hparse, hseen⟩ := exists_of_map_toOption hrun
  obtain ⟨hitems, hseen⟩ := Prod.mk.inj hseen
  obtain ⟨hstop, hseen⟩ := Prod.mk.inj hseen
  obtain ⟨hroomy, hevents⟩ := Prod.mk.inj hseen
  obtain ⟨hreads, hclosed⟩ := parseScans_reads setting {} .raise scans
  obtain ⟨s', hparse', herrors, -⟩ := (hclosed fun _ => rfl).1 p s hparse
  refine ⟨p, s, s', hparse, ?_, hitems, hstop, hparse', herrors⟩
  rcases (hreads p s hparse).2 hends with hpending | hfull | ⟨why, -, hwhy⟩
  · exact hpending
  · rw [hroomy] at hfull
    cases hfull
  · rw [List.length_eq_zero_iff.1 hevents] at hwhy
    cases hwhy

end ArcLang
