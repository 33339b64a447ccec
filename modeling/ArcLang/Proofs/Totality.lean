import ArcLang.Proofs.Isolation
import ArcLang.Proofs.Passage

/-!
# Every text gets a result

Whatever is wrong with a text is told in diagnostics. There is one exception, the length of an array
that has too many decimal digits: there the parse is given up.

* `Parser.FailsOnly`: the ways in which a rule may fail. The loop over items handles all failures
  but those that give up.
* `Passage.within`: a stream inside itself.
* `parse_total`: the statement.
-/

namespace ArcLang

namespace Parser

/-! ## Failures that are handled -/

/-- The rule fails in no other way. -/
def FailsOnly (allowed : Failure → Prop) (p : Parser α) : Prop :=
  ∀ env s e s', p env s = .error e s' → allowed e

/-- Failures that nothing handles. -/
def GivesUp (e : Failure) : Prop := e.told = none

namespace FailsOnly

variable {α β : Type} {allowed : Failure → Prop} {p : Parser α}

/-- A rule that always succeeds fails in no way. -/
theorem of_ok (h : ∀ env s, ∃ a s', p env s = .ok a s') : FailsOnly allowed p := by
  intro env s e s' hrun
  obtain ⟨a, s₁, hok⟩ := h env s
  rw [hok] at hrun
  cases hrun

theorem pure (a : α) : FailsOnly allowed (Pure.pure a) := of_ok fun _ s => ⟨a, s, rfl⟩

theorem get : FailsOnly allowed (MonadState.get : Parser State) := of_ok fun _ s => ⟨s, s, rfl⟩

theorem modifies (f : State → State) : FailsOnly allowed (modify f : Parser PUnit) :=
  of_ok fun _ s => ⟨⟨⟩, f s, rfl⟩

theorem bind {r : α → Parser β} (hp : FailsOnly allowed p) (hr : ∀ a, FailsOnly allowed (r a)) :
    FailsOnly allowed (p >>= r) := by
  intro env s e s' h
  rw [run_bind] at h
  cases hrun : p env s with
  | ok a s₁ =>
    rw [hrun] at h
    exact hr a env s₁ e s' h
  | error e₁ s₁ =>
    rw [hrun] at h
    cases h
    exact hp env s e s' hrun

theorem ite {c : Prop} [Decidable c] {q : Parser α} (hp : FailsOnly allowed p)
    (hq : FailsOnly allowed q) : FailsOnly allowed (if c then p else q) := by
  split
  · exact hp
  · exact hq

theorem peek : FailsOnly GivesUp peek := by
  intro env s e s' h
  rcases peek_cases env s with ⟨t, s₁, hpeek, -, -⟩ | ⟨why, s₁, hpeek⟩
  · rw [hpeek] at h
    cases h
  · rw [hpeek] at h
    cases h
    rfl

theorem advance : FailsOnly GivesUp advance :=
  peek.bind fun _ => .ite (.pure _) ((modifies _).bind fun _ => .pure _)

theorem iterate {step : β → Parser (ForInStep β)} (h : ∀ b, FailsOnly allowed (step b)) (b : β) :
    FailsOnly allowed (iterate step b) :=
  iterate_closed (FailsOnly allowed) pure get bind h b

theorem moveOn {before : Nat} {resting : Parser Bool} (h : FailsOnly GivesUp resting) :
    FailsOnly GivesUp (moveOn before resting) := by
  refine get.bind fun s => .ite (h.bind fun rests => ?_) (.pure _)
  exact .ite (.pure _) (advance.bind fun _ => .pure _)

/-- Recovery handles failures of syntax. -/
theorem recover {skip : Parser Unit} {resting : Parser Bool} (hskip : FailsOnly GivesUp skip)
    (hresting : FailsOnly GivesUp resting) (rule : Parser α) :
    FailsOnly (fun e => ∀ why echo, e ≠ .syntactic why echo) (recover rule skip resting) := by
  intro env s e s' h
  rw [run_recover] at h
  have hbehind (why : Diagnostic) (echo : Bool) : FailsOnly GivesUp (do
      report why echo; skip
      Parser.moveOn s.consumed resting; Pure.pure none : Parser (Option α)) :=
    (modifies _).bind fun _ => hskip.bind fun _ => (moveOn hresting).bind fun _ => .pure none
  generalize rule env s = x at h
  rcases x with ⟨a, s₁⟩ | ⟨⟨why, echo⟩ | why | why, s₁⟩
  · cases h
  · have hup := hbehind why echo env s₁ e s' h
    rintro why echo rfl
    cases hup
  · cases h
    rintro why echo ⟨⟩
  · cases h
    rintro why echo ⟨⟩

/-- Where the nesting is too deep, that is handled too. -/
theorem haltDeep (h : FailsOnly (fun e => ∀ why echo, e ≠ .syntactic why echo) p) (a : α) :
    FailsOnly GivesUp (haltDeep p a) := by
  intro env s e s' hrun
  rw [run_haltDeep] at hrun
  have hp := h env s
  generalize p env s = x at hp hrun
  rcases x with ⟨a, s₁⟩ | ⟨⟨why, echo⟩ | why | why, s₁⟩
  · cases hrun
  · exact absurd rfl (hp _ _ rfl why echo)
  · cases hrun
  · cases hrun
    rfl

end FailsOnly

theorem failsOnly_skipItem : FailsOnly GivesUp skipItem := by
  refine (FailsOnly.iterate (fun opened => FailsOnly.peek.bind fun t => ?_) 0).bind fun _ => .pure _
  refine .ite (.pure _) (.ite (.pure _) (FailsOnly.advance.bind fun _ => ?_))
  exact .ite (.pure _) (.ite (.pure _) (.pure _))

/-- Whatever is wrong with an item is handled, unless the parse is given up. -/
theorem failsOnly_itemStep (room : Nat) (acc : Array Item) :
    FailsOnly GivesUp (itemStep room acc) := by
  rw [itemStep_eq]
  refine FailsOnly.bind (FailsOnly.peek.bind fun _ => .pure _) fun ended => ?_
  refine FailsOnly.bind (FailsOnly.get.bind fun _ => .pure _) fun full => ?_
  refine .ite (.pure _) (.haltDeep ?_ _)
  refine (FailsOnly.recover failsOnly_skipItem (.pure _) _).bind fun read => ?_
  cases read with
  | none => exact .pure _
  | some i => exact .pure _

/-! ## Programs in another stream -/

/-- What a program does when it has these items already. -/
def programFrom (items : Array Item) : Parser Program := do
  let env ← read
  let items ← iterate (itemStep env.room) items
  let last ← peek
  let s ← get
  let stop := if last.isEnd then last.span.stop else s.previousEnd env.source.file
  return ⟨⟨.start env.source.file, stop⟩, items.toList⟩

theorem run_programFrom (items : Array Item) (env : Setting) (s : State) :
    programFrom items env s = (iterate (itemStep env.room) items >>= close) env s := rfl

/-- The same outcome in both streams: the items follow those that were there before, and the same
diagnostics are told; or the parse is given up at the same length. -/
inductive SameOutcome (P : Passage) (before : Array Item) :
    EStateM.Result Failure State Program → EStateM.Result Failure State Program → Prop
  | ok {p p' : Program} {s s' : State} :
      p'.items = before.toList ++ p.items.map (Item.moved P.move) →
      List.Forall₂ (Diagnostic.Moves P.move) s.errors.errors s'.errors.errors →
      SameOutcome P before (.ok p s) (.ok p' s')
  | hugeLength {t : Token} {n : Nat} {s s' : State} : P.Fits t → t.kind = .number →
      Numeral.resolve t.lexeme = .tooManyDigits n →
      SameOutcome P before (.error (.aborted (.hugeLength n)) s)
        (.error (.aborted (.hugeLength n)) s')

/-- **A program does in the other stream what it does in the one,** whatever items are there. -/
theorem programFrom_follows {P : Passage} (hbeyond : P.beyond = none) {s s' : State}
    (hs : P.Alike s s') (before : Array Item) :
    SameOutcome P before (program P.env s) (programFrom before P.env' s') := by
  have hroom : P.env'.room = P.env.room := congrArg Int.toNat P.maxDepth_eq
  have hitems : Parallel P.move {} (joined P.move before)
      (iterate (itemStep P.env.room) #[]) (iterate (itemStep P.env.room) before) :=
    parallel_items before rfl rfl
  have hends := hitems.follows hs ⟨List.forall_mem_nil _, Known.at_nothing s, by rintro ⟨⟩⟩
  have hgives : FailsOnly GivesUp (iterate (itemStep P.env.room) #[]) :=
    .iterate (failsOnly_itemStep _) _
  show SameOutcome P before (programFrom #[] P.env s) (programFrom before P.env' s')
  rw [run_programFrom, run_programFrom, hroom, run_bind, run_bind]
  generalize hrun : iterate (itemStep P.env.room) #[] P.env s = x,
    iterate (itemStep P.env.room) before P.env' s' = x' at hends
  cases hends with
  | strays hstrays => exact absurd hbeyond hstrays.1
  | error hfails halike =>
    have hup := hgives _ _ _ _ hrun
    cases hfails with
    | syntactic => cases hup
    | tooDeep => cases hup
    | hugeLength hfits hkind hdigits => exact .hugeLength hfits hkind hdigits
  | ok hab halike =>
    subst hab
    rcases halike.peek with ⟨t, s₂, s₂', hpeek, hpeek', halike₂, -⟩ | ⟨hcut, -⟩
    · dsimp only
      rw [gives_close hpeek, gives_close hpeek']
      refine .ok ?_ halike₂.errors
      simp [joined]
    · exact absurd hbeyond hcut

end Parser

/-! ## A stream inside itself -/

theorem Cause.moves_id (c : Cause) : c.Moves id c := by
  by_cases h : ∃ expected delimiter l, c = unclosed expected delimiter l
  · obtain ⟨expected, delimiter, l, rfl⟩ := h
    exact .unclosed expected delimiter l
  · push Not at h
    exact .plain h

theorem Diagnostic.moves_id (d : Diagnostic) : d.Moves id d :=
  ⟨(Option.map_id_apply ..).symm, rfl, d.cause.moves_id⟩

theorem Scan.moves_id (x : Scan) : x.Moves id x := by
  cases x with
  | token t => exact .token t
  | fault why t => exact .fault t why.moves_id

namespace Passage

/-- A stream up to its end token, inside itself. -/
def within (env : Setting) (scans : List Scan) : Passage where
  env := env
  env' := env
  move := id
  before := 0
  beyond := none
  Fits t := t ∈ Scan.tokens scans
  maxDepth_eq := rfl
  line_eq _ _ := rfl

/-- Scans in the same order track each other up to the end token. -/
theorem tracks_of_forall₂ {P : Passage} (hbeyond : P.beyond = none) {xs ys : List Scan}
    (h : List.Forall₂ (Scan.Moves P.move) xs ys) (hfits : ∀ x ∈ xs, P.Fits x.shown)
    (hend : ∃ x ∈ xs, x.shown.isEnd = true) : P.Tracks xs ys := by
  induction h with
  | nil =>
    obtain ⟨x, hx, -⟩ := hend
    cases hx
  | @cons x y xs ys hxy _ ih =>
    obtain ⟨hx, hxs⟩ := List.forall_mem_cons.1 hfits
    cases hlast : x.shown.isEnd with
    | true => exact .last hbeyond hxy hx hlast
    | false =>
      refine .next hxy hx hlast (ih hxs ?_)
      obtain ⟨z, hz, hzend⟩ := hend
      rcases List.mem_cons.1 hz with rfl | hz
      · rw [hlast] at hzend
        cases hzend
      · exact ⟨z, hz, hzend⟩

end Passage

/-! ## Texts -/

section Texts

variable (text file : String) (o : Options)

/-- What a text is parsed with. -/
abbrev settingOf : Setting := ⟨.ofText file text, o.maxDepth⟩

theorem sited_startOf (n : Int) : (startOf text file n).Sited fun _ _ => True := by
  intro why t ht
  obtain ⟨xs, e, hscan, -, hxs⟩ := scanFrom_eq (.ofText file text) .start text.toList
  have ht : Scan.fault why t ∈ xs ++ [.token e] := hscan ▸ ht
  rcases List.mem_append.1 ht with ht | ht
  · exact ⟨Token.isError_iff.2 (hxs _ ht), trivial⟩
  · cases List.mem_singleton.1 ht

/-- The stream of a text inside itself. -/
theorem alike_startOf (n : Int) :
    (Passage.within (settingOf text file o) (scansOf text file)).Alike (startOf text file n)
      (startOf text file n) where
  views := by
    obtain ⟨xs, e, hscan, hend, -⟩ := scanFrom_eq (.ofText file text) .start text.toList
    have hlast : Scan.token e ∈ scanFrom (.ofText file text) .start text.toList := by
      rw [hscan]
      exact List.mem_append_right xs (List.mem_singleton_self _)
    refine .fresh (Passage.tracks_of_forall₂ rfl ?_ (fun x hx => List.mem_map_of_mem hx) ?_)
    · exact List.forall₂_same.2 fun x _ => x.moves_id
    · exact ⟨.token e, hlast, hend⟩
  previous _ h := by cases h
  consumed := rfl
  errors := .nil
  capacity := rfl
  shared := rfl
  shared' := rfl
  sited := sited_startOf text file n

theorem parse_eq : parse text file o =
    match Parser.program (settingOf text file o) (startOf text file o.maxErrors) with
    | .ok p s => .ok ⟨file, p, s.errors.sorted, s.events.reverse ++
        [.parsedText file p.items.length s.errors.sorted.length]⟩
    | .error e _ => .error e.abort := by
  unfold parse parseScans
  dsimp only
  cases Parser.program (settingOf text file o) (startOf text file o.maxErrors) <;> rfl

/-- **Every text gets a result,** unless it holds a number with more decimal digits than the length
of an array may have; then it may be that the parse is given up, with the count of the digits. -/
theorem parse_total : (∃ r, parse text file o = .ok r) ∨
    ∃ t ∈ Scan.tokens (scansOf text file), ∃ n, t.kind = .number ∧
      Numeral.resolve t.lexeme = .tooManyDigits n ∧
        parse text file o = .error (.hugeLength n) := by
  have houtcome := Parser.programFrom_follows rfl (alike_startOf text file o o.maxErrors) #[]
  rw [parse_eq]
  generalize hrun : Parser.program (settingOf text file o) (startOf text file o.maxErrors) = x
  have hrun' : Parser.program (Passage.within (settingOf text file o) (scansOf text file)).env
      (startOf text file o.maxErrors) = x := hrun
  rw [hrun'] at houtcome
  generalize Parser.programFrom #[] _ _ = x' at houtcome
  cases houtcome with
  | ok => exact .inl ⟨_, rfl⟩
  | @hugeLength t n s s' hfits hkind hdigits => exact .inr ⟨t, hfits, n, hkind, hdigits, rfl⟩

end Texts

end ArcLang
