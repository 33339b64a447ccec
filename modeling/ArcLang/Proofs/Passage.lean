import ArcLang.Proofs.Telling

/-!
# One stream inside another

A stream of tokens may be found again in another one, at other places and behind other tokens. The
parser does there what it did, as long as it stays inside: rules give the same trees, record the
same diagnostics and fail in the same way, all at the other places.

* `Passage`: where the tokens of one stream are found in another.
* `Passage.Alike`: two states that look at the same token of the stream.
* `Parser.Parallel.follows`: rules in such states end in such states.
-/

namespace ArcLang

/-- Where the tokens of one stream are found in another, and what is common to the two. -/
structure Passage where
  env : Setting
  env' : Setting
  move : Location → Location
  /-- The tokens that come before in the other stream. -/
  before : Nat
  /-- What comes in the other stream in place of the end token, where that is cut off. -/
  beyond : Option (List Scan)
  /-- What is known of every token. -/
  Fits : Token → Prop
  maxDepth_eq : env'.maxDepth = env.maxDepth
  line_eq : ∀ t, Fits t → env'.source.line? (move t.place).line = env.source.line? t.place.line

/-- The end token is looked at, behind which nothing comes. -/
def State.Halted (s : State) : Prop := ∃ e, s.ahead = some e ∧ e.isEnd = true

/-- An end token that is looked at stays. -/
theorem State.Halted.leads {s s' : State} (h : s.Halted) (hl : s.Leads s') : s'.Halted := by
  obtain ⟨e, he, hend⟩ := h
  obtain ⟨ts, hc⟩ := hl
  refine ⟨e, (hc.touched he).resolve_left fun hmem => ?_, hend⟩
  rw [State.not_isEnd_of_mem_input (hc.input ▸ List.mem_append_left _ hmem)] at hend
  cases hend

/-- A token that has been consumed stays behind. -/
theorem State.Leads.previous_ne_none {s s' : State} (hl : s.Leads s') (h : s.previous ≠ none) :
    s'.previous ≠ none := by
  obtain ⟨ts, hc⟩ := hl
  rw [hc.previous]
  cases ts.getLast? with
  | none => exact h
  | some u => exact Option.some_ne_none u

open ArcLang.Parser (Gives Known Leads gives_peek run_bind run_get run_pure run_pull peek_gives)

namespace Passage

variable (P : Passage)

/-- The scans of the one stream are those of the other, up to the end token. -/
inductive Tracks : List Scan → List Scan → Prop
  | last {x y : Scan} {xs ys : List Scan} : P.beyond = none → x.Moves P.move y → P.Fits x.shown →
      x.shown.isEnd = true → Tracks (x :: xs) (y :: ys)
  | next {x y : Scan} {xs ys : List Scan} : x.Moves P.move y → P.Fits x.shown →
      x.shown.isEnd = false → Tracks xs ys → Tracks (x :: xs) (y :: ys)
  | cut {e : Token} {ys : List Scan} : P.beyond = some ys → e.isEnd = true → Tracks [.token e] ys

/-- What is looked at and what is to come are the same. -/
inductive Views : Option Token → List Scan → Option Token → List Scan → Prop
  | fresh {xs ys : List Scan} : P.Tracks xs ys → Views none xs none ys
  | last {t : Token} {xs ys : List Scan} : P.Fits t → t.isEnd = true → P.beyond = none →
      Views (some t) xs (some (t.moved P.move)) ys
  | looked {t : Token} {xs ys : List Scan} : P.Fits t → t.isEnd = false → P.Tracks xs ys →
      Views (some t) xs (some (t.moved P.move)) ys

/-- Two states at the same token, which have recorded the same. -/
structure Alike (s s' : State) : Prop where
  views : P.Views s.ahead s.pending s'.ahead s'.pending
  previous : ∀ t, s.previous = some t → s'.previous = some (t.moved P.move)
  consumed : s'.consumed = P.before + s.consumed
  errors : List.Forall₂ (Diagnostic.Moves P.move) s.errors.errors s'.errors.errors
  capacity : s'.errors.capacity = s.errors.capacity
  shared : s.faults = .shared
  shared' : s'.faults = .shared
  sited : s.Sited fun _ _ => True

/-- The same failure at the other place. A length with too many digits is that of a number. -/
inductive Fails : Failure → Failure → Prop
  | syntactic {why why' : Diagnostic} (echo : Bool) : why.Moves P.move why' →
      Fails (.syntactic why echo) (.syntactic why' echo)
  | tooDeep {why why' : Diagnostic} : why.Moves P.move why' → Fails (.tooDeep why) (.tooDeep why')
  | hugeLength {t : Token} {n : Nat} : P.Fits t → t.kind = .number →
      Numeral.resolve t.lexeme = .tooManyDigits n →
      Fails (.aborted (.hugeLength n)) (.aborted (.hugeLength n))

/-- The first run has come to where the stream is cut off. -/
def Strays {α : Type} (r : EStateM.Result Failure State α) : Prop :=
  P.beyond ≠ none ∧ match r with
    | .ok _ s => s.Halted
    | .error e s => e.told ≠ none → s.Halted

/-- The runs end alike, or the first one has come to where the stream is cut off. -/
inductive Ends {α β : Type} (v : α → β) : EStateM.Result Failure State α →
    EStateM.Result Failure State β → Prop
  | ok {a : α} {b : β} {s s' : State} : v a = b → P.Alike s s' → Ends v (.ok a s) (.ok b s')
  | error {e e' : Failure} {s s' : State} : P.Fails e e' → P.Alike s s' →
      Ends v (.error e s) (.error e' s')
  | strays {r : EStateM.Result Failure State α} {r' : EStateM.Result Failure State β} :
      P.Strays r → Ends v r r'

/-- What a rule may count on where it starts holds there. -/
structure Holds (k : Known) (s : State) : Prop where
  seen : ∀ t ∈ k.seen, P.Fits t
  at_ : k.At s
  fed : k.fed = true → s.previous ≠ none

variable {P} {s s' : State} {α α' β β' : Type} {u : α → α'} {v : β → β'} {k : Known}
  {t : Token}

/-! ## States -/

namespace Alike

theorem note (h : P.Alike s s') (e e' : Event) : P.Alike (s.note e) (s'.note e') :=
  { h with sited := h.sited }

theorem isFull_eq (h : P.Alike s s') : s'.errors.isFull = s.errors.isFull := by
  rw [Bool.eq_iff_iff, Collector.isFull_iff, Collector.isFull_iff, h.capacity, h.errors.length_eq]

theorem record (h : P.Alike s s') {why why' : Diagnostic} (hwhy : why.Moves P.move why') :
    P.Alike (s.record why) (s'.record why') :=
  { h with
    errors := by
      show List.Forall₂ _ (s.errors.add why).errors (s'.errors.add why').errors
      rw [Collector.errors_add, Collector.errors_add, h.isFull_eq]
      split
      · exact h.errors
      · exact List.rel_append h.errors (.cons hwhy .nil)
    capacity := by
      show (s'.errors.add why').capacity = (s.errors.add why).capacity
      rw [Collector.capacity_add, Collector.capacity_add, h.capacity]
    sited := h.sited }

/-- Consuming the token that is looked at. -/
theorem take (h : P.Alike s s') (ht : s.ahead = some t) (hend : t.isEnd = false) :
    s'.ahead = some (t.moved P.move) ∧
      P.Alike { s with ahead := none, previous := some t, consumed := s.consumed + 1 }
        { s' with
          ahead := none, previous := some (t.moved P.move), consumed := s'.consumed + 1 } := by
  have hviews := h.views
  rw [ht] at hviews
  generalize hahead : s'.ahead = ahead at hviews
  cases hviews with
  | last _ hlast => rw [hend] at hlast; cases hlast
  | looked hfits _ htracks =>
    exact ⟨rfl, { h with
      views := .fresh htracks
      previous := by rintro _ ⟨⟩; rfl
      consumed := by rw [h.consumed, Nat.add_assoc]
      sited := h.sited }⟩

/-- Taking the next scans off the two streams. -/
theorem pull (h : P.Alike s s') {x y : Scan} {xs ys : List Scan} (hs : s.ahead = none)
    (hs' : s'.ahead = none) (hp : s.pending = x :: xs) (hp' : s'.pending = y :: ys)
    (hxy : x.Moves P.move y)
    (hviews : P.Views (some x.shown) xs (some (x.shown.moved P.move)) ys) :
    ∃ s₁ s₁', Gives Parser.peek P.env s x.shown s₁ ∧
      Gives Parser.peek P.env' s' (x.shown.moved P.move) s₁' ∧ P.Alike s₁ s₁' := by
  have hsited (why : Diagnostic) (t : Token) (ht : Scan.fault why t ∈ xs) :
      t.isError = true ∧ True := h.sited why t (hp ▸ List.mem_cons_of_mem x ht)
  obtain ⟨pending, ahead, previous, consumed, errors, faults, events⟩ := s
  obtain ⟨pending', ahead', previous', consumed', errors', faults', events'⟩ := s'
  obtain rfl : faults = .shared := h.shared
  obtain rfl : faults' = .shared := h.shared'
  obtain rfl : ahead = none := hs
  obtain rfl : ahead' = none := hs'
  obtain rfl : pending = x :: xs := hp
  obtain rfl : pending' = y :: ys := hp'
  cases hxy with
  | token t =>
    refine ⟨_, _, rfl, rfl, ?_⟩
    exact { h with views := hviews, sited := hsited }
  | @fault why why' t hwhy =>
    have hrecord := (h.note (.resynchronized t) (.resynchronized (t.moved P.move))).record hwhy
    refine ⟨_, _, rfl, rfl, ?_⟩
    exact { hrecord with views := hviews, sited := hsited }

/-- Looking shows the same token, unless the stream is cut off. -/
theorem peek (h : P.Alike s s') :
    (∃ t s₁ s₁', Gives Parser.peek P.env s t s₁ ∧
      Gives Parser.peek P.env' s' (t.moved P.move) s₁' ∧ P.Alike s₁ s₁' ∧ P.Fits t) ∨
      P.beyond ≠ none ∧ ∃ t s₁, Gives Parser.peek P.env s t s₁ ∧ t.isEnd = true := by
  have hviews := h.views
  generalize hs : s.ahead = ahead, hp : s.pending = pending, hs' : s'.ahead = ahead',
    hp' : s'.pending = pending' at hviews
  cases hviews with
  | last hfits hend hbeyond => exact .inl ⟨_, s, s', gives_peek hs, gives_peek hs', h, hfits⟩
  | looked hfits hend htracks => exact .inl ⟨_, s, s', gives_peek hs, gives_peek hs', h, hfits⟩
  | fresh htracks =>
    cases htracks with
    | @cut e ys hbeyond hend =>
      have hpeek : Gives Parser.peek P.env s e { s with pending := [], ahead := some e } := by
        unfold Gives Parser.peek
        simp only [run_bind, run_get, hs, run_pull, hp]
        rfl
      exact .inr ⟨by rw [hbeyond]; exact Option.some_ne_none _, _, _, hpeek, hend⟩
    | last hbeyond hxy hfits hend =>
      obtain ⟨s₁, s₁', hpeek, hpeek', halike⟩ := h.pull hs hs' hp hp' hxy (.last hfits hend hbeyond)
      exact .inl ⟨_, s₁, s₁', hpeek, hpeek', halike, hfits⟩
    | next hxy hfits hend htracks =>
      obtain ⟨s₁, s₁', hpeek, hpeek', halike⟩ :=
        h.pull hs hs' hp hp' hxy (.looked hfits hend htracks)
      exact .inl ⟨_, s₁, s₁', hpeek, hpeek', halike, hfits⟩

end Alike

/-! ## Runs -/

namespace Ends

variable {p : Parser α} {p' : Parser α'} {r : α → Parser β} {r' : α' → Parser β'}

/-- What follows an end of the first run that has strayed has strayed too. -/
theorem after_strays {s₁ : State} {x : EStateM.Result Failure State β}
    {y : EStateM.Result Failure State β'} (hbeyond : P.beyond ≠ none) (hs : s₁.Halted)
    (hx : Leads s₁ x) : P.Ends v x y := by
  refine .strays ⟨hbeyond, ?_⟩
  cases x with
  | ok b s₂ => exact hs.leads hx
  | error e s₂ => exact fun htold => hs.leads (hx htold)

theorem bind (hp : P.Ends u (p P.env s) (p' P.env' s'))
    (hr : ∀ a s₁ s₁', Gives p P.env s a s₁ → P.Alike s₁ s₁' →
      P.Ends v (r a P.env s₁) (r' (u a) P.env' s₁'))
    (hleads : ∀ a s₁, Gives p P.env s a s₁ → Leads s₁ (r a P.env s₁)) :
    P.Ends v ((p >>= r) P.env s) ((p' >>= r') P.env' s') := by
  rw [run_bind, run_bind]
  generalize hrun : p P.env s = x, hrun' : p' P.env' s' = x' at hp
  cases hp with
  | ok hab halike =>
    subst hab
    exact hr _ _ _ hrun halike
  | error hfails halike => exact .error hfails halike
  | strays hstrays =>
    cases x with
    | ok a s₁ => exact after_strays hstrays.1 hstrays.2 (hleads a s₁ hrun)
    | error e s₁ => exact .strays hstrays

theorem peek {r : Token → Parser β} {r' : Token → Parser β'} (hs : P.Alike s s')
    (hr : ∀ t s₁ s₁', s.Consumes [] s₁ → s₁.ahead = some t → P.Fits t → P.Alike s₁ s₁' →
      P.Ends v (r t P.env s₁) (r' (t.moved P.move) P.env' s₁'))
    (hleads : ∀ t s₁, s.Consumes [] s₁ → s₁.ahead = some t → Leads s₁ (r t P.env s₁)) :
    P.Ends v ((Parser.peek >>= r) P.env s) ((Parser.peek >>= r') P.env' s') := by
  rcases hs.peek with ⟨t, s₁, s₁', hpeek, hpeek', halike, hfits⟩ | ⟨hbeyond, t, s₁, hpeek, hend⟩
  · obtain ⟨hc, -, hahead⟩ := peek_gives hpeek
    rw [run_bind, run_bind, hpeek, hpeek']
    exact hr t s₁ s₁' hc hahead hfits halike
  · obtain ⟨hc, -, hahead⟩ := peek_gives hpeek
    rw [run_bind, hpeek]
    exact after_strays hbeyond ⟨t, hahead, hend⟩ (hleads t s₁ hc hahead)

/-- A repetition, given its steps. -/
theorem iterate {step : β → Parser (ForInStep β)} {step' : β' → Parser (ForInStep β')}
    (progresses : Parser.Progresses step) (progresses' : Parser.Progresses step')
    (hstep : ∀ b s s', P.Alike s s' → (k.fed = true → s.previous ≠ none) →
      P.Ends (Parser.mapStep v) (step b P.env s) (step' (v b) P.env' s'))
    (hleads : ∀ b s, s.Sited (fun _ _ => True) → Leads s (step b P.env s))
    (hrest : ∀ b s, s.Sited (fun _ _ => True) → Leads s (Parser.iterate step b P.env s))
    (hs : P.Alike s s') (hfed : k.fed = true → s.previous ≠ none) (b : β) :
    P.Ends v (Parser.iterate step b P.env s) (Parser.iterate step' (v b) P.env' s') := by
  induction hn : s.remaining using Nat.strong_induction_on generalizing b s s' with
  | _ n ih =>
    have hfirst := hstep b s s' hs hfed
    have hfirst' := hleads b s hs.sited
    rw [Parser.iterate_eq progresses, Parser.iterate_eq progresses']
    generalize hrun : step b P.env s = x, hrun' : step' (v b) P.env' s' = x' at hfirst hfirst' ⊢
    cases hfirst with
    | error hfails halike => exact .error hfails halike
    | strays hstrays =>
      rcases x with ⟨b₁ | b₁, s₁⟩ | ⟨e, s₁⟩
      · exact .strays hstrays
      · obtain ⟨ts, hc⟩ := hfirst'
        exact after_strays hstrays.1 hstrays.2 (hrest b₁ s₁ (hc.sited hs.sited))
      · exact .strays hstrays
    | @ok r r' s₁ s₁' hr halike =>
      subst hr
      cases r with
      | done b₁ => exact .ok rfl halike
      | yield b₁ =>
        have hlt := progresses P.env b s b₁ s₁ hrun
        refine ih s₁.remaining (by omega) halike (fun h => ?_) b₁ rfl
        exact State.Leads.previous_ne_none hfirst' (hfed h)

end Ends

/-- Diagnostics at a token, in the two sources. -/
theorem ofPlace_moves (ht : P.Fits t) {c c' : Cause} (hc : c.Moves P.move c') :
    (Diagnostic.ofPlace P.env.source t.place c).Moves P.move
      (.ofPlace P.env'.source (P.move t.place) c') :=
  ⟨rfl, P.line_eq t ht, hc⟩

end Passage

namespace Parser

open Passage (Ends)

variable {P : Passage} {s s' : State} {α α' β β' : Type} {u : α → α'} {v : α → β} {k : Known}
  {t : Token}

/-- The rule does in the other stream what it does in the one, and only consumes tokens. -/
structure Keeps (P : Passage) (p : Parser α) (q : Parser β) (v : α → β) : Prop where
  ends : ∀ {s s'}, P.Alike s s' → P.Ends v (p P.env s) (q P.env' s')
  leads : ∀ {s}, s.Sited (fun _ _ => True) → Leads s (p P.env s)

namespace Keeps

theorem pure {a : α} {b : β} (h : v a = b) : Keeps P (Pure.pure a) (Pure.pure b) v :=
  ⟨fun hs => .ok h hs, fun _ => .refl _⟩

theorem bind {p : Parser α} {p' : Parser α'} {r : α → Parser β} {r' : α' → Parser β'}
    {v : β → β'} (hp : Keeps P p p' u) (hr : ∀ a, Keeps P (r a) (r' (u a)) v) :
    Keeps P (p >>= r) (p' >>= r') v where
  ends {s s'} hs := by
    have hleads := hp.leads hs.sited
    refine Ends.bind (hp.ends hs) (fun a s₁ s₁' _ halike => (hr a).ends halike) fun a s₁ hrun => ?_
    rw [hrun] at hleads
    obtain ⟨ts, hc⟩ := hleads
    exact (hr a).leads (hc.sited hs.sited)
  leads hs := (hp.leads hs).bind fun a s₁ ⟨ts, hc⟩ => (hr a).leads (hc.sited hs)

theorem advance : Keeps P advance advance (Token.moved P.move) where
  ends hs := by
    refine Ends.peek hs (fun t s₁ s₁' hc hahead hfits halike => ?_) fun t s₁ hc hahead => ?_
    · cases hend : t.isEnd with
      | true =>
        simp only [Token.isEnd_moved, hend]
        exact .ok rfl halike
      | false =>
        simp only [Token.isEnd_moved, hend]
        exact .ok rfl (halike.take hahead hend).2
    · cases hend : t.isEnd with
      | true => exact .refl s₁
      | false => exact ⟨[t], .take hahead hend⟩
  leads {s} hs := by
    have hsteady : Steady [] Parser.advance := steady_advance
    have hrun := hsteady P.env s
    generalize Parser.advance P.env s = x at hrun ⊢
    rcases x with _ | ⟨_ | _ | _, _⟩
    · exact hrun
    · exact fun _ => hrun.1
    · exact fun _ => hrun
    · exact fun htold => absurd rfl htold

theorem moveOn {resting : Parser Bool} (h : Keeps P resting resting id) {before before' : Nat}
    (hbefore : before' = P.before + before) :
    Keeps P (moveOn before resting) (moveOn before' resting) id := by
  have hgoes : Keeps P (do unless ← resting do let _ ← Parser.advance : Parser Unit)
      (do unless ← resting do let _ ← Parser.advance : Parser Unit) id := by
    refine h.bind fun rests => ?_
    cases rests with
    | true => exact .pure rfl
    | false => exact advance.bind fun _ => .pure rfl
  refine ⟨fun {s s'} hs => ?_, fun {s} hs => ?_⟩
  · have hiff : s.consumed = before ↔ s'.consumed = before' := by
      rw [hs.consumed, hbefore]
      omega
    rw [run_moveOn, run_moveOn]
    by_cases hc : s.consumed = before
    · rw [if_pos hc, if_pos (hiff.1 hc)]
      exact hgoes.ends hs
    · rw [if_neg hc, if_neg (mt hiff.2 hc)]
      exact .ok rfl hs
  · rw [run_moveOn]
    split
    · exact hgoes.leads hs
    · exact .refl s

/-- What recovery does behind a rule that does the same in both streams. -/
theorem recover {p : Parser α} {p' : Parser β} {skip : Parser Unit} {resting : Parser Bool}
    (hs : P.Alike s s') (hskip : Keeps P skip skip id) (hresting : Keeps P resting resting id)
    (hrule : P.Ends v (p P.env s) (p' P.env' s')) (hleads : Leads s (p P.env s)) :
    P.Ends (Option.map v) (Parser.recover p skip resting P.env s)
      (Parser.recover p' skip resting P.env' s') := by
  have hbehind : Keeps P
      (do skip; Parser.moveOn s.consumed resting; Pure.pure none : Parser (Option α))
      (do skip; Parser.moveOn s'.consumed resting; Pure.pure none : Parser (Option β))
      (Option.map v) :=
    hskip.bind fun _ => (hresting.moveOn hs.consumed).bind fun _ => .pure rfl
  rw [run_recover, run_recover]
  generalize p P.env s = x, p' P.env' s' = x' at hrule hleads
  cases hrule with
  | ok hab halike => exact .ok (congrArg some hab) halike
  | error hfails halike =>
    cases hfails with
    | tooDeep hwhy => exact .error (.tooDeep hwhy) halike
    | hugeLength hfits hkind hdigits => exact .error (.hugeLength hfits hkind hdigits) halike
    | @syntactic why why' echo hwhy =>
      dsimp only
      rw [run_bind, run_bind]
      cases echo with
      | true => exact hbehind.ends (halike.note _ _)
      | false => exact hbehind.ends ((halike.record hwhy).note _ _)
  | strays hstrays =>
    rcases x with _ | ⟨⟨why, echo⟩ | _ | _, s₁⟩
    · exact .strays hstrays
    · -- the end token is still looked at behind all that recovery does
      obtain ⟨ts, hc⟩ := hleads nofun
      obtain ⟨s₂, hreport, hc₂, -⟩ := report_records why echo P.env s₁
      dsimp only
      rw [run_bind, hreport]
      exact Ends.after_strays hstrays.1 ((hstrays.2 nofun).leads ⟨[], hc₂⟩)
        (hbehind.leads (hc₂.sited (hc.sited hs.sited)))
    · exact .strays hstrays
    · exact .strays hstrays

end Keeps

/-- What ends a repetition in the one stream ends it in the other. -/
theorem ends_haltDeep {p : Parser α} {p' : Parser β} (h : P.Ends v (p P.env s) (p' P.env' s'))
    (a : α) : P.Ends v (haltDeep p a P.env s) (haltDeep p' (v a) P.env' s') := by
  rw [run_haltDeep, run_haltDeep]
  generalize p P.env s = x, p' P.env' s' = x' at h
  cases h with
  | ok hab halike => exact .ok hab halike
  | strays hstrays =>
    rcases x with _ | ⟨_ | _ | _, _⟩
    · exact .strays hstrays
    · exact .strays hstrays
    · refine .strays ⟨hstrays.1, ?_⟩
      exact State.Halted.leads (hstrays.2 nofun) ⟨[], (State.Consumes.record _).trans (.note _)⟩
    · exact .strays hstrays
  | error hfails halike =>
    cases hfails with
    | syntactic echo hwhy => exact .error (.syntactic echo hwhy) halike
    | tooDeep hwhy => exact .ok rfl ((halike.record hwhy).note _ _)
    | hugeLength hfits hkind hdigits => exact .error (.hugeLength hfits hkind hdigits) halike

/-- **A rule does in the other stream what it does in the one.** -/
theorem Parallel.follows {p : Parser α} {q : Parser β} (h : Parallel P.move k v p q)
    (hs : P.Alike s s') (hk : P.Holds k s) : P.Ends v (p P.env s) (q P.env' s') := by
  induction h generalizing s s' with
  | pure heq => exact .ok heq hs
  | bind hp hr ihp ihr =>
    have hleads := hp.leads P.env hs.sited hk.at_
    refine Ends.bind (ihp hs hk) (fun a s₁ s₁' hrun halike => ?_) fun a s₁ hrun => ?_
    · rw [hrun] at hleads
      refine ihr a halike ⟨hk.seen, Known.at_on _ _, fun hfed => ?_⟩
      exact State.Leads.previous_ne_none hleads (hk.fed hfed)
    · rw [hrun] at hleads
      obtain ⟨ts, hc⟩ := hleads
      exact (hr a).leads P.env (hc.sited hs.sited) (Known.at_on _ _)
  | look hr ih =>
    refine Ends.peek hs (fun t s₁ s₁' hc hahead hfits halike => ?_) fun t s₁ hc hahead => ?_
    · refine ih t halike ⟨List.forall_mem_cons.2 ⟨hfits, hk.seen⟩, Known.at_look _ hahead, ?_⟩
      exact fun hfed => State.Leads.previous_ne_none ⟨[], hc⟩ (hk.fed hfed)
    · exact (hr t).leads P.env (hc.sited hs.sited) (Known.at_look _ hahead)
  | @take _ _ k v t r r' hlook hend hproper hr ih =>
    obtain ⟨hahead', halike⟩ := hs.take (hk.at_ _ hlook) hend
    rw [run_bind, run_bind, gives_advance (hk.at_ _ hlook) hend, gives_advance hahead' hend]
    exact ih halike ⟨hk.seen, Known.at_took _ _, fun _ => Option.some_ne_none t⟩
  | calm hp ih => exact ih hs ⟨List.forall_mem_nil _, hk.at_, hk.fed⟩
  | failAt ht hnext hlook hsyntactic hc =>
    exact .error (.syntactic _ (Passage.ofPlace_moves (hk.seen _ ht) hc)) hs
  | tooDeep =>
    refine Ends.peek hs (fun t s₁ s₁' hc hahead hfits halike => ?_) fun t s₁ hc hahead _ => .refl s₁
    refine .error (.tooDeep ?_) halike
    rw [P.maxDepth_eq]
    exact Passage.ofPlace_moves hfits (.plain nofun)
  | hugeLength ht hkind hdigits => exact .error (.hugeLength (hk.seen _ ht) hkind hdigits) hs
  | spanFrom hfed =>
    obtain ⟨t, ht⟩ := Option.ne_none_iff_exists'.1 (hk.fed hfed)
    rw [run_spanFrom, run_spanFrom, ht, hs.previous t ht]
    exact .ok rfl hs
  | note e e' => exact .ok rfl (hs.note e e')
  | isSated => exact .ok hs.isFull_eq.symm hs
  | @iterate _ _ k v step step' b b' heq progresses progresses' hstep ih =>
    subst heq
    have hrest (b) (s : State) (hsited : s.Sited fun _ _ => True) :
        Leads s (Parser.iterate step b P.env s) :=
      (Parallel.iterate (k := k.on) rfl progresses progresses' hstep).leads P.env hsited
        (Known.at_on _ _)
    refine Ends.iterate progresses progresses' (fun b s s' hs hfed => ?_)
      (fun b s hsited => (hstep b).leads P.env hsited (Known.at_on _ _)) hrest hs hk.fed b
    exact ih b hs ⟨hk.seen, Known.at_on _ _, hfed⟩
  | @recover α β k v p p' skip resting hmends hp hskip hresting ihp ihskip ihresting =>
    have hnothing (s : State) : P.Holds (Known.nested {}) s :=
      ⟨List.forall_mem_nil _, Known.at_nothing s, by rintro ⟨⟩⟩
    have hskips : Keeps P skip skip id :=
      ⟨fun {s _} hs => ihskip hs (hnothing s), fun hs => hskip.leads P.env hs (Known.at_nothing _)⟩
    have hrests : Keeps P resting resting id :=
      ⟨fun {s _} hs => ihresting hs (hnothing s),
        fun hs => hresting.leads P.env hs (Known.at_nothing _)⟩
    exact Keeps.recover hs hskips hrests (ihp hs ⟨hk.seen, Known.at_on _ _, hk.fed⟩)
      (hp.leads P.env hs.sited (Known.at_on _ _))
  | haltDeep a hmends hhalts hp ih => exact ends_haltDeep (ih hs ⟨hk.seen, hk.at_, hk.fed⟩) a

end Parser

end ArcLang
