import ArcLang.Proofs.Reporting

/-!
# Diagnostics come in the order of the text

The faults of the characters are recorded when the parser looks at their tokens, and those of syntax
when it fails at a token; what has been recorded is never behind what is still to be read. So the
diagnostics come in the order of their places. Only a nesting that is too deep at an error token is
told at the start of that token, behind a fault that may be inside it; and nothing is told after it.

* `State.Orderly`: what has been recorded, as against the tokens to come.
* `State.Follows`: where a rule that recovers from nothing may fail at a token that it has consumed.
* `Parser.Parallel.discovers`: every rule keeps to the order.
* `parse_discovers_in_order`: the statement.
-/

namespace ArcLang

namespace Diagnostic

variable {a b : Diagnostic} {l m : Location}

/-- The diagnostic has a place, which is not behind this one. -/
def UpTo (d : Diagnostic) (l : Location) : Prop := ∃ m, d.place = some m ∧ m.offset ≤ l.offset

/-- Both have a place, and that of the first is not behind that of the second. -/
def NoLater (a b : Diagnostic) : Prop := ∃ l, b.place = some l ∧ a.UpTo l

theorem UpTo.trans (h : a.UpTo l) (hle : l.offset ≤ m.offset) : a.UpTo m := by
  obtain ⟨k, hk, hkl⟩ := h
  exact ⟨k, hk, hkl.trans hle⟩

theorem UpTo.noLater (h : a.UpTo l) (hb : b.place = some l) : a.NoLater b := ⟨l, hb, h⟩

theorem NoLater.precedes (h : a.NoLater b) : Collector.precedes a b = true := by
  obtain ⟨l, hb, m, ha, hle⟩ := h
  unfold Collector.precedes
  rw [ha, hb]
  exact decide_eq_true hle

end Diagnostic

open Diagnostic (NoLater)

/-- Diagnostics in the order of their places. That the nesting is too deep may be told last, at the
start of a token; where this is an error token, its own fault may be behind that. -/
inductive Discovered (scans : List Scan) : List Diagnostic → Prop
  | ordered {ds : List Diagnostic} : ds.Pairwise NoLater →
      (∀ d ∈ ds, d.category ≠ .recursionLimit) → Discovered scans ds
  | halted {ds : List Diagnostic} {why : Diagnostic} {t : Token} : ds.Pairwise NoLater →
      (∀ d ∈ ds, d.category ≠ .recursionLimit) → why.category = .recursionLimit →
      t ∈ Scan.tokens scans → why.place = some t.place →
      (∀ d ∈ ds, d.NoLater why ∨ t.isError = true ∧ Scan.fault d t ∈ scans) →
      Discovered scans (ds ++ [why])

/-! ## States -/

namespace State

variable {scans : List Scan} {s s' : State} {t u : Token} {d why : Diagnostic}

/-- What has been recorded stands before the tokens that are to come; only the fault of an error
token that is looked at may stand inside it. -/
structure Orderly (scans : List Scan) (s : State) : Prop where
  ready : s.Ready
  shared : s.faults = .shared
  pending : ∀ x ∈ s.pending, x ∈ scans
  stream : ∀ t ∈ s.stream, t ∈ Scan.tokens scans
  ordered : s.errors.errors.Pairwise NoLater
  shallow : ∀ d ∈ s.errors.errors, d.category ≠ .recursionLimit
  coming : ∀ d ∈ s.errors.errors, ∀ t ∈ Scan.tokens s.pending, d.UpTo t.place
  ahead : ∀ t, s.ahead = some t → ∀ d ∈ s.errors.errors,
    d.UpTo t.place ∨ t.isError = true ∧ Scan.fault d t ∈ scans

/-- The token is not behind what is to come. Unless an error token is looked at, it is not before
what has been recorded, either. -/
structure Follows (s : State) (t : Token) : Prop where
  stream : ∀ u ∈ s.stream, t.place.offset ≤ u.place.offset
  errors : (∀ u, s.ahead = some u → u.isError = false) →
    ∀ d ∈ s.errors.errors, d.UpTo t.place

/-- The first token that is to come is not empty, and ends before the others start. -/
theorem Ready.before {rest : List Token} (h : s.Ready) (hstream : s.stream = t :: rest)
    (hu : u ∈ rest) : t.span.start.offset < t.span.stop.offset ∧
      t.span.stop.offset ≤ u.span.start.offset := by
  have hordered := h.ordered
  obtain ⟨e, hends, -⟩ := h.ends
  rw [hstream] at hordered hends
  refine ⟨h.standing.nonempty t ?_, (List.pairwise_cons.1 hordered).1 u hu⟩
  -- the end token comes last, so the first one is another
  cases hinput : s.input with
  | nil =>
    rw [hinput] at hends
    obtain ⟨-, rfl⟩ := List.cons.inj hends
    cases hu
  | cons v vs =>
    rw [hinput] at hends
    rw [(List.cons.inj hends).1]
    exact List.mem_cons_self

theorem Ready.start_le {rest : List Token} (h : s.Ready) (hstream : s.stream = t :: rest)
    (hu : u ∈ s.stream) : t.place.offset ≤ u.place.offset := by
  rw [hstream] at hu
  rcases List.mem_cons.1 hu with rfl | hu
  · exact le_rfl
  · obtain ⟨hlong, hbefore⟩ := h.before hstream hu
    exact (hlong.trans_le hbefore).le

theorem stream_of_ahead (h : s.ahead = some t) : s.stream = t :: Scan.tokens s.pending := by
  rw [stream, h]
  rfl

namespace Orderly

/-- What leaves the diagnostics and the stream as they were keeps the order. -/
theorem quiet {ts : List Token} (h : s.Orderly scans) (hc : s.Consumes ts s')
    (hpending : s'.pending = s.pending) (herrors : s'.errors = s.errors)
    (hahead : ∀ t, s'.ahead = some t → s.ahead = some t) : s'.Orderly scans where
  ready := h.ready.after hc
  shared := hc.shared h.shared
  pending := by rw [hpending]; exact h.pending
  stream t ht := h.stream t (by
    rw [h.ready.stream_eq hc]
    exact List.mem_append_right ts ht)
  ordered := by rw [herrors]; exact h.ordered
  shallow := by rw [herrors]; exact h.shallow
  coming := by rw [herrors, hpending]; exact h.coming
  ahead t ht := by rw [herrors]; exact h.ahead t (hahead t ht)

/-- A diagnostic is recorded that is not before those already there, and not behind what is to come,
unless it is the fault of the token that is looked at. -/
theorem record {l : Location} (h : s.Orderly scans) (hplace : why.place = some l)
    (hdeep : why.category ≠ .recursionLimit) (herrors : ∀ d ∈ s.errors.errors, d.UpTo l)
    (hcoming : ∀ t ∈ Scan.tokens s.pending, l.offset ≤ t.place.offset)
    (hahead : ∀ t, s.ahead = some t →
      l.offset ≤ t.place.offset ∨ t.isError = true ∧ Scan.fault why t ∈ scans) :
    (s.record why).Orderly scans := by
  by_cases hfull : s.errors.isFull = true
  · exact h.quiet (.record why) rfl (by
      show s.errors.add why = s.errors
      rw [Collector.add, if_pos hfull]) fun _ ht => ht
  have hadd : (s.record why).errors.errors = s.errors.errors ++ [why] := by
    show (s.errors.add why).errors = _
    rw [Collector.errors_add, if_neg hfull]
  have hwhy : why.UpTo l := ⟨l, hplace, le_rfl⟩
  exact {
    ready := h.ready.after (.record why)
    shared := h.shared
    pending := h.pending
    stream := h.stream
    ordered := by
      rw [hadd]
      refine List.pairwise_append.2 ⟨h.ordered, List.pairwise_singleton _ _, fun d hd e he => ?_⟩
      rw [List.mem_singleton.1 he]
      exact (herrors d hd).noLater hplace
    shallow := by
      rw [hadd]
      exact List.forall_mem_append.2 ⟨h.shallow, List.forall_mem_singleton.2 hdeep⟩
    coming := by
      rw [hadd]
      refine List.forall_mem_append.2 ⟨h.coming, List.forall_mem_singleton.2 fun t ht => ?_⟩
      exact hwhy.trans (hcoming t ht)
    ahead := fun t ht => by
      rw [hadd]
      refine List.forall_mem_append.2 ⟨h.ahead t ht, List.forall_mem_singleton.2 ?_⟩
      exact (hahead t ht).imp_left hwhy.trans }

/-- A further token is looked at, and nothing recorded. -/
theorem pull {x : Scan} {rest : List Scan} (h : s.Orderly scans) (hnone : s.ahead = none)
    (hpending : s.pending = x :: rest) (hrest : s'.pending = rest)
    (hahead : s'.ahead = some x.shown) (herrors : s'.errors = s.errors) (hready : s'.Ready)
    (hshared : s'.faults = .shared) : s'.Orderly scans where
  ready := hready
  shared := hshared
  pending := by
    rw [hrest]
    exact fun y hy => h.pending y (hpending ▸ List.mem_cons_of_mem x hy)
  stream := by
    have hsame : s'.stream = s.stream := by
      rw [State.stream, State.stream, hnone, hpending, hahead, hrest]
      rfl
    rw [hsame]
    exact h.stream
  ordered := by rw [herrors]; exact h.ordered
  shallow := by rw [herrors]; exact h.shallow
  coming := by
    rw [herrors, hrest]
    exact fun d hd t ht => h.coming d hd t (hpending ▸ List.mem_cons_of_mem x.shown ht)
  ahead t ht d hd := by
    rw [hahead] at ht
    rw [herrors] at hd
    obtain rfl := Option.some.inj ht
    exact .inl (h.coming d hd _ (hpending ▸ List.mem_cons_self))

/-- **A look at a token keeps the order;** where it is an error token, its fault is recorded. -/
theorem look {env : Setting}
    (hlexical : ∀ d t, Scan.fault d t ∈ scans → d.category ≠ .recursionLimit)
    (h : s.Orderly scans) (hpeek : Parser.Gives Parser.peek env s t s') : s'.Orderly scans := by
  obtain ⟨hc, -, hahead⟩ := Parser.peek_gives hpeek
  cases Parser.looks_of_gives h.shared hpeek with
  | again => exact h
  | beyond hnone hpending =>
    -- the end token is still to come
    obtain ⟨e, hstream, -⟩ := h.ready.ends
    rw [State.stream, hnone, hpending] at hstream
    cases hinput : s.input <;> rw [hinput] at hstream <;> cases hstream
  | token hnone hpending =>
    exact h.pull hnone hpending rfl rfl rfl (h.ready.after hc) h.shared
  | @fault why rest hnone hpending =>
    have hstream : s.stream = t :: Scan.tokens rest := by
      rw [State.stream, hnone, hpending]
      rfl
    have hmem : Scan.fault why t ∈ s.pending := hpending ▸ List.mem_cons_self
    have hfirst : t ∈ Scan.tokens s.pending := hpending ▸ List.mem_cons_self
    obtain ⟨herror, hconcerns⟩ := h.ready.sited why t hmem
    obtain ⟨l, hl, -⟩ := id hconcerns
    have hready := h.ready.after hc
    -- the token is looked at, and its fault is recorded then
    have hpulled : Orderly scans { s with
        pending := rest, ahead := some t, events := .resynchronized t :: s.events } :=
      h.pull hnone hpending rfl rfl rfl ⟨hready.sited, hready.standing, hready.ends⟩ h.shared
    refine hpulled.record hl (hlexical why t (h.pending _ hmem)) (fun d hd => ?_)
      (fun u hu => ?_) fun u hu => ?_
    · exact (h.coming d hd t hfirst).trans (hconcerns.le hl)
    · obtain ⟨hlong, hbefore⟩ := h.ready.before hstream hu
      exact ((hconcerns.lt hl hlong).trans_le hbefore).le
    · obtain rfl := Option.some.inj hu
      exact .inr ⟨herror, h.pending _ hmem⟩

/-- What is looked at comes first of what is to come. -/
theorem follows (h : s.Orderly scans) (ht : s.ahead = some t) : s.Follows t where
  stream _ hu := h.ready.start_le (stream_of_ahead ht) hu
  errors hproper d hd := by
    refine (h.ahead t ht d hd).resolve_right fun ⟨herror, _⟩ => ?_
    rw [hproper t ht] at herror
    cases herror

/-- A failure at such a token may be recorded, unless an error token is looked at. -/
theorem fail {source : Source} {c : Cause} (h : s.Orderly scans) (hfollows : s.Follows t)
    (hproper : ∀ u, s.ahead = some u → u.isError = false) (hc : c.IsSyntactic) :
    (s.record (.ofPlace source t.place c)).Orderly scans := by
  have hdeep : c.category ≠ .recursionLimit := by
    rcases hc with hc | hc <;> rw [hc] <;> decide
  refine h.record rfl hdeep (hfollows.errors hproper) (fun u hu => ?_) fun u hu => .inl ?_
  · exact hfollows.stream u (List.mem_append_right _ hu)
  · exact hfollows.stream u (mem_stream_of_ahead hu)

end Orderly

namespace Follows

/-- Behind a run that has recovered from nothing. -/
theorem after {On : Diagnostic → Token → Prop} {seen ts : List Token} {ds : List Diagnostic}
    (h : s.Follows t) (hready : s.Ready) (htells : s.Tells On seen false ts ds s') :
    s'.Follows t where
  stream u hu := h.stream u (by
    rw [hready.stream_eq htells.consumes]
    exact List.mem_append_right ts hu)
  errors hproper d hd := by
    obtain ⟨hts, hds⟩ := htells.proper rfl
    -- nothing has been recorded on the way, as no error token is looked at now
    have hnone : ds = [] := List.eq_nil_iff_forall_not_mem.2 fun e he => by
      obtain ⟨u, hu, herror, -⟩ := hds e he
      rw [hproper u hu] at herror
      cases herror
    rw [htells.errors, hnone, List.append_nil] at hd
    refine h.errors (fun u hu => ?_) d hd
    exact (htells.consumes.touched hu).elim (hts u) (hproper u)

/-- Behind a proper token. -/
theorem take (h : s.Follows t) (hready : s.Ready) (hu : s.ahead = some u) (hend : u.isEnd = false)
    (hproper : u.isError = false) : State.Follows
      { s with ahead := none, previous := some u, consumed := s.consumed + 1 } t where
  stream v hv := h.stream v (by
    rw [hready.stream_eq (.take hu hend)]
    exact List.mem_cons_of_mem u hv)
  errors _ := h.errors fun v hv => by
    rw [hu] at hv
    exact Option.some.inj hv ▸ hproper

end Follows

end State

/-- What a rule fails with comes behind what has been recorded, where it is to be recorded. -/
def Failure.Fits (scans : List Scan) (s : State) : Failure → Prop
  | .syntactic why echo => echo = false → (s.record why).Orderly scans
  | .tooDeep why => why.category = .recursionLimit ∧
      ∃ t, s.ahead = some t ∧ why.place = some t.place
  | .aborted _ => True

namespace Parser

variable {scans : List Scan} {α β : Type} {env : Setting} {k : Known} {s : State}

/-! ## Rules -/

/-- A run that keeps to the order. -/
def Discovers (scans : List Scan) : EStateM.Result Failure State α → Prop
  | .ok _ s => s.Orderly scans
  | .error e s => s.Orderly scans ∧ e.Fits scans s

namespace Discovers

theorem bind {p : Parser α} {r : α → Parser β} (hp : Discovers scans (p env s))
    (hr : ∀ a s₁, Gives p env s a s₁ → s₁.Orderly scans → Discovers scans (r a env s₁)) :
    Discovers scans ((p >>= r) env s) := by
  rw [run_bind]
  cases hrun : p env s with
  | error e s₁ =>
    rw [hrun] at hp
    exact hp
  | ok a s₁ =>
    rw [hrun] at hp
    exact hr a s₁ hrun hp

/-- A repetition, given its steps, and what holds between them. -/
theorem iterate (Seen : State → Prop) {step : β → Parser (ForInStep β)}
    (progresses : Progresses step)
    (hstep : ∀ b (s : State), s.Orderly scans → Seen s → Discovers scans (step b env s))
    (hkeeps : ∀ b s r s₁, Gives (step b) env s r s₁ → s.Orderly scans → Seen s → Seen s₁)
    (hs : s.Orderly scans) (hseen : Seen s) (b : β) : Discovers scans (iterate step b env s) := by
  induction b, s using iterate_rounds progresses env with
  | error b s e s₁ hfirst hrun | done b s b₁ s₁ hfirst hrun =>
    have hdiscovers := hstep b s hs hseen
    rw [hfirst] at hdiscovers
    rwa [hrun]
  | yield b s b₁ s₁ hfirst hrun ih =>
    have hdiscovers := hstep b s hs hseen
    rw [hfirst] at hdiscovers
    rw [hrun]
    exact ih hdiscovers (hkeeps b s _ s₁ hfirst hs hseen)

/-- A failure is reported, unless it is an echo. -/
theorem report {why : Diagnostic} {echo : Bool} (hs : s.Orderly scans)
    (hwhy : (Failure.syntactic why echo).Fits scans s) :
    Discovers scans (report why echo env s) := by
  cases echo with
  | true => exact hs.quiet (.note _) rfl rfl fun _ ht => ht
  | false => exact (hwhy rfl).quiet (.note _) rfl rfl fun _ ht => ht

end Discovers

/-- What a rule that recovers from nothing has seen may still be where it fails. -/
theorem Accounts.follows {On : Diagnostic → Token → Prop} {p : Parser α} {a : α} {s₁ : State}
    (h : Accounts On k s (p env s)) (hrun : Gives p env s a s₁) (hready : s.Ready)
    (hseen : k.mends = false → ∀ t ∈ k.seen, s.Follows t) :
    k.mends = false → ∀ t ∈ k.seen, s₁.Follows t := by
  intro hmends t ht
  rw [hrun] at h
  obtain ⟨ts, ds, htells⟩ := h
  rw [hmends] at htells
  exact (hseen hmends t ht).after hready htells

section Rules

variable (hlexical : ∀ d t, Scan.fault d t ∈ scans → d.category ≠ .recursionLimit)

include hlexical

namespace Discovers

theorem peek (hs : s.Orderly scans) : Discovers scans (Parser.peek env s) := by
  obtain ⟨t, s₁, hpeek, -⟩ := peek_looks hs.shared env
  rw [hpeek]
  exact hs.look hlexical hpeek

/-- Whatever comes next is consumed. -/
theorem advance (hs : s.Orderly scans) : Discovers scans (Parser.advance env s) := by
  refine (peek hlexical hs).bind fun t s₁ hpeek hs₁ => ?_
  cases hend : t.isEnd with
  | true => exact hs₁
  | false => exact hs₁.quiet (.take (peek_gives hpeek).2.2 hend) rfl rfl (by rintro _ ⟨⟩)

theorem moveOn {resting : Parser Bool} (before : Nat) (hs : s.Orderly scans)
    (hresting : Discovers scans (resting env s)) :
    Discovers scans (Parser.moveOn before resting env s) := by
  rw [run_moveOn]
  split
  · refine hresting.bind fun rests s₁ _ hs₁ => ?_
    cases rests with
    | true => exact hs₁
    | false => exact (advance hlexical hs₁).bind fun _ _ _ hs₂ => hs₂
  · exact hs

end Discovers

/-- **A rule keeps to the order,** unless it reports itself that the nesting is too deep. -/
theorem Parallel.discovers {f : Location → Location} {v : α → β} {p : Parser α} {q : Parser β}
    (h : Parallel f k v p q) (hs : s.Orderly scans) (hat : k.At s)
    (hseen : k.mends = false → ∀ t ∈ k.seen, s.Follows t) (hhalts : k.halts = false) :
    Discovers scans (p env s) := by
  induction h generalizing s with
  | pure heq => exact hs
  | bind hp hr ihp ihr =>
    refine (ihp hs hat hseen hhalts).bind fun a s₁ hrun hs₁ => ?_
    have hfollows := (hp.tells concerns_ofPlace hs.ready.sited hat).follows hrun hs.ready hseen
    exact ihr a hs₁ (Known.at_on _ _) hfollows hhalts
  | @look _ _ k v r r' hr ih =>
    refine (Discovers.peek hlexical hs).bind fun t s₁ hpeek hs₁ => ?_
    obtain ⟨-, -, hahead⟩ := peek_gives hpeek
    obtain ⟨ds, htells⟩ : ∃ ds, s.Tells Diagnostic.Concerns k.seen false [] ds s₁ :=
      peek_tells hs.ready.sited hpeek
    refine ih t hs₁ (Known.at_look _ hahead) (fun hmends => ?_) hhalts
    exact List.forall_mem_cons.2
      ⟨hs₁.follows hahead, fun u hu => (hseen hmends u hu).after hs.ready htells⟩
  | @take _ _ k v t r r' hlook hend hproper hr ih =>
    have hahead : s.ahead = some t := hat _ hlook
    rw [run_bind, gives_advance hahead hend]
    refine ih (hs.quiet (.take hahead hend) rfl rfl (by rintro _ ⟨⟩)) (Known.at_took _ _) ?_ hhalts
    intro hmends u hu
    have hmends : k.mends = false := hmends
    refine (hseen hmends u hu).take hs.ready hahead hend (hproper.resolve_left ?_)
    rw [hmends]
    decide
  | calm hp ih => exact ih hs hat (fun _ => List.forall_mem_nil _) hhalts
  | @failAt _ _ k v t u c c' ht hnext hlook hsyntactic hc =>
    have hahead : s.ahead = some u := hat _ hnext
    refine ⟨hs, fun hecho => ?_⟩
    rcases hlook with rfl | ⟨hmends, hproper⟩
    · refine hs.fail (hs.follows hahead) (fun w hw => ?_) hsyntactic
      exact Option.some.inj (hahead.symm.trans hw) ▸ hecho
    · refine hs.fail (hseen hmends t ht) (fun w hw => ?_) hsyntactic
      exact Option.some.inj (hahead.symm.trans hw) ▸ hproper
  | tooDeep =>
    exact (Discovers.peek hlexical hs).bind fun t s₁ hpeek hs₁ =>
      ⟨hs₁, rfl, t, (peek_gives hpeek).2.2, rfl⟩
  | hugeLength => exact ⟨hs, trivial⟩
  | spanFrom =>
    rw [run_spanFrom]
    cases s.previous with
    | none => exact ⟨hs, trivial⟩
    | some t => exact hs
  | note e => exact hs.quiet (.note e) rfl rfl fun _ ht => ht
  | isSated => exact hs
  | @iterate _ _ k v step step' b b' heq progresses progresses' hstep ih =>
    refine .iterate (fun s => k.mends = false → ∀ t ∈ k.seen, s.Follows t) progresses
      (fun b s hs hseen => ih b hs (Known.at_on _ _) hseen hhalts) ?_ hs hseen _
    intro b s r s₁ hrun hs hseen
    exact ((hstep b).tells concerns_ofPlace hs.ready.sited (Known.at_on _ _)).follows hrun hs.ready
      hseen
  | @recover α _ k v p p' skip resting hmends hp hskip hresting ihp ihskip ihresting =>
    have hbehind (s₂ : State) (hs₂ : s₂.Orderly scans) : Discovers scans ((do
        skip; moveOn s.consumed resting; Pure.pure none : Parser (Option α)) env s₂) := by
      refine (ihskip hs₂ (Known.at_nothing s₂) (by rintro ⟨⟩) rfl).bind fun _ s₃ _ hs₃ => ?_
      have hrests := ihresting hs₃ (Known.at_nothing s₃) (by rintro ⟨⟩) rfl
      exact (Discovers.moveOn hlexical s.consumed hs₃ hrests).bind fun _ _ _ hs₄ => hs₄
    refine recover_cases (ihp hs (Known.at_on _ _) hseen hhalts) (fun _ _ h => h) (fun _ _ h => h)
      fun why echo s₁ hrule => ?_
    exact (Discovers.report hrule.1 hrule.2).bind fun _ s₂ _ hs₂ => hbehind s₂ hs₂
  | haltDeep a hmends hmay hp ih =>
    rw [hhalts] at hmay
    cases hmay

/-! ## Programs -/

/-- What has been recorded is in order; and nothing more will be, unless a token is consumed. -/
def Closes (scans : List Scan) (s : State) : Prop :=
  Discovered scans s.errors.errors ∧ s.ahead ≠ none

/-- Where no more items are read, all is in order. -/
def Turns (scans : List Scan) : EStateM.Result Failure State (ForInStep β) → Prop
  | .ok (.yield _) s => s.Orderly scans
  | .ok (.done _) s => Closes scans s
  | .error _ s => Discovered scans s.errors.errors

omit hlexical in
theorem Discovers.haltDeep {p : Parser (ForInStep β)} {b : β} (hp : Discovers scans (p env s))
    (hyields : ∀ b' s', p env s ≠ .ok (.done b') s') :
    Turns scans (haltDeep p (.done b) env s) := by
  rw [run_haltDeep]
  rcases hrun : p env s with ⟨b₁ | b₁, s₁⟩ | ⟨⟨why, echo⟩ | why | why, s₁⟩
  all_goals rw [hrun] at hp
  · exact absurd hrun (hyields b₁ s₁)
  · exact hp
  · exact .ordered hp.1.ordered hp.1.shallow
  · obtain ⟨hs₁, hdeep, t, hahead, hplace⟩ := hp
    have hready : Closes scans (s₁.record why) := by
      refine ⟨?_, by
        show s₁.ahead ≠ none
        rw [hahead]
        nofun⟩
      show Discovered scans (s₁.errors.add why).errors
      rw [Collector.errors_add]
      split
      · exact .ordered hs₁.ordered hs₁.shallow
      · refine .halted hs₁.ordered hs₁.shallow hdeep (hs₁.stream t ?_) hplace fun d hd => ?_
        · exact State.mem_stream_of_ahead hahead
        · exact (hs₁.ahead t hahead d hd).imp_left fun hd => hd.noLater hplace
    exact hready
  · exact .ordered hp.1.ordered hp.1.shallow

theorem itemStep_turns (room : Nat) (acc : Array Item) (hs : s.Orderly scans) :
    Turns scans (itemStep room acc env s) := by
  obtain ⟨t, s₁, hpeek, -⟩ := peek_looks hs.shared env
  have hs₁ : s₁.Orderly scans := hs.look hlexical hpeek
  rw [run_itemStep hpeek]
  split
  · refine ⟨.ordered hs₁.ordered hs₁.shallow, ?_⟩
    rw [(peek_gives hpeek).2.2]
    nofun
  · refine Discovers.haltDeep ?_ fun b' s' hdone => ?_
    · have hread : Discovers scans (recover (item room) skipItem (pure false) env s₁) :=
        (parallel_recoverItem (f := id) (k := Known.nested {}) rfl).discovers hlexical hs₁
          (Known.at_nothing s₁) (by rintro ⟨⟩) rfl
      refine hread.bind fun read s₂ _ hs₂ => ?_
      cases read <;> exact hs₂
    · obtain ⟨read, s₂, -, hdone⟩ := bind_gives hdone
      cases read <;> cases hdone

/-- **The reading of items keeps to the order,** up to its end. -/
theorem items_close (env : Setting) (room : Nat) (acc : Array Item) (hs : s.Orderly scans) :
    match iterate (itemStep room) acc env s with
    | .ok _ s' => Closes scans s'
    | .error _ s' => Discovered scans s'.errors.errors := by
  have progresses : Progresses (itemStep room) := progresses_itemStep (eats_item room)
  induction acc, s using iterate_rounds progresses env with
  | error acc s e s₁ hfirst hrun | done acc s acc₁ s₁ hfirst hrun =>
    have hturns : Turns scans (itemStep room acc env s) := itemStep_turns hlexical room acc hs
    rw [hfirst] at hturns
    rw [hrun]
    exact hturns
  | yield acc s acc₁ s₁ hfirst hrun ih =>
    have hturns : Turns scans (itemStep room acc env s) := itemStep_turns hlexical room acc hs
    rw [hfirst] at hturns
    rw [hrun]
    exact ih hturns

/-- **A program keeps to the order,** however it ends. -/
theorem program_discovers (hs : s.Orderly scans) :
    Discovered scans (final (program env s)).errors.errors := by
  have hitems := items_close hlexical env env.room #[] hs
  rw [run_program, run_bind]
  cases hrun : iterate (itemStep env.room) #[] env s with
  | error e s₁ =>
    rw [hrun] at hitems
    exact hitems
  | ok items s₁ =>
    rw [hrun] at hitems
    obtain ⟨hdiscovered, hahead⟩ := hitems
    obtain ⟨t, ht⟩ := Option.ne_none_iff_exists'.1 hahead
    have hpeek : Gives peek env s₁ t s₁ := gives_peek ht
    dsimp only
    rw [gives_close hpeek]
    exact hdiscovered

end Rules

end Parser

/-! ## Texts -/

variable (text file : String)

theorem orderly_startOf (n : Int) : (startOf text file n).Orderly (scansOf text file) where
  ready := ready_startOf text file n
  shared := rfl
  pending _ hx := hx
  stream _ ht := ht
  ordered := .nil
  shallow := List.forall_mem_nil _
  coming := List.forall_mem_nil _
  ahead _ _ := List.forall_mem_nil _

theorem Discovered.pairwise {scans : List Scan} {ds : List Diagnostic} (h : Discovered scans ds)
    (hshallow : ∀ d ∈ ds, d.category ≠ .recursionLimit) : ds.Pairwise Diagnostic.NoLater := by
  cases h with
  | ordered hordered => exact hordered
  | halted _ _ hdeep =>
    exact absurd hdeep (hshallow _ (List.mem_append_right _ (List.mem_singleton_self _)))

/-- **Diagnostics come in the order of the text.** The places of what a parse records never go back,
but for a nesting that is too deep, which is told last, if at all: where this is at an error token,
the fault of that token may be behind it. So where the nesting is not too deep, a result lists the
diagnostics as they came. -/
theorem parse_discovers_in_order (o : Options) :
    Discovered (scansOf text file) (recorded text file o) ∧
      ∀ r, parse text file o = .ok r →
        (∀ d ∈ recorded text file o, d.category ≠ .recursionLimit) →
          r.diagnostics = recorded text file o := by
  have hlexical : ∀ d t, Scan.fault d t ∈ scansOf text file → d.category ≠ .recursionLimit := by
    intro d t ht hdeep
    have hcategory : d.category = .lexical := of_decide_eq_true (isLexical_of_fault ht)
    rw [hcategory] at hdeep
    cases hdeep
  have hdiscovered : Discovered (scansOf text file) (recorded text file o) := by
    rw [recorded_eq]
    exact Parser.program_discovers hlexical (orderly_startOf text file o.maxErrors)
  refine ⟨hdiscovered, fun r h hshallow => ?_⟩
  rw [parse_sorts_recorded h]
  exact List.mergeSort_of_pairwise ((hdiscovered.pairwise hshallow).imp fun hab => hab.precedes)

/-- A fault of syntax before one of the characters, and another one behind it. -/
theorem parse_discovers_in_order_of_faults : ∃ r, parse "a b; c $ d; := 1;" "m.arc" {} = .ok r ∧
    (recorded "a b; c $ d; := 1;" "m.arc" {}).map Diagnostic.category =
      [.syntactic, .lexical, .syntactic] ∧
    r.diagnostics = recorded "a b; c $ d; := 1;" "m.arc" {} := by
  have hcategories : (recorded "a b; c $ d; := 1;" "m.arc" {}).map Diagnostic.category =
      [.syntactic, .lexical, .syntactic] := by
    decide +kernel
  have hrun : (parse "a b; c $ d; := 1;" "m.arc" {}).toOption.map (·.program.items.length) =
      some 0 := by
    decide +kernel
  obtain ⟨r, hp, -⟩ := exists_of_map_toOption hrun
  refine ⟨r, hp, hcategories, (parse_discovers_in_order _ _ _).2 r hp fun d hd => ?_⟩
  have hmem := List.mem_map_of_mem (f := Diagnostic.category) hd
  rw [hcategories] at hmem
  intro hdeep
  rw [hdeep] at hmem
  revert hmem
  decide

/-- The nesting is too deep at a literal, whose fault is inside it. -/
example : (recorded "(\"a\\q\");" "m.arc" { maxDepth := 1 }).map
    (fun d => (d.category, d.place.map (·.offset))) =
      [(.lexical, some 3), (.recursionLimit, some 1)] := by
  decide +kernel

end ArcLang
