import Mathlib.Data.List.TakeWhile
import ArcLang.Parser.State

/-!
# What a parser has before it

A parser sees a state through the tokens that it can still consume (`State.input`). Looking at a
token changes nothing of them, and consuming one takes it off their front.

* `State.Consumes`: what is common to all states that a rule leads to: tokens are taken off the
  front of the input, and no diagnostic is lost.
* `Parser.peek_gives`, `Parser.advance_gives`: looking and consuming, in these terms.
* `State.Looks`: what a look at the current token can do.
* `State.Candid`: every error token that the parser looks at has been reported.
-/

namespace ArcLang

/-- The tokens before the end token. -/
def Scan.beforeEnd (scans : List Scan) : List Token := (Scan.tokens scans).takeWhile (!·.isEnd)

/-- The kind of the token that comes first; behind the last one comes the end token. -/
def firstKind : List Token → Kind
  | [] => .endOfInput
  | t :: _ => t.kind

@[simp] theorem firstKind_nil : firstKind [] = .endOfInput := rfl

@[simp] theorem firstKind_cons (t : Token) (ts : List Token) : firstKind (t :: ts) = t.kind := rfl

theorem Token.isEnd_iff {t : Token} : t.isEnd = true ↔ t.kind = .endOfInput := by
  simp [Token.isEnd]

theorem Token.isError_iff {t : Token} : t.isError = true ↔ t.kind = .error := by
  simp [Token.isError]

theorem Token.isEnd_eq_false_of_isError {t : Token} (h : t.isError = true) : t.isEnd = false := by
  rw [← Bool.not_eq_true, isEnd_iff, isError_iff.1 h]
  decide

namespace State

/-- The tokens that can still be consumed, in their order. -/
def input (s : State) : List Token :=
  (s.ahead.toList ++ Scan.tokens s.pending).takeWhile (!·.isEnd)

/-- The token that a parser looks at next. -/
def Shows (s : State) (t : Token) : Prop :=
  s.input.head? = some t ∨ s.input = [] ∧ t.isEnd = true

theorem Shows.kind {s : State} {t : Token} (h : s.Shows t) : t.kind = firstKind s.input := by
  rcases h with h | ⟨h, hend⟩
  · obtain ⟨r, hr⟩ := List.head?_eq_some_iff.1 h
    rw [hr, firstKind_cons]
  · rw [h, firstKind_nil, Token.isEnd_iff.1 hend]

theorem not_isEnd_of_mem_input {s : State} {t : Token} (h : t ∈ s.input) : t.isEnd = false := by
  simpa using List.mem_takeWhile_imp h

/-- A token that is shown and is not the end token is the first of the input. -/
theorem Shows.input {s : State} {t : Token} (h : s.Shows t) (hend : t.isEnd = false) :
    ∃ r, s.input = t :: r := by
  rcases h with h | ⟨-, h⟩
  · exact List.head?_eq_some_iff.1 h
  · rw [hend] at h; cases h

theorem Shows.eq_of_input {s : State} {t u : Token} {r : List Token} (h : s.Shows t)
    (hi : s.input = u :: r) : t = u := by
  rcases h with h | ⟨h, -⟩
  · rw [hi] at h; exact (Option.some.inj h).symm
  · rw [hi] at h; cases h

/-- What the stream still gives before its end token. -/
def coming (s : State) : List Scan :=
  if s.ahead.any Token.isEnd then [] else s.pending.takeWhile fun x => !x.shown.isEnd

theorem mem_pending_of_mem_coming {s : State} {x : Scan} (h : x ∈ s.coming) : x ∈ s.pending := by
  unfold coming at h
  split at h
  · cases h
  · exact (List.takeWhile_prefix _).subset h

/-- The parser's own collector takes the faults of the stream, at least one of them, and every
error token among those looked at has been reported there. -/
structure Candid (s : State) : Prop where
  shared : s.faults = .shared
  capacity : 1 ≤ s.errors.capacity
  pending : ∀ t, Scan.token t ∈ s.coming → t.isError = false
  ahead : ∀ t, s.ahead = some t → t.isError = true → s.errors.errors ≠ []

/-- All tokens that are to come, the end token among them. -/
def stream (s : State) : List Token := s.ahead.toList ++ Scan.tokens s.pending

/-- Where the input ends: with the end token, or else behind the last token. -/
def stop? (s : State) : Option Location :=
  match (s.ahead.toList ++ Scan.tokens s.pending).find? Token.isEnd with
  | some e => some e.span.stop
  | none => (s.input.getLast?.or s.previous).map (·.span.stop)

/-- From the one state to the other, exactly these tokens have been consumed; no diagnostic has been
taken back, and the error tokens among these have been reported. -/
structure Consumes (s : State) (ts : List Token) (s' : State) : Prop where
  input : s.input = ts ++ s'.input
  previous : s'.previous = ts.getLast?.or s.previous
  consumed : s'.consumed = s.consumed + ts.length
  remaining : s'.remaining + ts.length ≤ s.remaining
  errors : s.errors.errors <+: s'.errors.errors
  capacity : s'.errors.capacity = s.errors.capacity
  candid : s.Candid → s'.Candid
  told : s.Candid → ∀ t ∈ ts, t.isError = true → s'.errors.errors ≠ []
  faultless : Scan.faults s.pending = [] → Scan.faults s'.pending = []
  stop : s.stop? ≠ none → s'.stop? = s.stop?
  /-- The token looked at is the first to be consumed, or still there. -/
  ahead : s.ahead.toList <+: ts ++ s'.ahead.toList
  pending : s'.pending <:+ s.pending
  shared : s.faults = .shared → s'.faults = .shared
  /-- As long as the end token is to come, nothing is put in its place. -/
  stream : s.stream.any Token.isEnd = true → s.stream = ts ++ s'.stream

variable {s s' s'' : State} {t : Token} {ts us : List Token}

/-- No diagnostic is taken back. -/
theorem Consumes.errors_ne_nil (h : s.Consumes ts s') (hs : s.errors.errors ≠ []) :
    s'.errors.errors ≠ [] := by
  intro h'
  have := h.errors
  rw [h', List.prefix_nil] at this
  exact hs this

theorem Consumes.refl (s : State) : s.Consumes [] s where
  input := rfl
  previous := rfl
  consumed := rfl
  remaining := le_rfl
  errors := List.prefix_refl _
  capacity := rfl
  candid := id
  told := fun _ _ ht => absurd ht List.not_mem_nil
  faultless := id
  stop := fun _ => rfl
  ahead := List.prefix_refl _
  pending := List.suffix_refl _
  shared := id
  stream := fun _ => rfl

theorem Consumes.trans (h : s.Consumes ts s') (h' : s'.Consumes us s'') :
    s.Consumes (ts ++ us) s'' where
  input := by rw [h.input, h'.input, List.append_assoc]
  previous := by rw [h'.previous, h.previous, List.getLast?_append, Option.or_assoc]
  consumed := by rw [h'.consumed, h.consumed, List.length_append, Nat.add_assoc]
  remaining := by
    have := h.remaining
    have := h'.remaining
    rw [List.length_append]; omega
  errors := h.errors.trans h'.errors
  capacity := h'.capacity.trans h.capacity
  candid := h'.candid ∘ h.candid
  told hc t ht he := by
    -- what was reported for the first tokens is still there behind the others
    rcases List.mem_append.1 ht with ht | ht
    · exact h'.errors_ne_nil (h.told hc t ht he)
    · exact h'.told (h.candid hc) t ht he
  faultless := h'.faultless ∘ h.faultless
  stop hs := (h'.stop (by rw [h.stop hs]; exact hs)).trans (h.stop hs)
  ahead := by
    rw [List.append_assoc]
    exact h.ahead.trans ((List.prefix_append_right_inj ts).2 h'.ahead)
  pending := h'.pending.trans h.pending
  shared := h'.shared ∘ h.shared
  stream hs := by
    -- the end token is not among those consumed first, so it is still to come
    have hstream := h.stream hs
    have hnone : ts.any Token.isEnd = false := List.any_eq_false.2 fun t ht => by
      rw [not_isEnd_of_mem_input (h.input ▸ List.mem_append_left _ ht)]
      exact Bool.false_ne_true
    rw [hstream, List.any_append, hnone, Bool.false_or] at hs
    rw [hstream, h'.stream hs, List.append_assoc]

/-- Nothing consumed, and then something. -/
theorem Consumes.after (h : s.Consumes [] s') (h' : s'.Consumes us s'') : s.Consumes us s'' :=
  h.trans h'

/-- Something consumed, and then nothing. -/
theorem Consumes.before (h : s.Consumes ts s') (h' : s'.Consumes [] s'') : s.Consumes ts s'' := by
  simpa using h.trans h'

theorem Consumes.input_eq (h : s.Consumes [] s') : s'.input = s.input := h.input.symm

theorem Consumes.unique (h : s.Consumes ts s') (h' : s.Consumes us s') : ts = us :=
  List.append_cancel_right (h.input.symm.trans h'.input)

theorem Consumes.shows (h : s.Consumes [] s') (ht : s.Shows t) : s'.Shows t := by
  unfold Shows at ht ⊢
  rwa [h.input_eq]

theorem Consumes.errors_eq_nil (h : s.Consumes ts s') (hs : s'.errors.errors = []) :
    s.errors.errors = [] := by
  by_contra hne
  exact h.errors_ne_nil hne hs

/-- Something has been consumed, and the last of it ends there. -/
def EndsAt (s : State) (stop : Location) : Prop := s.previous.map (·.span.stop) = some stop

theorem EndsAt.previousEnd {stop : Location} (h : s.EndsAt stop) (file : String) :
    s.previousEnd file = stop := by
  unfold EndsAt at h
  unfold State.previousEnd
  cases hs : s.previous with
  | none => rw [hs] at h; cases h
  | some u => rw [hs] at h; exact Option.some.inj h

theorem Consumes.endsAt_concat (h : s.Consumes (ts ++ [t]) s') : s'.EndsAt t.span.stop := by
  unfold EndsAt
  rw [h.previous, List.getLast?_concat]; rfl

/-- The last token consumed is the one that spans end with. -/
theorem Consumes.endsAt (h : s.Consumes [t] s') : s'.EndsAt t.span.stop := by
  have h : s.Consumes ([] ++ [t]) s' := h
  exact h.endsAt_concat

theorem Consumes.previousEnd (h : s.Consumes [t] s') (file : String) :
    s'.previousEnd file = t.span.stop := h.endsAt.previousEnd file

theorem Consumes.note (e : Event) : s.Consumes [] (s.note e) := { Consumes.refl s with
  candid := fun h => ⟨h.shared, h.capacity, h.pending, h.ahead⟩ }

theorem errors_record (s : State) (d : Diagnostic) :
    s.errors.errors <+: (s.record d).errors.errors := by
  show s.errors.errors <+: (s.errors.add d).errors
  rw [Collector.errors_add]
  split
  · exact List.prefix_refl _
  · exact List.prefix_append _ _

/-- Where there is room for a diagnostic at all, recording one leaves some. -/
theorem record_errors_ne_nil (h : 1 ≤ s.errors.capacity) (d : Diagnostic) :
    (s.record d).errors.errors ≠ [] := by
  show (s.errors.add d).errors ≠ []
  rw [Collector.errors_add]
  split
  -- a full collector has something in it, as it has room for one at least
  · next full =>
    rw [Collector.isFull_iff] at full
    intro hnil
    rw [hnil, List.length_nil] at full
    omega
  · simp

theorem Consumes.record (d : Diagnostic) : s.Consumes [] (s.record d) := { Consumes.refl s with
  errors := errors_record s d
  capacity := Collector.capacity_add _ _
  candid := fun h => {
    shared := h.shared
    capacity := by
      show 1 ≤ (s.errors.add d).capacity
      rw [Collector.capacity_add]; exact h.capacity
    pending := h.pending
    ahead := fun _ _ _ => record_errors_ne_nil h.capacity d }
  told := fun _ _ ht => absurd ht List.not_mem_nil }

/-- What is to come behind the first scan was to come before it was looked at. -/
theorem coming_of_look {x y : Scan} {rest : List Scan} (hs : s.ahead = none)
    (hp : s.pending = x :: rest)
    (hy : y ∈ coming { s' with ahead := some x.shown, pending := rest }) : y ∈ s.coming := by
  unfold coming at hy ⊢
  rw [hs, hp]
  cases hend : x.shown.isEnd with
  | true => simp [hend] at hy
  | false =>
    simp only [Option.any_some, hend] at hy
    simp only [Option.any_none, Bool.false_eq_true, if_false, List.takeWhile_cons, hend,
      Bool.not_false, if_true]
    exact List.mem_cons_of_mem _ hy

/-- Moving a scan from the stream to the place that is looked at consumes nothing. -/
theorem Consumes.look {x : Scan} {rest : List Scan} (hs : s.ahead = none)
    (hp : s.pending = x :: rest) (hp' : s'.pending = rest) (previous : s'.previous = s.previous)
    (consumed : s'.consumed = s.consumed) (errors : s.errors.errors <+: s'.errors.errors)
    (capacity : s'.errors.capacity = s.errors.capacity)
    (shared : s.faults = .shared → s'.faults = .shared)
    (told : s.Candid → x.shown.isError = true → s'.errors.errors ≠ []) :
    s.Consumes [] { s' with ahead := some x.shown } where
  input := by simp only [State.input, hs, hp, hp']; rfl
  previous := previous
  consumed := consumed
  remaining := by
    simp only [State.remaining, hs, hp, hp', List.length_cons, List.length_nil]
    split <;> omega
  errors := errors
  capacity := capacity
  candid h := {
    shared := shared h.shared
    capacity := by rw [capacity]; exact h.capacity
    pending := fun t ht => h.pending t (coming_of_look hs hp (hp' ▸ ht))
    ahead := by rintro t ⟨⟩ he; exact told h he }
  told := fun _ _ ht => absurd ht List.not_mem_nil
  faultless hf := by
    rw [hp] at hf
    rw [hp']
    cases x with
    | token t => exact hf
    | fault why t => cases hf
  stop _ := by simp only [stop?, State.input, hs, hp, hp', previous]; rfl
  ahead := by rw [hs]; exact List.nil_prefix
  pending := by
    show s'.pending <:+ s.pending
    rw [hp, hp']
    exact List.suffix_cons x rest
  shared := shared
  stream _ := by simp only [State.stream, hs, hp, hp']; rfl

theorem shows_of_ahead (h : s.ahead = some t) : s.Shows t := by
  unfold Shows State.input
  rw [h, Option.toList_some, List.singleton_append]
  cases hend : t.isEnd with
  | true => exact .inr ⟨by simp [hend], rfl⟩
  | false => exact .inl (by simp [hend])

/-- Taking the token that is looked at. -/
theorem Consumes.take (h : s.ahead = some t) (hend : t.isEnd = false) :
    s.Consumes [t] { s with ahead := none, previous := some t, consumed := s.consumed + 1 } where
  input := by simp [State.input, h, hend]
  previous := rfl
  consumed := rfl
  remaining := by simp [State.remaining, h, hend]
  errors := List.prefix_refl _
  capacity := rfl
  candid hc := { hc with
    pending := fun u hu => hc.pending u (by
      simpa [coming, h, hend] using hu)
    ahead := by rintro _ ⟨⟩ }
  told hc u hu he := by
    rw [List.mem_singleton.1 hu] at he
    exact hc.ahead t h he
  faultless := id
  stop _ := by
    have hlast (l : List Token) : l.getLast?.or (some t) = (t :: l).getLast?.or s.previous := by
      rw [List.getLast?_cons]
      cases l.getLast? <;> rfl
    simp only [stop?, State.input, h, Option.toList_some, Option.toList_none, List.singleton_append,
      List.nil_append, List.find?_cons, hend, List.takeWhile_cons, Bool.not_false, if_true, hlast]
  ahead := by rw [h]; exact List.prefix_refl _
  pending := List.suffix_refl _
  shared := id
  stream _ := by simp only [State.stream, h]; rfl

end State

/-! ## Looking and consuming -/

/-- What a look at the current token does, where faults go to the collector of the parse: nothing,
or the next step of the scan is taken. -/
inductive State.Looks (file : String) (s : State) (t : Token) : State → Prop
  | again : s.ahead = some t → Looks file s t s
  | beyond : s.ahead = none → s.pending = [] → t = .endAt (s.previousEnd file) →
      Looks file s t { s with ahead := some t }
  | token {rest : List Scan} : s.ahead = none → s.pending = .token t :: rest →
      Looks file s t { s with pending := rest, ahead := some t }
  | fault {why : Diagnostic} {rest : List Scan} : s.ahead = none →
      s.pending = .fault why t :: rest → Looks file s t
        { s with
          pending := rest, ahead := some t, errors := s.errors.add why
          events := .resynchronized t :: s.events }

namespace Parser

variable {α β : Type} {env : Setting} {s s' : State} {t : Token}

/-- Run in a state, the parser succeeds with a value and in a state. -/
def Gives (p : Parser α) (env : Setting) (s : State) (a : α) (s' : State) : Prop :=
  p env s = .ok a s'

/-- A run ends in one way. -/
theorem Gives.unique {p : Parser α} {a b : α} {s₁ s₂ : State} (h : Gives p env s a s₁)
    (h' : Gives p env s b s₂) : a = b ∧ s₁ = s₂ := by
  have hsame := h.symm.trans h'
  cases hsame
  exact ⟨rfl, rfl⟩

/-- Two parsers in turn succeed only if both do. -/
theorem bind_gives {p : Parser α} {f : α → Parser β} {b : β} (h : Gives (p >>= f) env s b s') :
    ∃ a s₁, Gives p env s a s₁ ∧ Gives (f a) env s₁ b s' := by
  unfold Gives at h
  rw [run_bind] at h
  cases hp : p env s with
  | ok a s₁ => rw [hp] at h; exact ⟨a, s₁, hp, h⟩
  | error e s₁ => rw [hp] at h; cases h

theorem map_gives {p : Parser α} {f : α → β} {b : β} (h : Gives (f <$> p) env s b s') :
    ∃ a, Gives p env s a s' ∧ f a = b := by
  unfold Gives at h
  rw [run_map] at h
  cases hp : p env s with
  | ok a s₁ => rw [hp] at h; cases h; exact ⟨a, hp, rfl⟩
  | error e s₁ => rw [hp] at h; cases h

theorem pure_gives {a b : α} (h : Gives (pure a : Parser α) env s b s') : a = b ∧ s = s' := by
  cases h; exact ⟨rfl, rfl⟩

theorem run_pull (env : Setting) (s : State) :
    pull env s = match s.pending with
      | [] => .ok (.endAt (s.previousEnd env.source.file)) s
      | .token t :: rest => .ok t { s with pending := rest }
      | .fault why t :: rest =>
        let s' := { s with pending := rest }.note (.resynchronized t)
        match s.faults with
        | .shared => .ok t (s'.record why)
        | .separate errors => .ok t { s' with faults := .separate (errors.add why) }
        | .raise => .error (.aborted (.raised why)) { s with pending := [] } := by
  unfold pull
  simp only [run_bind, run_get]
  rcases s.pending with _ | ⟨t | ⟨why, t⟩, rest⟩
  · rfl
  · rfl
  · cases s.faults <;> rfl

/-- Taking a token from the stream to look at it consumes nothing. -/
theorem pull_cases (hs : s.ahead = none) (env : Setting) :
    (∃ t s', pull env s = .ok t s' ∧ s.Consumes [] { s' with ahead := some t }) ∨
      ∃ why s', pull env s = .error (.aborted why) s' := by
  rw [run_pull]
  cases hp : s.pending with
  | nil =>
    -- a stream that has run dry shows an end token, which is never consumed
    refine .inl ⟨_, _, rfl, ?_⟩
    have hend : (Token.endAt (s.previousEnd env.source.file)).isEnd = true := rfl
    exact { State.Consumes.refl s with
      input := by simp [State.input, hs, hp, hend, Scan.tokens]
      remaining := by simp [State.remaining, hs, hp, hend]
      candid := fun h => { h with
        pending := by simp [State.coming, hp]
        ahead := by rintro t ⟨⟩ he; cases he }
      stop := fun hstop => by
        -- that end token stands behind the last token, if there is one
        have hbefore : s.stop? = s.previous.map (·.span.stop) := by
          simp [State.stop?, State.input, hs, hp, Scan.tokens]
        rw [hbefore] at hstop ⊢
        cases hprevious : s.previous with
        | none => exact absurd (by rw [hprevious]; rfl) hstop
        | some u =>
          have hplace : s.previousEnd env.source.file = u.span.stop := by
            rw [State.previousEnd, hprevious]; rfl
          unfold State.stop?
          rw [Option.toList_some, List.singleton_append, List.find?_cons_of_pos hend]
          exact congrArg some hplace
      ahead := by rw [hs]; exact List.nil_prefix
      stream := fun hstream => by
        rw [State.stream, hs, hp] at hstream
        cases hstream }
  | cons x rest =>
    have hrest {t : Token} (ht : Scan.token t ∈ rest) : Scan.token t ∈ s.pending :=
      hp ▸ List.mem_cons_of_mem _ ht
    cases x with
    | token t =>
      refine .inl ⟨_, _, rfl, .look hs hp rfl rfl rfl (List.prefix_refl _) rfl id fun h he => ?_⟩
      -- a proper token is no error token, so there is nothing to report
      have hend : t.isEnd = false := Token.isEnd_eq_false_of_isError he
      have ht := h.pending t (by simp [State.coming, hs, hp, Scan.shown, hend])
      rw [Scan.shown, ht] at he
      cases he
    | fault why t =>
      cases hf : s.faults with
      | shared =>
        -- the fault is recorded before its error token is looked at
        exact .inl ⟨_, _, rfl, .look hs hp rfl rfl rfl (State.errors_record s why)
          (Collector.capacity_add _ _) (fun _ => rfl) fun h _ =>
            State.record_errors_ne_nil h.capacity why⟩
      | separate errors =>
        have hne : s.faults ≠ .shared := by rw [hf]; rintro ⟨⟩
        exact .inl ⟨_, _, rfl, .look hs hp rfl rfl rfl (List.prefix_refl _) rfl
          (fun h => absurd h hne) fun h => absurd h.shared hne⟩
      | raise => exact .inr ⟨_, _, rfl⟩

/-- Looking at a token fails only where a fault of the stream ends the parse. -/
theorem peek_cases (env : Setting) (s : State) :
    (∃ t s', peek env s = .ok t s' ∧ s.Consumes [] s' ∧ s'.ahead = some t) ∨
      ∃ why s', peek env s = .error (.aborted why) s' := by
  unfold peek
  rw [run_bind, run_get]
  dsimp only
  cases ha : s.ahead with
  | some t => exact .inl ⟨t, s, rfl, .refl s, ha⟩
  | none =>
    rcases pull_cases ha env with ⟨t, s', h, hc⟩ | ⟨why, s', h⟩
    · refine .inl ⟨t, { s' with ahead := some t }, ?_, hc, rfl⟩
      simp only [run_bind, h]; rfl
    · refine .inr ⟨why, s', ?_⟩
      simp only [run_bind, h]

theorem peek_gives (h : Gives peek env s t s') :
    s.Consumes [] s' ∧ s.Shows t ∧ s'.ahead = some t := by
  unfold Gives at h
  rcases peek_cases env s with ⟨u, s₁, h₁, hc, ha⟩ | ⟨why, s₁, h₁⟩
  · rw [h₁] at h; cases h
    have hs := State.shows_of_ahead ha
    unfold State.Shows at hs
    rw [hc.input_eq] at hs
    exact ⟨hc, hs, ha⟩
  · rw [h₁] at h; cases h

/-- A token that has been looked at is shown again. -/
theorem gives_peek (ht : s.ahead = some t) : Gives peek env s t s := by
  unfold Gives peek
  simp only [run_bind, run_get, ht, run_pure]

theorem gives_of_looks {env : Setting} (hshared : s.faults = .shared)
    (h : s.Looks env.source.file t s') : Gives peek env s t s' := by
  obtain ⟨pending, ahead, previous, consumed, errors, faults, events⟩ := s
  obtain rfl : faults = .shared := hshared
  cases h with
  | again hahead =>
    obtain rfl : ahead = some t := hahead
    rfl
  | beyond hahead hpending ht =>
    obtain rfl : ahead = none := hahead
    obtain rfl : pending = [] := hpending
    rw [ht]
    rfl
  | token hahead hpending =>
    obtain rfl : ahead = none := hahead
    obtain rfl : pending = _ := hpending
    rfl
  | fault hahead hpending =>
    obtain rfl : ahead = none := hahead
    obtain rfl : pending = _ := hpending
    rfl

/-- Looking succeeds where faults are collected. -/
theorem peek_looks (hshared : s.faults = .shared) (env : Setting) :
    ∃ t s', Gives peek env s t s' ∧ s.Looks env.source.file t s' := by
  have hlooks : ∃ t s', s.Looks env.source.file t s' := by
    cases hahead : s.ahead with
    | some t => exact ⟨t, s, .again hahead⟩
    | none =>
      rcases hpending : s.pending with _ | ⟨t | ⟨why, t⟩, rest⟩
      · exact ⟨_, _, .beyond hahead hpending rfl⟩
      · exact ⟨_, _, .token hahead hpending⟩
      · exact ⟨_, _, .fault hahead hpending⟩
  obtain ⟨t, s', h⟩ := hlooks
  exact ⟨t, s', gives_of_looks hshared h, h⟩

theorem looks_of_gives {env : Setting} (hshared : s.faults = .shared)
    (h : Gives peek env s t s') : s.Looks env.source.file t s' := by
  obtain ⟨u, s₁, hpeek, hlooks⟩ := peek_looks hshared env
  obtain ⟨rfl, rfl⟩ := hpeek.unique h
  exact hlooks

/-- Looking at a stream without faults succeeds and records nothing. -/
theorem peek_faultless (h : Scan.faults s.pending = []) (env : Setting) :
    ∃ t s', Gives peek env s t s' ∧ Scan.faults s'.pending = [] ∧ s'.errors = s.errors := by
  have hpull : ∃ t s', pull env s = .ok t s' ∧ Scan.faults s'.pending = [] ∧
      s'.errors = s.errors := by
    rw [run_pull]
    cases hp : s.pending with
    | nil => exact ⟨_, s, rfl, h, rfl⟩
    | cons x rest =>
      rw [hp] at h
      cases x with
      | token t => exact ⟨t, _, rfl, h, rfl⟩
      | fault why t => cases h
  unfold Gives peek
  simp only [run_bind, run_get]
  cases s.ahead with
  | some t => exact ⟨t, s, rfl, h, rfl⟩
  | none =>
    obtain ⟨t, s', ht, hfaults, herrors⟩ := hpull
    refine ⟨t, { s' with ahead := some t }, ?_, hfaults, herrors⟩
    simp only [run_bind, ht]
    rfl

/-- **Consuming takes the first token,** unless it is the end token. -/
theorem advance_gives (h : Gives advance env s t s') :
    s.Shows t ∧ s.Consumes (if t.isEnd then [] else [t]) s' := by
  obtain ⟨u, s₁, hu, h⟩ := bind_gives h
  obtain ⟨hc, hs, ha⟩ := peek_gives hu
  cases hend : u.isEnd with
  | true =>
    rw [if_pos hend] at h
    obtain ⟨rfl, rfl⟩ := pure_gives h
    rw [if_pos hend]
    exact ⟨hs, hc⟩
  | false =>
    rw [if_neg (by rw [hend]; decide)] at h
    cases h
    rw [if_neg (by rw [hend]; decide)]
    exact ⟨hs, hc.after (.take ha hend)⟩

/-- A token that is shown is the one consumed. -/
theorem advance_shown {u : Token} {k : Kind} (h : Gives advance env s u s') (ht : s.Shows t)
    (hk : t.kind = k) (hne : k ≠ .endOfInput) : u = t ∧ s.Consumes [t] s' := by
  obtain ⟨hu, hc⟩ := advance_gives h
  have hend : t.isEnd = false := by rw [← Bool.not_eq_true, Token.isEnd_iff, hk]; exact hne
  obtain ⟨r, hi⟩ := ht.input hend
  obtain rfl := hu.eq_of_input hi
  rw [hend] at hc
  exact ⟨rfl, hc⟩

theorem check_gives {kind : Kind} {b : Bool} (h : Gives (check kind) env s b s') :
    s.Consumes [] s' ∧ (b = true ↔ firstKind s.input = kind) := by
  obtain ⟨t, s₁, ht, h⟩ := bind_gives h
  obtain ⟨hc, hs, -⟩ := peek_gives ht
  obtain ⟨rfl, rfl⟩ := pure_gives h
  exact ⟨hc, by rw [decide_eq_true_iff, hs.kind]⟩

theorem isEnd_iff_of_shows (hs : s.Shows t) : t.isEnd = true ↔ s.input = [] := by
  refine ⟨fun hend => ?_, fun hnil => ?_⟩
  -- the first token of an input is no end token
  · by_contra hne
    obtain ⟨u, r, hi⟩ := List.exists_cons_of_ne_nil hne
    obtain rfl := hs.eq_of_input hi
    have := State.not_isEnd_of_mem_input (hi ▸ List.mem_cons_self : t ∈ s.input)
    rw [this] at hend; cases hend
  · rw [Token.isEnd_iff, hs.kind, hnil, firstKind_nil]

theorem atEnd_gives {b : Bool} (h : Gives atEnd env s b s') :
    s.Consumes [] s' ∧ (b = true ↔ s.input = []) := by
  obtain ⟨t, s₁, ht, h⟩ := bind_gives h
  obtain ⟨hc, hs, -⟩ := peek_gives ht
  obtain ⟨rfl, rfl⟩ := pure_gives h
  exact ⟨hc, isEnd_iff_of_shows hs⟩

/-- A check that succeeds is a token of the kind, not yet consumed. -/
theorem advance_checked {kind : Kind} (hk : firstKind s.input = kind) (hend : kind ≠ .endOfInput)
    (h : Gives advance env s t s') : t.kind = kind ∧ s.Consumes [t] s' := by
  obtain ⟨hs, hc⟩ := advance_gives h
  have ht : t.kind = kind := hs.kind.trans hk
  have : t.isEnd = false := by rw [← Bool.not_eq_true, Token.isEnd_iff, ht]; exact hend
  rw [this] at hc
  exact ⟨ht, hc⟩

theorem accept_gives {kind : Kind} {b : Bool} (hend : kind ≠ .endOfInput)
    (h : Gives (accept kind) env s b s') :
    (b = true ∧ ∃ t, t.kind = kind ∧ s.Consumes [t] s') ∨
      (b = false ∧ firstKind s.input ≠ kind ∧ s.Consumes [] s') := by
  obtain ⟨found, s₁, hf, h⟩ := bind_gives h
  obtain ⟨hc, hb⟩ := check_gives hf
  cases found with
  | true =>
    obtain ⟨t, s₂, ht, h⟩ := bind_gives h
    obtain ⟨rfl, rfl⟩ := pure_gives h
    have hk : firstKind s₁.input = kind := by rw [hc.input_eq]; exact hb.1 rfl
    obtain ⟨hk, hc'⟩ := advance_checked hk hend ht
    exact .inl ⟨rfl, t, hk, hc.after hc'⟩
  | false =>
    obtain ⟨rfl, rfl⟩ := pure_gives h
    have hne : firstKind s.input ≠ kind := fun hk => Bool.false_ne_true (hb.2 hk)
    exact .inr ⟨rfl, hne, hc⟩

theorem not_gives_failAt {cause : Cause} {a : α} : failAt t cause env s ≠ .ok a s' := by
  intro h; cases h

theorem expect_gives {kind : Kind} {expected : String} (hend : kind ≠ .endOfInput)
    (h : Gives (expect kind expected) env s t s') : t.kind = kind ∧ s.Consumes [t] s' := by
  obtain ⟨found, s₁, hf, h⟩ := bind_gives h
  obtain ⟨hc, hb⟩ := check_gives hf
  cases found with
  | true =>
    obtain ⟨hk, hc'⟩ := advance_checked (hc.input_eq ▸ hb.1 rfl) hend h
    exact ⟨hk, hc.after hc'⟩
  | false =>
    obtain ⟨u, s₂, -, h⟩ := bind_gives h
    exact absurd h not_gives_failAt

theorem expectClosing_gives {kind : Kind} {expected : String} {opener : Token}
    (hend : kind ≠ .endOfInput) (h : Gives (expectClosing kind expected opener) env s t s') :
    t.kind = kind ∧ s.Consumes [t] s' := by
  obtain ⟨found, s₁, hf, h⟩ := bind_gives h
  obtain ⟨hc, hb⟩ := check_gives hf
  cases found with
  | true =>
    obtain ⟨hk, hc'⟩ := advance_checked (hc.input_eq ▸ hb.1 rfl) hend h
    exact ⟨hk, hc.after hc'⟩
  | false =>
    obtain ⟨u, s₂, -, h⟩ := bind_gives h
    exact absurd h not_gives_failAt

theorem run_spanFrom (start : Location) (env : Setting) (s : State) :
    spanFrom start env s = match s.previous with
      | some t => .ok ⟨start, t.span.stop⟩ s
      | none => .error (.aborted .nothingConsumed) s := by
  unfold spanFrom
  rw [run_bind, run_get]
  dsimp only
  cases s.previous <;> rfl

/-- A rule that ends by making something of the span it covers. -/
theorem spanned_gives {start : Location} {f : Span → α} {a : α}
    (h : Gives (do return f (← spanFrom start)) env s a s') :
    s = s' ∧ f ⟨start, s.previousEnd env.source.file⟩ = a := by
  obtain ⟨span, s₁, hspan, h⟩ := bind_gives h
  obtain ⟨rfl, rfl⟩ := pure_gives h
  unfold Gives at hspan
  rw [run_spanFrom] at hspan
  unfold State.previousEnd
  cases hs : s.previous with
  | none => rw [hs] at hspan; cases hspan
  | some t => rw [hs] at hspan; cases hspan; exact ⟨rfl, rfl⟩

end Parser

end ArcLang
