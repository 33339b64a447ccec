import ArcLang.Proofs.Parallel

/-!
# What a run tells

Every diagnostic that a rule records, and the one it fails with, is about a token that the rule has
consumed or looked at. A rule that recovers from nothing records no more than the fault of the token
at which it stops.

* `State.Tells`: what has been consumed and recorded between two states.
* `Parser.recover_cases`, `Parser.haltDeep_cases`: recovery, by the ways in which its rule ends.
* `Parser.Parallel.tells`: the account for every rule.
* `Parser.Parallel.leads`: what is left of it where nobody asks for the diagnostics.
-/

namespace ArcLang

variable (On : Diagnostic → Token → Prop)

/-- Faults that are to come are about their error tokens. -/
def State.Sited (s : State) : Prop :=
  ∀ why t, Scan.fault why t ∈ s.pending → t.isError = true ∧ On why t

/-- Among these tokens, among those consumed, or the one looked at. -/
def State.Touched (seen ts : List Token) (s' : State) (t : Token) : Prop :=
  t ∈ seen ∨ t ∈ ts ∨ s'.ahead = some t

/-- From the one state to the other these tokens have been consumed and these diagnostics recorded,
each about one of the tokens seen before, consumed, or looked at. -/
structure State.Tells (seen : List Token) (mends : Bool) (s : State) (ts : List Token)
    (ds : List Diagnostic) (s' : State) : Prop where
  consumes : s.Consumes ts s'
  errors : s'.errors.errors = s.errors.errors ++ ds
  on : ∀ d ∈ ds, ∃ t, s'.Touched seen ts t ∧ On d t
  /-- Without recovery no error token is consumed, and all that is told is the fault of the token
  that is looked at. -/
  proper : mends = false → (∀ t ∈ ts, t.isError = false) ∧
    ∀ d ∈ ds, ∃ t, s'.ahead = some t ∧ t.isError = true ∧ On d t

variable {On} {s s' s'' : State} {seen seen' ts us : List Token} {ds es : List Diagnostic}
  {mends : Bool} {t : Token}

/-- A token looked at is consumed next, if anything is. -/
theorem State.Consumes.touched (h : s.Consumes us s') (ht : s.ahead = some t) :
    t ∈ us ∨ s'.ahead = some t := by
  have hahead := h.ahead.subset (by rw [ht]; exact List.mem_singleton_self t)
  rcases List.mem_append.1 hahead with hmem | hmem
  · exact .inl hmem
  · exact .inr (by simpa using hmem)

theorem State.Consumes.sited (h : s.Consumes ts s') (hs : s.Sited On) : s'.Sited On :=
  fun why t ht => hs why t (h.pending.subset ht)

namespace State

/-- What has been touched stays so when more is consumed. -/
theorem Touched.after (h : s'.Touched seen ts t) (hc : s'.Consumes us s'') :
    s''.Touched seen (ts ++ us) t := by
  rcases h with h | h | h
  · exact .inl h
  · exact .inr (.inl (List.mem_append_left us h))
  · exact .inr ((hc.touched h).imp_left (List.mem_append_right ts))

/-- What a later run has touched, an earlier one with it has touched too. -/
theorem Touched.before (hseen : ∀ u ∈ seen', s'.Touched seen ts u) (hc : s'.Consumes us s'')
    (h : s''.Touched seen' us t) : s''.Touched seen (ts ++ us) t := by
  rcases h with h | h | h
  · exact (hseen t h).after hc
  · exact .inr (.inl (List.mem_append_right ts h))
  · exact .inr (.inr h)

namespace Tells

theorem refl (s : State) : s.Tells On seen mends [] [] s where
  consumes := .refl s
  errors := (List.append_nil _).symm
  on := List.forall_mem_nil _
  proper := fun _ => ⟨List.forall_mem_nil _, List.forall_mem_nil _⟩

theorem trans (h : s.Tells On seen mends ts ds s')
    (hseen : ∀ u ∈ seen', s'.Touched seen ts u) (h' : s'.Tells On seen' mends us es s'') :
    s.Tells On seen mends (ts ++ us) (ds ++ es) s'' where
  consumes := h.consumes.trans h'.consumes
  errors := by rw [h'.errors, h.errors, List.append_assoc]
  on d hd := by
    rcases List.mem_append.1 hd with hd | hd
    · obtain ⟨t, ht, hon⟩ := h.on d hd
      exact ⟨t, ht.after h'.consumes, hon⟩
    · obtain ⟨t, ht, hon⟩ := h'.on d hd
      exact ⟨t, .before hseen h'.consumes ht, hon⟩
  proper hmends := by
    obtain ⟨hproper, hahead⟩ := h.proper hmends
    obtain ⟨hproper', hahead'⟩ := h'.proper hmends
    refine ⟨List.forall_mem_append.2 ⟨hproper, hproper'⟩, fun d hd => ?_⟩
    rcases List.mem_append.1 hd with hd | hd
    · -- the error token that the first run stopped at is not consumed by the second
      obtain ⟨t, ht, herror, hon⟩ := hahead d hd
      refine ⟨t, (h'.consumes.touched ht).resolve_left fun hmem => ?_, herror, hon⟩
      rw [hproper' t hmem] at herror
      cases herror
    · exact hahead' d hd

/-- Nothing is consumed or told by what leaves both as they were. -/
theorem quiet (h : s.Consumes [] s') (herrors : s'.errors = s.errors) :
    s.Tells On seen mends [] [] s' where
  consumes := h
  errors := by rw [herrors, List.append_nil]
  on := List.forall_mem_nil _
  proper := fun _ => ⟨List.forall_mem_nil _, List.forall_mem_nil _⟩

/-- What is told holds where more tokens have been seen, and where there may be recovery. -/
theorem widen {mends' : Bool} (h : s.Tells On seen' mends' ts ds s') (hseen : seen' ⊆ seen)
    (hmends : mends = false → mends' = false) : s.Tells On seen mends ts ds s' where
  consumes := h.consumes
  errors := h.errors
  on d hd := by
    obtain ⟨t, ht, hon⟩ := h.on d hd
    exact ⟨t, ht.imp_left (@hseen t), hon⟩
  proper hf := h.proper (hmends hf)

/-- At most one diagnostic is recorded, about a token that has been touched. -/
theorem add {why : Diagnostic} (h : s.Consumes [] s') (herrors : s'.errors = s.errors.add why)
    (ht : s'.Touched seen [] t) (hon : On why t)
    (hmends : mends = false → s'.ahead = some t ∧ t.isError = true) :
    ∃ ds, s.Tells On seen mends [] ds s' := by
  by_cases hfull : s.errors.isFull = true
  · exact ⟨[], .quiet h (by rw [herrors, Collector.add, if_pos hfull])⟩
  · refine ⟨[why], h, ?_, List.forall_mem_singleton.2 ⟨t, ht, hon⟩, fun hf => ?_⟩
    · rw [herrors, Collector.errors_add, if_neg hfull]
    · obtain ⟨hahead, herror⟩ := hmends hf
      exact ⟨List.forall_mem_nil _, List.forall_mem_singleton.2 ⟨t, hahead, herror, hon⟩⟩

/-- What a run fails with may be recorded behind it. -/
theorem report {why : Diagnostic} (h : s.Tells On seen mends ts ds s')
    (hmends : mends = true) (ht : s'.Touched seen ts t) (hon : On why t) (hc : s'.Consumes [] s'')
    (herrors : s''.errors = s'.errors ∨ s''.errors = s'.errors.add why) :
    ∃ es, s.Tells On seen mends ts es s'' := by
  obtain ⟨es, hes⟩ : ∃ es, s'.Tells On [t] mends [] es s'' := by
    rcases herrors with hsame | hadd
    · exact ⟨[], .quiet hc hsame⟩
    · refine add hc hadd (.inl List.mem_cons_self) hon fun hf => ?_
      rw [hmends] at hf
      cases hf
  have hboth := h.trans (List.forall_mem_singleton.2 ht) hes
  rw [List.append_nil] at hboth
  exact ⟨ds ++ es, hboth⟩

end Tells

end State

/-- What a failure tells. -/
def Failure.told : Failure → Option Diagnostic
  | .syntactic why _ | .tooDeep why => some why
  | .aborted _ => none

namespace Parser

variable {α β : Type} {env : Setting} {k k' : Known}

/-- The token that is known to be looked at is looked at. -/
def Known.At (k : Known) (s : State) : Prop := ∀ t, k.next = some t → s.ahead = some t

theorem Known.at_nothing (s : State) : Known.At {} s := by
  rintro t ⟨⟩

theorem Known.at_on (k : Known) (s : State) : k.on.At s := by
  rintro t ⟨⟩

theorem Known.at_took (k : Known) (s : State) : k.took.At s := by
  rintro t ⟨⟩

theorem Known.at_look (k : Known) (h : s.ahead = some t) : (k.look t).At s := by
  rintro u ⟨⟩
  exact h

variable (On) in
/-- The account of a run: what it has told up to its end, and with its failure. -/
def Accounts (k : Known) (s : State) : EStateM.Result Failure State α → Prop
  | .ok _ s' => ∃ ts ds, s.Tells On k.seen k.mends ts ds s'
  | .error e s' => ∀ why, e.told = some why → ∃ ts ds, s.Tells On k.seen k.mends ts ds s' ∧
      ∃ t, s'.Touched k.seen ts t ∧ On why t

namespace Accounts

/-- A run that goes on where another one ended. -/
theorem after {r : EStateM.Result Failure State α} (h : s.Tells On k.seen k.mends ts ds s')
    (hseen : ∀ u ∈ k'.seen, s'.Touched k.seen ts u) (hmends : k'.mends = k.mends)
    (hr : Accounts On k' s' r) : Accounts On k s r := by
  cases r with
  | ok a s'' =>
    obtain ⟨us, es, h'⟩ := hr
    rw [hmends] at h'
    exact ⟨ts ++ us, ds ++ es, h.trans hseen h'⟩
  | error e s'' =>
    intro why hwhy
    obtain ⟨us, es, h', t, ht, hon⟩ := hr why hwhy
    rw [hmends] at h'
    exact ⟨ts ++ us, ds ++ es, h.trans hseen h', t, .before hseen h'.consumes ht, hon⟩

theorem bind {p : Parser α} {r : α → Parser β} (hp : Accounts On k s (p env s))
    (hr : ∀ a s₁, Gives p env s a s₁ → s.Leads s₁ → Accounts On k.on s₁ (r a env s₁)) :
    Accounts On k s ((p >>= r) env s) := by
  rw [run_bind]
  cases hrun : p env s with
  | error e s₁ =>
    rw [hrun] at hp
    exact hp
  | ok a s₁ =>
    rw [hrun] at hp
    obtain ⟨ts, ds, h⟩ := hp
    exact (hr a s₁ hrun ⟨ts, h.consumes⟩).after h (fun u hu => .inl hu) rfl

/-- A rule that counts on less may be used where more is known. -/
theorem widen {r : EStateM.Result Failure State α} (h : Accounts On k' s r)
    (hseen : k'.seen ⊆ k.seen) (hmends : k.mends = false → k'.mends = false) :
    Accounts On k s r := by
  cases r with
  | ok a s' =>
    obtain ⟨ts, ds, h⟩ := h
    exact ⟨ts, ds, h.widen hseen hmends⟩
  | error e s' =>
    intro why hwhy
    obtain ⟨ts, ds, h, t, ht, hon⟩ := h why hwhy
    exact ⟨ts, ds, h.widen hseen hmends, t, ht.imp_left (@hseen t), hon⟩

end Accounts

/-- Looking tells at most of the fault of the token looked at. -/
theorem peek_tells (hs : s.Sited On) (h : Gives peek env s t s') :
    ∃ ds, s.Tells On seen mends [] ds s' := by
  obtain ⟨hc, -, hahead⟩ := peek_gives h
  obtain hsame | ⟨why, hfault, hadd⟩ : s'.errors = s.errors ∨
      ∃ why, Scan.fault why t ∈ s.pending ∧ s'.errors = s.errors.add why := by
    unfold Gives peek at h
    simp only [run_bind, run_get] at h
    cases ha : s.ahead with
    | some u => rw [ha] at h; cases h; exact .inl rfl
    | none =>
      simp only [ha, run_bind, run_pull] at h
      rcases hp : s.pending with _ | ⟨u | ⟨why, u⟩, rest⟩
      · simp only [hp] at h; cases h; exact .inl rfl
      · simp only [hp] at h; cases h; exact .inl rfl
      · simp only [hp] at h
        cases hf : s.faults with
        | shared => simp only [hf] at h; cases h; exact .inr ⟨why, List.mem_cons_self, rfl⟩
        | separate errors => simp only [hf] at h; cases h; exact .inl rfl
        | raise => simp only [hf] at h; cases h
  · exact ⟨[], .quiet hc hsame⟩
  · obtain ⟨herror, hon⟩ := hs why t hfault
    exact State.Tells.add hc hadd (.inr (.inr hahead)) hon fun _ => ⟨hahead, herror⟩

/-- What recovery does when a rule has failed. -/
theorem run_recover (rule : Parser α) (skip : Parser Unit) (resting : Parser Bool) (env : Setting)
    (s : State) : recover rule skip resting env s = match rule env s with
      | .ok a s' => .ok (some a) s'
      | .error (.syntactic why echo) s' => (do
        report why echo; skip; moveOn s.consumed resting; pure none : Parser (Option α)) env s'
      | .error e s' => .error e s' := by
  obtain ⟨handle, hrecover, hsyntactic, hdeep, habort⟩ :=
    recover_eq_rescue (α := α) skip resting env s
  rw [hrecover, rescue, run_map]
  cases rule env s with
  | ok a s' => rfl
  | error e s' =>
    cases e with
    | syntactic why echo => exact congrFun (congrFun (hsyntactic why echo) env) s'
    | tooDeep why => exact congrFun (congrFun (hdeep why) env) s'
    | aborted why => exact congrFun (congrFun (habort why) env) s'

theorem run_haltDeep (p : Parser α) (a : α) (env : Setting) (s : State) :
    haltDeep p a env s = match p env s with
      | .error (.tooDeep why) s' => .ok a ((s'.record why).note (.stopped why))
      | r => r := by
  unfold haltDeep rescue
  rcases p env s with _ | ⟨_ | _ | _, _⟩ <;> rfl

/-- What holds of recovery, from what holds of the rule: the ways in which a rule ends. -/
theorem recover_cases {rule : Parser α} {skip : Parser Unit} {resting : Parser Bool}
    {D : EStateM.Result Failure State α → Prop} {C : EStateM.Result Failure State (Option α) → Prop}
    (hrule : D (rule env s)) (ok : ∀ a s', D (.ok a s') → C (.ok (some a) s'))
    (fatal : ∀ e s', D (.error e s') → C (.error e s'))
    (syntactic : ∀ why echo s', D (.error (.syntactic why echo) s') → C ((do
      report why echo; skip; moveOn s.consumed resting; pure none : Parser (Option α)) env s')) :
    C (recover rule skip resting env s) := by
  rw [run_recover]
  rcases hrun : rule env s with ⟨a, s'⟩ | ⟨⟨why, echo⟩ | why | why, s'⟩
  all_goals rw [hrun] at hrule
  · exact ok a s' hrule
  · exact syntactic why echo s' hrule
  · exact fatal _ s' hrule
  · exact fatal _ s' hrule

/-- What holds of a rule also holds where a nesting that is too deep ends a repetition. -/
theorem haltDeep_cases {p : Parser α} {a : α} {C : EStateM.Result Failure State α → Prop}
    (hp : C (p env s)) (tooDeep : ∀ why s', C (.error (.tooDeep why) s') →
      C (.ok a ((s'.record why).note (.stopped why)))) : C (haltDeep p a env s) := by
  rw [run_haltDeep]
  rcases hrun : p env s with ⟨a, s'⟩ | ⟨⟨why, echo⟩ | why | why, s'⟩
  all_goals rw [hrun] at hp
  · exact hp
  · exact hp
  · exact tooDeep why s' hp
  · exact hp

/-- The token that is looked at is consumed. -/
theorem gives_advance (ht : s.ahead = some t) (hend : t.isEnd = false) : Gives advance env s t
    { s with ahead := none, previous := some t, consumed := s.consumed + 1 } := by
  unfold Gives advance peek
  simp only [run_bind, run_get, ht, run_pure, hend]
  rfl

namespace Accounts

theorem quiet {a : α} (h : s.Consumes [] s') (herrors : s'.errors = s.errors) :
    Accounts On k s (.ok a s' : EStateM.Result Failure State α) :=
  ⟨[], [], .quiet h herrors⟩

variable {f : Location → Location} {p : Parser α} {r : Token → Parser β}

theorem peek (hs : s.Sited On)
    (hr : ∀ t s₁, s.Leads s₁ → s₁.ahead = some t → Accounts On (k.look t) s₁ (r t env s₁)) :
    Accounts On k s ((Parser.peek >>= r) env s) := by
  rw [run_bind]
  rcases peek_cases env s with ⟨t, s₁, hpeek, hc, hahead⟩ | ⟨why, s₁, hpeek⟩
  · obtain ⟨ds, htells⟩ : ∃ ds, s.Tells On k.seen k.mends [] ds s₁ := peek_tells hs hpeek
    have hseen : ∀ u ∈ (k.look t).seen, s₁.Touched k.seen [] u :=
      List.forall_mem_cons.2 ⟨.inr (.inr hahead), fun u hu => .inl hu⟩
    rw [hpeek]
    exact (hr t s₁ ⟨[], hc⟩ hahead).after htells hseen rfl
  · rw [hpeek]
    rintro _ ⟨⟩

/-- A token is consumed that has been looked at; one that is skipped may be an error token. -/
theorem advance {r : Token → Parser β} (ht : s.ahead = some t) (hend : t.isEnd = false)
    (hproper : k.mends = true ∨ t.isError = false)
    (hr : ∀ s₁, s.Leads s₁ → Accounts On k.took s₁ (r t env s₁)) :
    Accounts On k s ((Parser.advance >>= r) env s) := by
  have htake := State.Consumes.take ht hend
  rw [run_bind, gives_advance ht hend]
  have htells : s.Tells On k.seen k.mends [t] []
      { s with ahead := none, previous := some t, consumed := s.consumed + 1 } := {
    consumes := htake
    errors := (List.append_nil _).symm
    on := List.forall_mem_nil _
    proper := fun hmends => ⟨List.forall_mem_singleton.2 (hproper.resolve_left (by
      rw [hmends]; decide)), List.forall_mem_nil _⟩ }
  exact (hr _ ⟨[t], htake⟩).after htells (fun u hu => .inl hu) rfl

end Accounts

/-- Reporting records the fault unless it is an echo. -/
theorem report_records (why : Diagnostic) (echo : Bool) (env : Setting) (s : State) :
    ∃ s', Gives (report why echo) env s ⟨⟩ s' ∧ s.Consumes [] s' ∧
      (s'.errors = s.errors ∨ s'.errors = s.errors.add why) := by
  cases echo with
  | true => exact ⟨_, rfl, .note _, .inl rfl⟩
  | false => exact ⟨_, rfl, (State.Consumes.record why).trans (.note _), .inr rfl⟩

/-- Whatever comes next is skipped. -/
theorem advance_accounts (hmends : k.mends = true) (hs : s.Sited On) :
    Accounts On k s (advance env s) := by
  refine .peek hs fun t s₁ _ hahead => ?_
  cases hend : t.isEnd with
  | true => exact .quiet (.refl s₁) rfl
  | false =>
    refine ⟨[t], [], .take hahead hend, (List.append_nil _).symm, List.forall_mem_nil _, ?_⟩
    intro hf
    rw [show k.mends = false from hf] at hmends
    cases hmends

theorem run_moveOn (before : Nat) (resting : Parser Bool) (env : Setting) (s : State) :
    moveOn before resting env s =
      if s.consumed = before then (do unless ← resting do let _ ← advance : Parser Unit) env s
      else .ok () s := by
  unfold moveOn
  rw [run_bind, run_get]
  dsimp only
  split <;> rfl

theorem moveOn_accounts {resting : Parser Bool} (before : Nat) (hmends : k.mends = true)
    (hs : s.Sited On) (hresting : ∀ s : State, s.Sited On → Accounts On k.on s (resting env s)) :
    Accounts On k s (moveOn before resting env s) := by
  rw [run_moveOn]
  split
  next =>
    refine .bind (hresting s hs) fun rests s₁ _ ⟨ts, hc⟩ => ?_
    cases rests with
    | true => exact .quiet (.refl s₁) rfl
    | false =>
      refine .bind (advance_accounts hmends (hc.sited hs)) fun _ s₂ _ _ => ?_
      exact .quiet (.refl s₂) rfl
  next => exact .quiet (.refl s) rfl

/-- Skipping behind a failure that has been reported. -/
theorem skip_accounts {skip : Parser Unit} {resting : Parser Bool} {before : Nat}
    (hmends : k.mends = true) (hs : s.Sited On)
    (hskip : ∀ s : State, s.Sited On → Accounts On k.on s (skip env s))
    (hresting : ∀ s : State, s.Sited On → Accounts On k.on s (resting env s)) :
    Accounts On k s ((do skip; moveOn before resting; pure none : Parser (Option α)) env s) := by
  refine .bind (hskip s hs) fun _ s₁ _ ⟨ts, hc⟩ => ?_
  refine .bind (moveOn_accounts before hmends (hc.sited hs) hresting) fun _ s₂ _ _ => ?_
  exact .quiet (.refl s₂) rfl

/-- A repetition, given its steps. -/
theorem iterate_accounts {step : β → Parser (ForInStep β)} (progresses : Progresses step)
    (hstep : ∀ b (s : State), s.Sited On → Accounts On k s (step b env s)) (hs : s.Sited On)
    (b : β) : Accounts On k s (iterate step b env s) := by
  induction b, s using iterate_rounds progresses env with
  | error b s e s₁ hfirst hrun | done b s b₁ s₁ hfirst hrun =>
    have htells := hstep b s hs
    rw [hfirst] at htells
    rwa [hrun]
  | yield b s b₁ s₁ hfirst hrun ih =>
    have htells := hstep b s hs
    rw [hfirst] at htells
    obtain ⟨ts, ds, htells⟩ := htells
    rw [hrun]
    exact (ih (htells.consumes.sited hs)).after htells (fun u hu => .inl hu) rfl

/-- **The account of a rule.** -/
theorem Parallel.tells {f : Location → Location} {v : α → β} {p : Parser α} {q : Parser β}
    (h : Parallel f k v p q) (hon : ∀ source t c, On (.ofPlace source t.place c) t) {s : State}
    (hs : s.Sited On) (hat : k.At s) : Accounts On k s (p env s) := by
  induction h generalizing s with
  | pure heq => exact .quiet (.refl s) rfl
  | bind hp hr ihp ihr =>
    exact .bind (ihp hs hat) fun a s₁ _ ⟨ts, hc⟩ => ihr a (hc.sited hs) (Known.at_on _ _)
  | look hr ih =>
    exact .peek hs fun t s₁ ⟨ts, hc⟩ hahead => ih t (hc.sited hs) (Known.at_look _ hahead)
  | take hlook hend hproper hr ih =>
    exact .advance (hat _ hlook) hend hproper fun s₁ ⟨ts, hc⟩ =>
      ih (hc.sited hs) (Known.at_took _ _)
  | calm hp ih => exact (ih hs hat).widen (List.nil_subset _) fun _ => rfl
  | failAt ht hnext hlook hsyntactic hc =>
    rintro why ⟨⟩
    exact ⟨[], [], .refl s, _, .inl ht, hon ..⟩
  | tooDeep =>
    refine .peek hs fun t s₁ _ hahead => ?_
    rintro why ⟨⟩
    exact ⟨[], [], .refl s₁, t, .inl List.mem_cons_self, hon ..⟩
  | hugeLength => rintro _ ⟨⟩
  | spanFrom =>
    rw [run_spanFrom]
    cases s.previous with
    | none => rintro _ ⟨⟩
    | some t => exact .quiet (.refl s) rfl
  | note e => exact .quiet (.note e) rfl
  | isSated => exact .quiet (.refl s) rfl
  | iterate heq progresses progresses' hstep ih =>
    exact iterate_accounts progresses (fun b s₁ hs₁ => ih b hs₁ (Known.at_on _ _)) hs _
  | @recover α _ k v p p' skip resting hmends hp hskip hresting ihp ihskip ihresting =>
    refine recover_cases (ihp hs (Known.at_on _ _)) (fun _ _ h => h) (fun _ _ h => h) ?_
    intro why echo s₁ hrule
    obtain ⟨ts, ds, htells, t, ht, hont⟩ := hrule why rfl
    obtain ⟨s₂, hreport, hc, herrors⟩ := report_records why echo env s₁
    obtain ⟨es, htells₂⟩ := htells.report hmends ht hont hc herrors
    rw [run_bind, hreport]
    have hmay : k.on.mends = false → (Known.nested {}).mends = false := by
      rw [show k.on.mends = true from hmends]
      rintro ⟨⟩
    have hskips : Accounts On k.on s₂ ((do
        skip; moveOn s.consumed resting; Pure.pure none : Parser (Option α)) env s₂) :=
      skip_accounts hmends (htells₂.consumes.sited hs)
        (fun s₃ hs₃ => (ihskip hs₃ (Known.at_nothing s₃)).widen (List.nil_subset _) hmay)
        fun s₃ hs₃ => (ihresting hs₃ (Known.at_nothing s₃)).widen (List.nil_subset _) hmay
    exact hskips.after htells₂ (fun u hu => .inl hu) rfl
  | haltDeep a hmends hhalts hp ih =>
    refine haltDeep_cases (ih hs hat) fun why s₁ hrule => ?_
    obtain ⟨ts, ds, htells, t, ht, hont⟩ := hrule why rfl
    obtain ⟨es, htells₁⟩ := htells.report hmends ht hont
      ((State.Consumes.record why).trans (.note (.stopped why))) (.inr rfl)
    exact ⟨ts, es, htells₁⟩

/-- What a run leads to, its diagnostics aside. -/
def Leads (s : State) : EStateM.Result Failure State α → Prop
  | .ok _ s' => s.Leads s'
  | .error e s' => e.told ≠ none → s.Leads s'

theorem Accounts.leads {r : EStateM.Result Failure State α} (h : Accounts On k s r) :
    Leads s r := by
  cases r with
  | ok a s' =>
    obtain ⟨ts, ds, htells⟩ := h
    exact ⟨ts, htells.consumes⟩
  | error e s' =>
    intro htold
    obtain ⟨why, hwhy⟩ := Option.ne_none_iff_exists'.1 htold
    obtain ⟨ts, ds, htells, -⟩ := h why hwhy
    exact ⟨ts, htells.consumes⟩

theorem Leads.bind {p : Parser α} {r : α → Parser β} (hp : Leads s (p env s))
    (hr : ∀ a s₁, s.Leads s₁ → Leads s₁ (r a env s₁)) : Leads s ((p >>= r) env s) := by
  rw [run_bind]
  cases hrun : p env s with
  | error e s₁ =>
    rw [hrun] at hp
    exact hp
  | ok a s₁ =>
    rw [hrun] at hp
    have hrest := hr a s₁ hp
    dsimp only
    generalize r a env s₁ = x at hrest ⊢
    cases x with
    | ok b s₂ => exact State.Leads.trans hp hrest
    | error e s₂ => exact fun htold => State.Leads.trans hp (hrest htold)

/-- **A rule only consumes tokens,** however it ends. -/
theorem Parallel.leads {f : Location → Location} {v : α → β} {p : Parser α} {q : Parser β}
    (h : Parallel f k v p q) (env : Setting) (hs : s.Sited fun _ _ => True) (hat : k.At s) :
    Leads s (p env s) :=
  Accounts.leads (h.tells (fun _ _ _ => trivial) hs hat)

end Parser

end ArcLang
