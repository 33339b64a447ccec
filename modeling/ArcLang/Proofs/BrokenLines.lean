import ArcLang.Proofs.Confinement

/-!
# Lines that are no statement

A line that ends with its only semicolon, holds no brace and no word that starts a statement, and
is no statement itself, is recovered from as a whole: in a body and between items it is reported
once, at one of its tokens, and everything up to its semicolon is skipped.

* `BrokenLine`: the tokens of such a line.
* `Parser.performs_statementLine`, `Parser.performs_itemLine`: the two recoveries.
-/

namespace ArcLang

/-- A token of this kind ends no statement and opens or starts none; nor does it close a body. -/
def Kind.isOrdinary (k : Kind) : Bool :=
  k ≠ .symbol .semicolon && k ≠ .symbol .leftBrace && k ≠ .symbol .rightBrace && !k.startsStatement

theorem Kind.isOrdinary_iff {k : Kind} : k.isOrdinary = true ↔ k ≠ .symbol .semicolon ∧
    k ≠ .symbol .leftBrace ∧ k ≠ .symbol .rightBrace ∧ k.startsStatement = false := by
  simp [isOrdinary, and_assoc]

/-- The tokens of a line that ends with its only semicolon and is no statement with so many levels
of nesting. -/
structure BrokenLine (room : Nat) (line : List Token) : Prop where
  ends : ∃ us stop, line = us ++ [stop] ∧ stop.kind = .symbol .semicolon ∧
    ∀ t ∈ us, t.kind.isOrdinary = true
  notElse : firstKind line ≠ .keyword .elseWord
  proper : ∀ t ∈ line, t.isError = false
  refused : ∀ (e : Grammar.Expr) (stop : Grammar.Sign .semicolon), e.tokens ++ [stop.1] = line →
    e.tree.Placed → room < e.tree.need

theorem BrokenLine.mono {room room' : Nat} {line : List Token} (h : BrokenLine room line)
    (hle : room' ≤ room) : BrokenLine room' line :=
  { h with refused := fun e stop he hplaced => lt_of_le_of_lt hle (h.refused e stop he hplaced) }

/-- What is left of a line ends with its semicolon, with nothing but ordinary tokens before. -/
theorem BrokenLine.suffix {room : Nat} {line us : List Token} (hline : BrokenLine room line)
    (hne : us ≠ []) (h : us <:+ line) : ∃ us' stop, us = us' ++ [stop] ∧
      stop.kind = .symbol .semicolon ∧ ∀ t ∈ us', t.kind.isOrdinary = true := by
  obtain ⟨vs, stop, rfl, hstop, hvs⟩ := hline.ends
  obtain ⟨us', u, rfl⟩ := (List.eq_nil_or_concat us).resolve_left hne
  rw [List.concat_eq_append]
  obtain ⟨front, hfront⟩ := h
  rw [List.concat_eq_append, ← List.append_assoc] at hfront
  obtain ⟨rfl, hu⟩ := List.append_inj' hfront rfl
  obtain rfl := (List.cons.inj hu).1
  exact ⟨us', u, rfl, hstop, fun t ht => hvs t (List.mem_append_right _ ht)⟩

/-- A line is not empty, and starts with no brace. -/
theorem BrokenLine.starts {room : Nat} {line : List Token} (hline : BrokenLine room line) :
    line ≠ [] ∧ firstKind line ≠ .symbol .rightBrace ∧
      (firstKind line).startsStatement = false := by
  obtain ⟨us, stop, rfl, hstop, hus⟩ := hline.ends
  refine ⟨by simp, ?_⟩
  cases us with
  | nil =>
    rw [List.nil_append, firstKind_cons, hstop]
    exact ⟨by decide, rfl⟩
  | cons u us =>
    obtain ⟨-, -, hbrace, hstarts⟩ := Kind.isOrdinary_iff.1 (hus u List.mem_cons_self)
    exact ⟨hbrace, hstarts⟩

namespace Parser

open State (Calm Takes Mends Spares)

variable {α β : Type} {env : Setting} {s s' : State} {t : Token} {room : Nat}
  {line rest : List Token}

/-! ## The failure -/

theorem Runs.with_gives {p : Parser α} {gives : α → State → Prop}
    {fails : Diagnostic → Bool → State → Prop} {stops : Diagnostic → State → Prop}
    (h : Runs p env s gives fails stops) :
    Runs p env s (fun a s' => gives a s' ∧ Gives p env s a s') fails stops := by
  unfold Runs at h ⊢
  cases hp : p env s with
  | ok a s' =>
    rw [hp] at h
    exact ⟨h, hp⟩
  | error e s' =>
    rw [hp] at h
    cases e <;> exact h

/-- Tokens without a semicolon that are taken off a line end before its semicolon. -/
theorem unstopped_prefix {ts r us : List Token} {stop : Token} (hts : Unstopped ts)
    (hstop : stop.kind = .symbol .semicolon) (h : us ++ stop :: rest = ts ++ r) :
    ∃ us', us = ts ++ us' ∧ r = us' ++ stop :: rest := by
  rcases List.append_eq_append_iff.1 h with ⟨vs, rfl, hvs⟩ | ⟨vs, rfl, hr⟩
  · -- the semicolon is not among them
    cases vs with
    | nil => exact ⟨[], by simp, hvs.symm⟩
    | cons v vs =>
      obtain ⟨rfl, -⟩ := List.cons.inj hvs
      exact absurd hstop (hts stop (by simp))
  · exact ⟨vs, rfl, hr⟩

/-- What is expected fails at another token. -/
theorem expect_refused (h : s.Calm) {r : List Token} (hi : s.input = t :: r) {kind : Kind}
    (hk : t.kind ≠ kind) (expected : String) (env : Setting) : ∃ why s',
      expect kind expected env s = .error (.syntactic why t.isError) s' ∧ s.Takes [] s' ∧
        why.place = some t.place := by
  obtain ⟨s₁, hcheck, ht₁⟩ := check_calm h kind env
  rw [hi, firstKind_cons, decide_eq_false hk] at hcheck
  obtain ⟨s₂, hpeek, ht₂⟩ := peek_calm_of_input ht₁.calm (ht₁.input_eq.trans hi) env
  unfold Gives at hcheck hpeek
  refine ⟨.ofPlace env.source t.place (.missingToken expected (some s!"found {t.describe}")), s₂,
    ?_, ht₁.after ht₂, rfl⟩
  unfold expect
  rw [run_bind, hcheck]
  show (peek >>= _) env s₁ = _
  rw [run_bind, hpeek]
  rfl

/-- How a rule fails on a line: at one of its tokens, before its semicolon is consumed. -/
def FailsOn (line : List Token) (s : State) (why : Diagnostic) (echo : Bool) (s' : State) : Prop :=
  ∃ ts us, line = ts ++ us ∧ us ≠ [] ∧ s.Takes ts s' ∧ Blames line why ∧ echo = false

/-- **On a line with one semicolon an expression ends before the semicolon,** or it fails on the
line. -/
theorem expression_on_line {us : List Token} {stop : Token} (hstop : stop.kind = .symbol .semicolon)
    (hproper : ∀ t ∈ us ++ [stop], t.isError = false) (hs : s.Calm)
    (hi : s.input = us ++ stop :: rest) :
    Runs (expression room) env s
      (fun e s' => ∃ (d : Grammar.Expr) (us' : List Token), d.tree = e ∧ d.tree.Placed ∧
        d.tree.need ≤ room ∧ us = d.tokens ++ us' ∧ s.Takes d.tokens s')
      (FailsOn (us ++ [stop]) s) (StopsDeep env) := by
  have hconfined : Confined false [] (expression room) := confined_expression room
  refine (hconfined env s hs nofun).with_gives.imp ?_ ?_ fun _ _ => id
  · rintro e s' ⟨⟨ts, ht, hts⟩, hgives⟩
    obtain ⟨d, hd, rfl, hplaced, hneed⟩ := expression_sound room hgives
    obtain rfl : d.tokens = ts :=
      List.append_cancel_right (hd.input.symm.trans ht.consumes.input)
    obtain ⟨us', hus', -⟩ := unstopped_prefix hts hstop (hi ▸ ht.consumes.input)
    exact ⟨d, us', rfl, hplaced, Nat.le_of_lt_succ hneed, hus', ht⟩
  · rintro why echo s' ⟨ts, u, ht, hts, hu, hplace, rfl⟩
    obtain ⟨us', rfl, hr⟩ := unstopped_prefix hts hstop (hi ▸ ht.consumes.input)
    have hmem : u ∈ ts ++ us' ++ [stop] := by
      rcases hu with hu | hu | hu
      · cases hu
      · exact List.mem_append_left _ (List.mem_append_left _ hu)
      · -- the next token is the semicolon at the latest
        cases us' with
        | nil => simp [hu.eq_of_input hr]
        | cons v us' => simp [hu.eq_of_input hr]
    exact ⟨ts, us' ++ [stop], List.append_assoc _ _ _, by simp, ht, ⟨u, hmem, hplace⟩,
      hproper u hmem⟩

theorem FailsOn.after {why : Diagnostic} {echo : Bool} {s₁ : State}
    (h : FailsOn line s₁ why echo s') (ht : s.Takes [] s₁) : FailsOn line s why echo s' := by
  obtain ⟨ts, us, hsplit, hus, htakes, hrest⟩ := h
  exact ⟨ts, us, hsplit, hus, ht.after htakes, hrest⟩

/-- **A broken line fails as a statement,** whatever follows it. -/
theorem statement_fails (hline : BrokenLine room line) {body : Parser Block} (hs : s.Calm)
    (hi : s.input = line ++ rest) :
    Runs (statement (expression room) body) env s (fun _ _ => False) (FailsOn line s)
      (StopsDeep env) := by
  obtain ⟨hne, -, hstarts⟩ := hline.starts
  obtain ⟨t, s₁, hpeek, ht₁, hshows⟩ := peek_calm hs env
  have hkind : t.kind.startsStatement = false := by
    rw [hshows.kind, hi, firstKind_append hne]
    exact hstarts
  refine hpeek.runs_bind ?_
  -- the first token starts no other statement
  split
  next hk => rw [hk] at hkind; cases hkind
  next hk => rw [hk] at hkind; cases hkind
  next hk => rw [hk] at hkind; cases hkind
  next hk => rw [hk] at hkind; cases hkind
  next =>
    obtain ⟨us, stop, rfl, hstop, hus⟩ := hline.ends
    have hi₁ : s₁.input = us ++ stop :: rest := by rw [ht₁.input_eq, hi]; simp
    have hexpression : Runs (expression room) env s₁ _ (FailsOn _ s₁) (StopsDeep env) :=
      expression_on_line hstop hline.proper ht₁.calm hi₁
    refine (hexpression.imp (fun _ _ => id) (fun _ _ _ h => h.after ht₁) fun _ _ => id).bind ?_
    rintro e s₂ ⟨d, us', rfl, hplaced, hneed, rfl, ht₂⟩
    cases us' with
    | nil =>
      -- the expression ends where the line does, so the line would be a statement
      have hrefused := hline.refused d ⟨stop, hstop⟩ (by simp) hplaced
      omega
    | cons u us' =>
      have hu : u.kind ≠ .symbol .semicolon := (Kind.isOrdinary_iff.1 (hus u (by simp))).1
      have hmem : u ∈ d.tokens ++ u :: us' ++ [stop] := by simp
      have hi₂ : s₂.input = u :: (us' ++ stop :: rest) := ht₂.input (by simpa using hi₁)
      obtain ⟨why, s₃, hfail, ht₃, hplace⟩ :=
        expect_refused ht₂.calm hi₂ hu "';' after expression" env
      exact runs_of_error (error_bind hfail) ⟨d.tokens, u :: us' ++ [stop], by simp, by simp,
        ht₁.after (ht₂.before ht₃), ⟨u, hmem, hplace⟩, hline.proper u hmem⟩

/-! ## Skipping -/

/-- A step that goes on at ordinary tokens and ends behind a semicolon passes over a line. -/
theorem skip_passes {step : β → Parser (ForInStep β)} {b : β} (progresses : Progresses step)
    (pass : ∀ {s t r}, s.Calm → s.input = t :: r → t.kind.isOrdinary = true →
      ∃ s', Gives (step b) env s (.yield b) s' ∧ s.Takes [t] s')
    (done : ∀ {s t r}, s.Calm → s.input = t :: r → t.kind = .symbol .semicolon →
      ∃ s', Gives (step b) env s (.done b) s' ∧ s.Takes [t] s')
    {us : List Token} {stop : Token} (hus : ∀ t ∈ us, t.kind.isOrdinary = true)
    (hstop : stop.kind = .symbol .semicolon) (hs : s.Calm) (hi : s.input = us ++ stop :: rest) :
    ∃ s', Gives (iterate step b) env s b s' ∧ s.Takes (us ++ [stop]) s' := by
  induction us generalizing s with
  | nil =>
    obtain ⟨s₁, hstep, ht⟩ := done hs hi hstop
    exact ⟨s₁, gives_iterate_done progresses hstep, ht⟩
  | cons u us ih =>
    obtain ⟨hu, hus⟩ := List.forall_mem_cons.1 hus
    obtain ⟨s₁, hstep, ht⟩ := pass hs hi hu
    obtain ⟨s₂, hrest, ht₂⟩ := ih hus ht.calm (ht.input_cons hi)
    exact ⟨s₂, gives_iterate_yield progresses hstep hrest, ht.trans ht₂⟩

/-- In a body, all up to a semicolon is skipped. -/
theorem skipStatement_passes {us : List Token} {stop : Token}
    (hus : ∀ t ∈ us, t.kind.isOrdinary = true) (hstop : stop.kind = .symbol .semicolon)
    (hs : s.Calm) (hi : s.input = us ++ stop :: rest) :
    ∃ s', Gives skipStatement env s () s' ∧ s.Takes (us ++ [stop]) s' := by
  refine skip_passes progresses_skipStatementStep ?_ ?_ hus hstop hs hi
  · intro s t r hs hi hk
    obtain ⟨s₁, s₂, hpeek, hadvance, ht, -⟩ := first_calm hs hi env
    obtain ⟨hsemicolon, -, hbrace, hstarts⟩ := Kind.isOrdinary_iff.1 hk
    have hend : t.isEnd = false := State.not_isEnd_of_mem_input (hi ▸ List.mem_cons_self)
    refine ⟨s₂, gives_bind hpeek ?_, ht⟩
    rw [hend, decide_eq_false hbrace, hstarts]
    refine gives_bind hadvance ?_
    rw [if_neg hsemicolon]
    exact gives_pure _
  · intro s t r hs hi hk
    obtain ⟨s₁, s₂, hpeek, hadvance, ht, -⟩ := first_calm hs hi env
    have hend : t.isEnd = false := State.not_isEnd_of_mem_input (hi ▸ List.mem_cons_self)
    refine ⟨s₂, gives_bind hpeek ?_, ht⟩
    rw [hend, hk]
    refine gives_bind hadvance ?_
    rw [if_pos rfl]
    exact gives_pure _

/-- Between items, all up to a semicolon is skipped. -/
theorem skipItem_passes {us : List Token} {stop : Token}
    (hus : ∀ t ∈ us, t.kind.isOrdinary = true) (hstop : stop.kind = .symbol .semicolon)
    (hs : s.Calm) (hi : s.input = us ++ stop :: rest) :
    ∃ s', Gives skipItem env s () s' ∧ s.Takes (us ++ [stop]) s' := by
  obtain ⟨s', hskip, ht⟩ : ∃ s', Gives (iterate skipItemStep 0) env s 0 s' ∧
      s.Takes (us ++ [stop]) s' := by
    refine skip_passes progresses_skipItemStep ?_ ?_ hus hstop hs hi
    · intro s t r hs hi hk
      obtain ⟨s₁, s₂, hpeek, hadvance, ht, -⟩ := first_calm hs hi env
      obtain ⟨hsemicolon, hopen, hclose, hstarts⟩ := Kind.isOrdinary_iff.1 hk
      have hend : t.isEnd = false := State.not_isEnd_of_mem_input (hi ▸ List.mem_cons_self)
      refine ⟨s₂, gives_bind hpeek ?_, ht⟩
      rw [hend, hstarts]
      refine gives_bind hadvance ?_
      rw [if_neg hopen, if_neg hclose, decide_eq_false hsemicolon]
      exact gives_pure _
    · intro s t r hs hi hk
      obtain ⟨s₁, s₂, hpeek, hadvance, ht, -⟩ := first_calm hs hi env
      have hend : t.isEnd = false := State.not_isEnd_of_mem_input (hi ▸ List.mem_cons_self)
      refine ⟨s₂, gives_bind hpeek ?_, ht⟩
      rw [hend, hk]
      exact gives_bind hadvance (gives_pure _)
  exact ⟨s', gives_bind hskip (gives_pure ()), ht⟩

/-! ## Recovery -/

/-- **A rule that fails on a line recovers from it:** the line is reported once and skipped. -/
theorem recovers {rule : Parser α} {skip : Parser Unit} {resting : Parser Bool}
    (hs : s.Spares 1) (hi : s.input = line ++ rest)
    (hrule : Runs rule env s (fun _ _ => False) (FailsOn line s) (StopsDeep env))
    (hskip : ∀ {s₁ us}, us ≠ [] → us <:+ line → s₁.Calm → s₁.input = us ++ rest →
      ∃ s₂, Gives skip env s₁ () s₂ ∧ s₁.Takes us s₂) :
    Runs (recover rule skip resting) env s (fun x s' => x = none ∧ s.Mends line [line] s')
      (fun _ _ _ => False) (StopsDeep env) := by
  refine .recover (hrule.imp (fun _ _ => False.elim) ?_ fun _ _ => id)
  rintro why echo s₁ ⟨ts, us, rfl, hus, ht, hblames, rfl⟩
  let s₂ : State := (s₁.record why).note (.recovering why)
  have hreport : Gives (report why false) env s₁ () s₂ := rfl
  have hfull : s₁.errors.isFull = false := ht.calm.roomy
  have herrors : s₂.errors.errors = s.errors.errors ++ [why] := by
    show (s₁.errors.add why).errors = _
    rw [Collector.errors_add, hfull, ht.errors]
    rfl
  have hm : s.Mends ts [ts ++ us] s₂ := by
    refine ⟨ht.consumes.before ((State.Consumes.record why).trans (.note _)), [why], herrors, ?_⟩
    exact .cons hblames .nil
  have hcalm : s₂.Calm := (hm.spares (n := 0) hs).calm
  rw [List.append_assoc] at hi
  obtain ⟨s₃, hskip, ht₃⟩ := hskip hus (List.suffix_append ts us) hcalm (hm.input hi)
  have hmoved : s₃.consumed ≠ s.consumed := by
    have hconsumed := (hm.takes ht₃).consumes.consumed
    have hlength := List.length_pos_of_ne_nil hus
    rw [List.length_append] at hconsumed
    omega
  have hmoveOn : Gives (moveOn s.consumed resting) env s₃ () s₃ := by
    refine gives_bind (rfl : Gives get env s₃ s₃ s₃) ?_
    rw [if_neg hmoved]
    exact gives_pure _
  exact hreport.runs_bind (hskip.runs_bind (hmoveOn.runs_bind
    ((gives_pure none).runs ⟨rfl, hm.takes ht₃⟩)))

/-- **A body recovers from a broken line.** -/
theorem performs_statementLine (hline : BrokenLine room line) (body : Parser Block) :
    Performs env (StopsDeep env) (fun _ => False) (bodyStep (statement (expression room) body))
      (.skip line) := by
  obtain ⟨hne, hbrace, -⟩ := hline.starts
  refine performs_bodyStep hne hline.notElse hbrace fun hs hi _ => ?_
  refine recovers hs hi (statement_fails hline hs.calm hi) fun hne hsuffix hs hi => ?_
  obtain ⟨us, stop, rfl, hstop, hus⟩ := hline.suffix hne hsuffix
  exact skipStatement_passes hus hstop hs (by simpa using hi)

/-- A broken line is not begun like a definition either. -/
theorem item_fails (hline : BrokenLine room line) (hs : s.Calm) (hi : s.input = line ++ rest) :
    Runs (item room) env s (fun _ _ => False) (FailsOn line s) (StopsDeep env) := by
  obtain ⟨hne, -, hstarts⟩ := hline.starts
  obtain ⟨t, s₁, hpeek, ht, hshows⟩ := peek_calm hs env
  have hkind : t.kind.startsStatement = false := by
    rw [hshows.kind, hi, firstKind_append hne]
    exact hstarts
  refine hpeek.runs_bind ?_
  split
  next hk => rw [hk] at hkind; cases hkind
  next hk => rw [hk] at hkind; cases hkind
  next =>
    have hfails : Runs (statement (expression room) (body room)) env s₁ _ (FailsOn line s₁) _ :=
      statement_fails hline ht.calm (ht.input_eq.trans hi)
    exact (hfails.imp (fun _ _ => id) (fun _ _ _ h => h.after ht) fun _ _ => id).map fun _ _ => id

/-- The collector tells that the nesting was too deep, and no faults are to come. -/
structure ToldDeep (env : Setting) (s : State) : Prop where
  faultless : Scan.faults s.pending = []
  told : ∃ d ∈ s.errors.errors, d.cause = .tooDeep env.maxDepth

theorem halting_deep (env : Setting) : Halting (StopsDeep env) (ToldDeep env) where
  record := by
    rintro why s ⟨hcause, hs⟩
    refine ⟨hs.faultless, why, ?_, hcause⟩
    show why ∈ (s.errors.add why).errors
    rw [Collector.errors_add, hs.roomy]
    exact List.mem_append_right _ (List.mem_singleton_self why)
  faultless _ h := h.faultless

/-- **Between items the parser recovers from a broken line.** -/
theorem performs_itemLine (hline : BrokenLine room line) :
    Performs env Never (ToldDeep env) (itemStep room) (.skip line) := by
  obtain ⟨hne, -, -⟩ := hline.starts
  refine performs_itemStep hne hline.notElse (halting_deep env) fun hs hi _ => ?_
  refine recovers hs hi (item_fails hline hs.calm hi) fun hne hsuffix hs hi => ?_
  obtain ⟨us, stop, rfl, hstop, hus⟩ := hline.suffix hne hsuffix
  exact skipItem_passes hus hstop hs (by simpa using hi)

end Parser

end ArcLang
