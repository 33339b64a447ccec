import ArcLang.Proofs.Skipping
import ArcLang.Proofs.Recording
import ArcLang.Proofs.Regime

/-!
# Faults of the text are told once

A parse tells the faults of the tokens that it reaches, and faults of syntax only at tokens that are
none of error. Unless the collector gets full or the nesting is too deep, the parse reaches the end
of the text, so that all faults of the text are told.

* `State.Tallies`: what has been told so far, as against the scan so far.
* `law_tallies`: every step of a rule keeps that.
* `Parser.stops_of_items`: how the reading of items comes to an end.
* `parse_tells_first`, `parse_tells_all`: which faults of the text are told.
* `parse_tells_at_proper`: where faults of syntax are told.
* `parse_tells_faults_once`: the statement.
-/

namespace ArcLang

/-- The diagnostic is about the characters of the text. -/
def Diagnostic.isLexical (d : Diagnostic) : Bool := d.category = .lexical

/-- The diagnostic is a fault of syntax at the start of a token that is none of error. -/
def Diagnostic.AtProper (ts : List Token) (d : Diagnostic) : Prop :=
  d.cause.IsSyntactic ∧ ∃ t ∈ ts, t.isError = false ∧ d.place = some t.place

theorem Cause.IsSyntactic.not_lexical {c : Cause} (h : c.IsSyntactic) : c.category ≠ .lexical := by
  rcases h with h | h <;> rw [h] <;> decide

/-- The faults of a text are about its characters. -/
theorem isLexical_of_fault {source : Source} {text : String} {why : Diagnostic} {t : Token}
    (h : Scan.fault why t ∈ scan source text) : why.isLexical = true := by
  obtain ⟨xs, e, hscan, -, hmunches⟩ := scanFrom_munches source [] text.toList .start rfl
  rw [scan, hscan] at h
  rcases List.mem_append.1 h with h | h
  · obtain ⟨before, rest, -, -, -, htakes⟩ := hmunches _ h
    by_cases hlexeme : ∃ k w, Kind.Spells k w ∧ w <+: rest
    · obtain ⟨t', heq, -⟩ := htakes.longest hlexeme
      cases heq
    · obtain ⟨why', t', heq, hcategory⟩ := htakes.refused hlexeme
      cases heq
      exact decide_eq_true hcategory
  · cases List.mem_singleton.1 h

/-! ## What has been told -/

/-- So far the parse of these scans has told the first faults of those that it has taken, and all of
them if there is still room for more; and nothing else but that the nesting is too deep, or faults
at proper tokens. -/
structure State.Tallies (scans : List Scan) (capacity : Int) (s : State) : Prop where
  ready : s.Ready
  shared : s.faults = .shared
  capacity : s.errors.capacity = capacity
  stream : ∀ t ∈ s.stream, t ∈ Scan.tokens scans
  taken : ∃ passed, scans = passed ++ s.pending ∧
    s.errors.errors.filter (·.isLexical) <+: Scan.faults passed ∧ (s.errors.isFull = false →
      s.errors.errors.filter (·.isLexical) = Scan.faults passed)
  told : ∀ d ∈ s.errors.errors, d.isLexical = true ∨ d.category = .recursionLimit ∨
    d.AtProper (Scan.tokens scans)

/-- A failure is about a token of the scans; an echo, about an error token. -/
def Failure.IsAt (scans : List Scan) : Failure → Prop
  | .syntactic why echo => why.cause.IsSyntactic ∧
      ∃ t ∈ Scan.tokens scans, t.isError = echo ∧ why.place = some t.place
  | .tooDeep why => why.category = .recursionLimit
  | .aborted _ => True

namespace State.Tallies

variable {scans : List Scan} {capacity : Int} {s s' : State} {t : Token} {why : Diagnostic}

/-- Nothing is told by what leaves the diagnostics and the stream as they were. -/
theorem quiet {ts : List Token} (h : s.Tallies scans capacity) (hc : s.Consumes ts s')
    (hpending : s'.pending = s.pending) (herrors : s'.errors = s.errors) :
    s'.Tallies scans capacity where
  ready := h.ready.after hc
  shared := hc.shared h.shared
  capacity := hc.capacity.trans h.capacity
  stream t ht := h.stream t (by
    rw [h.ready.stream_eq hc]
    exact List.mem_append_right ts ht)
  taken := by
    rw [hpending, herrors]
    exact h.taken
  told := by
    rw [herrors]
    exact h.told

/-- A further scan is taken; where it is a fault, that is told. -/
theorem pull {x : Scan} {rest : List Scan} (h : s.Tallies scans capacity) (hc : s.Consumes [] s')
    (hpending : s.pending = x :: rest) (hrest : s'.pending = rest)
    (herrors : s'.errors = s.errors.addAll x.fault?.toList)
    (hlexical : ∀ d ∈ x.fault?, d.isLexical = true) : s'.Tallies scans capacity where
  ready := h.ready.after hc
  shared := hc.shared h.shared
  capacity := hc.capacity.trans h.capacity
  stream t ht := h.stream t (by
    rw [h.ready.stream_eq hc]
    exact ht)
  taken := by
    obtain ⟨passed, hscans, hfirst, hall⟩ := h.taken
    refine ⟨passed ++ [x], by rw [hscans, hpending, hrest, List.append_assoc]; rfl, ?_⟩
    rw [herrors, Scan.faults, List.filterMap_append]
    cases x with
    | token t =>
      have hnone : List.filterMap Scan.fault? [Scan.token t] = [] := rfl
      rw [hnone, List.append_nil]
      exact ⟨hfirst, hall⟩
    | fault why t =>
      show ((s.errors.add why).errors).filter _ <+: Scan.faults passed ++ [why] ∧ _
      cases hfull : s.errors.isFull with
      | true =>
        have hsame : s.errors.add why = s.errors := by rw [Collector.add, if_pos hfull]
        rw [hsame]
        refine ⟨hfirst.trans (List.prefix_append _ _), fun hroom => ?_⟩
        have hroom : s.errors.isFull = false := hsame ▸ hroom
        rw [hfull] at hroom
        cases hroom
      | false =>
        have hadded : ((s.errors.add why).errors).filter (·.isLexical) =
            Scan.faults passed ++ [why] := by
          rw [Collector.errors_add, if_neg (by rw [hfull]; decide), List.filter_append, hall hfull,
            List.filter_cons_of_pos (hlexical why rfl), List.filter_nil]
        exact ⟨hadded ▸ List.prefix_rfl, fun _ => hadded⟩
  told := by
    rw [herrors]
    cases x with
    | token t => exact h.told
    | fault why t =>
      intro d hd
      rcases Collector.mem_of_mem_add hd with hd | rfl
      · exact h.told d hd
      · exact .inl (hlexical d rfl)

/-- What is no fault of the text is told. -/
theorem record (h : s.Tallies scans capacity) (hlexical : why.category ≠ .lexical)
    (htold : why.category = .recursionLimit ∨ why.AtProper (Scan.tokens scans)) :
    (s.record why).Tallies scans capacity where
  ready := h.ready.after (.record why)
  shared := h.shared
  capacity := (Collector.capacity_add _ _).trans h.capacity
  stream := h.stream
  taken := by
    obtain ⟨passed, hscans, hfirst, hall⟩ := h.taken
    have hnot : ¬ why.isLexical = true := fun hyes => hlexical (of_decide_eq_true hyes)
    have hsame : ((s.errors.add why).errors).filter (·.isLexical) =
        s.errors.errors.filter (·.isLexical) := by
      rw [Collector.errors_add]
      split
      · rfl
      · rw [List.filter_append, List.filter_cons_of_neg hnot, List.filter_nil, List.append_nil]
    refine ⟨passed, hscans, hsame ▸ hfirst, fun hroom => hsame.trans (hall ?_)⟩
    cases hfull : s.errors.isFull with
    | false => rfl
    | true =>
      have hadd : s.errors.add why = s.errors := by rw [Collector.add, if_pos hfull]
      have hroom : (s.errors.add why).isFull = false := hroom
      rw [hadd, hfull] at hroom
      cases hroom
  told d hd := by
    rcases Collector.mem_of_mem_add hd with hd | rfl
    · exact h.told d hd
    · exact .inr htold

end State.Tallies

namespace Parser

/-- **Every step keeps the tally.** -/
theorem law_tallies {env : Setting} {scans : List Scan} {capacity : Int}
    (hlexical : ∀ why t, Scan.fault why t ∈ scans → why.isLexical = true) :
    Law env (State.Tallies scans capacity) (· ∈ Scan.tokens scans) (Failure.IsAt scans) where
  shared hs := hs.shared
  look {s s' t} hs hpeek := by
    obtain ⟨hc, -, hahead⟩ := peek_gives hpeek
    have hmet : t ∈ Scan.tokens scans := by
      refine hs.stream t ?_
      rw [hs.ready.stream_eq hc]
      exact State.mem_stream_of_ahead hahead
    refine ⟨?_, hmet⟩
    cases looks_of_gives hs.shared hpeek with
    | again => exact hs
    | beyond hnone hpending => exact hs.quiet hc rfl rfl
    | token hnone hpending => exact hs.pull hc hpending rfl rfl (by rintro _ ⟨⟩)
    | @fault why rest hnone hpending =>
      obtain ⟨passed, hscans, -⟩ := hs.taken
      refine hs.pull hc hpending rfl rfl ?_
      rintro _ ⟨⟩
      refine hlexical why t ?_
      rw [hscans, hpending]
      exact List.mem_append_right passed List.mem_cons_self
  take hs hahead hend := hs.quiet (.take hahead hend) rfl rfl
  note e hs := hs.quiet (.note e) rfl rfl
  fail {t c} hmet hsyntactic := ⟨hsyntactic, t, hmet, rfl, rfl⟩
  deep _ := rfl
  record {s why} hs hfair := by
    rcases hfair with ⟨hsyntactic, t, ht, hproper, hplace⟩ | hdeep
    · exact hs.record hsyntactic.not_lexical (.inr ⟨hsyntactic, t, ht, hproper, hplace⟩)
    · have hdeep : why.category = .recursionLimit := hdeep
      exact hs.record (by rw [hdeep]; decide) (.inl hdeep)

/-! ## The end of a program -/

/-- Nothing is left to be read, or nothing more would be told, or it has been told that the nesting
is too deep. -/
def Ended (s : State) : Prop :=
  s.input = [] ∨ s.errors.isFull = true ∨ ∃ d ∈ s.errors.errors, d.category = .recursionLimit

variable {env : Setting} {scans : List Scan} {capacity : Int} {s s' : State}

/-- Rules fail for the nesting with a diagnostic that says so. -/
theorem regime_deep (env : Setting) : Regime env true (fun _ => True) (fun _ => True)
    fun e => ∀ why, e = .tooDeep why → why.category = .recursionLimit where
  look {s} _ := by
    rcases peek_cases env s with ⟨t, s', hpeek, -⟩ | ⟨why, s', hpeek⟩
    · exact .inl ⟨t, s', hpeek, trivial, trivial⟩
    · exact .inr ⟨why, s', hpeek, by rintro _ ⟨⟩⟩
  take _ _ _ := trivial
  note _ _ := trivial
  record _ _ _ := trivial
  fail _ _ := by rintro _ ⟨⟩
  deep _ := by
    rintro _ ⟨⟩
    rfl
  hugeLength _ := by rintro _ ⟨⟩

/-- The reading of items has just come to an end: at the end of the tokens, or where the collector
is full, or because the nesting is too deep. -/
def Stops (s : State) : Prop :=
  s.input = [] ∨ s.errors.isFull = true ∨
    ∃ (why : Diagnostic) (s₀ : State), why.category = .recursionLimit ∧
      s = (s₀.record why).note (.stopped why)

/-- Where no more items are read, there is a reason for it. -/
theorem stops_of_itemStep {room : Nat} {acc out : Array Item}
    (h : Gives (itemStep room acc) env s (.done out) s') : Stops s' := by
  obtain ⟨ended, s₁, hended, -⟩ := bind_gives h
  obtain ⟨t, s₁, hpeek, -⟩ := bind_gives hended
  obtain ⟨hc, hshows, -⟩ := peek_gives hpeek
  unfold Gives at h
  rw [run_itemStep hpeek] at h
  split at h
  case isTrue hstop =>
    cases h
    rcases (Bool.or_eq_true ..).mp hstop with hstop | hstop
    · exact .inl (hc.input_eq.trans ((isEnd_iff_of_shows hshows).1 hstop))
    · exact .inr (.inl hstop)
  case isFalse =>
    have hrecover : Abides _ _ s₁ (recover (item room) skipItem (pure false) env s₁) :=
      (parallel_recoverItem (f := id) (k := {}) rfl).abides (regime_deep env) (fun _ => rfl)
        trivial (Known.at_nothing s₁) nofun (List.forall_mem_nil _)
    rw [run_haltDeep, run_bind] at h
    cases hrun : recover (item room) skipItem (pure false) env s₁ with
    | ok read s₂ =>
      -- a step that has read an item, or recovered from one, asks for more
      rw [hrun] at h
      cases read <;> cases h
    | error e s₂ =>
      rw [hrun] at h hrecover
      cases e with
      | syntactic why echo => cases h
      | aborted why => cases h
      | tooDeep why =>
        cases h
        exact .inr (.inr ⟨why, s₂, hrecover.1 why rfl, rfl⟩)

/-- **The reading of items comes to an end for a reason.** -/
theorem stops_of_items {room : Nat} {acc out : Array Item}
    (h : Gives (iterate (itemStep room) acc) env s out s') : Stops s' :=
  iterate_induction (progresses_itemStep (eats_item room)) (motive := fun _ _ _ s' => Stops s')
    (fun _ _ _ _ hstep => stops_of_itemStep hstep) (fun _ _ _ _ _ _ _ ih => ih) h

theorem Stops.ended (h : Stops s) : Ended s := by
  refine h.imp_right (Or.rec .inl ?_)
  rintro ⟨why, s₀, hdeep, rfl⟩
  exact State.MeetsBound.record (s := s₀) hdeep

/-- Looking at a token takes nothing back. -/
theorem Ended.after (h : Ended s) (hc : s.Consumes [] s') : Ended s' := by
  rcases h with hinput | hfull | ⟨d, hd, hdeep⟩
  · exact .inl (hc.input_eq.trans hinput)
  · refine .inr (.inl ?_)
    rw [Collector.isFull_iff] at hfull ⊢
    have hlength := hc.errors.length_le
    rw [hc.capacity]
    omega
  · exact .inr (.inr ⟨d, hc.errors.subset hd, hdeep⟩)

/-- **A program ends where it has been tallied,** and for a reason; a token is looked at. -/
theorem program_tallies {p : Program} (law : Law env (State.Tallies scans capacity)
      (· ∈ Scan.tokens scans) (Failure.IsAt scans)) (hs : s.Tallies scans capacity)
    (h : Gives program env s p s') : s'.Tallies scans capacity ∧ Ended s' ∧ s'.ahead ≠ none := by
  refine ⟨program_upholds law hs h, ?_⟩
  obtain ⟨acc, s₁, t, hitems, hc, hahead, -⟩ := program_gives h
  refine ⟨(stops_of_items hitems).ended.after hc, ?_⟩
  rw [hahead]
  nofun

end Parser

theorem tallies_startOf (text file : String) (n : Int) :
    (startOf text file n).Tallies (scansOf text file) n where
  ready := ready_startOf text file n
  shared := rfl
  capacity := rfl
  stream _ ht := ht
  taken := ⟨[], rfl, List.prefix_rfl, fun _ => rfl⟩
  told := List.forall_mem_nil _

/-! ## Texts -/

namespace Collector

theorem precedes_trans (a b c : Diagnostic) (hab : precedes a b = true)
    (hbc : precedes b c = true) : precedes a c = true := by
  unfold precedes at *
  cases ha : a.place <;> cases hb : b.place <;> cases hc : c.place <;> simp_all
  omega

theorem precedes_total (a b : Diagnostic) : (precedes a b || precedes b a) = true := by
  unfold precedes
  cases ha : a.place <;> cases hb : b.place <;> simp
  omega

/-- What is in the order of places is not moved by sorting. -/
theorem filter_sorted {c : Collector} {q : Diagnostic → Bool}
    (h : (c.errors.filter q).Pairwise fun a b => precedes a b = true) :
    c.sorted.filter q = c.errors.filter q := by
  have hall : (c.errors.filter q).Sublist c.sorted :=
    List.sublist_mergeSort precedes_trans precedes_total h List.filter_sublist
  have hsublist : (c.errors.filter q).Sublist (c.sorted.filter q) := by
    have hboth := hall.filter q
    rwa [List.filter_filter, funext fun d => Bool.and_self (q d)] at hboth
  exact (hsublist.eq_of_length (c.sorted_perm.filter q).length_eq.symm).symm

end Collector

/-- The faults of a text are in the order of their places. -/
theorem pairwise_faults (source : Source) (text : String) :
    (Scan.faults (scan source text)).Pairwise fun a b => Collector.precedes a b = true := by
  have hinside := Scan.forall₂_faults (Scan.isFaithful_of_mem source text)
    (R := fun d t => d.Concerns t) fun why t ht => (concerns_of_fault ht).2
  have hordered := (scanFrom_covers source .start text.toList).ordered.2
  refine pairwise_of_forall₂ hinside.flip (hordered.sublist List.filter_sublist) ?_
  intro t t' d d' (hd : d.Concerns t) (hd' : d'.Concerns t') hbefore
  obtain ⟨l, hl, -⟩ := id hd
  obtain ⟨l', hl', -⟩ := id hd'
  have hlt := hd.lt hl hbefore.1
  have hle := hd'.le hl'
  unfold Collector.precedes
  rw [hl, hl']
  exact decide_eq_true (by omega)

/-- Tokens of a text that start at one place are the same. -/
theorem eq_of_place_eq {source : Source} {text : String} {t u : Token}
    (ht : t ∈ Scan.tokens (scan source text)) (hu : u ∈ Scan.tokens (scan source text))
    (h : t.place = u.place) : t = u := by
  have hordered := (scanFrom_covers source .start text.toList).ordered.2
  have hnodup : ((Scan.tokens (scan source text)).map Token.place).Nodup := by
    refine List.pairwise_map.2 (hordered.imp ?_)
    intro a b hab heq
    have hoffset : a.span.start.offset = b.span.start.offset := congrArg Location.offset heq
    omega
  exact List.inj_on_of_nodup_map hnodup ht hu h

section Texts

variable {text file : String} {o : Options} {r : Parsed}

/-- The state in which a parse ends. -/
theorem parse_tallies (h : parse text file o = .ok r) : ∃ s : State,
    s.Tallies (scansOf text file) o.maxErrors ∧ Parser.Ended s ∧ s.ahead ≠ none ∧
      r.diagnostics = s.errors.sorted := by
  obtain ⟨s, hscans, hdiagnostics⟩ := parseScans_of_parse h
  obtain ⟨htallies, hended, hahead⟩ := Parser.program_tallies
    (Parser.law_tallies fun _ _ => isLexical_of_fault) (tallies_startOf text file o.maxErrors)
    (parseScans_eq_ok_iff.1 hscans)
  exact ⟨s, htallies, hended, hahead, hdiagnostics⟩

/-- At the end of the input nothing is left of the scans. -/
theorem State.Ready.pending_eq_nil {s : State} (h : s.Ready) (hinput : s.input = [])
    (hahead : s.ahead ≠ none) : s.pending = [] := by
  obtain ⟨e, hstream, -⟩ := h.ends
  obtain ⟨t, ht⟩ := Option.ne_none_iff_exists'.1 hahead
  rw [hinput, State.stream, ht] at hstream
  have hnil : Scan.tokens s.pending = [] := (List.cons.inj hstream).2
  exact List.map_eq_nil_iff.1 hnil

/-- What is told of the characters of a text is the first of its faults, in their order. -/
theorem parse_tells_first (h : parse text file o = .ok r) :
    r.diagnostics.filter (·.isLexical) <+: Scan.faults (scansOf text file) := by
  obtain ⟨s, htallies, -, -, hdiagnostics⟩ := parse_tallies h
  obtain ⟨passed, hscans, hfirst, -⟩ := htallies.taken
  have hfaults : Scan.faults passed <+: Scan.faults (scansOf text file) := by
    rw [hscans, Scan.faults, Scan.faults, List.filterMap_append]
    exact List.prefix_append _ _
  have hsorted : s.errors.sorted.filter (·.isLexical) = s.errors.errors.filter (·.isLexical) := by
    refine Collector.filter_sorted ((pairwise_faults (.ofText file text) text).sublist ?_)
    exact (hfirst.trans hfaults).sublist
  rw [hdiagnostics, hsorted]
  exact hfirst.trans hfaults

/-- **All faults are told** where there is room for more, and the nesting is not too deep. -/
theorem parse_tells_all (h : parse text file o = .ok r) (hfew : r.diagnostics.length < o.maxErrors)
    (hshallow : ∀ d ∈ r.diagnostics, d.category ≠ .recursionLimit) :
    r.diagnostics.filter (·.isLexical) = Scan.faults (scansOf text file) := by
  refine (parse_tells_first h).eq_of_length ?_
  obtain ⟨s, htallies, hended, hahead, hdiagnostics⟩ := parse_tallies h
  obtain ⟨passed, hscans, -, hall⟩ := htallies.taken
  have hperm : r.diagnostics.Perm s.errors.errors := hdiagnostics ▸ s.errors.sorted_perm
  have hroom : s.errors.isFull = false := by
    have hlength := hperm.length_eq
    rw [← Bool.not_eq_true, Collector.isFull_iff, htallies.capacity]
    omega
  rcases hended with hinput | hfull | ⟨d, hd, hdeep⟩
  · have hnothing := htallies.ready.pending_eq_nil hinput hahead
    rw [hnothing, List.append_nil] at hscans
    rw [(hperm.filter _).length_eq, hall hroom, hscans]
  · rw [hroom] at hfull
    cases hfull
  · exact absurd hdeep (hshallow d (hperm.mem_iff.2 hd))

/-- **Faults of syntax are told at proper tokens,** and so at no error token. -/
theorem parse_tells_at_proper (h : parse text file o = .ok r) {d : Diagnostic}
    (hd : d ∈ r.diagnostics) (hsyntactic : d.cause.IsSyntactic) :
    (∃ t ∈ Scan.tokens (scansOf text file), t.isError = false ∧ d.place = some t.place) ∧
      ∀ t ∈ Scan.tokens (scansOf text file), t.isError = true → d.place ≠ some t.place := by
  obtain ⟨s, htallies, -, -, hdiagnostics⟩ := parse_tallies h
  rw [hdiagnostics, s.errors.sorted_perm.mem_iff] at hd
  rcases htallies.told d hd with hlexical | hdeep | ⟨-, t, ht, hproper, hplace⟩
  · exact absurd (of_decide_eq_true hlexical) hsyntactic.not_lexical
  · have hdeep : d.cause.category = .recursionLimit := hdeep
    rcases hsyntactic with hcategory | hcategory <;> rw [hcategory] at hdeep <;> cases hdeep
  · refine ⟨⟨t, ht, hproper, hplace⟩, fun u hu herror hsame => ?_⟩
    have heq : t.place = u.place := Option.some.inj (hplace.symm.trans hsame)
    rw [eq_of_place_eq ht hu heq, herror] at hproper
    cases hproper

/-- **Faults of the text are told once and never twice.** What is told of the characters of a text
is the first of its faults, and all of them, as a stream with a collector records them, unless so
much is told that the collector is full, or the nesting is too deep. No fault of syntax is told at
the start of an error token; each is told at the start of another token. So a text without
diagnostics has no faults. -/
theorem parse_tells_faults_once (h : parse text file o = .ok r) :
    r.diagnostics.filter (·.isLexical) <+: Scan.faults (scansOf text file) ∧
    (r.diagnostics.length < o.maxErrors → (∀ d ∈ r.diagnostics, d.category ≠ .recursionLimit) →
      ∀ capacity : Int, o.maxErrors ≤ capacity →
        (Session.drained (.ofText file text) text (some { capacity })).2.errors.map
          Collector.errors = some (r.diagnostics.filter (·.isLexical))) ∧
    (∀ d ∈ r.diagnostics, d.cause.IsSyntactic →
      (∃ t ∈ Scan.tokens (scansOf text file), t.isError = false ∧ d.place = some t.place) ∧
      ∀ t ∈ Scan.tokens (scansOf text file), t.isError = true → d.place ≠ some t.place) ∧
    (r.diagnostics = [] → Scan.faults (scansOf text file) = []) := by
  refine ⟨parse_tells_first h, fun hfew hshallow capacity hcapacity => ?_,
    fun d hd hsyntactic => parse_tells_at_proper h hd hsyntactic, fun hnone => ?_⟩
  · have hall := parse_tells_all h hfew hshallow
    have hkept : (Scan.faults (scansOf text file)).take capacity.toNat =
        Scan.faults (scansOf text file) := by
      refine List.take_of_length_le ?_
      have hle := (List.filter_sublist (p := (·.isLexical)) (l := r.diagnostics)).length_le
      rw [hall] at hle
      omega
    obtain ⟨-, hrecorded⟩ := Session.drained_records (.ofText file text) text capacity
    rw [hall, hrecorded]
    exact congrArg some hkept
  · have hfew : r.diagnostics.length < o.maxErrors := by
      have hroom := o.one_le_maxErrors
      rw [hnone, List.length_nil]
      omega
    have hshallow : ∀ d ∈ r.diagnostics, d.category ≠ .recursionLimit := by
      rw [hnone]
      exact List.forall_mem_nil _
    rw [← parse_tells_all h hfew hshallow, hnone, List.filter_nil]

/-- A character that starts no token is told, and not that the statement does not go on there. -/
theorem parse_tells_stray_once : ∃ r, parse "a $ b;" "m.arc" {} = .ok r ∧
    r.diagnostics.map Diagnostic.category = [.lexical] ∧
    (Session.drained (.ofText "m.arc" "a $ b;") "a $ b;" (some { capacity := 100 })).2.errors.map
      Collector.errors = some (r.diagnostics.filter (·.isLexical)) := by
  have hrun : (parse "a $ b;" "m.arc" {}).toOption.map
      (fun r => r.diagnostics.map Diagnostic.category) = some [.lexical] := by
    decide +kernel
  obtain ⟨r, hp, hcategories⟩ := exists_of_map_toOption hrun
  have hlength := congrArg List.length hcategories
  rw [List.length_map, List.length_singleton] at hlength
  obtain ⟨-, hall, -⟩ := parse_tells_faults_once hp
  refine ⟨r, hp, hcategories, hall ?_ ?_ 100 le_rfl⟩
  · rw [hlength]
    decide
  · intro d hd
    have hmem : d.category ∈ r.diagnostics.map Diagnostic.category := List.mem_map_of_mem hd
    rw [hcategories] at hmem
    rw [List.mem_singleton.1 hmem]
    decide

end Texts

end ArcLang
