import ArcLang.Proofs.Concerning

/-!
# Skipped text, recorded or raised

Where no lexeme stands, a scan skips text, and an error token stands for it. A stream with a
collector delivers that token and records the fault; a stream without one ends there by raising it.
Both are views of one list of steps, so they agree up to the first fault.

* `Skips`: how far text is skipped.
* `Piece.skips_front`: what is refused is skipped so far, and no lexeme stands there.
* `Scan.IsFaithful`: faults and error tokens come together.
* `raising_agrees_with_recording`: the two kinds of streams on one text.
-/

namespace ArcLang

/-! ## How far text is skipped -/

/-- The character opens a literal, and closes it. -/
def isQuote (c : Char) : Bool := c = '"' || c = '\x27'

/-- The text that is skipped from where no lexeme stands, given the text `rest` behind it. -/
inductive Skips (rest : List Char) : List Char → Prop
  /-- Up to a blank, or to the end of all text. -/
  | word {c : Char} {w : List Char} : isQuote c = false → (∀ d ∈ c :: w, isBlank d = false) →
      (∀ d ∈ rest.head?, isBlank d = true) → Skips rest (c :: w)
  /-- From a quote through the next such quote on its line. -/
  | literal {quote : Char} {body : List Char} : isQuote quote = true →
      (∀ d ∈ body, d ≠ '\n' ∧ d ≠ quote) → Skips rest (quote :: body ++ [quote])
  /-- From a quote to the end of its line, which holds no further such quote. -/
  | line {quote : Char} {body : List Char} : isQuote quote = true →
      (∀ d ∈ body, d ≠ '\n' ∧ d ≠ quote) → (∀ d ∈ rest.head?, d = '\n') →
      Skips rest (quote :: body)

/-- No lexeme stands at the front of the text. -/
def NoLexeme (text : List Char) : Prop := ¬ ∃ k w, Kind.Spells k w ∧ w <+: text

/-- The token stands for text that is skipped: no lexeme stands where it starts. -/
def Token.StandsForSkipped (text : List Char) (t : Token) : Prop :=
  ∃ before w rest, text = before ++ (w ++ rest) ∧ t.span.start.offset = before.length ∧
    t.span.stop.offset = (before ++ w).length ∧ t.lexeme = String.ofList w ∧
      NoLexeme (w ++ rest) ∧ Skips rest w

/-- Splitting a list where a condition ends. -/
theorem takeWhile_drop (p : Char → Bool) (r : List Char) :
    (∀ d ∈ r.takeWhile p, p d = true) ∧ r.drop (r.takeWhile p).length = r.dropWhile p ∧
      ∀ d ∈ (r.dropWhile p).head?, p d = false := by
  refine ⟨fun d hd => List.mem_takeWhile_imp hd, ?_, fun d hd => ?_⟩
  · have happend : r.takeWhile p ++ r.dropWhile p = r := List.takeWhile_append_dropWhile
    have hsplit := congrArg (List.drop (r.takeWhile p).length) happend
    exact hsplit.symm.trans List.drop_left
  · have := List.head?_dropWhile_not p r
    rw [hd] at this
    simpa using this

namespace Reading

variable {quote : Char} {r : List Char}

/-- A broken literal is skipped through the next quote on its line, or to the end of the line. -/
theorem skips_brokenLiteral (hquote : isQuote quote = true) (why : Refusal) :
    Skips (r.drop (brokenLiteral quote r why).more)
      (quote :: r.take (brokenLiteral quote r why).more) := by
  unfold brokenLiteral
  dsimp only
  obtain ⟨hinside, hdrop, hbehind⟩ := takeWhile_drop (fun d => d != '\n' && d != quote) r
  have hbody : ∀ d ∈ r.takeWhile (fun d => d != '\n' && d != quote), d ≠ '\n' ∧ d ≠ quote := by
    intro d hd
    simpa using hinside d hd
  generalize hw : r.takeWhile (fun d => d != '\n' && d != quote) = body at *
  generalize hv : r.dropWhile (fun d => d != '\n' && d != quote) = behind at *
  have hr : r = body ++ behind := by rw [← hw, ← hv, List.takeWhile_append_dropWhile]
  split
  next hclosed =>
    obtain ⟨rest, rfl⟩ := List.head?_eq_some_iff.1 hclosed
    have htake : r.take (body.length + 1) = body ++ [quote] := by
      rw [hr, List.append_cons]
      exact List.take_left' (by simp)
    rw [htake]
    exact .literal hquote hbody
  next hopen =>
    have htake : r.take body.length = body := by rw [hr, List.take_left' rfl]
    rw [htake, hdrop]
    refine .line hquote hbody fun d hd => ?_
    have hstop := hbehind d hd
    by_contra hfeed
    have hother : d ≠ quote := by
      rintro rfl
      exact hopen hd
    simp [hfeed, hother] at hstop

/-- A literal that is refused is a broken one. -/
theorem literal_refused {kind : Kind} {name : String} {least : Nat} {why : Refusal}
    (h : (literal quote kind name least r).outcome = .error why) :
    ∃ why', literal quote kind name least r = brokenLiteral quote r why' := by
  unfold literal at h ⊢
  dsimp only at h ⊢
  generalize (r.dropWhile Char.isAlpha).head? = next at h ⊢
  cases next with
  | none => exact ⟨_, rfl⟩
  | some c =>
    dsimp only at h ⊢
    by_cases hquote : c = quote
    · rw [if_pos hquote] at h ⊢
      by_cases hlong : least ≤ (r.takeWhile Char.isAlpha).length
      · rw [if_pos hlong] at h
        cases h
      · rw [if_neg hlong]
        exact ⟨_, rfl⟩
    · rw [if_neg hquote]
      by_cases hfeed : c = '\n'
      · rw [if_pos hfeed]
        exact ⟨_, rfl⟩
      · rw [if_neg hfeed]
        exact ⟨_, rfl⟩

end Reading

/-- **What is refused is skipped:** up to a blank, or as a literal that is broken. -/
theorem Piece.skips_front {c : Char} {r : List Char} {why : Refusal} (hblank : isBlank c = false)
    (h : (front c r).outcome = .error why) : Skips (front c r).rest (front c r).text := by
  have hliteral (kind : Kind) (name : String) (least : Nat) (hquote : isQuote c = true)
      (hfront : Reading.front c r = Reading.literal c kind name least r) :
      Skips (front c r).rest (front c r).text := by
    have hrefused : (Reading.literal c kind name least r).outcome = .error why := by
      rw [← hfront]
      exact h
    obtain ⟨why', hbroken⟩ := Reading.literal_refused hrefused
    show Skips (r.drop (Reading.front c r).more) (c :: r.take (Reading.front c r).more)
    rw [hfront, hbroken]
    exact Reading.skips_brokenLiteral hquote why'
  by_cases hword : Reading.isWordStart c = true
  · have hfront : Reading.front c r = Reading.word c r := by rw [Reading.front, if_pos hword]
    have hkind : (Reading.word c r).outcome = .error why := hfront ▸ h
    cases hkind
  by_cases hdigit : c.isDigit = true
  · have hfront : Reading.front c r = Reading.number r := by
      rw [Reading.front, if_neg hword, if_pos hdigit]
    have hkind : (Reading.number r).outcome = .error why := hfront ▸ h
    cases hkind
  by_cases hdouble : c = '"'
  · refine hliteral .string "string literal" 0 (by rw [hdouble]; rfl) ?_
    rw [Reading.front, if_neg hword, if_neg hdigit, if_pos hdouble]
  by_cases hsingle : c = '\x27'
  · refine hliteral .char "character literal" 1 (by rw [hsingle]; rfl) ?_
    rw [Reading.front, if_neg hword, if_neg hdigit, if_neg hdouble, if_pos hsingle]
  have hfront : Reading.front c r = Reading.symbol c r := by
    rw [Reading.front, if_neg hword, if_neg hdigit, if_neg hdouble, if_neg hsingle]
  have hrefused : (Reading.symbol c r).outcome = .error why := hfront ▸ h
  show Skips (r.drop (Reading.front c r).more) (c :: r.take (Reading.front c r).more)
  rw [hfront]
  unfold Reading.symbol at hrefused ⊢
  split at hrefused
  · cases hrefused
  obtain ⟨hinside, hdrop, hbehind⟩ := takeWhile_drop (fun d => !isBlank d) r
  dsimp only
  rw [take_length_takeWhile, hdrop]
  refine .word (by simp [isQuote, hdouble, hsingle]) (List.forall_mem_cons.2 ⟨hblank, ?_⟩) ?_
  · intro d hd
    simpa using hinside d hd
  · intro d hd
    simpa using hbehind d hd

/-- Every error token of a text stands for skipped text. -/
theorem standsForSkipped_of_fault (source : Source) (before text : List Char) (p : Position)
    (hp : p.offset = before.length) : ∀ why t, Scan.fault why t ∈ scanFrom source p text →
      t.StandsForSkipped (before ++ text) := by
  fun_induction scanFrom source p text generalizing before with
  | case1 p text start h₀ =>
    intro why t h
    cases List.mem_singleton.1 h
  | case2 p text start c r h₀ piece ih =>
    intro why t h
    have hwhole := trivia_append false text
    rw [h₀] at hwhole
    have hstart : start.offset = (before ++ (trivia false text).1).length := by
      rw [Position.offset_after, hp, List.length_append]
    have hstop : (start.after piece.text).offset =
        (before ++ (trivia false text).1 ++ piece.text).length := by
      rw [Position.offset_after, hstart, ← List.length_append]
    have hpiece : piece.text ++ piece.rest = c :: r := Piece.text_append_rest c r
    rw [← hwhole, ← List.append_assoc, ← hpiece]
    rcases List.mem_cons.1 h with heq | h
    · obtain ⟨d, s, hcons, hblank, -⟩ := startsPiece_of_trivia h₀
      cases hcons
      unfold Scan.ofPiece at heq
      dsimp only at heq
      cases hrefused : piece.outcome with
      | ok kind => rw [hrefused] at heq; cases heq
      | error refusal =>
        rw [hrefused] at heq
        cases heq
        refine ⟨_, piece.text, piece.rest, rfl, congrArg Int.ofNat hstart,
          congrArg Int.ofNat hstop, rfl, ?_, Piece.skips_front hblank hrefused⟩
        rintro ⟨k, w, hspells, hw⟩
        rw [hpiece] at hw
        obtain ⟨k', hk', -⟩ := Piece.front_of_prefix hspells hw
        have hpieceOutcome : (Piece.front c r).outcome = .error refusal := hrefused
        rw [hk'] at hpieceOutcome
        cases hpieceOutcome
    · rw [← List.append_assoc]
      exact ih _ hstop why t h

theorem Skips.ne_nil {rest w : List Char} (h : Skips rest w) : w ≠ [] := by
  cases h <;> simp

theorem Token.StandsForSkipped.start_lt_stop {text : List Char} {t : Token}
    (h : t.StandsForSkipped text) : t.span.start.offset < t.span.stop.offset := by
  obtain ⟨before, w, rest, -, hstart, hstop, -, -, hskips⟩ := h
  have hlong := List.length_pos_iff.2 hskips.ne_nil
  rw [hstart, hstop, List.length_append]
  omega

/-! ## Faults and error tokens -/

namespace Scan

/-- The step is a fault exactly if it shows an error token. -/
def IsFaithful (x : Scan) : Prop := x.fault? = none ↔ x.shown.isError = false

theorem isFaithful_of_mem (source : Source) (text : String) :
    ∀ x ∈ scan source text, x.IsFaithful := by
  intro x hx
  cases x with
  | token t => exact ⟨fun _ => isError_of_token_mem source text hx, fun _ => rfl⟩
  | fault why t =>
    have herror : t.isError = true := (concerns_of_fault hx).1
    refine ⟨nofun, fun hproper => ?_⟩
    rw [show t.isError = false from hproper] at herror
    cases herror

theorem IsFaithful.isError_of_fault {why : Diagnostic} {t : Token} (h : (fault why t).IsFaithful) :
    t.isError = true := by
  rw [← Bool.not_eq_false]
  intro hproper
  cases h.2 hproper

variable {scans : List Scan}

/-- Reading that stops at the first fault gives the tokens before the first error token. -/
theorem untilFault_eq (h : ∀ x ∈ scans, x.IsFaithful) :
    untilFault scans = ((tokens scans).takeWhile (!·.isError), (faults scans).head?) := by
  induction scans with
  | nil => rfl
  | cons x scans ih =>
    obtain ⟨hx, hscans⟩ := List.forall_mem_cons.1 h
    cases x with
    | token t =>
      have hproper : t.isError = false := hx.1 rfl
      show (t :: (untilFault scans).1, (untilFault scans).2) = _
      rw [ih hscans]
      show _ = ((t :: tokens scans).takeWhile (!·.isError), (faults scans).head?)
      rw [List.takeWhile_cons, if_pos (by rw [hproper]; rfl)]
    | fault why t =>
      have herror : t.isError = true := hx.isError_of_fault
      show ([], some why) = ((t :: tokens scans).takeWhile (!·.isError), some why)
      rw [List.takeWhile_cons, if_neg (by rw [herror]; decide)]

/-- Faults and error tokens belong together, one by one and in their order. -/
theorem forall₂_faults {R : Diagnostic → Token → Prop} (h : ∀ x ∈ scans, x.IsFaithful)
    (hfault : ∀ why t, fault why t ∈ scans → R why t) :
    List.Forall₂ R (faults scans) ((tokens scans).filter (·.isError)) := by
  induction scans with
  | nil => exact .nil
  | cons x scans ih =>
    obtain ⟨hx, hscans⟩ := List.forall_mem_cons.1 h
    have hrest := ih hscans fun why t ht => hfault why t (List.mem_cons_of_mem x ht)
    cases x with
    | token t =>
      have hproper : t.isError = false := hx.1 rfl
      show List.Forall₂ R (faults scans) ((t :: tokens scans).filter (·.isError))
      rw [List.filter_cons_of_neg (by rw [hproper]; decide)]
      exact hrest
    | fault why t =>
      have herror : t.isError = true := hx.isError_of_fault
      show List.Forall₂ R (why :: faults scans) ((t :: tokens scans).filter (·.isError))
      rw [List.filter_cons_of_pos herror]
      exact .cons (hfault why t List.mem_cons_self) hrest

end Scan

/-! ## Streams -/

namespace Session

/-- **A stream without a collector delivers the tokens before the first fault** of what it has
before it; then it raises that fault, or ends if there is none. -/
theorem drainFor_raises {s : Session} {stream rounds : Nat} {scans : List Scan}
    (hstream : s.streams[stream]? = some scans) (hraises : s.errors = none)
    (hrounds : scans.length < rounds) :
    (drainFor stream rounds s).1 = (Scan.untilFault scans).1.map .token ++
      [(Scan.untilFault scans).2.elim .ended .raised] := by
  induction scans generalizing rounds s with
  | nil =>
    obtain ⟨rounds, rfl⟩ := Nat.exists_eq_add_of_lt hrounds
    have hnext : s.next stream = (.ended, s) := by
      unfold next
      rw [hstream]
    rw [drainFor, hnext]
    rfl
  | cons x scans ih =>
    obtain ⟨rounds, rfl⟩ := Nat.exists_eq_add_of_lt hrounds
    obtain ⟨hlt, -⟩ := List.getElem?_eq_some_iff.1 hstream
    cases x with
    | token t =>
      have hnext : s.next stream =
          (.token t, { s with streams := s.streams.set stream scans }) := by
        unfold next
        rw [hstream, hraises]
      have hrest := ih (s := { s with streams := s.streams.set stream scans })
        (List.getElem?_set_self hlt) hraises
        (show scans.length < (Scan.token t :: scans).length + rounds by
          rw [List.length_cons]; omega)
      rw [drainFor, hnext]
      exact congrArg (Delivery.token t :: ·) hrest
    | fault why t =>
      have hnext : (s.next stream).1 = .raised why := by
        unfold next
        rw [hstream, hraises]
      rw [drainFor]
      simp only [hnext]
      rfl

/-- All that a first stream on the text delivers, and the session after it. -/
def drained (source : Source) (text : String) (errors : Option Collector) :
    List Delivery × Session :=
  let opened := openStream { scans := scan source text, errors }
  opened.2.drain opened.1

theorem drained_records (source : Source) (text : String) (capacity : Int) :
    (drained source text (some { capacity })).1 =
      (Scan.tokens (scan source text)).map .token ++ [.ended] ∧
    (drained source text (some { capacity })).2.errors.map Collector.errors =
      some ((Scan.faults (scan source text)).take capacity.toNat) := by
  have hopened : ([scan source text] : List (List Scan))[0]? = some (scan source text) := rfl
  obtain ⟨hdelivered, hrecorded⟩ := drainFor_records
    (s := { scans := scan source text, streams := [scan source text], errors := some { capacity } })
    hopened rfl (Nat.lt_succ_self _)
  refine ⟨hdelivered, ?_⟩
  have hkept := Collector.errors_ofList capacity (Scan.faults (scan source text))
  exact (congrArg (Option.map Collector.errors) hrecorded).trans (congrArg some hkept)

end Session

/-- **Raising and recording agree.** There are tokens and faults of the text such that a stream with
a collector of any capacity delivers all the tokens, and as many faults are recorded as it holds; a
stream without a collector delivers the tokens before the first error token and raises the first
fault, if there is one. The faults are those of the error tokens, in their order, each inside its
token, and every error token stands for text that is skipped from where no lexeme stands. -/
theorem raising_agrees_with_recording (source : Source) (text : String) :
    ∃ (ts : List Token) (es : List Diagnostic),
      (∀ capacity,
        (Session.drained source text (some { capacity })).1 = ts.map .token ++ [.ended] ∧
        (Session.drained source text (some { capacity })).2.errors.map Collector.errors =
          some (es.take capacity.toNat)) ∧
      (Session.drained source text none).1 =
        (ts.takeWhile (!·.isError)).map .token ++ [es.head?.elim .ended .raised] ∧
      List.Forall₂ (fun d t => ∃ l, d.place = some l ∧ t.span.Holds l) es
        (ts.filter (·.isError)) ∧
      ∀ t ∈ ts, t.isError = true → t.StandsForSkipped text.toList := by
  have hopened : ([scan source text] : List (List Scan))[0]? = some (scan source text) := rfl
  have hfaithful := Scan.isFaithful_of_mem source text
  have hskipped := standsForSkipped_of_fault source [] text.toList .start rfl
  refine ⟨Scan.tokens (scan source text), Scan.faults (scan source text),
    Session.drained_records source text, ?_, ?_, ?_⟩
  · have hraised := Session.drainFor_raises
      (s := { scans := scan source text, streams := [scan source text], errors := none })
      hopened rfl (Nat.lt_succ_self _)
    rw [Scan.untilFault_eq hfaithful] at hraised
    exact hraised
  · refine Scan.forall₂_faults hfaithful fun why t ht => ?_
    obtain ⟨-, l, hl, hwhere⟩ := concerns_of_fault ht
    rcases hwhere with rfl | ⟨-, hholds⟩
    · exact ⟨_, hl, le_rfl, (hskipped why t ht).start_lt_stop⟩
    · exact ⟨l, hl, hholds⟩
  · intro t ht herror
    obtain ⟨x, hx, rfl⟩ := List.mem_map.1 ht
    cases x with
    | token t =>
      have hproper := Scan.isError_of_token_mem source text hx
      rw [show t.isError = true from herror] at hproper
      cases hproper
    | fault why t => exact hskipped why t hx

end ArcLang
