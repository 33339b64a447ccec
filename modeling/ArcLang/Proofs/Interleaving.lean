import ArcLang.Proofs.Skipping

/-!
# Streams side by side

Streams may be opened on a source at any time and asked in any order, and the collector that they
share may be emptied in between. Each stream gives what it gives alone. Only the collector sees the
order: it has the errors of what all the streams gave since it was last emptied.

* `Session.run`: steps taken one after the other, each with its answer.
* `Session.ask`: one stream by itself, as what it has before it.
* `Session.Accounts`: what the collector holds, kept by every step.
* `Session.run_interleaves`: the statement about runs.
-/

namespace ArcLang

namespace Session

/-! ## Runs -/

/-- What is asked of a session. -/
inductive Step
  | opens
  | asks (stream : Nat)
  | clears
  deriving DecidableEq

/-- What a session answers. -/
inductive Answer
  | opened (stream : Nat)
  | delivered (stream : Nat) (what : Delivery)
  | cleared

/-- Takes a step. -/
def step (s : Session) : Step → Answer × Session
  | .opens => (.opened s.openStream.1, s.openStream.2)
  | .asks i => (.delivered i (s.next i).1, (s.next i).2)
  | .clears => (.cleared, s.clear)

/-- Takes the steps one after the other. -/
def run : Session → List Step → List Answer × Session
  | s, [] => ([], s)
  | s, x :: steps => ((s.step x).1 :: ((s.step x).2.run steps).1, ((s.step x).2.run steps).2)

/-- With so many streams opened before, only streams that are open are asked. -/
def asksOpened : Nat → List Step → Bool
  | _, [] => true
  | n, .opens :: steps => asksOpened (n + 1) steps
  | n, .asks i :: steps => i < n && asksOpened n steps
  | n, .clears :: steps => asksOpened n steps

/-- What the answer delivers from one stream. -/
def Answer.from? (stream : Nat) : Answer → Option Delivery
  | .delivered i what => if i = stream then some what else none
  | _ => none

/-- What one stream has delivered. -/
def deliveriesOf (stream : Nat) (answers : List Answer) : List Delivery :=
  answers.filterMap (Answer.from? stream)

/-- The tokens since the collector was emptied, after one more answer. -/
def Answer.since (ts : List Token) : Answer → List Token
  | .delivered _ (.token t) => ts ++ [t]
  | .cleared => []
  | _ => ts

/-- The tokens that any streams have delivered since the collector was last emptied. -/
def sinceCleared (answers : List Answer) : List Token := answers.foldl Answer.since []

/-! ## One stream -/

/-- What a stream delivers from what it has before it, and what it has then. -/
def ask (shared : Bool) : List Scan → Delivery × List Scan
  | [] => (.ended, [])
  | .token t :: rest => (.token t, rest)
  | .fault why t :: rest => if shared then (.token t, rest) else (.raised why, [])

/-- What a stream delivers when it is asked so many times. -/
def asked (shared : Bool) : Nat → List Scan → List Delivery
  | 0, _ => []
  | n + 1, scans => (ask shared scans).1 :: asked shared n (ask shared scans).2

variable {s : Session} {stream : Nat} {scans : List Scan}

/-- **A stream depends on nothing but what it has before it,** and whether there is a collector. -/
theorem next_ask (hstream : s.streams[stream]? = some scans) :
    let shared := s.errors.isSome
    (s.next stream).1 = (ask shared scans).1 ∧
      (s.next stream).2.streams = s.streams.set stream (ask shared scans).2 ∧
      (s.next stream).2.scans = s.scans ∧ (s.next stream).2.errors.isSome = shared := by
  unfold next
  rw [hstream]
  cases scans with
  | nil =>
    obtain ⟨hlt, hget⟩ := List.getElem?_eq_some_iff.1 hstream
    exact ⟨rfl, (hget ▸ List.set_getElem_self hlt).symm, rfl, rfl⟩
  | cons x scans =>
    obtain ⟨all, streams, errors⟩ := s
    cases x <;> cases errors <;> exact ⟨rfl, rfl, rfl, rfl⟩

/-- A stream that has given a token has less before it; one that has not is at its end. -/
theorem ask_moves (shared : Bool) (scans : List Scan) :
    if (ask shared scans).1.isToken then (ask shared scans).2.length < scans.length
    else (ask shared scans).2 = [] := by
  rcases scans with _ | ⟨x, scans⟩
  · rfl
  · cases x <;> cases shared <;> first | rfl | exact Nat.lt_succ_self _

theorem asked_nil (shared : Bool) (n : Nat) : asked shared n [] = List.replicate n .ended := by
  induction n with
  | zero => rfl
  | succ n ih => exact congrArg (Delivery.ended :: ·) ih

/-- **A stream that is asked again and again gives what it gives when it is drained,** and behind
that nothing but its end. -/
theorem asked_eq_drainFor {rounds : Nat} (hstream : s.streams[stream]? = some scans)
    (hrounds : scans.length < rounds) (n : Nat) :
    asked s.errors.isSome n scans =
      (List.range n).map ((drainFor stream rounds s).1.getD · .ended) := by
  induction rounds generalizing s scans n with
  | zero => exact absurd hrounds (Nat.not_lt_zero _)
  | succ rounds ih =>
    obtain ⟨hdelivery, hstreams, -, hshared⟩ := next_ask hstream
    have hmoves := ask_moves s.errors.isSome scans
    obtain ⟨hlt, -⟩ := List.getElem?_eq_some_iff.1 hstream
    cases n with
    | zero => rfl
    | succ n =>
      rw [List.range_succ_eq_map, List.map_cons, List.map_map, drainFor, asked]
      dsimp only
      rw [hdelivery]
      split
      next htoken =>
        rw [if_pos htoken] at hmoves
        have hstream' :
            (s.next stream).2.streams[stream]? = some (ask s.errors.isSome scans).2 := by
          rw [hstreams]
          exact List.getElem?_set_self hlt
        have hrest := ih hstream' (Nat.lt_of_lt_of_le hmoves (Nat.le_of_lt_succ hrounds)) n
        rw [hshared] at hrest
        exact congrArg _ hrest
      next hlast =>
        rw [if_neg hlast] at hmoves
        rw [hmoves, asked_nil]
        refine congrArg _ ?_
        refine (List.eq_replicate_iff.2 ⟨?_, fun d hd => ?_⟩).symm
        · rw [List.length_map, List.length_range]
        · obtain ⟨k, -, rfl⟩ := List.mem_map.1 hd
          rfl

/-! ## Each stream in a run -/

/-- What a stream has before it; one that is opened later will have all of the source. -/
def ahead (s : Session) (stream : Nat) : List Scan := s.streams[stream]?.getD s.scans

theorem ahead_openStream (s : Session) (stream : Nat) :
    s.openStream.2.ahead stream = s.ahead stream := by
  unfold openStream ahead
  dsimp only
  rcases Nat.lt_trichotomy stream s.streams.length with h | rfl | h
  · rw [List.getElem?_append_left h]
  · rw [List.getElem?_concat_length, List.getElem?_eq_none le_rfl]
    rfl
  · rw [List.getElem?_eq_none (by rwa [List.length_append]), List.getElem?_eq_none (Nat.le_of_lt h)]

/-- **In a run, a stream delivers what it delivers by itself.** -/
theorem deliveriesOf_run {steps : List Step} (h : asksOpened s.streams.length steps = true)
    (stream : Nat) :
    deliveriesOf stream (s.run steps).1 =
      asked s.errors.isSome (steps.count (.asks stream)) (s.ahead stream) := by
  induction steps generalizing s with
  | nil => rfl
  | cons x steps ih =>
    cases x with
    | opens =>
      have hopened : asksOpened s.openStream.2.streams.length steps = true := by
        rw [show s.openStream.2.streams.length = s.streams.length + 1 from List.length_append]
        exact h
      have hother : Step.opens ≠ .asks stream := nofun
      rw [List.count_cons_of_ne hother, ← ahead_openStream s stream]
      exact ih hopened
    | clears =>
      have hshared : s.clear.errors.isSome = s.errors.isSome := Option.isSome_map
      have hother : Step.clears ≠ .asks stream := nofun
      rw [List.count_cons_of_ne hother, ← hshared]
      exact ih (s := s.clear) h
    | asks i =>
      obtain ⟨hlt, hopened⟩ : i < s.streams.length ∧ asksOpened s.streams.length steps = true := by
        simpa [asksOpened] using h
      have hstream := List.getElem?_eq_getElem hlt
      obtain ⟨hdelivery, hstreams, hscans, hshared⟩ := next_ask hstream
      have hrest := ih (s := (s.next i).2) (by rwa [hstreams, List.length_set])
      rw [hshared] at hrest
      show deliveriesOf stream (.delivered i (s.next i).1 :: ((s.next i).2.run steps).1) = _
      unfold ahead at hrest ⊢
      rw [hstreams, hscans] at hrest
      by_cases hi : i = stream
      · subst hi
        rw [List.getElem?_set_self hlt] at hrest
        rw [List.count_cons_self, hstream, asked]
        have hanswer : Answer.from? i (.delivered i (s.next i).1) = some (s.next i).1 := if_pos rfl
        unfold deliveriesOf at hrest ⊢
        rw [List.filterMap_cons_some hanswer, hrest, hdelivery]
        rfl
      · rw [List.getElem?_set_ne hi] at hrest
        have hanswer : Answer.from? stream (.delivered i (s.next i).1) = none := if_neg hi
        rw [List.count_cons_of_ne (fun heq => hi (Step.asks.inj heq)), ← hrest]
        exact List.filterMap_cons_none hanswer

end Session

/-! ## The collector in a run -/

namespace Collector

theorem ofList_concat (capacity : Int) (ds : List Diagnostic) (d : Diagnostic) :
    ofList capacity (ds ++ [d]) = (ofList capacity ds).add d := List.foldl_concat ..

theorem capacity_addAll (c : Collector) (ds : List Diagnostic) :
    (c.addAll ds).capacity = c.capacity := by
  induction ds generalizing c with
  | nil => rfl
  | cons d ds ih => exact (ih (c.add d)).trans (c.capacity_add d)

theorem clear_ofList (capacity : Int) (ds : List Diagnostic) :
    (ofList capacity ds).clear = ofList capacity [] := by
  unfold clear
  rw [show (ofList capacity ds).capacity = capacity from capacity_addAll _ ds]
  rfl

end Collector

namespace Session

/-- The collector has been given the errors `es` of the tokens `ts`, which have been delivered since
it was emptied. -/
structure Accounts (scans : List Scan) (capacity : Option Int) (s : Session) (ts : List Token)
    (es : List Diagnostic) : Prop where
  source : s.scans = scans
  streams : ∀ rest ∈ s.streams, rest ⊆ scans
  errors : s.errors = capacity.map (Collector.ofList · es)
  faults : List.Forall₂ (fun why t => Scan.fault why t ∈ scans) es (ts.filter (·.isError))

variable {s : Session} {scans : List Scan} {capacity : Option Int} {ts : List Token}
  {es : List Diagnostic}

namespace Accounts

/-- A stream that moves on in its scans still has scans of the source before it. -/
theorem streams_set (h : Accounts scans capacity s ts es) {rest : List Scan} (hrest : rest ⊆ scans)
    (stream : Nat) : ∀ r ∈ s.streams.set stream rest, r ⊆ scans := by
  intro r hr
  rcases List.mem_or_eq_of_mem_set hr with hr | rfl
  · exact h.streams r hr
  · exact hrest

/-- What is delivered when a stream is asked goes into the account, an error with its token. -/
theorem next (h : Accounts scans capacity s ts es) (hfaithful : ∀ x ∈ scans, x.IsFaithful)
    (stream : Nat) : ∃ es', Accounts scans capacity (s.next stream).2
      (Answer.since ts (.delivered stream (s.next stream).1)) es' := by
  unfold Session.next
  split
  · exact ⟨es, h⟩
  · exact ⟨es, h⟩
  next x rest hstream =>
    have hmem : x :: rest ⊆ scans := h.streams _ (List.mem_of_getElem? hstream)
    obtain ⟨hx, hrest⟩ := List.cons_subset.1 hmem
    have hmoved := h.streams_set hrest stream
    cases x with
    | token t =>
      have hproper : t.isError = false := (hfaithful _ hx).1 rfl
      refine ⟨es, h.source, hmoved, h.errors, ?_⟩
      show List.Forall₂ _ es ((ts ++ [t]).filter (·.isError))
      rw [List.filter_append, List.filter_singleton, hproper, cond_false, List.append_nil]
      exact h.faults
    | fault why t =>
      have herrors := h.errors
      cases capacity with
      | none =>
        rw [Option.map_none] at herrors
        rw [herrors]
        exact ⟨es, h.source, h.streams_set (List.nil_subset _) stream, rfl, h.faults⟩
      | some capacity =>
        rw [Option.map_some] at herrors
        rw [herrors]
        refine ⟨es ++ [why], h.source, hmoved, ?_, ?_⟩
        · exact congrArg some (Collector.ofList_concat capacity es why).symm
        · have herror : t.isError = true := (hfaithful _ hx).isError_of_fault
          show List.Forall₂ _ (es ++ [why]) ((ts ++ [t]).filter (·.isError))
          rw [List.filter_append, List.filter_singleton, herror, cond_true]
          exact List.rel_append h.faults (.cons hx .nil)

/-- **What the collector holds goes with what has been delivered,** step by step. -/
theorem step (h : Accounts scans capacity s ts es) (hfaithful : ∀ x ∈ scans, x.IsFaithful)
    (x : Step) :
    ∃ es', Accounts scans capacity (s.step x).2 (Answer.since ts (s.step x).1) es' := by
  cases x with
  | opens =>
    refine ⟨es, h.source, fun rest hrest => ?_, h.errors, h.faults⟩
    rcases List.mem_append.1 hrest with hrest | hrest
    · exact h.streams rest hrest
    · rw [List.mem_singleton.1 hrest, h.source]
      exact List.Subset.refl scans
  | asks stream => exact h.next hfaithful stream
  | clears =>
    refine ⟨[], h.source, h.streams, ?_, .nil⟩
    show s.errors.map Collector.clear = _
    rw [h.errors, Option.map_map]
    exact congrArg (Option.map · capacity) (funext fun n => Collector.clear_ofList n es)

/-- **So it is in a run.** -/
theorem run (h : Accounts scans capacity s ts es) (hfaithful : ∀ x ∈ scans, x.IsFaithful)
    (steps : List Step) : ∃ es', Accounts scans capacity (s.run steps).2
      ((s.run steps).1.foldl Answer.since ts) es' := by
  induction steps generalizing s ts es with
  | nil => exact ⟨es, h⟩
  | cons x steps ih =>
    obtain ⟨es', h'⟩ := h.step hfaithful x
    exact ih h'

end Accounts

/-! ## Streams side by side -/

/-- **Streams on one source do not disturb each other.** However they are opened and asked, and the
collector is emptied, each delivers the front of what a first stream delivers alone, and behind that
nothing but its end. The collector holds the errors of the error tokens that have been delivered
since it was last emptied, by any of them, in their order, and as many as it has room for. -/
theorem run_interleaves (source : Source) (text : String) (capacity : Option Int)
    {steps : List Step} (h : asksOpened 0 steps = true) :
    let errors : Option Collector := capacity.map ({ capacity := · })
    let ran := run { scans := scan source text, errors } steps
    (∀ stream (alone : Option Collector), alone.isSome = capacity.isSome →
      deliveriesOf stream ran.1 = (List.range (steps.count (.asks stream))).map
        ((drained source text alone).1.getD · .ended)) ∧
    ∃ es, List.Forall₂ (fun why t => Scan.fault why t ∈ scan source text) es
        ((sinceCleared ran.1).filter (·.isError)) ∧
      ran.2.errors.map Collector.errors = capacity.map (es.take ·.toNat) := by
  intro errors ran
  constructor
  · intro stream alone halone
    have hshared : errors.isSome = alone.isSome := by rw [halone, Option.isSome_map]
    rw [deliveriesOf_run (s := { scans := scan source text, errors }) h stream]
    show asked errors.isSome _ (scan source text) = _
    rw [hshared]
    exact asked_eq_drainFor (s := { scans := scan source text, streams := [_], errors := alone })
      rfl (Nat.lt_succ_self _) _
  · have hbegun : Accounts (scan source text) capacity
        { scans := scan source text, errors } [] [] := ⟨rfl, nofun, rfl, .nil⟩
    obtain ⟨es, hran⟩ := hbegun.run (Scan.isFaithful_of_mem source text) steps
    refine ⟨es, hran.faults, ?_⟩
    rw [hran.errors, Option.map_map]
    exact congrArg (Option.map · capacity) (funext fun n => Collector.errors_ofList n es)

/-- Two streams on a text that starts with an error, which the first one reaches again after the
collector was emptied for the other. -/
theorem run_interleaves_of_clear :
    let steps : List Step :=
      [.opens, .opens, .asks 1, .asks 1, .clears, .asks 0, .asks 0, .asks 1, .asks 1]
    let source : Source := .ofText "m.arc" "# a"
    let errors : Option Collector := (some 1).map ({ capacity := · })
    let ran := run { scans := scan source "# a", errors } steps
    (∀ stream (alone : Option Collector), alone.isSome = (some 1 : Option Int).isSome →
      deliveriesOf stream ran.1 = (List.range (steps.count (.asks stream))).map
        ((drained source "# a" alone).1.getD · .ended)) ∧
    ∃ es, List.Forall₂ (fun why t => Scan.fault why t ∈ scan source "# a") es
        ((sinceCleared ran.1).filter (·.isError)) ∧
      ran.2.errors.map Collector.errors = (some (1 : Int)).map (es.take ·.toNat) :=
  run_interleaves (.ofText "m.arc" "# a") "# a" (some 1) rfl

end Session

end ArcLang
