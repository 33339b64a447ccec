import ArcLang.Proofs.Containment
import ArcLang.Proofs.Telling

/-!
# What diagnostics are about

A diagnostic is about a token: it stands where the token starts, or inside an error token. A node
that no part of its own is wrong with is free of it: the diagnostic is not inside the node's span,
unless right at its start, where it was told that something before does not go on with the node, or
inside a body of the node, where there may be broken statements.

* `Diagnostic.Concerns`: a diagnostic and its token.
* `Node.FreeOf`: a node that is free of a diagnostic.
* `State.Gathers`: nodes gathered from consumed tokens, all free of what has been told meanwhile.
* `concerns_of_fault`: a fault of a text is inside its error token.
-/

namespace ArcLang

/-- The place is in the half-open span. -/
def Span.Holds (s : Span) (l : Location) : Prop :=
  s.start.offset ≤ l.offset ∧ l.offset < s.stop.offset

instance (s : Span) (l : Location) : Decidable (s.Holds l) :=
  inferInstanceAs (Decidable (_ ∧ _))

/-- The diagnostic stands at the start of the token, or inside it where that is an error token. -/
def Diagnostic.Concerns (d : Diagnostic) (t : Token) : Prop :=
  ∃ l, d.place = some l ∧ (l = t.place ∨ t.isError = true ∧ t.span.Holds l)

/-- The diagnostic is not inside the node, but for its very start and for its bodies. -/
def Node.FreeOf (d : Diagnostic) (n : Node) : Prop :=
  ∀ l, d.place = some l → n.span.Holds l →
    l = n.span.start ∨ ∃ b, Node.block b ∈ n.nodes ∧ b.span.Holds l

namespace Diagnostic.Concerns

variable {d : Diagnostic} {t u : Token} {l : Location}

theorem le (h : d.Concerns t) (hl : d.place = some l) : t.span.start.offset ≤ l.offset := by
  obtain ⟨m, hm, hwhere⟩ := h
  obtain rfl := Option.some.inj (hl.symm.trans hm)
  rcases hwhere with rfl | ⟨-, hholds⟩
  · exact le_rfl
  · exact hholds.1

theorem lt (h : d.Concerns t) (hl : d.place = some l)
    (ht : t.span.start.offset < t.span.stop.offset) : l.offset < t.span.stop.offset := by
  obtain ⟨m, hm, hwhere⟩ := h
  obtain rfl := Option.some.inj (hl.symm.trans hm)
  rcases hwhere with rfl | ⟨-, hholds⟩
  · exact ht
  · exact hholds.2

theorem eq_place (h : d.Concerns t) (hl : d.place = some l) (ht : t.isError = false) :
    l = t.place := by
  obtain ⟨m, hm, hwhere⟩ := h
  obtain rfl := Option.some.inj (hl.symm.trans hm)
  exact hwhere.resolve_right fun hin => by rw [hin.1] at ht; cases ht

end Diagnostic.Concerns

/-- What diagnostics at tokens are about. -/
theorem concerns_ofPlace (source : Source) (t : Token) (c : Cause) :
    (Diagnostic.ofPlace source t.place c).Concerns t := ⟨t.place, rfl, .inl rfl⟩

/-! ## Free nodes -/

namespace Node.Spans

variable {n : Node} {us r : List Token} {u : Token} {d : Diagnostic} {l : Location}

/-- A diagnostic before a node, or right at its start. -/
theorem freeOf_before (h : n.Spans (u :: r)) (hstanding : Standing (u :: r))
    (hl : d.place = some l) (hbefore : l = u.place ∨ l.offset < u.span.start.offset) :
    n.Throughout (FreeOf d) := by
  refine h.throughout fun m vs hvs hin m' hm' hholds => .inl ?_
  obtain rfl := Option.some.inj (hl.symm.trans hm')
  obtain ⟨v, ws, rfl⟩ := List.exists_cons_of_ne_nil hvs.ne_nil
  have hspan : m.span.start = v.span.start := by rw [hvs.span_eq]; rfl
  have hle : u.span.start.offset ≤ v.span.start.offset :=
    (hstanding.cover_le (hin.subset List.mem_cons_self)).1
  have hfirst := hholds.1
  rw [hspan] at hfirst ⊢
  rcases hbefore with rfl | hlt
  · -- only the first token starts where the diagnostic is
    rcases List.mem_cons.1 (hin.subset (List.mem_cons_self (a := v))) with rfl | hv
    · rfl
    · have hbehind := (List.pairwise_cons.1 hstanding.ordered).1 v hv
      have hlong := hstanding.nonempty u List.mem_cons_self
      exact absurd hfirst (by unfold Token.place; omega)
  · omega

/-- A diagnostic behind a node. -/
theorem freeOf_behind (h : n.Spans us) (hl : d.place = some l)
    (hbehind : ∀ t ∈ us, t.span.stop.offset ≤ l.offset) : n.Throughout (FreeOf d) := by
  refine h.throughout fun m vs hvs hin m' hm' hholds => ?_
  obtain rfl := Option.some.inj (hl.symm.trans hm')
  obtain ⟨-, t, ht, hstop⟩ := cover_ends hvs.ne_nil
  have hlast := hholds.2
  rw [hvs.span_eq, hstop] at hlast
  have hle := hbehind t (hin.subset ht)
  omega

/-- A diagnostic inside a body that is free of it but for its broken statements. -/
theorem freeOf_block (h : n.Spans us) (hstanding : Standing us) (hl : d.place = some l) {b : Block}
    (hb : Node.block b ∈ n.children) (hholds : b.span.Holds l)
    (hfree : (Node.block b).Throughout (FreeOf d)) : n.Throughout (FreeOf d) := by
  refine throughout_iff.2 ⟨fun m hm _ => .inr ⟨b, ?_, ?_⟩, fun c hc => ?_⟩
  · rw [nodes_eq]
    refine List.mem_cons_of_mem n (List.mem_flatMap.2 ⟨_, hb, ?_⟩)
    rw [nodes_eq]
    exact List.mem_cons_self
  · obtain rfl := Option.some.inj (hl.symm.trans hm)
    exact hholds
  · -- the other children stand before the body or behind it
    have hordered := h.parts.ordered hstanding
    obtain ⟨vs, hvs, hin⟩ := h.parts.exists_part hc
    have hpart := hstanding.sublist hin.sublist
    obtain ⟨front, back, hchildren⟩ := List.append_of_mem hb
    rw [hchildren] at hordered hc
    obtain ⟨-, hbehind, hbefore⟩ := List.pairwise_append.1 hordered
    rcases List.mem_append.1 hc with hc | hc
    · have hle := hbefore c hc _ List.mem_cons_self
      refine hvs.freeOf_behind hl fun t ht => ?_
      have hstop := (hpart.cover_le ht).2.1
      rw [hvs.span_eq] at hle
      exact hstop.trans (hle.trans hholds.1)
    · rcases List.mem_cons.1 hc with rfl | hc
      · exact hfree
      · have hle := (List.pairwise_cons.1 hbehind).1 c hc
        obtain ⟨v, ws, rfl⟩ := List.exists_cons_of_ne_nil hvs.ne_nil
        rw [hvs.span_eq] at hle
        exact hvs.freeOf_before hpart hl (.inr (lt_of_lt_of_le hholds.2 hle))

end Node.Spans

/-! ## What is gathered along a run -/

/-- The node is read from the tokens, the first of which is no error token. -/
def Node.Grounded (n : Node) (us : List Token) : Prop :=
  n.Spans us ∧ ∀ t ∈ us.head?, t.isError = false

namespace State

/-- The tokens that are to come stand one after the other, up to the end token, and faults that are
to come are about their error tokens. -/
structure Ready (s : State) : Prop where
  sited : s.Sited Diagnostic.Concerns
  standing : Standing s.input
  ends : ∃ e, s.stream = s.input ++ [e] ∧ e.isEnd = true ∧
    ∀ t ∈ s.input, t.span.stop.offset ≤ e.span.start.offset

/-- Nodes have been read from the tokens consumed, and whatever has been told meanwhile, they are
free of it. -/
structure Gathers (s : State) (ns : List Node) (ts : List Token) (ds : List Diagnostic)
    (s' : State) : Prop where
  tells : s.Tells Diagnostic.Concerns [] true ts ds s'
  lays : Lays Node.Grounded ns ts
  free : ∀ d ∈ ds, ∀ n ∈ ns, n.Throughout (Node.FreeOf d)

variable {s s' s'' : State} {ts us : List Token} {ds es : List Diagnostic} {ns ms : List Node}
  {t u : Token}

namespace Ready

theorem stream_eq (h : s.Ready) (hc : s.Consumes ts s') : s.stream = ts ++ s'.stream := by
  obtain ⟨e, hstream, hend, -⟩ := h.ends
  refine hc.stream ?_
  rw [hstream, List.any_append]
  simp [hend]

theorem after (h : s.Ready) (hc : s.Consumes ts s') : s'.Ready where
  sited := hc.sited h.sited
  standing := h.standing.sublist (hc.input ▸ List.sublist_append_right ts _)
  ends := by
    obtain ⟨e, hstream, hend, hlast⟩ := h.ends
    rw [h.stream_eq hc, hc.input, List.append_assoc] at hstream
    refine ⟨e, List.append_cancel_left hstream, hend, fun t ht => hlast t ?_⟩
    rw [hc.input]
    exact List.mem_append_right ts ht

/-- Of the tokens that are to come, each ends before the next one starts. -/
theorem ordered (h : s.Ready) :
    s.stream.Pairwise fun a b => a.span.stop.offset ≤ b.span.start.offset := by
  obtain ⟨e, hstream, -, hlast⟩ := h.ends
  rw [hstream]
  refine List.pairwise_append.2
    ⟨h.standing.ordered, List.pairwise_singleton _ _, fun a ha b hb => ?_⟩
  rw [List.mem_singleton.1 hb]
  exact hlast a ha

/-- What has been consumed stands before what is to come. -/
theorem stop_le (h : s.Ready) (hc : s.Consumes ts s') (hu : u ∈ ts) (ht : t ∈ s'.stream) :
    u.span.stop.offset ≤ t.span.start.offset := by
  have hordered := h.ordered
  rw [h.stream_eq hc] at hordered
  exact (List.pairwise_append.1 hordered).2.2 u hu t ht

theorem standing_of_consumes (h : s.Ready) (hc : s.Consumes ts s') : Standing ts :=
  h.standing.sublist (hc.input ▸ List.sublist_append_left ts _)

end Ready

/-- A token that is looked at is to come. -/
theorem mem_stream_of_ahead (h : s.ahead = some t) : t ∈ s.stream := by
  unfold stream
  rw [h]
  exact List.mem_cons_self

/-- A token that is looked at is the first to be consumed. -/
theorem Consumes.head_of_ahead (h : s.Consumes (u :: us) s') (ht : s.ahead = some t) : u = t := by
  have hahead := h.ahead
  rw [ht, Option.toList_some, List.cons_append] at hahead
  exact (List.cons_prefix_cons.1 hahead).1.symm

namespace Gathers

theorem of_tells (h : s.Tells Diagnostic.Concerns [] true ts ds s') : s.Gathers [] ts ds s' :=
  ⟨h, .skipped ts, fun _ _ => List.forall_mem_nil _⟩

/-- What has been consumed before is free of what is told later. -/
theorem free_behind (h : s.Ready) (hfirst : s.Gathers ns ts ds s')
    (hsecond : s'.Gathers ms us es s'') : ∀ d ∈ es, ∀ n ∈ ns, n.Throughout (Node.FreeOf d) := by
  intro d hd n hn
  obtain ⟨vs, ⟨hvs, -⟩, hin⟩ := hfirst.lays.exists_part hn
  obtain ⟨t, ht, hconcerns⟩ := hsecond.tells.on d hd
  have hcome : t ∈ s'.stream := by
    rcases ht with ht | ht | ht
    · cases ht
    · rw [(h.after hfirst.tells.consumes).stream_eq hsecond.tells.consumes]
      exact List.mem_append_left _ ht
    · rw [(h.after hfirst.tells.consumes).stream_eq hsecond.tells.consumes]
      exact List.mem_append_right us (mem_stream_of_ahead ht)
  obtain ⟨l, hl, -⟩ := id hconcerns
  refine hvs.freeOf_behind hl fun v hv => ?_
  exact (h.stop_le hfirst.tells.consumes (hin.subset hv) hcome).trans (hconcerns.le hl)

/-- What is read later is free of what has been told before. -/
theorem free_before (h : s.Ready) (hfirst : s.Gathers ns ts ds s')
    (hsecond : s'.Gathers ms us es s'') : ∀ d ∈ ds, ∀ n ∈ ms, n.Throughout (Node.FreeOf d) := by
  intro d hd n hn
  obtain ⟨vs, ⟨hvs, hproper⟩, hin⟩ := hsecond.lays.exists_part hn
  obtain ⟨v, ws, rfl⟩ := List.exists_cons_of_ne_nil hvs.ne_nil
  have hready := h.after hfirst.tells.consumes
  have hstanding := hready.standing_of_consumes hsecond.tells.consumes
  obtain ⟨t, ht, hconcerns⟩ := hfirst.tells.on d hd
  obtain ⟨l, hl, -⟩ := id hconcerns
  have hv : v ∈ us := hin.subset List.mem_cons_self
  refine hvs.freeOf_before (hstanding.sublist hin.sublist) hl ?_
  rcases ht with ht | ht | ht
  · cases ht
  · have hcome : v ∈ s'.stream := by
      rw [hready.stream_eq hsecond.tells.consumes]
      exact List.mem_append_left _ hv
    have hle := h.stop_le hfirst.tells.consumes ht hcome
    have hlong := (h.standing_of_consumes hfirst.tells.consumes).nonempty t ht
    exact .inr (lt_of_lt_of_le (hconcerns.lt hl hlong) hle)
  · -- the token that the first run stopped at is the first of the second
    obtain ⟨u, us', rfl⟩ := List.exists_cons_of_ne_nil (List.ne_nil_of_mem hv)
    obtain rfl := hsecond.tells.consumes.head_of_ahead ht
    rcases List.mem_cons.1 hv with rfl | hv
    · exact .inl (hconcerns.eq_place hl (hproper v rfl))
    · have hle := (List.pairwise_cons.1 hstanding.ordered).1 v hv
      have hlong := hstanding.nonempty u List.mem_cons_self
      exact .inr (lt_of_lt_of_le (hconcerns.lt hl hlong) hle)

/-- **What is gathered in two runs is free of what is told in both.** -/
theorem trans (h : s.Ready) (hfirst : s.Gathers ns ts ds s') (hsecond : s'.Gathers ms us es s'') :
    s.Gathers (ns ++ ms) (ts ++ us) (ds ++ es) s'' where
  tells := hfirst.tells.trans (List.forall_mem_nil _) hsecond.tells
  lays := hfirst.lays.append hsecond.lays
  free d hd n hn := by
    rcases List.mem_append.1 hd with hd | hd
    · rcases List.mem_append.1 hn with hn | hn
      · exact hfirst.free d hd n hn
      · exact free_before h hfirst hsecond d hd n hn
    · rcases List.mem_append.1 hn with hn | hn
      · exact free_behind h hfirst hsecond d hd n hn
      · exact hsecond.free d hd n hn

end Gathers

end State

/-! ## Faults of a text -/

namespace Reading

/-- What could be read of a broken literal ends before the character that does not belong there,
and that is skipped with the literal. -/
theorem length_before_lt_literal {quote : Char} {kind : Kind} {name : String} {least : Nat}
    {r : List Char} {why : Refusal} (hquote : quote.isAlpha = false)
    (h : (literal quote kind name least r).outcome = .error why) :
    why.before.length < 1 + (r.take (literal quote kind name least r).more).length := by
  unfold literal at h ⊢
  dsimp only at h ⊢
  generalize hrest : r.dropWhile Char.isAlpha = rest at h ⊢
  cases rest with
  | nil => cases h; exact Nat.lt_add_right _ Nat.zero_lt_one
  | cons c rest =>
    dsimp only [List.head?_cons] at h ⊢
    split at h
    next hc =>
      rw [if_pos hc]
      split at h
      · cases h
      next hleast =>
        rw [if_neg hleast]
        cases h
        exact Nat.lt_add_right _ Nat.zero_lt_one
    next hc =>
      rw [if_neg hc]
      split at h
      next hfeed =>
        rw [if_pos hfeed]
        cases h
        exact Nat.lt_add_right _ Nat.zero_lt_one
      next hfeed =>
        rw [if_neg hfeed]
        cases h
        -- the letters and the character are inside the line, and not the closing quote
        have hsplit : r.takeWhile Char.isAlpha ++ c :: rest = r := by
          rw [← hrest, List.takeWhile_append_dropWhile]
        have hletters : ∀ d ∈ r.takeWhile Char.isAlpha, (d != '\n' && d != quote) = true := by
          intro d hd
          have halpha := List.mem_takeWhile_imp hd
          have hfeed : d ≠ '\n' := by rintro rfl; revert halpha; decide
          have hquote : d ≠ quote := by rintro rfl; rw [hquote] at halpha; cases halpha
          simp [hfeed, hquote]
        have hinside : (r.takeWhile Char.isAlpha).length + 1 ≤
            (r.takeWhile fun d => d != '\n' && d != quote).length := by
          conv_rhs => rw [← hsplit]
          rw [List.takeWhile_append_of_pos hletters,
            List.takeWhile_cons_of_pos (by simp [hc, hfeed])]
          simp
        have hle := (List.takeWhile_prefix (l := r) fun d => d != '\n' && d != quote).length_le
        unfold brokenLiteral
        dsimp only
        rw [List.length_take, List.length_cons]
        split
        · omega
        · omega

end Reading

/-- What could be read of a broken piece of text is shorter than the piece. -/
theorem Reading.length_before_lt {c : Char} {r : List Char} {why : Refusal}
    (h : (front c r).outcome = .error why) :
    why.before.length < (Piece.front c r).text.length := by
  show _ < (c :: r.take (front c r).more).length
  rw [List.length_cons, Nat.add_comm]
  unfold front at h ⊢
  split at h
  · cases h
  next hword =>
    rw [if_neg hword]
    split at h
    · cases h
    next hdigit =>
      rw [if_neg hdigit]
      split at h
      next hc =>
        rw [if_pos hc]
        exact length_before_lt_literal (by subst hc; decide) h
      next hc =>
        rw [if_neg hc]
        split at h
        next hc =>
          rw [if_pos hc]
          exact length_before_lt_literal (by subst hc; decide) h
        next hc =>
          rw [if_neg hc]
          unfold symbol at h
          split at h
          · cases h
          · cases h
            exact Nat.lt_add_right _ Nat.zero_lt_one

/-- A fault of a text is inside its error token. -/
theorem concerns_of_fault {source : Source} {p : Position} {text : List Char} {why : Diagnostic}
    {t : Token} (h : Scan.fault why t ∈ scanFrom source p text) :
    t.isError = true ∧ why.Concerns t := by
  fun_induction scanFrom source p text with
  | case1 p text start h₀ => cases List.mem_singleton.1 h
  | case2 p text start c r h₀ piece ih =>
    rcases List.mem_cons.1 h with heq | h
    · unfold Scan.ofPiece at heq
      dsimp only at heq
      cases hpiece : piece.outcome with
      | ok kind => rw [hpiece] at heq; cases heq
      | error refusal =>
        rw [hpiece] at heq
        cases heq
        refine ⟨rfl, _, rfl, .inr ⟨rfl, ?_⟩⟩
        have hlength : refusal.before.length < piece.text.length := Reading.length_before_lt hpiece
        have hbefore := Position.offset_after start refusal.before
        have hpiece := Position.offset_after start piece.text
        show (start.offset : Int) ≤ ((start.after refusal.before).offset : Nat) ∧
          ((start.after refusal.before).offset : Int) < ((start.after piece.text).offset : Nat)
        omega
    · exact ih h

/-- A text is ready to be parsed. -/
theorem ready_startOf (text file : String) (n : Int) : (startOf text file n).Ready where
  sited _ _ h := concerns_of_fault h
  standing := standing_beforeEnd _ _
  ends := by
    have hcovers := scanFrom_covers (.ofText file text) .start text.toList
    obtain ⟨proper, e, htokens, hend, -, -, -, hproper⟩ := hcovers.exists_last
    obtain ⟨-, hordered⟩ := hcovers.ordered
    have hstream : (startOf text file n).stream = proper ++ [e] := htokens
    have hinput : (startOf text file n).input = proper := by
      show ((startOf text file n).stream).takeWhile (!·.isEnd) = proper
      rw [hstream, List.takeWhile_append_of_pos fun t ht => by rw [(hproper t ht).1]; rfl,
        List.takeWhile_cons_of_neg (by rw [hend]; decide), List.append_nil]
    refine ⟨e, by rw [hstream, hinput], hend, fun t ht => ?_⟩
    rw [htokens] at hordered
    rw [hinput] at ht
    exact ((List.pairwise_append.1 hordered).2.2 t ht e (List.mem_singleton_self e)).2

end ArcLang
