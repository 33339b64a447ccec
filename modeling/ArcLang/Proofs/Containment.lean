import ArcLang.Proofs.Coverage
import ArcLang.Proofs.Depth
import ArcLang.Proofs.Positions

/-!
# Spans are nested

In every program that a parse returns, the span of a node lies in the text, contains the spans of
the children, and these stand one after the other; the ends of a span are ends of tokens. The tokens
of a scan are ordered, so it is enough that each node stands on tokens that follow one another.

* `Node.WellSpanned`: what is said of one node.
* `parse_wellSpanned`: the statement for texts, accepted or not.
-/

namespace ArcLang

/-- What is said of the span of a node in a text with these tokens. -/
structure Node.WellSpanned (text : String) (tokens : List Token) (n : Node) : Prop where
  inText : 0 ≤ n.span.start.offset ∧ n.span.start.offset ≤ n.span.stop.offset ∧
    n.span.stop.offset ≤ text.length
  contains : ∀ c ∈ n.children, n.span.contains c.span = true
  /-- Each child starts where the one before it ends, or later. -/
  ordered : n.children.Pairwise fun a b => a.span.stop.offset ≤ b.span.start.offset
  /-- All but the program start where a token starts, and end where a token ends. -/
  ends : (∃ p, n = .program p) ∨
    (∃ t ∈ tokens, n.span.start = t.span.start) ∧ ∃ t ∈ tokens, n.span.stop = t.span.stop

/-! ## Nodes on ordered tokens -/

theorem cover_ends {ts : List Token} (h : ts ≠ []) :
    (∃ t ∈ ts, (cover ts).start = t.span.start) ∧ ∃ t ∈ ts, (cover ts).stop = t.span.stop := by
  obtain ⟨t, ts, rfl⟩ := List.exists_cons_of_ne_nil h
  exact ⟨⟨t, List.mem_cons_self, rfl⟩, ⟨_, List.getLast_mem h, rfl⟩⟩

namespace Standing

variable {ts us : List Token}

/-- The cover of a part lies inside the cover of the whole. -/
theorem cover_infix_le (h : Standing ts) (hus : us <:+: ts) (hne : us ≠ []) :
    (cover ts).start.offset ≤ (cover us).start.offset ∧
      (cover us).start.offset < (cover us).stop.offset ∧
        (cover us).stop.offset ≤ (cover ts).stop.offset := by
  obtain ⟨⟨t, ht, hstart⟩, u, hu, hstop⟩ := cover_ends hne
  obtain ⟨hbefore, -, -⟩ := h.cover_le (hus.subset ht)
  obtain ⟨-, hbehind, -⟩ := h.cover_le (hus.subset hu)
  have hnonempty := h.nonempty t (hus.subset ht)
  obtain ⟨-, hlast, -⟩ := (h.sublist hus.sublist).cover_le ht
  rw [hstart, hstop]
  rw [hstop] at hlast
  omega

/-- What comes later among the tokens starts behind what comes earlier. -/
theorem cover_append_le (h : Standing (ts ++ us)) (hts : ts ≠ []) (hus : us ≠ []) :
    (cover ts).stop.offset ≤ (cover us).start.offset := by
  obtain ⟨-, t, ht, hstop⟩ := cover_ends hts
  obtain ⟨⟨u, hu, hstart⟩, -⟩ := cover_ends hus
  rw [hstop, hstart]
  exact (List.pairwise_append.1 h.ordered).2.2 t ht u hu

end Standing

namespace Lays

variable {ns : List Node} {ts : List Token}

/-- Nodes that come from ordered tokens one after the other do not overlap. -/
theorem ordered (h : Lays Node.Spans ns ts) (hts : Standing ts) :
    ns.Pairwise fun a b => a.span.stop.offset ≤ b.span.start.offset := by
  induction h with
  | nil => exact .nil
  | skip t _ ih => exact ih (hts.sublist (List.sublist_cons_self _ _))
  | @part n ns us ts hn hns ih =>
    refine List.pairwise_cons.2 ⟨fun m hm => ?_, ih (hts.sublist (List.sublist_append_right _ _))⟩
    obtain ⟨vs, hvs, hin⟩ := hns.exists_part hm
    have hsub : (us ++ vs).Sublist (us ++ ts) := hin.sublist.append_left us
    rw [hn.span_eq, hvs.span_eq]
    exact (hts.sublist hsub).cover_append_le hn.ne_nil hvs.ne_nil

/-- Nodes that come from ordered tokens lie inside their cover. -/
theorem cover_le (h : Lays Node.Spans ns ts) (hts : Standing ts) {n : Node} (hn : n ∈ ns) :
    (cover ts).start.offset ≤ n.span.start.offset ∧
      n.span.stop.offset ≤ (cover ts).stop.offset := by
  obtain ⟨us, hus, hin⟩ := h.exists_part hn
  obtain ⟨hbefore, -, hbehind⟩ := hts.cover_infix_le hin hus.ne_nil
  rw [hus.span_eq]
  exact ⟨hbefore, hbehind⟩

end Lays

theorem Node.Spans.wellSpanned {n : Node} {us tokens : List Token} {text : String}
    (h : n.Spans us) (hus : us <:+: tokens) (hstanding : Standing tokens)
    (hfirst : ∀ t ∈ tokens, 0 ≤ t.span.start.offset)
    (hlast : ∀ t ∈ tokens, t.span.stop.offset ≤ text.length) :
    n.WellSpanned text tokens := by
  have hordered := hstanding.sublist hus.sublist
  obtain ⟨⟨t, ht, hstart⟩, u, hu, hstop⟩ := cover_ends h.ne_nil
  obtain ⟨-, hlt, -⟩ := hordered.cover_infix_le (List.infix_refl us) h.ne_nil
  have hspan := h.span_eq
  refine ⟨?_, fun c hc => ?_, h.parts.ordered hordered, .inr ⟨?_, ?_⟩⟩
  · have hbefore := hfirst t (hus.subset ht)
    have hbehind := hlast u (hus.subset hu)
    rw [hspan]
    rw [hstart] at hlt ⊢
    rw [hstop] at hlt ⊢
    omega
  · obtain ⟨hbefore, hbehind⟩ := h.parts.cover_le hordered hc
    rw [hspan, Span.contains, decide_eq_true hbefore, decide_eq_true hbehind]
    rfl
  · exact ⟨t, hus.subset ht, hspan ▸ hstart⟩
  · exact ⟨u, hus.subset hu, hspan ▸ hstop⟩

/-! ## The program of a text -/

section Texts

variable {text file : String} {n : Int}

/-- The tokens of a text lie in it. -/
theorem beforeEnd_inText (text file : String) : ∀ t ∈ Scan.beforeEnd (scansOf text file),
    0 ≤ t.span.start.offset ∧ t.span.stop.offset ≤ text.length := by
  intro t ht
  obtain ⟨hplaced, -⟩ := tokensFrom_ordered (.ofText file text) .start text.toList
  obtain ⟨hstart, -, hstop⟩ := hplaced t ht
  rw [Position.offset_after, String.length_toList] at hstop
  refine ⟨hstart, hstop.trans (le_of_eq ?_)⟩
  show ((0 + text.length : Nat) : Int) = _
  rw [Nat.zero_add]

/-- The input of a parse ends where its text does. -/
theorem stop?_startOf (text file : String) (n : Int) :
    ∃ l, (startOf text file n).stop? = some l ∧ l.offset = text.length := by
  obtain ⟨ts, e, htokens, hpartitions⟩ := scan_partitions (.ofText file text) text
  obtain ⟨hend, -, -, hstop⟩ := hpartitions.isEnd
  refine ⟨e.span.stop, ?_, by rw [hstop, String.length_toList]⟩
  unfold State.stop?
  have hfind : (Scan.tokens (scansOf text file)).find? Token.isEnd = some e := by
    rw [htokens, List.find?_append, List.find?_cons_of_pos hend]
    rw [List.find?_eq_none.2 fun t ht => by rw [(hpartitions.proper t ht).1]; decide]
    rfl
  rw [Option.toList_none, List.nil_append, hfind]

variable {env : Setting} {p : Program} {s : State}

/-- A program ends where the text does, or where the last token ends that was consumed. -/
theorem Parser.program_stop (h : Gives program env (startOf text file n) p s) :
    ∃ ts, ts <+: Scan.beforeEnd (scansOf text file) ∧
      Lays Node.Spans (p.items.map .ofItem) ts ∧ p.span.start = .start env.source.file ∧
        (p.span.stop.offset = text.length ∨
          ts ≠ [] ∧ p.span.stop = (cover ts).stop ∨ ts = [] ∧ p.span.stop.offset = 0) := by
  obtain ⟨acc, s₁, t, hacc, hc, hahead, hitems, hspan⟩ := program_gives h
  obtain ⟨ts, hts, hlays⟩ := items_lays hacc
  have hall := hts.before hc
  refine ⟨ts, ⟨s.input, hall.input.symm⟩, hitems ▸ hlays, by rw [hspan], ?_⟩
  rw [hspan]
  by_cases hend : t.isEnd = true
  · -- the end token looked at is that of the text
    obtain ⟨l, hstop, hl⟩ := stop?_startOf text file n
    have hsame := hall.stop (by rw [hstop]; exact Option.some_ne_none l)
    rw [hstop] at hsame
    unfold State.stop? at hsame
    rw [hahead, Option.toList_some, List.singleton_append, List.find?_cons_of_pos hend] at hsame
    rw [if_pos hend, Option.some.inj hsame]
    exact .inl hl
  · rw [if_neg hend]
    by_cases hne : ts = []
    · subst hne
      have hprevious : s.previous = none := hall.previous
      rw [State.previousEnd, hprevious]
      exact .inr (.inr ⟨rfl, rfl⟩)
    · rw [hall.previousEnd_eq hne rfl]
      exact .inr (.inl ⟨hne, rfl⟩)

/-- **The spans of a parsed program are nested,** whatever was wrong with the text. -/
theorem Parser.program_wellSpanned (h : Gives program env (startOf text file n) p s) :
    (Node.program p).Throughout
      (Node.WellSpanned text (Scan.beforeEnd (scansOf text file))) := by
  obtain ⟨ts, hinitial, hlays, hstart, hstop⟩ := program_stop h
  have hstanding : Standing (Scan.beforeEnd (scansOf text file)) := standing_beforeEnd _ _
  have hinText := beforeEnd_inText text file
  have hordered := hstanding.sublist hinitial.sublist
  -- the program reaches from the front of the text behind all its items
  have hzero : p.span.start.offset = 0 := by rw [hstart]; rfl
  have hbehind : 0 ≤ p.span.stop.offset ∧ p.span.stop.offset ≤ text.length ∧
      (ts ≠ [] → (cover ts).stop.offset ≤ p.span.stop.offset) := by
    have hcover (hne : ts ≠ []) : 0 ≤ (cover ts).stop.offset ∧
        (cover ts).stop.offset ≤ text.length := by
      obtain ⟨⟨u, hu, hfirst⟩, v, hv, hlast⟩ := cover_ends hne
      obtain ⟨-, hlt, -⟩ := hordered.cover_infix_le (List.infix_refl ts) hne
      have hu := (hinText u (hinitial.subset hu)).1
      have hv := (hinText v (hinitial.subset hv)).2
      rw [hfirst] at hlt
      rw [hlast] at hlt ⊢
      omega
    rcases hstop with hstop | ⟨hne, hstop⟩ | ⟨rfl, hstop⟩
    · rw [hstop]
      exact ⟨Int.natCast_nonneg _, le_rfl, fun hne => (hcover hne).2⟩
    · rw [hstop]
      exact ⟨(hcover hne).1, (hcover hne).2, fun _ => le_rfl⟩
    · rw [hstop]
      exact ⟨le_rfl, Int.natCast_nonneg _, fun hne => absurd rfl hne⟩
  obtain ⟨hnonneg, hle, hcontains⟩ := hbehind
  refine Node.throughout_iff.2 ⟨⟨?_, fun c hc => ?_, hlays.ordered hordered, .inl ⟨p, rfl⟩⟩,
    fun c hc => ?_⟩
  · show 0 ≤ p.span.start.offset ∧ p.span.start.offset ≤ p.span.stop.offset ∧ _
    rw [hzero]
    exact ⟨le_rfl, hnonneg, hle⟩
  · obtain ⟨us, hus, hin⟩ := hlays.exists_part hc
    obtain ⟨⟨u, hu, hfirst⟩, -⟩ := cover_ends hus.ne_nil
    have hne : ts ≠ [] := fun hnil => hus.ne_nil (List.infix_nil.1 (hnil ▸ hin))
    have hfront := (hinText u (hinitial.subset (hin.subset hu))).1
    have hback := (hlays.cover_le hordered hc).2.trans (hcontains hne)
    rw [← hfirst, ← hus.span_eq, ← hzero] at hfront
    show p.span.contains c.span = true
    rw [Span.contains, decide_eq_true hfront, decide_eq_true hback]
    rfl
  · obtain ⟨us, hus, hin⟩ := hlays.exists_part hc
    refine hus.throughout fun m vs hm hvs => ?_
    exact hm.wellSpanned ((hvs.trans hin).trans hinitial.isInfix) hstanding
      (fun t ht => (hinText t ht).1) fun t ht => (hinText t ht).2

end Texts

/-- **Spans form a nested cover.** In every program that a parse returns, with diagnostics or
without, every node is well spanned with regard to the tokens of the text; and the program of a text
without faults reaches from its front to its end. -/
theorem parse_wellSpanned {text file : String} {o : Options} {r : Parsed}
    (h : parse text file o = .ok r) :
    (Node.program r.program).Throughout
        (Node.WellSpanned text (Scan.beforeEnd (scansOf text file))) ∧
      (r.isClean = true →
        r.program.span.start.offset = 0 ∧ r.program.span.stop.offset = text.length) := by
  obtain ⟨s, hs, hdiagnostics⟩ := parseScans_of_parse h
  have hgives := parseScans_eq_ok_iff.1 hs
  refine ⟨Parser.program_wellSpanned hgives, fun hclean => ?_⟩
  -- without diagnostics all tokens are consumed, so the program ends where they do
  have herrors : s.errors.errors = [] := by
    unfold Parsed.isClean at hclean
    rwa [hdiagnostics, List.isEmpty_iff, Collector.sorted_eq_nil_iff] at hclean
  have hcandid : (startOf text file o.maxErrors).Candid := candid_startOf o.one_le_maxErrors
  obtain ⟨-, hread⟩ := Parser.program_sound hgives
  obtain ⟨d, hall, -⟩ := hread ⟨hcandid, herrors⟩
  obtain ⟨l, hstop, hl⟩ := stop?_startOf text file o.maxErrors
  have hne : (startOf text file o.maxErrors).stop? ≠ none := by
    rw [hstop]
    exact Option.some_ne_none l
  obtain ⟨hstart, hend⟩ := Parser.program_span hgives hall hne
  rw [hstop] at hend
  rw [hstart, ← Option.some.inj hend]
  exact ⟨rfl, hl⟩

/-- A function that is kept although a statement in its body is broken. -/
theorem parse_wellSpanned_of_broken :
    ∃ r, parse "fun f(a: u8)\n\x7b x y; a := 1; \x7d" "m.arc" {} = .ok r ∧ r.isClean = false ∧
      (Node.program r.program).Throughout (Node.WellSpanned
        "fun f(a: u8)\n\x7b x y; a := 1; \x7d"
        (Scan.beforeEnd (scansOf "fun f(a: u8)\n\x7b x y; a := 1; \x7d" "m.arc"))) := by
  have h : (parse "fun f(a: u8)\n\x7b x y; a := 1; \x7d" "m.arc" {}).toOption.map
      (fun r => (r.isClean, r.program.items.length)) = some (false, 1) := by
    decide +kernel
  obtain ⟨r, hp, hseen⟩ := exists_of_map_toOption h
  exact ⟨r, hp, congrArg Prod.fst hseen, (parse_wellSpanned hp).1⟩

end ArcLang
