import ArcLang.Proofs.Language
import ArcLang.Proofs.Parts
import ArcLang.Proofs.Positions
import ArcLang.Proofs.Respanning

/-!
# The text of a node

What a node of an accepted program spans, read alone, gives the node back. The text can be cut in
front of any token and behind any other, and what is in between scans to the tokens in between: a
lexeme that is the longest at its place is so in a shorter text. These tokens are derived from the
grammar on their own, and take no more levels of nesting than the whole.

* `exists_fragment`: tokens that stand together are those of a text, whatever that is cut from.
* `readsAs_of_derivation`: text that scans to the tokens of a derivation is read to what it denotes.
* `parse_reads_back`: the statement about all nodes.
-/

namespace ArcLang

/-! ## Cutting a text -/

/-- **What is skipped does not depend on the piece that stands behind.** -/
theorem trivia_of_startsPiece {inComment : Bool} {text skipped rest rest' : List Char}
    (h : trivia inComment text = (skipped, rest)) (hrest : StartsPiece rest)
    (hrest' : StartsPiece rest') : trivia inComment (skipped ++ rest') = (skipped, rest') := by
  induction text generalizing inComment skipped with
  | nil =>
    obtain ⟨c, r, hcons, -⟩ := hrest
    cases h
    cases hcons
  | cons c r ih =>
    -- one more character in front of what is skipped in the rest of the text
    have skip {inComment' : Bool} {s : List Char} (hs : skipped = c :: s)
        (hr : trivia inComment' r = (s, rest))
        (hstep : trivia inComment (c :: (s ++ rest')) =
          (c :: (trivia inComment' (s ++ rest')).1, (trivia inComment' (s ++ rest')).2)) :
        trivia inComment (skipped ++ rest') = (skipped, rest') := by
      rw [hs, List.cons_append, hstep, ih hr]
    cases inComment with
    | true =>
      rw [trivia_inComment] at h
      obtain ⟨hskipped, hback⟩ := Prod.mk.inj h
      exact skip hskipped.symm (Prod.ext rfl hback) (trivia_inComment _ _)
    | false =>
      by_cases hblank : isBlank c = true
      · rw [trivia_blank hblank] at h
        obtain ⟨hskipped, hback⟩ := Prod.mk.inj h
        exact skip hskipped.symm (Prod.ext rfl hback) (trivia_blank hblank _)
      by_cases hslashes : ['/', '/'] <+: c :: r
      · obtain ⟨s, hs⟩ := hslashes
        cases hs
        rw [trivia_slashes _ rfl] at h
        obtain ⟨hskipped, hback⟩ := Prod.mk.inj h
        exact skip hskipped.symm (Prod.ext rfl hback) (trivia_slashes _ rfl)
      · rw [trivia_piece ⟨c, r, rfl, Bool.eq_false_iff.2 hblank, hslashes⟩] at h
        cases h
        obtain ⟨d, s, rfl, -⟩ := id hrest'
        exact trivia_piece hrest'

/-- No lexeme in front goes on with this text. -/
def EndsLexeme (tail : List Char) : Prop := ∀ c ∈ tail.head?, isBreak c = true

theorem endsLexeme_nil : EndsLexeme [] := by rintro _ ⟨⟩

theorem endsLexeme_semicolon : EndsLexeme [';'] := by rintro _ ⟨⟩; rfl

/-- A piece still starts where it does if something else stands behind a part of it. -/
theorem StartsPiece.cut {u v tail : List Char} (h : StartsPiece (u ++ v)) (hu : u ≠ [])
    (htail : EndsLexeme tail) : StartsPiece (u ++ tail) := by
  obtain ⟨c, u, rfl⟩ := List.exists_cons_of_ne_nil hu
  obtain ⟨d, s, heq, hblank, hslashes⟩ := h
  cases heq
  refine ⟨c, u ++ tail, rfl, hblank, fun hstart => ?_⟩
  obtain ⟨s, hs⟩ := hstart
  cases u with
  | nil =>
    cases hs
    cases htail '/' rfl
  | cons d u =>
    cases hs
    exact hslashes ⟨u ++ v, rfl⟩

/-- The text opens with the lexeme `w` of the token, behind blanks and comments. -/
structure Opens (source : Source) (p : Position) (text : List Char) (t : Token)
    (skipped w rest : List Char) : Prop where
  trivia : trivia false text = (skipped, w ++ rest)
  longest : t.kind.IsLongest w (w ++ rest)
  token : t = ⟨t.kind, String.ofList w,
    ⟨(p.after skipped).inFile source.file, ((p.after skipped).after w).inFile source.file⟩⟩

section Cuts

variable {source : Source} {p : Position} {text skipped w rest : List Char} {t : Token}

namespace Opens

theorem text_eq (h : Opens source p text t skipped w rest) : text = skipped ++ (w ++ rest) := by
  have happend := trivia_append false text
  rw [h.trivia] at happend
  exact happend.symm

theorem startsPiece (h : Opens source p text t skipped w rest) : StartsPiece (w ++ rest) := by
  obtain ⟨c, r, hw⟩ := List.exists_cons_of_ne_nil h.longest.1.ne_nil
  have hback : (ArcLang.trivia false text).2 = c :: (r ++ rest) := by
    rw [h.trivia, hw]
    rfl
  rw [hw]
  exact startsPiece_of_trivia hback

/-- The tokens are this one and then those of the rest. -/
theorem scan (h : Opens source p text t skipped w rest) :
    tokensFrom source p text = t :: tokensFrom source ((p.after skipped).after w) rest ∧
      Scan.faults (scanFrom source p text) =
        Scan.faults (scanFrom source ((p.after skipped).after w) rest) := by
  obtain ⟨htokens, hfaults⟩ := scanFrom_longest source p h.trivia h.longest
  rw [h.token]
  exact ⟨htokens, hfaults⟩

/-- Without the blanks and comments in front, the text opens with the same token. -/
theorem drop_skipped (h : Opens source p text t skipped w rest) :
    Opens source (p.after skipped) (w ++ rest) t [] w rest where
  trivia := by
    obtain ⟨c, r, heq, hpiece⟩ := id h.startsPiece
    rw [heq]
    exact trivia_piece (heq ▸ h.startsPiece)
  longest := h.longest
  token := h.token

/-- So it does if it is cut behind the lexeme. -/
theorem cut {behind v tail : List Char} (h : Opens source p text t skipped w (behind ++ v))
    (htail : EndsLexeme tail) :
    Opens source p (skipped ++ (w ++ (behind ++ tail))) t skipped w (behind ++ tail) where
  trivia := by
    have hpiece : StartsPiece ((w ++ behind) ++ v) := by
      rw [List.append_assoc]
      exact h.startsPiece
    have hne : w ++ behind ≠ [] := List.append_ne_nil_of_left_ne_nil h.longest.1.ne_nil behind
    have hcut := hpiece.cut hne htail
    rw [List.append_assoc] at hcut
    exact trivia_of_startsPiece h.trivia h.startsPiece hcut
  longest := by
    have hlongest := h.longest
    rw [← List.append_assoc] at hlongest ⊢
    exact (hlongest.of_append (List.prefix_append w behind)).append (.inr htail)
  token := h.token

end Opens

/-- A text without faults opens with its first token. -/
theorem exists_opens {ts : List Token} (hfaults : Scan.faults (scanFrom source p text) = [])
    (htokens : tokensFrom source p text = t :: ts) :
    ∃ skipped w rest, Opens source p text t skipped w rest := by
  rcases htrivia : trivia false text with ⟨skipped, rest⟩
  cases rest with
  | nil =>
    rw [(scanFrom_skipped source p htrivia).1] at htokens
    cases htokens
  | cons c r =>
    obtain ⟨k, w, rest, hpiece, hlongest⟩ := isLongest_of_faultless htrivia hfaults
    rw [hpiece] at htrivia
    have hfirst := (scanFrom_longest source p htrivia hlongest).1
    rw [htokens] at hfirst
    obtain ⟨rfl, -⟩ := List.cons.inj hfirst
    exact ⟨skipped, w, rest, htrivia, hlongest, rfl⟩

/-- **A text can be cut in front of a token.** -/
theorem exists_cut_before {front back : List Token}
    (hfaults : Scan.faults (scanFrom source p text) = [])
    (htokens : tokensFrom source p text = front ++ t :: back) :
    ∃ u v, text = u ++ v ∧ tokensFrom source (p.after u) v = t :: back ∧
      Scan.faults (scanFrom source (p.after u) v) = [] ∧
        t.span.start = (p.after u).inFile source.file := by
  induction front generalizing p text with
  | nil =>
    obtain ⟨skipped, w, rest, hopens⟩ := exists_opens hfaults htokens
    obtain ⟨htokens', hfaults'⟩ := hopens.drop_skipped.scan
    obtain ⟨hscan, hrest⟩ := hopens.scan
    refine ⟨skipped, w ++ rest, hopens.text_eq, ?_, ?_, ?_⟩
    · rw [htokens', Position.after_nil, ← hscan]
      exact htokens
    · rw [hfaults', Position.after_nil, ← hrest]
      exact hfaults
    · rw [hopens.token]
  | cons first front ih =>
    obtain ⟨skipped, w, rest, hopens⟩ := exists_opens hfaults htokens
    obtain ⟨hscan, hrest⟩ := hopens.scan
    rw [hscan] at htokens
    obtain ⟨u, v, rfl, hback⟩ := ih (hrest ▸ hfaults) (List.cons.inj htokens).2
    refine ⟨skipped ++ (w ++ u), v, ?_, ?_⟩
    · rw [hopens.text_eq]
      simp only [List.append_assoc]
    · rw [Position.after_append, Position.after_append]
      exact hback

/-- **A text can be cut behind a token.** What is put there instead changes no token before. -/
theorem exists_cut_behind {front back : List Token}
    (hfaults : Scan.faults (scanFrom source p text) = [])
    (htokens : tokensFrom source p text = front ++ back) :
    ∃ w v, text = w ++ v ∧ (front.getLast?.map (·.span.stop)).getD (p.inFile source.file) =
        (p.after w).inFile source.file ∧
      ∀ tail, EndsLexeme tail →
        tokensFrom source p (w ++ tail) = front ++ tokensFrom source (p.after w) tail ∧
          Scan.faults (scanFrom source p (w ++ tail)) =
            Scan.faults (scanFrom source (p.after w) tail) := by
  induction front generalizing p text with
  | nil => exact ⟨[], text, rfl, rfl, fun _ _ => ⟨rfl, rfl⟩⟩
  | cons first front ih =>
    obtain ⟨skipped, lexeme, rest, hopens⟩ := exists_opens hfaults htokens
    obtain ⟨hscan, hrest⟩ := hopens.scan
    rw [hscan] at htokens
    obtain ⟨w, v, rfl, hlast, hcut⟩ := ih (hrest ▸ hfaults) (List.cons.inj htokens).2
    have hafter : p.after (skipped ++ (lexeme ++ w)) =
        ((p.after skipped).after lexeme).after w := by
      rw [Position.after_append, Position.after_append]
    refine ⟨skipped ++ (lexeme ++ w), v, ?_, ?_, fun tail htail => ?_⟩
    · rw [hopens.text_eq]
      simp only [List.append_assoc]
    · have hstop : first.span.stop = ((p.after skipped).after lexeme).inFile source.file := by
        rw [hopens.token]
      rw [hafter, ← hlast, ← hstop, List.getLast?_cons]
      cases front.getLast? with
      | none => rfl
      | some last => rfl
    · obtain ⟨hscan', hrest'⟩ := (hopens.cut htail).scan
      obtain ⟨htail', hfaults'⟩ := hcut tail htail
      have hassoc : skipped ++ (lexeme ++ w) ++ tail = skipped ++ (lexeme ++ (w ++ tail)) := by
        simp only [List.append_assoc]
      rw [hafter, hassoc, hscan', hrest', htail', hfaults']
      exact ⟨rfl, rfl⟩

/-- **Tokens that stand together have a text of their own.** It scans to them wherever it ends, or
goes on with something that no lexeme goes on with. -/
theorem exists_fragment {ts : List Token} (hts : ts ≠ [])
    (hfaults : Scan.faults (scanFrom source p text) = [])
    (hamong : ts <:+: tokensFrom source p text) :
    ∃ before fragment behind, text = before ++ (fragment ++ behind) ∧
      cover ts = ⟨(p.after before).inFile source.file,
        ((p.after before).after fragment).inFile source.file⟩ ∧
      ∀ tail, EndsLexeme tail →
        tokensFrom source (p.after before) (fragment ++ tail) =
            ts ++ tokensFrom source ((p.after before).after fragment) tail ∧
          Scan.faults (scanFrom source (p.after before) (fragment ++ tail)) =
            Scan.faults (scanFrom source ((p.after before).after fragment) tail) := by
  obtain ⟨front, back, htokens⟩ := hamong
  obtain ⟨t, ts, rfl⟩ := List.exists_cons_of_ne_nil hts
  have hfirst : tokensFrom source p text = front ++ t :: (ts ++ back) := by
    rw [← htokens, List.append_assoc, List.cons_append]
  obtain ⟨before, rest, rfl, hrest, hfaultless, hstart⟩ := exists_cut_before hfaults hfirst
  rw [← List.cons_append] at hrest
  obtain ⟨fragment, behind, rfl, hstop, hcut⟩ := exists_cut_behind hfaultless hrest
  refine ⟨before, fragment, behind, rfl, ?_, hcut⟩
  rw [List.getLast?_eq_some_getLast (List.cons_ne_nil t ts)] at hstop
  exact congrArg₂ Span.mk hstart hstop

end Cuts

/-- A semicolon scans to its token. -/
theorem exists_semicolon (source : Source) (p : Position) :
    ∃ stop : Grammar.Sign .semicolon, tokensFrom source p [';'] = [stop.1] ∧
      Scan.faults (scanFrom source p [';']) = [] := by
  have htrivia : trivia false [';'] = ([], [';'] ++ []) := by decide
  obtain ⟨htokens, hfaults⟩ := scanFrom_longest source p htrivia (isLongest_semicolon [])
  have hend : trivia false [] = ([], []) := rfl
  obtain ⟨hnone, hquiet⟩ := scanFrom_skipped source ((p.after []).after [';']) hend
  rw [hnone] at htokens
  exact ⟨⟨_, rfl⟩, htokens, hfaults.trans hquiet⟩

/-! ## Reading a fragment -/

/-- The text is accepted, and read to one item of the given shape. -/
def ReadsAs (text file : String) (o : Options) (i : Item) : Prop :=
  ∃ r, parse text file o = .ok r ∧ r.diagnostics = [] ∧
    ∃ j, r.program.items = [j] ∧ j.sameShape i = true

/-- **Text that scans to the tokens of a derivation is read to what it denotes.** -/
theorem readsAs_of_derivation {source : Source} {p : Position} {fragment : List Char} {o : Options}
    (d : Grammar.Item) (hfaults : Scan.faults (scanFrom source p fragment) = [])
    (htokens : tokensFrom source p fragment = d.tokens) (hlengths : Grammar.Resolve d.lengths)
    (hplaced : (Node.ofItem d.tree).Throughout Node.AssignsToPlace)
    (hneed : d.tree.need ≤ o.maxDepth.toNat) (file : String) :
    ReadsAs (String.ofList fragment) file o d.tree := by
  have hscans : scansOf (String.ofList fragment) file =
      scanFrom (.ofText file (String.ofList fragment)) .start fragment := by
    unfold scansOf scan
    rw [String.toList_ofList]
  obtain ⟨hfaults', halike⟩ :=
    scanFrom_alike (.ofText file (String.ofList fragment)) .start hfaults
  rw [htokens] at halike
  have hnodup : d.tokens.Nodup := htokens ▸ tokensFrom_nodup source p fragment
  obtain ⟨f, hf⟩ := Respanning.exists_of_alike hnodup halike
  let whole : Grammar.Program := ⟨[d]⟩
  have htrees : whole.trees = [d.tree] := rfl
  have hderives : (f.program whole).Derives (String.ofList fragment) file o.maxDepth.toNat := by
    refine ⟨?_, f.placed_program ?_, f.resolve_program ?_, ?_⟩
    · rw [f.tokens_program, hscans]
      have hwhole : whole.tokens = d.tokens := by simp [whole, Grammar.Program.tokens]
      rw [hwhole]
      exact hf
    · rw [htrees]
      exact List.forall_mem_singleton.2 hplaced
    · have hwhole : whole.lengths = d.lengths := by simp [whole, Grammar.Program.lengths]
      rw [hwhole]
      exact hlengths
    · rw [f.need_program, htrees, needMost_le_iff]
      exact List.forall_mem_singleton.2 hneed
  obtain ⟨r, hr, hclean, hitems⟩ :=
    parse_eq_ok_iff.2 ⟨hscans ▸ hfaults', f.program whole, hderives, rfl⟩
  exact ⟨r, hr, hclean, (f.item d).tree, hitems, (Item.sameShape_iff _ _).2 (f.erased_item d)⟩

/-! ## The nodes of a program -/

/-- The part of a text that a span covers. -/
def spanned (text : String) (s : Span) : String :=
  String.ofList (slice text.toList s.start.offset s.stop.offset)

/-- What the node spans in the text, read alone, gives the node back. Only definitions and
statements can stand alone; a semicolon makes a statement of an expression. -/
def Node.ReadsBack (text file : String) (o : Options) : Node → Prop
  | .function f => ReadsAs (spanned text f.span) file o (.function f)
  | .struct s => ReadsAs (spanned text s.span) file o (.struct s)
  | .statement s => ReadsAs (spanned text s.span) file o (.statement s)
  | .expression e => ReadsAs (spanned text e.span ++ ";") file o (.statement (.expression e.span e))
  | _ => True

section Accepted

variable {text file : String} {o : Options}

/-- What tokens that stand together span is the text that scans to them. -/
theorem exists_spanned {ts : List Token} (hts : ts ≠ [])
    (hfaults : Scan.faults (scansOf text file) = [])
    (hamong : ts <:+: Scan.beforeEnd (scansOf text file)) :
    ∃ p fragment, spanned text (cover ts) = String.ofList fragment ∧
      ∀ tail, EndsLexeme tail →
        tokensFrom (.ofText file text) p (fragment ++ tail) =
            ts ++ tokensFrom (.ofText file text) (p.after fragment) tail ∧
          Scan.faults (scanFrom (.ofText file text) p (fragment ++ tail)) =
            Scan.faults (scanFrom (.ofText file text) (p.after fragment) tail) := by
  obtain ⟨before, fragment, behind, htext, hcover, hscan⟩ := exists_fragment hts hfaults hamong
  refine ⟨Position.start.after before, fragment, ?_, hscan⟩
  have hstart : (cover ts).start.offset = (before.length : Int) := by
    rw [hcover]
    show ((Position.start.after before).offset : Int) = _
    rw [Position.offset_after]
    simp [Position.start]
  have hstop : (cover ts).stop.offset = ((before.length + fragment.length : Nat) : Int) := by
    rw [hcover]
    show (((Position.start.after before).after fragment).offset : Int) = _
    rw [Position.offset_after, Position.offset_after]
    simp [Position.start]
  unfold spanned
  rw [hstart, hstop, htext, slice_append before fragment behind _ rfl]

/-- **An item that is derived within an accepted text is read back from what it spans.** -/
theorem Grammar.Item.reads_back (d : Grammar.Item)
    (hfaults : Scan.faults (scansOf text file) = [])
    (hamong : d.tokens <:+: Scan.beforeEnd (scansOf text file))
    (hlengths : Grammar.Resolve d.lengths)
    (hplaced : (Node.ofItem d.tree).Throughout Node.AssignsToPlace)
    (hneed : d.tree.need ≤ o.maxDepth.toNat) (file' : String) :
    ReadsAs (spanned text d.tree.span) file' o d.tree := by
  obtain ⟨p, fragment, hspanned, hscan⟩ := exists_spanned d.starts.ne_nil hfaults hamong
  obtain ⟨htokens, hfaultless⟩ := hscan [] endsLexeme_nil
  have hend : trivia false [] = ([], []) := rfl
  obtain ⟨hnone, hquiet⟩ := scanFrom_skipped (.ofText file text) (p.after fragment) hend
  rw [hnone, List.append_nil, List.append_nil] at htokens
  rw [hquiet, List.append_nil] at hfaultless
  rw [d.span_tree, hspanned]
  exact readsAs_of_derivation d hfaultless htokens hlengths hplaced hneed file'

/-- **An expression that is derived within an accepted text** is read back from what it spans, with
a semicolon behind. -/
theorem Grammar.Expr.reads_back (d : Grammar.Expr)
    (hfaults : Scan.faults (scansOf text file) = [])
    (hamong : d.tokens <:+: Scan.beforeEnd (scansOf text file))
    (hplaced : (Node.expression d.tree).Throughout Node.AssignsToPlace)
    (hneed : d.tree.need ≤ o.maxDepth.toNat) (file' : String) :
    ReadsAs (spanned text d.tree.span ++ ";") file' o
      (.statement (.expression d.tree.span d.tree)) := by
  obtain ⟨p, fragment, hspanned, hscan⟩ := exists_spanned d.starts.ne_nil hfaults hamong
  obtain ⟨htokens, hfaultless⟩ := hscan [';'] endsLexeme_semicolon
  obtain ⟨stop, hone, hquiet⟩ := exists_semicolon (.ofText file text) (p.after fragment)
  rw [hone] at htokens
  rw [hquiet] at hfaultless
  rw [d.span_tree, hspanned, ← String.ofList_append]
  have hstatement : (Node.statement (Grammar.Statement.expression d stop).tree).Throughout
      Node.AssignsToPlace :=
    Node.throughout_iff.2 ⟨trivial, List.forall_mem_singleton.2 hplaced⟩
  obtain ⟨r, hr, hclean, j, hj, hsame⟩ :=
    readsAs_of_derivation (.statement (.expression d stop)) hfaultless htokens
      (List.forall_mem_nil _) hstatement hneed file'
  refine ⟨r, hr, hclean, j, hj, ?_⟩
  -- the statement that is read ends one character further on, and shapes do not tell
  rw [Item.sameShape_iff] at hsame ⊢
  exact hsame

/-- **What a node spans is its text:** in an accepted text, each definition, statement and
expression is read back from what it spans. -/
theorem parse_reads_back {r : Parsed} (hr : parse text file o = .ok r) (hclean : r.diagnostics = [])
    (file' : String) : (Node.program r.program).Throughout (Node.ReadsBack text file' o) := by
  obtain ⟨hfaults, d, hd, htrees⟩ := parse_eq_ok_iff.1 ⟨r, hr, hclean, rfl⟩
  refine Node.throughout_iff.2 ⟨trivial, List.forall_mem_map.2 fun i hi n hn => ?_⟩
  rw [← htrees] at hi
  have hderived := d.parts hd.lengths hi n hn
  have hplaced : n.Throughout Node.AssignsToPlace := (hd.placed i hi).of_mem hn
  have hneed : n.need ≤ o.maxDepth.toNat := by
    have hitem := needMost_le_iff.1 hd.need i hi
    have hpart := Node.need_le_of_mem hn
    rw [Node.need_ofItem] at hpart
    exact hpart.trans hitem
  rw [hd.tokens] at hderived
  cases n with
  | function f =>
    obtain ⟨e, he, hamong, hlengths⟩ := hderived
    have hback := e.reads_back hfaults hamong hlengths (o := o)
    rw [he] at hback
    exact hback hplaced hneed file'
  | struct s =>
    obtain ⟨e, he, hamong, hlengths⟩ := hderived
    have hback := e.reads_back hfaults hamong hlengths (o := o)
    rw [he] at hback
    exact hback hplaced hneed file'
  | statement s =>
    obtain ⟨e, rfl, hamong⟩ := hderived
    exact (Grammar.Item.statement e).reads_back hfaults hamong (List.forall_mem_nil _) hplaced hneed
      file'
  | expression e =>
    obtain ⟨e, rfl, hamong⟩ := hderived
    exact e.reads_back hfaults hamong hplaced hneed file'
  | _ => trivial

/-- The product is read from its own text, although it stands to the right of an operator. -/
theorem parse_reads_back_of_product :
    ∃ r, parse "x := a - b * c; // d" "m.arc" {} = .ok r ∧ r.diagnostics = [] ∧
      (Node.program r.program).nodes.map (fun n => spanned "x := a - b * c; // d" n.span) =
        ["x := a - b * c; // d", "x := a - b * c;", "x := a - b * c", "x", "a - b * c", "a",
          "b * c", "b", "c"] ∧
      (Node.program r.program).Throughout
        (Node.ReadsBack "x := a - b * c; // d" "<input>" {}) := by
  have hread : (parse "x := a - b * c; // d" "m.arc" {}).toOption.map (fun r =>
      (r.diagnostics.length, (Node.program r.program).nodes.map fun n =>
        spanned "x := a - b * c; // d" n.span)) =
      some (0, ["x := a - b * c; // d", "x := a - b * c;", "x := a - b * c", "x", "a - b * c", "a",
          "b * c", "b", "c"]) := by
    decide +kernel
  obtain ⟨r, hr, hseen⟩ := exists_of_map_toOption hread
  obtain ⟨hlength, htexts⟩ := Prod.mk.inj hseen
  have hclean : r.diagnostics = [] := List.length_eq_zero_iff.1 hlength
  exact ⟨r, hr, hclean, htexts, parse_reads_back hr hclean "<input>"⟩

end Accepted

end ArcLang
