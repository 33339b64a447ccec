import ArcLang.Proofs.Depth
import ArcLang.Proofs.Shifting
import ArcLang.Proofs.Straying
import ArcLang.Proofs.Totality

/-!
# Texts one behind the other

A text that is accepted leaves nothing behind it that would matter to what follows on the next line:
the items and diagnostics of the next text are those that it has alone, so many lines further on.
The one exception is an `if` at the end, to which an `else` on the next line belongs.

* `Parser.iterate_to_cut`: the items before the cut are read in the other stream too.
* `parse_append`: the statement.
-/

namespace ArcLang

namespace Parser

/-! ## Steps and the token they start with -/

section Steps

variable {env : Setting} {s s' s₀ : State} {t : Token} {room : Nat} {acc out : Array Item}

/-- Behind the first step it does not matter whether the token had been looked at. -/
theorem iterate_of_peek (hpeek : Gives peek env s t s₀) :
    iterate (itemStep room) acc env s₀ = iterate (itemStep room) acc env s := by
  obtain ⟨-, -, hahead⟩ := peek_gives hpeek
  have progresses := progresses_itemStep (eats_item room)
  rw [iterate_eq progresses, iterate_eq progresses, run_itemStep hpeek,
    run_itemStep (gives_peek hahead)]

/-- A step that reads an item. -/
theorem gives_itemStep {i : Item} (hpeek : Gives peek env s t s₀) (hend : t.isEnd = false)
    (hroomy : s₀.errors.isFull = false) (h : Gives (item room) env s₀ i s') (acc : Array Item) :
    Gives (itemStep room acc) env s (.yield (acc.push i)) s' := by
  unfold Gives at h ⊢
  rw [run_itemStep hpeek, hend, hroomy, if_neg (by decide), run_haltDeep, run_bind, run_recover, h]
  rfl

end Steps

/-! ## Items before a cut -/

section Cut

variable {P : Passage} {s s' z : State} {room : Nat} {acc out : Array Item} {y : Scan}
  {ys : List Scan}

/-- Where the one stream has ended, what comes instead of the end is left of the other. -/
theorem at_cut (hbeyond : P.beyond = some ys) (hs : P.Alike s z) (hinput : s.input = []) :
    z.ahead = none ∧ z.pending = ys := by
  have hviews := hs.views
  have hproper {t : Token} (hahead : s.ahead = some t) : t.isEnd = true := by
    by_contra hend
    simp [State.input, hahead, hend] at hinput
  generalize hahead : s.ahead = ahead, hpending : s.pending = pending, z.ahead = ahead',
    z.pending = pending' at hviews
  cases hviews with
  | last _ _ hnone => rw [hbeyond] at hnone; cases hnone
  | looked _ hend _ => rw [hproper hahead] at hend; cases hend
  | fresh htracks =>
    cases htracks with
    | last hnone => rw [hbeyond] at hnone; cases hnone
    | @next x _ xs _ _ _ hend _ => simp [State.input, hahead, hpending, Scan.tokens, hend] at hinput
    | cut hsome _ =>
      rw [hbeyond] at hsome
      exact ⟨rfl, (Option.some.inj hsome).symm⟩

/-- What comes first in a stream is shown. -/
theorem peek_pending {env : Setting} (hahead : s.ahead = none) (hpending : s.pending = y :: ys)
    (hshared : s.faults = .shared) : ∃ s', Gives peek env s y.shown s' := by
  unfold Gives peek
  simp only [run_bind, run_get, hahead, run_pull, hpending, hshared]
  cases y <;> exact ⟨_, rfl⟩

/-- The other run comes with these items to where the one run has ended. -/
def ComesToCut (P : Passage) (room : Nat) (s z : State) (acc out : Array Item) : Prop :=
  ∃ s₁ z₁, P.Alike s₁ z₁ ∧ s₁.input = [] ∧ s₁.errors.errors = [] ∧
    s₁.errors.capacity = s.errors.capacity ∧
      iterate (itemStep room) acc P.env' z = iterate (itemStep room) out P.env' z₁

/-- An item is read in the other stream too. If it has looked at the end, then what comes instead of
the end has been looked at there, which makes no difference. -/
theorem itemStep_to_cut (hmove : P.move = id) (hbeyond : P.beyond = some (y :: ys))
    (h : Gives (itemStep room acc) P.env s (.yield out) s') (hclean : s.Clean s')
    (hs : P.Alike s z)
    (helse : s'.input = [] → out.toList.getLast?.any Item.isOpen = true →
      y.shown.kind ≠ .keyword .elseWord) :
    ∃ s₁ z₁, P.Alike s₁ z₁ ∧ s₁.Consumes [] s' ∧ (s₁ = s' ∨ s'.input = []) ∧
      iterate (itemStep room) acc P.env' z = iterate (itemStep room) out P.env' z₁ := by
  have progresses := progresses_itemStep (eats_item room)
  have hjoined (acc : Array Item) : joined P.move #[] acc = acc := by
    rw [joined, hmove, funext Item.moved_id]
    simp
  have hparallel : Parallel P.move {} (mapStep (joined P.move #[])) (itemStep room acc)
      (itemStep room (joined P.move #[] acc)) := parallel_itemStep #[] rfl rfl acc
  have hends := hparallel.follows hs ⟨List.forall_mem_nil _, Known.at_nothing s, by rintro ⟨⟩⟩
  rw [hjoined] at hends
  by_cases hhalted : s'.Halted
  · have hinput := hhalted.input_eq_nil
    rcases hs.peek with ⟨t, s₀, z₀, hpeek, hpeek', halike, -⟩ | ⟨-, t, s₀, hpeek, hend⟩
    · obtain ⟨t', s₀', x, hpeek₀, hend, hroomy, hx, rfl⟩ := itemStep_goes h
      obtain ⟨rfl, rfl⟩ := hpeek.unique hpeek₀
      rcases recover_gives hx with ⟨i, rfl, hitem⟩ | ⟨rfl, -⟩
      · obtain ⟨hopen, s₁, z₁, halike₁, hc, hread⟩ := item_strays halike hitem hhalted
        obtain ⟨hahead, hpending⟩ := at_cut hbeyond halike₁ (hc.input.trans hinput)
        obtain ⟨z₂, hshown⟩ : ∃ z₂, Gives peek P.env' z₁ y.shown z₂ :=
          peek_pending hahead hpending halike₁.shared'
        have hread := hread y.shown z₂ hshown (helse hinput (by simpa using hopen))
        rw [hmove, Item.moved_id] at hread
        have hstep := gives_itemStep hpeek' hend (halike.isFull_eq.trans hroomy) hread acc
        refine ⟨s₁, z₁, halike₁, hc, .inr hinput, ?_⟩
        rw [iterate_eq progresses, hstep]
        exact iterate_of_peek hshown
      · exact absurd hclean.silent (errors_ne_nil_of_recover_none (steady_item room)
          steady_skipItem (.pure false) ((peek_gives hpeek).1.candid hclean.candid) hx)
    · obtain ⟨t', s₀', -, hpeek₀, hproper, -⟩ := itemStep_goes h
      obtain ⟨rfl, -⟩ := hpeek.unique hpeek₀
      rw [hproper] at hend
      cases hend
  · obtain ⟨z₁, hstep, halike⟩ := gives_of_ends h hends hhalted
    rw [mapStep, hjoined] at hstep
    refine ⟨s', z₁, halike, .refl s', .inl rfl, ?_⟩
    rw [iterate_eq progresses, hstep]

/-- **The items before the cut are read in the other stream too,** up to a state where what comes
instead of the end is still to be looked at. -/
theorem iterate_to_cut (hmove : P.move = id) (hbeyond : P.beyond = some (y :: ys))
    (h : Gives (iterate (itemStep room) acc) P.env s out s') (hclean : s.Clean s')
    (hs : P.Alike s z)
    (helse : out.toList.getLast?.any Item.isOpen = true → y.shown.kind ≠ .keyword .elseWord) :
    ComesToCut P room s z acc out := by
  -- behind the last item there is no item more
  have hmotive : s.Leads s' ∧ (s.input = [] → out = acc) ∧ (s.Clean s' →
      (out.toList.getLast?.any Item.isOpen = true → y.shown.kind ≠ .keyword .elseWord) →
        ∀ z, P.Alike s z → ComesToCut P room s z acc out) := by
    refine iterate_induction (progresses_itemStep (eats_item room)) (motive := fun acc s out s' =>
      s.Leads s' ∧ (s.input = [] → out = acc) ∧ (s.Clean s' →
        (out.toList.getLast?.any Item.isOpen = true → y.shown.kind ≠ .keyword .elseWord) →
          ∀ z, P.Alike s z → ComesToCut P room s z acc out)) ?_ ?_ h
    · intro acc s out s' hstep
      obtain ⟨rfl, hl, hdone⟩ := itemStep_done hstep
      refine ⟨hl, fun _ => rfl, fun clean _ z hs => ?_⟩
      obtain ⟨hc, hinput⟩ := hdone clean
      exact ⟨s, z, hs, hc.input_eq ▸ hinput, hl.errors_eq_nil clean.silent, rfl, rfl⟩
    · intro acc s acc₁ s₁ out s' hstep ih
      obtain ⟨hl, hlast, ih⟩ := ih
      obtain ⟨hmore, hl₁⟩ : s.input ≠ [] ∧ s.Leads s₁ := by
        rcases itemStep_gives hstep with ⟨hr, -⟩ | ⟨hr, -⟩ | ⟨x, s₀, hmore, hc, hx, -⟩
        · cases hr
        · cases hr
        · have steady : Steady [] (recover (item room) skipItem (pure false)) :=
            steady_recover (steady_item room) steady_skipItem (.pure false)
          exact ⟨hmore, .trans ⟨[], hc⟩ (steady.leads hx)⟩
      refine ⟨hl₁.trans hl, fun hinput => ?_, fun clean helse z hs => ?_⟩
      · exact absurd hinput hmore
      · obtain ⟨s₂, z₂, halike, hc, hwhere, hsame⟩ := itemStep_to_cut hmove hbeyond hstep
          (clean.until hl) hs fun hinput hopen => helse (hlast hinput ▸ hopen)
        rcases hwhere with rfl | hinput
        · obtain ⟨s₃, z₃, halike₃, hinput, hsilent, hcapacity, hrest⟩ :=
            ih (clean.since hl₁) helse z₂ halike
          obtain ⟨ts, hc₁⟩ := hl₁
          exact ⟨s₃, z₃, halike₃, hinput, hsilent, hcapacity.trans hc₁.capacity, hsame.trans hrest⟩
        · obtain rfl := hlast hinput
          obtain ⟨ts, hc₁⟩ := hl₁
          exact ⟨s₂, z₂, halike, hc.input.trans hinput,
            hc.errors_eq_nil (hl.errors_eq_nil clean.silent), hc.capacity.symm.trans hc₁.capacity,
            hsame⟩
  exact hmotive.2.2 hclean helse z hs

end Cut

end Parser

/-! ## Texts -/

namespace Passage

/-- The first tokens track each other. -/
theorem tracks_append {P : Passage} {e : Token} {ys : List Scan} (hmove : P.move = id)
    (hbeyond : P.beyond = some ys) (hend : e.isEnd = true) (xs : List Scan)
    (hfits : ∀ x ∈ xs, P.Fits x.shown) (hproper : ∀ x ∈ xs, x.shown.isEnd = false) :
    P.Tracks (xs ++ [.token e]) (xs ++ ys) := by
  induction xs with
  | nil => exact .cut hbeyond hend
  | cons x xs ih =>
    obtain ⟨hx, hxs⟩ := List.forall_mem_cons.1 hfits
    obtain ⟨hxend, hxsend⟩ := List.forall_mem_cons.1 hproper
    exact .next (hmove ▸ x.moves_id) hx hxend (ih hxs hxsend)

variable (before text file : String) (o : Options)

/-- The stream of a text, inside that of the text with another one behind it. -/
def atop (ys : List Scan) : Passage where
  env := settingOf before file o
  env' := settingOf (before ++ "\n" ++ text) file o
  move := id
  before := 0
  beyond := some ys
  Fits t := t.place.line ≤ linesOf before
  maxDepth_eq := rfl
  line_eq _ ht := Source.line?_before file before text _ ht

/-- The stream of a text, inside that of the text with another one before it. -/
def behind (consumed : Nat) : Passage where
  env := settingOf text file o
  env' := settingOf (before ++ "\n" ++ text) file o
  move := .shift (linesOf before) (before.length + 1)
  before := consumed
  beyond := none
  Fits t := 1 ≤ t.place.line
  maxDepth_eq := rfl
  line_eq _ ht := Source.line?_behind file before text _ ht

variable {before text file o}

theorem alike_atop {xs ys : List Scan} {e : Token} (hend : e.isEnd = true)
    (hbefore : scansOf before file = xs ++ [.token e])
    (hboth : scansOf (before ++ "\n" ++ text) file = xs ++ ys) (n : Int) :
    (atop before text file o ys).Alike (startOf before file n)
      (startOf (before ++ "\n" ++ text) file n) where
  views := by
    obtain ⟨xs', e', hscan, -, hspelled⟩ := scanFrom_eq (.ofText file before) .start before.toList
    obtain ⟨rfl, -⟩ := List.append_inj' (hscan.symm.trans hbefore) rfl
    refine .fresh ?_
    show (atop before text file o ys).Tracks (scansOf before file)
      (scansOf (before ++ "\n" ++ text) file)
    rw [hbefore, hboth]
    refine tracks_append rfl rfl hend xs' (fun x hx => ?_) fun x hx => (hspelled x hx).isEnd_shown
    have hline := line_of_mem_scanFrom (hscan ▸ List.mem_append_left _ hx :
      x ∈ scanFrom (.ofText file before) .start before.toList)
    show x.shown.place.line ≤ (linesOf before : Int)
    have hlast := hline.2
    unfold linesOf
    rw [show Position.start.line = 1 from rfl] at hlast
    omega
  previous _ h := by cases h
  consumed := rfl
  errors := .nil
  capacity := rfl
  shared := rfl
  shared' := rfl
  sited := sited_startOf before file n

theorem alike_behind {z : State} {n : Int} (hahead : z.ahead = none)
    (hscans : List.Forall₂ (Scan.Moves (.shift (linesOf before) (before.length + 1)))
      (scansOf text file) z.pending)
    (herrors : z.errors.errors = []) (hcapacity : z.errors.capacity = n)
    (hshared : z.faults = .shared) :
    (behind before text file o z.consumed).Alike (startOf text file n) z where
  views := by
    obtain ⟨xs, e, hscan, hend, -⟩ := scanFrom_eq (.ofText file text) .start text.toList
    rw [hahead]
    refine .fresh (tracks_of_forall₂ rfl hscans (fun x hx => ?_) ⟨.token e, ?_, hend⟩)
    · exact (line_of_mem_scanFrom hx).1
    · show Scan.token e ∈ scanFrom (.ofText file text) .start text.toList
      rw [hscan]
      exact List.mem_append_right xs (List.mem_singleton_self _)
  previous _ h := by cases h
  consumed := rfl
  errors := herrors ▸ .nil
  capacity := hcapacity
  shared := rfl
  shared' := hshared
  sited := sited_startOf text file n

end Passage

/-- A parse gives the items of one parse, and behind them the items and diagnostics of the other, at
the places where the second text is when it stands on the lines behind the first. -/
structure Parsed.Follows (before : String) (first second both : Parsed) : Prop where
  items : both.program.items = first.program.items ++
    second.program.items.map (Item.moved (.shift (linesOf before) (before.length + 1)))
  diagnostics : List.Forall₂ (Diagnostic.Moves (.shift (linesOf before) (before.length + 1)))
    second.diagnostics both.diagnostics

section Texts

variable {before text file : String} {o : Options} {first : Parsed}

/-- The items of a text that is accepted are read where another text stands behind it, and then the
rest is read as that text is alone. -/
theorem program_append (h : parse before file o = .ok first) (hclean : first.diagnostics = [])
    (helse : first.program.items.getLast?.any Item.isOpen = true →
      firstKind (Scan.tokens (scansOf text file)) ≠ .keyword .elseWord) :
    ∃ consumed, Parser.SameOutcome (.behind before text file o consumed) first.program.items.toArray
      (Parser.program (settingOf text file o) (startOf text file o.maxErrors))
      (Parser.program (settingOf (before ++ "\n" ++ text) file o)
        (startOf (before ++ "\n" ++ text) file o.maxErrors)) := by
  obtain ⟨s, hscans, hdiagnostics⟩ := parseScans_of_parse h
  have hsilent : s.errors.errors = [] :=
    Collector.sorted_eq_nil_iff.1 (hdiagnostics.symm.trans hclean)
  obtain ⟨hfaults, -⟩ := parse_eq_ok_iff.1 ⟨first, h, hclean, rfl⟩
  obtain ⟨xs, e, ys, hend, hbefore, hboth, hmoves⟩ := scan_behind hfaults text
  obtain ⟨acc, s₁, t, hacc, hc, -, hitems, -⟩ :=
    Parser.program_gives (parseScans_eq_ok_iff.1 hscans)
  -- the other run looks at the first token of the second text instead of the end of the first
  obtain ⟨y, ys, rfl, hkind⟩ : ∃ y ys', ys = y :: ys' ∧
      y.shown.kind = firstKind (Scan.tokens (scansOf text file)) := by
    obtain ⟨us, u, hscan, -⟩ := scanFrom_eq (.ofText file text) .start text.toList
    generalize hxs : scansOf text file = zs at hmoves
    cases hmoves with
    | nil =>
      have hnil : us ++ [.token u] = [] := hscan.symm.trans hxs
      exact absurd hnil (List.concat_ne_nil _ _)
    | @cons x y zs ys hxy _ =>
      refine ⟨y, ys, rfl, ?_⟩
      rw [hxy.shown]
      rfl
  obtain ⟨s₂, z, halike, hinput, hnothing, hcapacity, hrest⟩ := Parser.iterate_to_cut rfl rfl hacc
    ⟨candid_startOf o.one_le_maxErrors, hc.errors_eq_nil hsilent⟩
    (Passage.alike_atop hend hbefore hboth o.maxErrors)
    fun hopen => hkind ▸ helse (hitems ▸ hopen)
  obtain ⟨hahead, hpending⟩ := Parser.at_cut rfl halike hinput
  have hnothing' : z.errors.errors = [] := by
    have herrors := halike.errors
    rw [hnothing] at herrors
    exact List.forall₂_nil_left_iff.1 herrors
  have hbehind := Passage.alike_behind (o := o) hahead (hpending ▸ hmoves) hnothing'
    (halike.capacity.trans hcapacity) halike.shared'
  have houtcome := Parser.programFrom_follows rfl hbehind acc
  have hwhole : Parser.program (settingOf (before ++ "\n" ++ text) file o)
      (startOf (before ++ "\n" ++ text) file o.maxErrors) =
        Parser.programFrom acc (settingOf (before ++ "\n" ++ text) file o) z := by
    have hrest : Parser.iterate (Parser.itemStep (settingOf (before ++ "\n" ++ text) file o).room)
        #[] (settingOf (before ++ "\n" ++ text) file o)
        (startOf (before ++ "\n" ++ text) file o.maxErrors) = _ := hrest
    show Parser.programFrom #[] _ _ = _
    rw [Parser.run_programFrom, Parser.run_programFrom, Parser.run_bind, Parser.run_bind, hrest]
    rfl
  have hitems' : acc = first.program.items.toArray := by rw [hitems]
  rw [hwhole, ← hitems']
  exact ⟨z.consumed, houtcome⟩

theorem shift_offset_le_iff (lines offset : Nat) (l m : Location) :
    (l.shift lines offset).offset ≤ (m.shift lines offset).offset ↔ l.offset ≤ m.offset := by
  simp only [Location.shift]
  omega

/-- **Parsing is compositional:** behind a text that is accepted, another text is parsed as it is
alone, unless the first ends with an `if` and the second starts with an `else`. -/
theorem parse_append (h : parse before file o = .ok first) (hclean : first.diagnostics = [])
    (helse : first.program.items.getLast?.any Item.isOpen = true →
      firstKind (Scan.tokens (scansOf text file)) ≠ .keyword .elseWord) :
    (∀ second, parse text file o = .ok second → ∃ both,
      parse (before ++ "\n" ++ text) file o = .ok both ∧ first.Follows before second both) ∧
    ∀ why, parse text file o = .error why →
      parse (before ++ "\n" ++ text) file o = .error why := by
  obtain ⟨consumed, houtcome⟩ := program_append h hclean helse
  rw [parse_eq, parse_eq]
  generalize Parser.program (settingOf text file o) (startOf text file o.maxErrors) = x,
    Parser.program (settingOf (before ++ "\n" ++ text) file o)
      (startOf (before ++ "\n" ++ text) file o.maxErrors) = x' at houtcome
  cases houtcome with
  | ok hitems herrors =>
    refine ⟨?_, nofun⟩
    rintro _ ⟨⟩
    exact ⟨_, rfl, hitems, Collector.sorted_moves (shift_offset_le_iff _ _) herrors⟩
  | hugeLength =>
    refine ⟨nofun, ?_⟩
    rintro _ ⟨⟩
    rfl

/-- A call that is not closed, behind an `if` that an `else` could have followed. -/
theorem parse_append_unclosed : ∃ first second both, parse "if a \x7b\x7d" "m.arc" {} = .ok first ∧
    first.program.items.map Item.isOpen = [true] ∧ parse "f(b;" "m.arc" {} = .ok second ∧
      second.diagnostics.length = 1 ∧ parse "if a \x7b\x7d\nf(b;" "m.arc" {} = .ok both ∧
        first.Follows "if a \x7b\x7d" second both := by
  have hfirst : (parse "if a \x7b\x7d" "m.arc" {}).toOption.map
      (fun r => (r.diagnostics.length, r.program.items.map Item.isOpen)) = some (0, [true]) := by
    decide +kernel
  have hsecond : (parse "f(b;" "m.arc" {}).toOption.map (fun r => r.diagnostics.length) =
      some 1 := by
    decide +kernel
  have hname : firstKind (Scan.tokens (scansOf "f(b;" "m.arc")) ≠ .keyword .elseWord := by
    decide +kernel
  have hboth : "if a \x7b\x7d" ++ "\n" ++ "f(b;" = "if a \x7b\x7d\nf(b;" := by decide +kernel
  obtain ⟨first, hf, hseen⟩ := exists_of_map_toOption hfirst
  obtain ⟨hclean, hopen⟩ := Prod.mk.inj hseen
  obtain ⟨second, hs, hone⟩ := exists_of_map_toOption hsecond
  obtain ⟨both, hparse, hfollows⟩ :=
    (parse_append hf (List.length_eq_zero_iff.1 hclean) fun _ => hname).1 second hs
  exact ⟨first, second, both, hf, hopen, hs, hone, hboth ▸ hparse, hfollows⟩

end Texts

end ArcLang
