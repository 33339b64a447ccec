import ArcLang.Proofs.Entries
import ArcLang.Proofs.Signatures

/-!
# Listings are faithful

A printer goes through a tree and puts its level up and down on the way. What it writes is the text
of a forest that is built along the tree, and behind each node the level is what it was. The forest
can be read back from the text, and the tree from the forest. All of this is so where there are
frames enough; a printer that overflows stays at the level at which it did.

* `Printer.frames`: the frames that printing takes.
* `Printer.takes_visit`: what a printer writes.
* `Item.eq_of_entry`: a definition or a statement is known from its entry, up to spans.
* `print_eq_iff_sameShape`: the statement about programs.
* `not_printed_sum`: an accepted program that the stack is too small for.
-/

namespace ArcLang

/-! ## Trees as forests -/

mutual

/-- The entry of a statement. -/
def Stmt.entry : Stmt → Entry
  | .breakLoop _ => .mk .breakLoop none []
  | .ret _ value => .mk .ret (value.map fun e => e.phrase.words) []
  | .loop _ condition body => .mk .loop (some condition.phrase.words) body.entries
  | .branch _ condition consequent none =>
    .mk .branch (some condition.phrase.words) [.mk .consequent none consequent.entries]
  | .branch _ condition consequent (some alternate) =>
    .mk .branch (some condition.phrase.words)
      [.mk .consequent none consequent.entries, .mk .alternate none alternate.entries]
  | .expression _ expr => .mk .expression (some expr.phrase.words) []

/-- The entries of a body. -/
def Block.entries : Block → List Entry
  | .mk _ statements => Stmt.entryEach statements

/-- The entries of the statements of a list. -/
def Stmt.entryEach : List Stmt → List Entry
  | [] => []
  | s :: more => s.entry :: Stmt.entryEach more

end

/-- The entry of a field. -/
def Binding.entry (b : Binding) : Entry := .mk .field (some b.signature) []

/-- The entry of a function. -/
def Function.entry (f : Function) : Entry := .mk .function (some f.signature) f.body.entries

/-- The entry of a struct. -/
def Struct.entry (s : Struct) : Entry := .mk .struct (some s.name) (s.fields.map Binding.entry)

/-- The entry of an item. -/
def Item.entry : Item → Entry
  | function f => f.entry
  | struct s => s.entry
  | statement s => s.entry

/-- The entry of a program. -/
def Program.entry (p : Program) : Entry := .mk .program none (p.items.map Item.entry)

/-- The entries of a node. What has no line of its own has none. -/
def Node.entries : Node → List Entry
  | program p => [p.entry]
  | function f => [f.entry]
  | struct s => [s.entry]
  | block b => b.entries
  | statement s => [s.entry]
  | parameter _ | field _ | expression _ | typeName _ => []

namespace Node

theorem flatMap_entries_items (is : List Item) :
    (is.map ofItem).flatMap entries = is.map Item.entry := by
  induction is with
  | nil => rfl
  | cons i is ih =>
    rw [List.map_cons, List.flatMap_cons, ih]
    cases i <;> rfl

theorem flatMap_entries_statements (ss : List Stmt) :
    (ss.map statement).flatMap entries = Stmt.entryEach ss := by
  induction ss with
  | nil => rfl
  | cons s ss ih =>
    rw [List.map_cons, List.flatMap_cons, ih]
    rfl

/-- The node opens a line of its own. -/
def opensLine : Node → Bool
  | program _ | function _ | struct _ | statement _ => true
  | block _ | parameter _ | field _ | expression _ | typeName _ => false

/-- What opens no line has the entries of its children. -/
theorem flatMap_entries_children {n : Node} (h : n.opensLine = false) :
    n.children.flatMap entries = n.entries := by
  cases n with
  | program | function | struct | statement => cases h
  | block b =>
    obtain ⟨span, statements⟩ := b
    exact flatMap_entries_statements statements
  | parameter | field => rfl
  | expression e =>
    rw [List.flatMap_eq_nil_iff.2]
    · rfl
    · exact List.forall_mem_map.2 fun e _ => rfl
  | typeName t => cases t <;> rfl

end Node

/-! ## What is printed -/

namespace Printer

/-- The printer with more lines written. -/
def writes (rows : List Row) (p : Printer) : Printer :=
  { p with output := p.output ++ (rows.map Row.line).toArray }

theorem level_writes (rows : List Row) (p : Printer) : (p.writes rows).level = p.level := rfl

theorem writes_nil (p : Printer) : p.writes [] = p := by
  unfold writes
  rw [List.map_nil, Array.append_empty]

theorem writes_writes (rows more : List Row) (p : Printer) :
    (p.writes rows).writes more = p.writes (rows ++ more) := by
  unfold writes
  simp only [Array.append_assoc, List.append_toArray, List.map_append]

theorem emit_eq (p : Printer) (head : Head) (detail : Option String) :
    p.emit (head.text detail) = p.writes [⟨p.level.toNat, head, detail⟩] := by
  unfold emit writes
  rw [← Array.append_singleton]
  rfl

/-- What is written one level deeper. -/
theorem deeper_writes_shallower (rows : List Row) (p : Printer) :
    (p.deeper.writes rows).shallower = p.writes rows :=
  congrArg (Printer.mk _) (Int.add_sub_cancel p.level 1)

/-- Entries written at the level. -/
def lists (es : List Entry) (p : Printer) : Printer := p.writes (Entry.rowsEach p.level.toNat es)

theorem lists_nil (p : Printer) : p.lists [] = p := p.writes_nil

theorem lists_lists (es more : List Entry) (p : Printer) :
    (p.lists es).lists more = p.lists (es ++ more) := by
  unfold lists
  rw [writes_writes, level_writes, Entry.rowsEach_append]

/-- A line, and entries nested in it. -/
theorem emit_nested {p : Printer} (hp : 0 ≤ p.level) (head : Head) (detail : Option String)
    (nested : List Entry) : ((p.emit (head.text detail)).deeper.lists nested).shallower =
      p.lists [.mk head detail nested] := by
  have hlevel : (p.level + 1).toNat = p.level.toNat + 1 := by omega
  rw [emit_eq, lists, deeper_writes_shallower, writes_writes, lists, Entry.rowsEach_singleton,
    Entry.rows]
  show p.writes (_ :: Entry.rowsEach (p.level + 1).toNat nested) = _
  rw [hlevel]

/-- A line with nothing nested in it. -/
theorem emit_lists (p : Printer) (head : Head) (detail : Option String) :
    p.emit (head.text detail) = p.lists [.mk head detail []] := p.emit_eq head detail

theorem foldl_lists {α : Type} (es : α → List Entry) (as : List α) (p : Printer) :
    as.foldl (fun p a => p.lists (es a)) p = p.lists (as.flatMap es) := by
  induction as generalizing p with
  | nil => exact p.lists_nil.symm
  | cons a as ih => rw [List.foldl_cons, ih, lists_lists, List.flatMap_cons]

/-- The frames that printing takes: two for each node, one more for what is nested, and what takes
the words and the signatures in the lines. -/
def frames (n : Node) : Nat :=
  match n with
  | .function f => max f.formatFrames (frames (.block f.body) + 1) + 2
  | .struct s => Walk.most (fun b => b.type.frames) s.fields + 2
  | .statement (.breakLoop _) | .statement (.ret _ none) => 2
  | .statement (.ret _ (some value)) => value.frames + 2
  | .statement (.loop _ condition body) => max condition.frames (frames (.block body) + 1) + 2
  | .statement (.branch _ condition consequent none) =>
    max condition.frames (frames (.block consequent) + 1) + 2
  | .statement (.branch _ condition consequent (some alternate)) =>
    max condition.frames (max (frames (.block consequent) + 1) (frames (.block alternate) + 1)) + 2
  | .statement (.expression _ expr) => expr.frames + 2
  | n => Walk.most (fun ⟨c, _⟩ => frames c) n.children.attach + 2
termination_by sizeOf n
decreasing_by
  · exact Node.sizeOf_lt_of_mem_children (List.mem_append_right _ (List.mem_singleton_self _))
  · exact Node.sizeOf_lt_of_mem_children (List.mem_cons_of_mem _ List.mem_cons_self)
  · exact Node.sizeOf_lt_of_mem_children (List.mem_cons_of_mem _ List.mem_cons_self)
  · exact Node.sizeOf_lt_of_mem_children (List.mem_cons_of_mem _ List.mem_cons_self)
  · exact Node.sizeOf_lt_of_mem_children
      (List.mem_cons_of_mem _ (List.mem_cons_of_mem _ List.mem_cons_self))
  · exact Node.sizeOf_lt_of_mem_children ‹_›

/-- What has no line of its own takes what its children take, and so does a program. -/
theorem frames_of_children {n : Node} (h : n.opensLine = false ∨ ∃ q, n = .program q) :
    frames n = Walk.most frames n.children + 2 := by
  rw [frames.eq_def]
  rcases h with h | ⟨q, rfl⟩
  · split
    all_goals first | cases h | skip
    rw [Walk.most_attach frames]
  · dsimp only
    rw [Walk.most_attach frames]

open Walk (Takes)

theorem takes_nested {w : Walk Printer Unit} {p p' : Printer} {k : Nat}
    (h : Takes w p.deeper k () p') : Takes (nested w) p k () p'.shallower :=
  .after (h.andModify shallower)

/-- **A walk through nodes one after the other** writes what it writes at each of them. -/
theorem takes_forEach_visit {ns : List Node} {p : Printer} (hp : 0 ≤ p.level)
    (h : ∀ n ∈ ns, ∀ p : Printer, 0 ≤ p.level →
      Takes (visit n) p (frames n) () (p.lists n.entries)) :
    Takes (Walk.forEach visit ns) p (Walk.most frames ns) ()
      (p.lists (ns.flatMap Node.entries)) := by
  rw [← foldl_lists]
  exact Walk.takes_forEach (P := fun p => 0 ≤ p.level) (fun n hn p hp => ⟨h n hn p hp, hp⟩) hp

theorem takes_forEach_field (bs : List Binding) (p : Printer) :
    Takes (Walk.forEach field bs) p (Walk.most (fun b => b.type.frames) bs) ()
      (p.lists (bs.map Binding.entry)) := by
  have hfield (b : Binding) (p : Printer) :
      Takes (field b) p b.type.frames () (p.lists [b.entry]) :=
    (b.takes_format.modifyWith _).of_eq rfl (p.emit_lists .field (some b.signature))
  rw [List.map_eq_flatMap, ← foldl_lists]
  exact Walk.takes_forEach (P := fun _ => True) (fun b _ p _ => ⟨hfield b p, trivial⟩) trivial

/-- **What a printer writes:** the lines of the node's entries, from its level on; and behind them
the level is what it was. -/
theorem takes_visit {n : Node} {p : Printer} (hp : 0 ≤ p.level) :
    Takes (visit n) p (frames n) () (p.lists n.entries) := by
  induction hn : sizeOf n using Nat.strongRecOn generalizing n p with
  | ind size ih =>
    have hchild {c : Node} (hc : c ∈ n.children) (p : Printer) (hp : 0 ≤ p.level) :
        Takes (visit c) p (frames c) () (p.lists c.entries) :=
      ih (sizeOf c) (hn ▸ Node.sizeOf_lt_of_mem_children hc) hp rfl
    have hdeeper {p : Printer} (hp : 0 ≤ p.level) (head : Head) (detail : Option String) :
        0 ≤ (p.emit (head.text detail)).deeper.level := by
      show 0 ≤ p.level + 1
      omega
    have hbody (head : Head) (detail : Option String) {b : Block} (hb : .block b ∈ n.children)
        {p : Printer} (hp : 0 ≤ p.level) :
        Takes (Walk.call (nested (visit (.block b)))) (p.emit (head.text detail))
          (frames (.block b) + 1) () (p.lists [.mk head detail b.entries]) := by
      have hvisit := hchild hb _ (hdeeper hp head detail)
      exact (takes_nested hvisit).call.of_eq rfl (emit_nested hp head detail b.entries)
    cases n with
    | program q =>
      rw [visit.eq_def, frames_of_children (.inr ⟨q, rfl⟩)]
      dsimp only
      rw [Walk.forEach_attach]
      have hitems := takes_forEach_visit (hdeeper hp .program none) fun c hc => hchild hc
      refine (Takes.after (takes_nested hitems)).call.call.of_eq rfl ?_
      exact (congrArg shallower (congrArg (lists · _)
        (Node.flatMap_entries_items q.items))).trans (emit_nested hp .program none _)
    | function f =>
      rw [visit.eq_def, frames.eq_def]
      have hbody := hbody .function (some f.signature)
        (List.mem_append_right _ (List.mem_singleton_self _)) hp
      exact (f.takes_format.bind (.after hbody)).call.call
    | struct s =>
      rw [visit.eq_def, frames.eq_def]
      have hfields := takes_forEach_field s.fields
        (p.emit (Head.struct.text (some s.name))).deeper
      exact (Takes.after (takes_nested hfields)).call.call.of_eq rfl
        (emit_nested hp .struct (some s.name) (s.fields.map Binding.entry))
    | statement s =>
      rw [visit.eq_def, frames.eq_def]
      rcases s with _ | ⟨_, _ | value⟩ | ⟨_, condition, body⟩ |
        ⟨_, condition, consequent, _ | alternate⟩ | ⟨_, e⟩
      · exact (Walk.takes_modify _ p).call.call.of_eq rfl (p.emit_lists .breakLoop none)
      · exact (Walk.takes_modify _ p).call.call.of_eq rfl (p.emit_lists .ret none)
      · exact (value.takes_describe.modifyWith _).call.call.of_eq rfl
          (p.emit_lists .ret (some value.phrase.words))
      · have hbody := hbody .loop (some condition.phrase.words)
          (List.mem_cons_of_mem _ List.mem_cons_self) hp
        exact (condition.takes_describe.bind (.after hbody)).call.call
      · have hif := hdeeper hp .branch (some condition.phrase.words)
        have hthen := hbody .consequent none (List.mem_cons_of_mem _ List.mem_cons_self) hif
        exact (condition.takes_describe.bind (.after (takes_nested (.after hthen)))).call.call.of_eq
          rfl (emit_nested hp .branch _ _)
      · have hif := hdeeper hp .branch (some condition.phrase.words)
        have hthen := hbody .consequent none (List.mem_cons_of_mem _ List.mem_cons_self) hif
        have hboth : 0 ≤ (lists [.mk .consequent none consequent.entries]
          (p.emit (Head.branch.text (some condition.phrase.words))).deeper).level := hif
        have helse := hbody .alternate none (b := alternate) (List.mem_cons_of_mem _
          (List.mem_cons_of_mem _ List.mem_cons_self)) hboth
        rw [lists_lists] at helse
        exact (condition.takes_describe.bind
          (.after (takes_nested (.after (hthen.bind (.after helse)))))).call.call.of_eq rfl
            (emit_nested hp .branch _ _)
      · exact (e.takes_describe.modifyWith _).call.call.of_eq rfl
          (p.emit_lists .expression (some e.phrase.words))
    | block | parameter | field | expression | typeName =>
      rw [visit.eq_def, frames_of_children (.inl rfl)]
      dsimp only
      rw [Walk.forEach_attach, ← Node.flatMap_entries_children rfl]
      exact (takes_forEach_visit hp fun c hc => hchild hc).call.call

/-- **What printing comes to:** the text of the node's entries; and the printer is at the level of
no indentation again. -/
theorem takes_print (n : Node) (p : Printer) : Takes (print n) p (frames n)
    ("\n".intercalate ((Entry.rowsEach 0 n.entries).map Row.line))
    (lists n.entries { p with output := #[], level := 0 }) := by
  have hvisit := takes_visit (n := n) (p := { p with output := #[], level := 0 }) le_rfl
  have hprint : Takes (print n) p _ _ _ := .after (hvisit.bind ((Walk.takes_get _).map
    fun p : Printer => "\n".intercalate p.output.toList))
  rw [Nat.max_zero] at hprint
  have houtput : (lists n.entries { p with output := #[], level := 0 }).output.toList =
      (Entry.rowsEach 0 n.entries).map Row.line := by
    show (#[] ++ ((Entry.rowsEach 0 n.entries).map Row.line).toArray).toList = _
    rw [Array.empty_append]
  rw [houtput] at hprint
  exact hprint

end Printer

/-! ## Trees from forests -/

theorem Expr.eq_of_words {a b : Expr} (ha : (Node.expression a).Throughout Node.HasWords)
    (hb : (Node.expression b).Throughout Node.HasWords) (h : a.phrase.words = b.phrase.words) :
    a.erased = b.erased := by
  have htext : a.phrase.text = b.phrase.text := by
    rw [← Phrase.toList_words, h, Phrase.toList_words]
  rw [← Expr.ofPhrase_phrase a ha, ← Expr.ofPhrase_phrase b hb,
    Phrase.eq_of_text (a.isPlain_phrase ha) (b.isPlain_phrase hb) htext]

mutual

/-- **A statement is known from its entry,** up to spans. -/
theorem Stmt.eq_of_entry : (s t : Stmt) → (Node.statement s).Throughout Node.HasWords →
    (Node.statement t).Throughout Node.HasWords → s.entry = t.entry → s.erased = t.erased
  | .breakLoop _, t, _, _, h => by
    cases t with
    | breakLoop => rfl
    | branch _ _ _ alternate => cases alternate <;> cases h
    | _ => cases h
  | .ret _ none, t, _, _, h => by
    cases t with
    | ret _ value =>
      cases value with
      | none => rfl
      | some e => cases h
    | branch _ _ _ alternate => cases alternate <;> cases h
    | _ => cases h
  | .ret _ (some e), t, hs, ht, h => by
    cases t with
    | ret _ value =>
      cases value with
      | none => cases h
      | some e' =>
        obtain ⟨-, hdetail, -⟩ := Entry.mk.inj h
        have hvalue := Expr.eq_of_words (hs.child (List.mem_singleton_self _))
          (ht.child (List.mem_singleton_self _)) (Option.some.inj hdetail)
        rw [Stmt.erased, Stmt.erased, Option.map_some, Option.map_some, hvalue]
    | branch _ _ _ alternate => cases alternate <;> cases h
    | _ => cases h
  | .loop _ condition body, t, hs, ht, h => by
    cases t with
    | loop _ condition' body' =>
      obtain ⟨-, hdetail, hnested⟩ := Entry.mk.inj h
      have hcondition := Expr.eq_of_words (hs.child List.mem_cons_self)
        (ht.child List.mem_cons_self) (Option.some.inj hdetail)
      have hbody := Block.eq_of_entries body body' (hs.child (.tail _ List.mem_cons_self))
        (ht.child (.tail _ List.mem_cons_self)) hnested
      rw [Stmt.erased, Stmt.erased, hcondition, hbody]
    | branch _ _ _ alternate => cases alternate <;> cases h
    | _ => cases h
  | .branch _ condition consequent none, t, hs, ht, h => by
    cases t with
    | branch _ condition' consequent' alternate =>
      cases alternate with
      | some _ => cases (List.cons.inj (Entry.mk.inj h).2.2).2
      | none =>
        obtain ⟨-, hdetail, hnested⟩ := Entry.mk.inj h
        have hcondition := Expr.eq_of_words (hs.child List.mem_cons_self)
          (ht.child List.mem_cons_self) (Option.some.inj hdetail)
        have hthen := Block.eq_of_entries consequent consequent'
          (hs.child (.tail _ List.mem_cons_self)) (ht.child (.tail _ List.mem_cons_self))
          (Entry.mk.inj (List.cons.inj hnested).1).2.2
        rw [Stmt.erased, Stmt.erased, hcondition, hthen]
    | _ => cases h
  | .branch _ condition consequent (some alternate), t, hs, ht, h => by
    cases t with
    | branch _ condition' consequent' alternate' =>
      cases alternate' with
      | none => cases (List.cons.inj (Entry.mk.inj h).2.2).2
      | some alternate' =>
        obtain ⟨-, hdetail, hnested⟩ := Entry.mk.inj h
        obtain ⟨hthen, helse⟩ := List.cons.inj hnested
        have hcondition := Expr.eq_of_words (hs.child List.mem_cons_self)
          (ht.child List.mem_cons_self) (Option.some.inj hdetail)
        have hthen := Block.eq_of_entries consequent consequent'
          (hs.child (.tail _ List.mem_cons_self)) (ht.child (.tail _ List.mem_cons_self))
          (Entry.mk.inj hthen).2.2
        have helse := Block.eq_of_entries alternate alternate'
          (hs.child (.tail _ (.tail _ List.mem_cons_self)))
          (ht.child (.tail _ (.tail _ List.mem_cons_self)))
          (Entry.mk.inj (List.cons.inj helse).1).2.2
        rw [Stmt.erased, Stmt.erased, hcondition, hthen, helse]
    | _ => cases h
  | .expression _ e, t, hs, ht, h => by
    cases t with
    | expression _ e' =>
      obtain ⟨-, hdetail, -⟩ := Entry.mk.inj h
      have hexpr := Expr.eq_of_words (hs.child (List.mem_singleton_self _))
        (ht.child (List.mem_singleton_self _)) (Option.some.inj hdetail)
      rw [Stmt.erased, Stmt.erased, hexpr]
    | branch _ _ _ alternate => cases alternate <;> cases h
    | _ => cases h

theorem Block.eq_of_entries : (b c : Block) → (Node.block b).Throughout Node.HasWords →
    (Node.block c).Throughout Node.HasWords → b.entries = c.entries → b.erased = c.erased
  | .mk _ ss, .mk _ ts, hs, ht, h => by
    rw [Block.erased, Block.erased, Stmt.eq_of_entryEach ss ts
      (fun s hss => hs.child (List.mem_map_of_mem hss))
      (fun t htt => ht.child (List.mem_map_of_mem htt)) h]

theorem Stmt.eq_of_entryEach : (ss ts : List Stmt) →
    (∀ s ∈ ss, (Node.statement s).Throughout Node.HasWords) →
    (∀ t ∈ ts, (Node.statement t).Throughout Node.HasWords) →
    Stmt.entryEach ss = Stmt.entryEach ts → Stmt.erasedEach ss = Stmt.erasedEach ts
  | [], [], _, _, _ => rfl
  | [], _ :: _, _, _, h => by cases h
  | _ :: _, [], _, _, h => by cases h
  | s :: ss, t :: ts, hs, ht, h => by
    obtain ⟨hs, hss⟩ := List.forall_mem_cons.1 hs
    obtain ⟨ht, hts⟩ := List.forall_mem_cons.1 ht
    obtain ⟨hfirst, hmore⟩ := List.cons.inj h
    rw [Stmt.erasedEach, Stmt.erasedEach, Stmt.eq_of_entry s t hs ht hfirst,
      Stmt.eq_of_entryEach ss ts hss hts hmore]

end

theorem Binding.eq_of_entry {a b : Binding} (ha : a.HasWords) (hb : b.HasWords)
    (h : a.entry = b.entry) : a.erased = b.erased := by
  have hsignature : a.signature = b.signature := Option.some.inj (Entry.mk.inj h).2.1
  exact (eq_of_signature_append (r := []) (s := []) ha hb nofun nofun (by rw [hsignature])).1

/-- What each member tells of itself, a list of members tells of all of them. -/
theorem map_eq_of_map_eq {α β γ : Type} {f : α → β} {g : α → γ} {as bs : List α}
    (h : ∀ a ∈ as, ∀ b ∈ bs, f a = f b → g a = g b) (hmap : as.map f = bs.map f) :
    as.map g = bs.map g := by
  induction as generalizing bs with
  | nil =>
    rw [List.map_nil] at hmap
    rw [List.map_eq_nil_iff.1 hmap.symm]
  | cons a as ih =>
    cases bs with
    | nil => cases hmap
    | cons b bs =>
      obtain ⟨hfirst, hmore⟩ := List.cons.inj hmap
      rw [List.map_cons, List.map_cons, h a List.mem_cons_self b List.mem_cons_self hfirst,
        ih (fun a ha b hb => h a (List.mem_cons_of_mem _ ha) b (List.mem_cons_of_mem _ hb)) hmore]

theorem Function.eq_of_entry {f g : Function} (hf : (Node.function f).Throughout Node.HasWords)
    (hg : (Node.function g).Throughout Node.HasWords) (h : f.entry = g.entry) :
    f.erased = g.erased := by
  have hbody {f : Function} : .block f.body ∈ (Node.function f).children :=
    List.mem_append_right _ (List.mem_singleton_self _)
  obtain ⟨-, hdetail, hnested⟩ := Entry.mk.inj h
  obtain ⟨hname, hparameters, hresult⟩ :=
    eq_of_signature (hasWords hf) (hasWords hg) (Option.some.inj hdetail)
  rw [erased, erased, hname, hparameters, hresult,
    Block.eq_of_entries f.body g.body (hf.child hbody) (hg.child hbody) hnested]

theorem Struct.eq_of_entry {s t : Struct} (hs : (Node.struct s).Throughout Node.HasWords)
    (ht : (Node.struct t).Throughout Node.HasWords) (h : s.entry = t.entry) :
    s.erased = t.erased := by
  have hwords {s : Struct} (hs : (Node.struct s).Throughout Node.HasWords) {b : Binding}
      (hb : b ∈ s.fields) : b.HasWords :=
    Binding.hasWords_of_field (hs.child (List.mem_map_of_mem hb))
  obtain ⟨-, hdetail, hnested⟩ := Entry.mk.inj h
  have hfields := map_eq_of_map_eq (g := Binding.erased)
    (fun a ha b hb => Binding.eq_of_entry (hwords hs ha) (hwords ht hb)) hnested
  have hname : s.name = t.name := Option.some.inj hdetail
  rw [erased, erased, hname, hfields]

/-- **A definition or a statement is known from its entry,** up to spans. -/
theorem Item.eq_of_entry {i j : Item} (hi : (Node.ofItem i).Throughout Node.HasWords)
    (hj : (Node.ofItem j).Throughout Node.HasWords) (h : i.entry = j.entry) :
    i.erased = j.erased := by
  have hstatement (s : Stmt) : ∀ head detail nested, s.entry = .mk head detail nested →
      head ≠ .function ∧ head ≠ .struct := by
    rcases s with _ | _ | _ | ⟨_, _, _, _ | _⟩ | _ <;> rintro head detail nested ⟨⟩ <;> decide
  cases i with
  | function f =>
    cases j with
    | function g => exact congrArg Item.function (Function.eq_of_entry hi hj h)
    | struct => cases h
    | statement s => exact absurd rfl (hstatement s _ _ _ h.symm).1
  | struct s =>
    cases j with
    | function => cases h
    | struct t => exact congrArg Item.struct (Struct.eq_of_entry hi hj h)
    | statement t => exact absurd rfl (hstatement t _ _ _ h.symm).2
  | statement s =>
    cases j with
    | function => exact absurd rfl (hstatement s _ _ _ h).1
    | struct => exact absurd rfl (hstatement s _ _ _ h).2
    | statement t => exact congrArg Item.statement (Stmt.eq_of_entry s t hi hj h)

/-! ## Entries and spans -/

mutual

theorem Stmt.entry_erased : (s : Stmt) → s.erased.entry = s.entry
  | .breakLoop _ | .ret _ none => rfl
  | .ret _ (some e) => by
    rw [Stmt.erased, Option.map_some, Stmt.entry, Option.map_some, e.phrase_erased, Stmt.entry,
      Option.map_some]
  | .loop _ condition body => by
    rw [Stmt.erased, Stmt.entry, condition.phrase_erased, body.entries_erased, Stmt.entry]
  | .branch _ condition consequent none => by
    rw [Stmt.erased, Stmt.entry, condition.phrase_erased, consequent.entries_erased, Stmt.entry]
  | .branch _ condition consequent (some alternate) => by
    rw [Stmt.erased, Stmt.entry, condition.phrase_erased, consequent.entries_erased,
      alternate.entries_erased, Stmt.entry]
  | .expression _ e => by rw [Stmt.erased, Stmt.entry, e.phrase_erased, Stmt.entry]

theorem Block.entries_erased : (b : Block) → b.erased.entries = b.entries
  | .mk _ statements => by
    rw [Block.erased, Block.entries, Stmt.entryEach_erased statements, Block.entries]

theorem Stmt.entryEach_erased : (ss : List Stmt) →
    Stmt.entryEach (Stmt.erasedEach ss) = Stmt.entryEach ss
  | [] => rfl
  | s :: more => by
    rw [Stmt.erasedEach, Stmt.entryEach, s.entry_erased, Stmt.entryEach_erased more,
      Stmt.entryEach]

end

/-- **Spans do not matter to entries.** -/
theorem Item.entry_erased (i : Item) : i.erased.entry = i.entry := by
  cases i with
  | function f =>
    rw [erased, entry, Function.entry, f.signature_erased, Function.erased, entry, Function.entry,
      f.body.entries_erased]
  | struct s =>
    have hfields : (s.fields.map Binding.erased).map Binding.entry =
        s.fields.map Binding.entry := by
      rw [List.map_map]
      refine List.map_congr_left fun b _ => ?_
      exact congrArg (Entry.mk .field · []) (congrArg some b.signature_erased)
    rw [erased, Struct.erased, entry, Struct.entry, hfields, entry, Struct.entry]
  | statement s => exact s.entry_erased

theorem Program.entry_erased (p : Program) : p.erased.entry = p.entry := by
  have hitems : (p.items.map Item.erased).map Item.entry = p.items.map Item.entry := by
    rw [List.map_map]
    exact List.map_congr_left fun i _ => i.entry_erased
  rw [erased, entry, hitems, entry]

/-! ## Entries stand on lines of their own -/

theorem Expr.feed_notMem_words {e : Expr}
    (h : (Node.expression e).Throughout Node.HasWords) : '\n' ∉ e.phrase.words.toList := by
  rw [Phrase.toList_words]
  exact (e.isPlain_phrase h).feed_notMem

mutual

theorem Stmt.isUnbroken_entry : (s : Stmt) → (Node.statement s).Throughout Node.HasWords →
    s.entry.IsUnbroken
  | .breakLoop _, _ | .ret _ none, _ => .bare (List.forall_mem_nil _)
  | .ret _ (some _), h | .expression _ _, h =>
    .saying (Expr.feed_notMem_words (h.child (List.mem_singleton_self _)))
      (List.forall_mem_nil _)
  | .loop _ _ body, h =>
    .saying (Expr.feed_notMem_words (h.child List.mem_cons_self))
      (body.isUnbroken_entries (h.child (.tail _ List.mem_cons_self)))
  | .branch _ _ consequent none, h =>
    .saying (Expr.feed_notMem_words (h.child List.mem_cons_self)) (List.forall_mem_singleton.2
      (.bare (consequent.isUnbroken_entries (h.child (.tail _ List.mem_cons_self)))))
  | .branch _ _ consequent (some alternate), h =>
    .saying (Expr.feed_notMem_words (h.child List.mem_cons_self)) (List.forall_mem_cons.2
      ⟨.bare (consequent.isUnbroken_entries (h.child (.tail _ List.mem_cons_self))),
        List.forall_mem_singleton.2 (.bare (alternate.isUnbroken_entries
          (h.child (.tail _ (.tail _ List.mem_cons_self)))))⟩)

theorem Block.isUnbroken_entries : (b : Block) → (Node.block b).Throughout Node.HasWords →
    ∀ e ∈ b.entries, e.IsUnbroken
  | .mk _ statements, h =>
    Stmt.isUnbroken_entryEach statements fun _ hs => h.child (List.mem_map_of_mem hs)

theorem Stmt.isUnbroken_entryEach : (ss : List Stmt) →
    (∀ s ∈ ss, (Node.statement s).Throughout Node.HasWords) →
    ∀ e ∈ Stmt.entryEach ss, e.IsUnbroken
  | [], _ => List.forall_mem_nil _
  | s :: more, h => by
    obtain ⟨hs, hmore⟩ := List.forall_mem_cons.1 h
    exact List.forall_mem_cons.2 ⟨s.isUnbroken_entry hs, Stmt.isUnbroken_entryEach more hmore⟩

end

theorem Item.isUnbroken_entry {i : Item} (h : (Node.ofItem i).Throughout Node.HasWords) :
    i.entry.IsUnbroken := by
  cases i with
  | function f =>
    have hbody : (Node.block f.body).Throughout Node.HasWords :=
      h.child (List.mem_append_right _ (List.mem_singleton_self _))
    exact .saying (Function.feed_notMem_signature (Function.hasWords h))
      (f.body.isUnbroken_entries hbody)
  | struct s =>
    refine .saying (IsName.feed_notMem h.root) (List.forall_mem_map.2 fun b hb => ?_)
    have hwords := Binding.hasWords_of_field (h.child (List.mem_map_of_mem hb))
    exact .saying (Binding.feed_notMem_signature hwords) (List.forall_mem_nil _)
  | statement s => exact s.isUnbroken_entry h

theorem Program.isUnbroken_entry {p : Program} (h : (Node.program p).Throughout Node.HasWords) :
    p.entry.IsUnbroken :=
  .bare (List.forall_mem_map.2 fun _ hi => Item.isUnbroken_entry (h.child (List.mem_map_of_mem hi)))

/-! ## Texts -/

/-- The text of a program is that of its entry. -/
theorem Program.takes_print (q : Program) (p : Printer) : Walk.Takes (Printer.print (.program q)) p
    (Printer.frames (.program q)) q.entry.text
      (Printer.lists [q.entry] { p with output := #[], level := 0 }) := by
  have hprint := Printer.takes_print (.program q) p
  rwa [Node.entries, Entry.rowsEach_singleton] at hprint

end ArcLang
