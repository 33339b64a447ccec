import ArcLang.Proofs.Depth
import ArcLang.Proofs.Faithfulness
import ArcLang.Proofs.Lengths
import ArcLang.Proofs.Parts
import ArcLang.Proofs.Rederiving

/-!
# Types read back

A type is spelled as in scripts, with blanks behind commas only. As the type of a field, the
spelling is read as the same type again. The scan is put together along the type: a word or a number
ends where no letter, digit or underscore follows, and a bracket or a comma is a symbol of its own.

* `Scanned`: what the front of a text is scanned as.
* `TypeName.scanned_spelling`: the spelling of a type is scanned as its marks.
* `isRead_of_scanned`: a field with such a text for its type is read with that type.
* `spelling_readsBack`: the statement about types and texts.
* `not_readsBack_hexadecimal`: a length that can be read need not be one that can be written.
-/

namespace ArcLang

open Reading (isWordStart isWordChar)

/-! ## Scanning the front of a text -/

/-- In front of the rest, the text is scanned as tokens that stand for the marks. -/
def Scanned (ms : List Mark) (text rest : List Char) : Prop :=
  ∀ (source : Source) (p : Position), ∃ ts : List Token,
    scanFrom source p (text ++ rest) = ts.map .token ++ scanFrom source (p.after text) rest ∧
      List.Forall₂ Mark.Fits ms ts ∧ ∀ t ∈ ts, t.kind.Spells t.lexeme.toList

/-- Neither a letter nor a digit nor an underscore comes next. -/
def EndsRun (rest : List Char) : Prop := ∀ c ∈ rest.head?, isWordChar c = false

theorem endsRun_cons {c : Char} (h : isWordChar c = false) (rest : List Char) :
    EndsRun (c :: rest) := by
  rintro _ ⟨⟩
  exact h

namespace Scanned

variable {ms ns : List Mark} {u v rest : List Char}

theorem append (h : Scanned ms u (v ++ rest)) (h' : Scanned ns v rest) :
    Scanned (ms ++ ns) (u ++ v) rest := by
  intro source p
  obtain ⟨ts, hts, hfits, hspells⟩ := h source p
  obtain ⟨us, hus, hfits', hspells'⟩ := h' source (p.after u)
  refine ⟨ts ++ us, ?_, List.rel_append hfits hfits', List.forall_mem_append.2 ⟨hspells, hspells'⟩⟩
  rw [List.append_assoc, hts, hus, List.map_append, List.append_assoc, Position.after_append]

/-- A blank stands for nothing. -/
theorem blank (h : Scanned ms u rest) : Scanned ms (' ' :: u) rest := by
  intro source p
  obtain ⟨ts, hts, hfits, hspells⟩ := h source (p.next ' ')
  refine ⟨ts, ?_, hfits, hspells⟩
  rw [List.cons_append, scanFrom_blank, hts, Position.after_cons]

/-- What is read as a lexeme, with nothing skipped in front of it, stands for its mark. -/
theorem of_front {k : Kind} {c : Char} {r : List Char} {m : Mark} (hspells : k.Spells (c :: r))
    (hslash : c ≠ '/') (hfront : Reading.front c (r ++ rest) = ⟨r.length, .ok k⟩)
    (hfits : ∀ t : Token, t.kind = k → t.lexeme.toList = c :: r → m.Fits t) :
    Scanned [m] (c :: r) rest := by
  intro source p
  obtain ⟨_, _, ⟨⟩, hblank, -⟩ := hspells.head
  have htrivia : trivia false (c :: (r ++ rest)) = ([], c :: (r ++ rest)) := by
    rw [trivia, if_neg (by decide), hblank, if_neg (by decide), decide_eq_false hslash,
      Bool.false_and, if_neg (by decide)]
  obtain ⟨t, hkind, hlexeme, hscan⟩ := scanFrom_of_front source p htrivia hfront
  refine ⟨[t], hscan, .cons (hfits t hkind hlexeme) .nil, List.forall_mem_singleton.2 ?_⟩
  rw [hkind, hlexeme]
  exact hspells

/-- A symbol of one character, where no longer one can be read. -/
theorem sign {s : Symbol} {c : Char} (hs : s.spelling.toList = [c]) (hslash : c ≠ '/')
    (hfront : Reading.front c rest = ⟨0, .ok (.symbol s)⟩) : Scanned [.symbol s] [c] rest :=
  .of_front (k := .symbol s) (Eq.symm hs) hslash hfront fun _ hkind hlexeme =>
    ⟨hkind, String.toList_inj.1 (hlexeme.trans hs.symm)⟩

/-- A word stands for its mark where it ends. -/
theorem of_word {k : Kind} {text : String} {c : Char} {r : List Char}
    (hspells : k.Spells text.toList) (htext : text.toList = c :: r) (hc : isWordStart c = true)
    (hr : ∀ d ∈ r, isWordChar d = true) (hkind : Reading.wordKind text.toList = k)
    (hrest : EndsRun rest) : Scanned [.word k text] text.toList rest := by
  rw [htext] at hspells hkind ⊢
  refine .of_front hspells (by rintro rfl; revert hc; decide) ?_ fun t hk hlexeme => ?_
  · rw [Reading.front_of_word hc hr hrest, hkind]
  · exact ⟨hk, String.toList_inj.1 (hlexeme.trans htext.symm)⟩

theorem keyword (k : Keyword) (hrest : EndsRun rest) :
    Scanned [.keyword k] k.spelling.toList rest := by
  obtain ⟨c, r, htext, hc, hr⟩ := k.word_spelling
  exact .of_word rfl htext hc hr (Reading.wordKind_spelling k) hrest

theorem name {text : String} (h : IsName text) (hrest : EndsRun rest) :
    Scanned [.name text] text.toList rest := by
  obtain ⟨c, r, htext, hc, hr, hnone⟩ := id h
  exact .of_word h htext hc hr (Reading.wordKind_of_none hnone) hrest

/-- A number stands for its value where it ends. -/
theorem length {digits : String} {n : Nat} (hspells : Kind.number.Spells digits.toList)
    (hn : Numeral.resolve digits = .length n) (hrest : EndsRun rest) :
    Scanned [.length n] digits.toList rest := by
  obtain ⟨c, r, htext, hc, hr⟩ := id hspells
  have hrest : ∀ d ∈ rest.head?, d.isAlphanum = false := fun d hd =>
    (Bool.or_eq_false_iff.1 (hrest d hd)).1
  rw [htext] at hspells ⊢
  refine .of_front hspells (by rintro rfl; revert hc; decide)
    (Reading.front_of_number hc hr hrest) fun t hk hlexeme => ⟨hk, ?_⟩
  rw [String.toList_inj.1 (hlexeme.trans htext.symm)]
  exact hn

end Scanned

/-! ## The spelling of a type -/

namespace TypeName

/-- An element and a number in brackets stand for an array. -/
theorem scanned_array (span : Span) (element : TypeName) {text digits : String} {n : Nat}
    (helement : ∀ rest, EndsRun rest → Scanned element.marks text.toList rest)
    (hspells : Kind.number.Spells digits.toList) (hn : Numeral.resolve digits = .length n)
    (rest : List Char) :
    Scanned (array span element n).marks ("[" ++ text ++ ", " ++ digits ++ "]").toList rest := by
  have hopen (r : List Char) : Scanned [.symbol .leftBracket] ['['] r := .sign rfl (by decide) rfl
  have hcomma (r : List Char) : Scanned [.symbol .comma] [','] r := .sign rfl (by decide) rfl
  have hclose : Scanned [.symbol .rightBracket] [']'] rest := .sign rfl (by decide) rfl
  have hlength : Scanned [.length n] (' ' :: digits.toList) (']' :: rest) :=
    (Scanned.length hspells hn (endsRun_cons rfl rest)).blank
  have hback := (hcomma _).append (hlength.append hclose)
  have harray := (hopen _).append ((helement _ (endsRun_cons rfl _)).append hback)
  simpa [marks] using harray

/-- **The spelling of a type is scanned as its marks,** where no word or number goes on. -/
theorem scanned_spelling {t : TypeName} (h : (Node.typeName t).Throughout Node.IsLexical)
    {rest : List Char} (hrest : EndsRun rest) : Scanned t.marks t.spelling.toList rest := by
  induction t generalizing rest with
  | bool | float | int => exact .keyword _ hrest
  | named span name => exact .name h.root hrest
  | array span element n ih =>
    have hn : Numeral.isWritable n = true := h.root
    have hspells : Kind.number.Spells (toString n).toList :=
      Mark.IsLexical.spells (m := .length n) hn
    have helement := h.child (List.mem_singleton_self (Node.typeName element))
    exact scanned_array span element (fun _ hr => ih helement hr) hspells
      (Numeral.resolve_toString hn) rest

end TypeName

/-! ## Fields -/

/-- The text of a struct with one field, whose type is spelled so. -/
def declared (spelling : String) : String := "struct S \x7b f: " ++ spelling ++ " \x7d"

/-- The struct with one field of the type, without spans. -/
def Struct.holding (t : TypeName) : Struct := ⟨.blank, "S", [⟨.blank, "f", t⟩]⟩

theorem Scanned.declared {t : TypeName} {spelling : String}
    (h : ∀ rest, EndsRun rest → Scanned t.marks spelling.toList rest) :
    Scanned (Struct.holding t).marks (declared spelling).toList [] := by
  have hclose : Scanned [.symbol .rightBrace] [' ', '\x7d'] [] :=
    (Scanned.sign rfl (by decide) rfl).blank
  have htype := (h _ (endsRun_cons rfl _)).blank.append hclose
  have hcolon (r : List Char) : Scanned [.symbol .colon] [':'] (' ' :: r) :=
    .sign rfl (by decide) rfl
  have hf : IsName "f" := by decide
  have hfield := (Scanned.name hf (endsRun_cons rfl _)).blank.append ((hcolon _).append htype)
  have hopen (r : List Char) : Scanned [.symbol .leftBrace] ['\x7b'] r :=
    .sign rfl (by decide) rfl
  have hS : IsName "S" := by decide
  have hname := (Scanned.name hS (endsRun_cons rfl _)).blank.append ((hopen _).blank.append hfield)
  have hstruct := (Scanned.keyword .struct (endsRun_cons rfl _)).append hname
  show Scanned (Struct.holding t).marks ("struct S \x7b f: " ++ spelling ++ " \x7d").toList []
  simpa [Struct.marks, Struct.holding, Binding.marks, Mark.commaSeparated, Keyword.spelling]
    using hstruct

/-- The program is a struct with one field, and the type of the field is the given one. -/
def Program.Declares (p : Program) (t : TypeName) : Prop :=
  ∃ span span' t', p.items = [.struct ⟨span, "S", [⟨span', "f", t'⟩]⟩] ∧ t'.sameShape t = true

theorem Program.declares_of_erased {p : Program} {t : TypeName}
    (h : p.items.map Item.erased = [.struct (Struct.holding t).erased]) : p.Declares t := by
  obtain ⟨i, hitems, hi⟩ := List.map_eq_singleton_iff.1 h
  cases i with
  | function f => cases hi
  | statement s => cases hi
  | struct s =>
    obtain ⟨span, name, fields⟩ := s
    obtain ⟨-, rfl, hfields⟩ := Struct.mk.inj (Item.struct.inj hi)
    obtain ⟨⟨span', name, t'⟩, rfl, hfield⟩ := List.map_eq_singleton_iff.1 hfields
    obtain ⟨-, rfl, htype⟩ := Binding.mk.inj hfield
    exact ⟨span, span', t', hitems, (TypeName.sameShape_iff t' t).2 htype⟩

theorem Program.Declares.exists_type {p : Program} {t : TypeName} (h : p.Declares t) :
    ∃ t', .typeName t' ∈ (Node.program p).nodes ∧ t'.sameShape t = true := by
  obtain ⟨span, span', t', hitems, hshape⟩ := h
  have hnodes : (Node.program p).Throughout (· ∈ (Node.program p).nodes) := fun _ hn => hn
  have hstruct : Node.ofItem (.struct ⟨span, "S", [⟨span', "f", t'⟩]⟩) ∈
      (Node.program p).children := List.mem_map_of_mem (hitems ▸ List.mem_singleton_self _)
  have hfield := (hnodes.child hstruct).child (List.mem_singleton_self _)
  exact ⟨t', (hfield.child (List.mem_singleton_self _)).root, hshape⟩

/-- With so many levels of nesting allowed, the text is read without diagnostics as a struct whose
field has the type: with the front end, whatever the options; and for every bound on nesting and on
diagnostics, also beyond what the options allow. -/
def IsRead (text : String) (depth : Int) (t : TypeName) : Prop :=
  (∀ file (o : Options), depth ≤ o.maxDepth → ∃ r, parse text file o = .ok r ∧
    r.diagnostics = [] ∧ r.program.Declares t) ∧
  ∀ file (m n : Int), 1 ≤ n → depth ≤ m → ∃ q s,
    parseScans ⟨.ofText file text, m⟩ { capacity := n } .shared (scansOf text file) = .ok (q, s) ∧
    s.errors.errors = [] ∧ q.Declares t

/-- Of such a text there is a derivation. -/
theorem derives_of_scanned {t : TypeName} {text : String}
    (h : Scanned (Struct.holding t).marks text.toList []) (file : String) {depth : Nat}
    (hneed : t.need ≤ depth) :
    Scan.faults (scansOf text file) = [] ∧ ∃ d : Grammar.Program, d.Derives text file depth ∧
      d.trees.map Item.erased = [.struct (Struct.holding t).erased] := by
  obtain ⟨ts, hscan, hfits, hspells⟩ := h (.ofText file text) .start
  obtain ⟨e, hend, hscan⟩ : ∃ e : Token, e.isEnd = true ∧
      scansOf text file = ts.map .token ++ [.token e] := by
    rw [List.append_nil] at hscan
    exact ⟨.endAt _, rfl, hscan.trans (congrArg _ (scanFrom_of_trivia_nil rfl))⟩
  obtain ⟨d, rfl, htree, hlengths⟩ := (Struct.holding t).derivable hfits
  obtain ⟨hfaults, htokens⟩ := Scan.faults_and_beforeEnd hend hspells
  rw [← hscan] at hfaults htokens
  have htrees : [Item.struct d.tree].map Item.erased = [.struct (Struct.holding t).erased] :=
    congrArg (fun s => [Item.struct s]) htree
  have hplaced : ∀ i ∈ [Item.struct d.tree], (Node.ofItem i).Throughout Node.AssignsToPlace :=
    List.forall_mem_singleton.2 <|
      Node.throughout_struct (fun _ => trivial) (fun _ => trivial) trivial
  have hneeds : needMost Item.need [Item.struct d.tree] = t.need := by
    rw [← needMost_map Item.need_erased, htrees]
    show max (max t.erased.need 0) 0 = t.need
    rw [Nat.max_zero, Nat.max_zero, t.need_erased]
  refine ⟨hfaults, ⟨[.struct d]⟩, ⟨?_, hplaced, ?_, hneeds.trans_le hneed⟩, htrees⟩
  · exact (List.append_nil d.tokens).trans htokens.symm
  · exact List.forall_mem_append.2 ⟨hlengths, List.forall_mem_nil _⟩

theorem isRead_of_scanned {t : TypeName} {text : String}
    (h : Scanned (Struct.holding t).marks text.toList []) : IsRead text t.need t := by
  refine ⟨fun file o hneed => ?_, fun file m n hn hneed => ?_⟩
  · obtain ⟨hfaults, d, hd, htrees⟩ :=
      derives_of_scanned h file (by omega : t.need ≤ o.maxDepth.toNat)
    obtain ⟨r, hr, hclean, hitems⟩ := parse_eq_ok_iff.2 ⟨hfaults, d, hd, rfl⟩
    exact ⟨r, hr, hclean, Program.declares_of_erased (hitems ▸ htrees)⟩
  · obtain ⟨hfaults, d, hd, htrees⟩ := derives_of_scanned h file (by omega : t.need ≤ m.toNat)
    obtain ⟨q, s, hqs, hitems, hs⟩ := parseScans_of_derives hn hfaults hd
    exact ⟨q, s, hqs, hs, Program.declares_of_erased (hitems ▸ htrees)⟩

/-! ## Types and texts -/

namespace TypeName

/-- The spelling, unless a length in it has too many digits to be written. -/
def formatted (t : TypeName) : Except String String :=
  if (Node.typeName t).isWritable then .ok t.spelling else .error (Numeral.limitMessage none)

/-- The type has a spelling, which is read as the same type where so many levels of nesting are
allowed. -/
def ReadsBack (t : TypeName) (depth : Int) : Prop :=
  ∃ spelling, t.formatted = .ok spelling ∧ IsRead (declared spelling) depth t

theorem isWritable_iff {t : TypeName} : (Node.typeName t).isWritable = true ↔
    (Node.typeName t).Throughout fun n => n.hasHugeLength = false := by
  unfold Node.isWritable Node.Throughout Node.nodes
  simp only [List.all_eq_true, List.forall_mem_map, Bool.not_eq_true']

/-- Whether a type can be written does not depend on its spans. -/
theorem isWritable_of_sameShape {t t' : TypeName} (h : t.sameShape t' = true) :
    (Node.typeName t).isWritable = (Node.typeName t').isWritable := by
  have hlengths (n : Node) : n.erased.hasHugeLength = false ↔ n.hasHugeLength = false := by
    cases n with
    | typeName t => cases t <;> rfl
    | _ => rfl
  have herased (t : TypeName) :
      (Node.typeName t.erased).isWritable = (Node.typeName t).isWritable := by
    rw [Bool.eq_iff_iff, isWritable_iff, isWritable_iff]
    exact Node.throughout_erased hlengths (.typeName t)
  rw [← herased t, (sameShape_iff t t').1 h, herased]

theorem isLexical_iff (t : TypeName) : (Node.typeName t).IsLexical ↔
    (Node.typeName t).HasWords ∧ (Node.typeName t).hasHugeLength = false := by
  cases t with
  | array span element n =>
    show Numeral.isWritable n = true ↔ True ∧ (!Numeral.isWritable n) = false
    rw [true_and, Bool.not_eq_false']
  | _ => exact (and_iff_left rfl).symm

/-- A type can be written out if it has names for its words and no length with too many digits. -/
theorem throughout_isLexical_iff {t : TypeName} : (Node.typeName t).Throughout Node.IsLexical ↔
    (Node.typeName t).Throughout Node.HasWords ∧ (Node.typeName t).isWritable = true := by
  have h := Node.throughout_typeName
    (P := fun n => n.IsLexical ↔ n.HasWords ∧ n.hasHugeLength = false) isLexical_iff t
  rw [isWritable_iff]
  constructor
  · exact fun hl => ⟨fun m hm => ((h m hm).1 (hl m hm)).1, fun m hm => ((h m hm).1 (hl m hm)).2⟩
  · exact fun hw m hm => (h m hm).2 ⟨hw.1 m hm, hw.2 m hm⟩

theorem readsBack_of_isLexical {t : TypeName} (h : (Node.typeName t).Throughout Node.IsLexical) :
    t.ReadsBack t.need := by
  refine ⟨t.spelling, if_pos (throughout_isLexical_iff.1 h).2, ?_⟩
  exact isRead_of_scanned (.declared fun _ hrest => scanned_spelling h hrest)

theorem ReadsBack.mono {t : TypeName} {depth depth' : Int} (h : t.ReadsBack depth)
    (hle : depth ≤ depth') : t.ReadsBack depth' := by
  obtain ⟨spelling, hspelling, hfront, hscans⟩ := h
  exact ⟨spelling, hspelling, fun file o ho => hfront file o (hle.trans ho),
    fun file m n hn hm => hscans file m n hn (hle.trans hm)⟩

theorem ReadsBack.isWritable {t : TypeName} {depth : Int} (h : t.ReadsBack depth) :
    (Node.typeName t).isWritable = true := by
  obtain ⟨spelling, hspelling, -⟩ := h
  unfold formatted at hspelling
  split at hspelling
  · assumption
  · cases hspelling

end TypeName

/-- **Types survive being spelled.** A type of the keywords, of names and of arrays whose lengths
can be written is read back where its nesting is allowed. The types in the program of any text,
accepted or not, are read back under the same options exactly if their lengths can be written. -/
theorem spelling_readsBack :
    (∀ t : TypeName, (Node.typeName t).Throughout Node.IsLexical → t.ReadsBack t.need) ∧
    ∀ {text file : String} {o : Options} {r : Parsed}, parse text file o = .ok r →
      ∀ t, .typeName t ∈ (Node.program r.program).nodes →
        (t.ReadsBack o.maxDepth ↔ (Node.typeName t).isWritable = true) := by
  refine ⟨fun t h => t.readsBack_of_isLexical h, fun {text file o r} h t ht => ?_⟩
  refine ⟨TypeName.ReadsBack.isWritable, fun hwritable => ?_⟩
  have hwords := (hasWords_of_parse h).of_mem ht
  have hlexical := TypeName.throughout_isLexical_iff.2 ⟨hwords, hwritable⟩
  refine (TypeName.readsBack_of_isLexical hlexical).mono ?_
  -- the type is nested no more deeply than the program, which keeps to the bound
  obtain ⟨s, hs, -⟩ := parseScans_of_parse h
  have hprogram : r.program.need ≤ o.maxDepth.toNat :=
    Parser.program_keeps (parseScans_eq_ok_iff.1 hs)
  have hpart : t.need ≤ r.program.need := Node.need_le_of_mem ht
  have := o.one_le_maxDepth
  omega

/-- The types `[[u8, 16], 0]`, and `[S, 31]` as it stands in a text with a hexadecimal length. -/
theorem spelling_readsBack_of_arrays :
    (TypeName.array .blank (.array .blank (.int .blank false .w8) 16) 0).ReadsBack 2 ∧
    ∃ r t, parse "struct S \x7b f: [S, 0x1F] \x7d" "m.arc" {} = .ok r ∧
      .typeName t ∈ (Node.program r.program).nodes ∧
      t.sameShape (.array .blank (.named .blank "S") 31) = true ∧ t.ReadsBack 64 := by
  refine ⟨spelling_readsBack.1 _ (by decide +kernel), ?_⟩
  have hrun : (parse "struct S \x7b f: [S, 0x1F] \x7d" "m.arc" {}).toOption.map (fun r =>
      r.program.sameShape ⟨.blank, [.struct (.holding (.array .blank (.named .blank "S") 31))]⟩) =
        some true := by
    decide +kernel
  obtain ⟨r, hr, hsame⟩ := exists_of_map_toOption hrun
  have herased := (Program.sameShape_iff r.program _).1 hsame
  have hdeclares := Program.declares_of_erased (Program.mk.inj herased).2
  obtain ⟨t, ht, hshape⟩ := hdeclares.exists_type
  refine ⟨r, t, hr, ht, hshape, (spelling_readsBack.2 hr t ht).2 ?_⟩
  rw [TypeName.isWritable_of_sameShape hshape]
  decide +kernel

/-! ## Lengths that cannot be written -/

/-- A power of the base is a one with as many zeros. -/
theorem Numeral.IsPositional.power {base : Nat} (hbase : 1 < base) (k : Nat) :
    IsPositional base ('1' :: List.replicate k '0') (base ^ k) := by
  induction k with
  | zero => exact .digit ⟨hbase, .inl rfl⟩
  | succ k ih =>
    have hzero : WritesDigit base '0' 0 := ⟨by omega, .inl rfl⟩
    have hpower := ih.concat hzero
    rw [Nat.add_zero, ← Nat.pow_succ'] at hpower
    rw [List.replicate_succ']
    exact hpower

/-- A one and so many zeros in hexadecimal. -/
def hexadecimalPower (k : Nat) : String := "0x1" ++ String.ofList (List.replicate k '0')

theorem toList_hexadecimalPower (k : Nat) :
    (hexadecimalPower k).toList = '0' :: 'x' :: '1' :: List.replicate k '0' := by
  simp [hexadecimalPower]

theorem resolve_hexadecimalPower (k : Nat) :
    Numeral.resolve (hexadecimalPower k) = .length (16 ^ k) := by
  refine Numeral.resolve_of_spells ?_
  rw [toList_hexadecimalPower]
  exact .hexadecimal (.power (by decide) k)

theorem spells_hexadecimalPower (k : Nat) : Kind.number.Spells (hexadecimalPower k).toList := by
  refine ⟨'0', _, toList_hexadecimalPower k, rfl, ?_⟩
  refine List.forall_mem_cons.2 ⟨rfl, List.forall_mem_cons.2 ⟨rfl, fun d hd => ?_⟩⟩
  rw [List.eq_of_mem_replicate hd]
  rfl

/-- An array with a hexadecimal length is read, however many digits the length has in decimal. -/
theorem isRead_hexadecimalPower (k : Nat) :
    IsRead (declared ("[u8, " ++ hexadecimalPower k ++ "]")) 1
      (.array .blank (.int .blank false .w8) (16 ^ k)) := by
  have hspelling (rest : List Char) (_ : EndsRun rest) := TypeName.scanned_array .blank
    (.int .blank false .w8) (fun _ hrest => .keyword (.int false .w8) hrest)
    (spells_hexadecimalPower k) (resolve_hexadecimalPower k) rest
  exact isRead_of_scanned (.declared hspelling)

/-- So an accepted text can have a type that is not read back. -/
theorem not_readsBack_hexadecimalPower {k : Nat} (hk : Numeral.isWritable (16 ^ k) = false) :
    ∃ r t, parse (declared ("[u8, " ++ hexadecimalPower k ++ "]")) "m.arc" {} = .ok r ∧
      r.diagnostics = [] ∧ .typeName t ∈ (Node.program r.program).nodes ∧
      t.formatted = .error (Numeral.limitMessage none) ∧ ∀ depth, ¬ t.ReadsBack depth := by
  obtain ⟨r, hr, hclean, hdeclares⟩ := (isRead_hexadecimalPower k).1 "m.arc" {} (by decide)
  obtain ⟨t, ht, hshape⟩ := hdeclares.exists_type
  have hwritable : ¬ (Node.typeName t).isWritable = true := by
    rw [TypeName.isWritable_of_sameShape hshape, TypeName.isWritable_iff]
    intro hlengths
    have hroot : (!Numeral.isWritable (16 ^ k)) = false := hlengths.root
    rw [hk] at hroot
    cases hroot
  exact ⟨r, t, hr, hclean, ht, if_neg hwritable, fun depth h => hwritable h.isWritable⟩

/-- **A hexadecimal length can have more digits in decimal than can be written:** the text is
accepted, but its type has no spelling to be read back. -/
theorem not_readsBack_hexadecimal : ∃ r t,
    parse (declared ("[u8, " ++ hexadecimalPower 3572 ++ "]")) "m.arc" {} = .ok r ∧
      r.diagnostics = [] ∧ .typeName t ∈ (Node.program r.program).nodes ∧
      t.formatted = .error (Numeral.limitMessage none) ∧ ∀ depth, ¬ t.ReadsBack depth :=
  not_readsBack_hexadecimalPower (by decide +kernel)

end ArcLang
