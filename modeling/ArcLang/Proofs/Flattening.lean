import ArcLang.Proofs.Language
import ArcLang.Proofs.Marks

/-!
# No token is lost

The program of a text without faults, flattened in order, is the sequence of the text's tokens,
except for the commas that may stand before a closing symbol.

* `Grammar.Expr.written`, `Grammar.Statement.written`, `Grammar.Item.written`: a derived sequence
  stands for the marks of what it denotes.
* `parse_keeps_tokens`: the statement for texts.
-/

namespace ArcLang

/-- A closing parenthesis, bracket or brace. -/
def Kind.closes : Kind → Bool
  | symbol .rightParen | symbol .rightBracket | symbol .rightBrace => true
  | _ => false

/-- The tokens without each comma that directly precedes a closing symbol. -/
def withoutTrailingCommas : List Token → List Token
  | [] => []
  | t :: r =>
    if t.kind = .symbol .comma ∧ (firstKind r).closes = true then withoutTrailingCommas r
    else t :: withoutTrailingCommas r

/-- Tokens that are spelled as their kinds say stand for the marks, whatever follows, once the
commas before closing symbols are left out. -/
def Written (ms : List Mark) (ts : List Token) : Prop :=
  (∀ t ∈ ts, t.kind.Spells t.lexeme.toList) → ∀ rest, ∃ kept,
    withoutTrailingCommas (ts ++ rest) = kept ++ withoutTrailingCommas rest ∧
      List.Forall₂ Mark.Fits ms kept

namespace Written

variable {ms ns : List Mark} {ts us : List Token} {m : Mark} {t c : Token}

theorem nil : Written [] [] := fun _ _ => ⟨[], rfl, .nil⟩

theorem append (h : Written ms ts) (h' : Written ns us) : Written (ms ++ ns) (ts ++ us) := by
  intro hspells rest
  obtain ⟨hts, hus⟩ := List.forall_mem_append.1 hspells
  obtain ⟨kept, hkept, hfits⟩ := h hts (us ++ rest)
  obtain ⟨kept', hkept', hfits'⟩ := h' hus rest
  refine ⟨kept ++ kept', ?_, List.rel_append hfits hfits'⟩
  rw [List.append_assoc, hkept, hkept', List.append_assoc]

theorem cons (h : Written [m] [t]) (h' : Written ms ts) : Written (m :: ms) (t :: ts) :=
  append h h'

/-- A token that is no comma is kept. -/
theorem token (hne : t.kind ≠ .symbol .comma)
    (h : t.kind.Spells t.lexeme.toList → m.Fits t) : Written [m] [t] := by
  intro hspells rest
  refine ⟨[t], ?_, .cons (h (hspells t (List.mem_singleton_self t))) .nil⟩
  rw [List.singleton_append, withoutTrailingCommas, if_neg fun hc => hne hc.1]
  rfl

/-- A comma is kept where no closing symbol follows. -/
theorem comma (hc : c.kind = .symbol .comma) (hts : ts ≠ []) (hopen : (firstKind ts).closes = false)
    (h : Written ms ts) : Written (Mark.symbol .comma :: ms) (c :: ts) := by
  intro hspells rest
  obtain ⟨hcomma, hspells⟩ := List.forall_mem_cons.1 hspells
  obtain ⟨kept, hkept, hfits⟩ := h hspells rest
  refine ⟨c :: kept, ?_, .cons ⟨hc, ?_⟩ hfits⟩
  · obtain ⟨t, r, rfl⟩ := List.exists_cons_of_ne_nil hts
    rw [List.cons_append, withoutTrailingCommas, if_neg, hkept]
    · rfl
    · rintro ⟨-, hclose⟩
      have hclose : t.kind.closes = true := hclose
      rw [show t.kind.closes = false from hopen] at hclose
      cases hclose
  · rw [hc] at hcomma
    exact String.toList_inj.1 hcomma

/-- A comma before a closing symbol is left out. -/
theorem trailing (hc : c.kind = .symbol .comma) (hclose : t.kind.closes = true)
    (h : Written [m] [t]) : Written [m] [c, t] := by
  intro hspells rest
  obtain ⟨-, hspells⟩ := List.forall_mem_cons.1 hspells
  obtain ⟨kept, hkept, hfits⟩ := h hspells rest
  refine ⟨kept, ?_, hfits⟩
  rw [List.cons_append, withoutTrailingCommas, if_pos ⟨hc, hclose⟩, hkept]

end Written

namespace Grammar

open Mark (keyword symbol commaSeparated)

theorem Word.written {k : Kind} (word : Word k) (hne : k ≠ .symbol .comma) :
    Written [.word k word.1.lexeme] [word.1] :=
  .token (by rw [word.2]; exact hne) fun _ => ⟨word.2, rfl⟩

theorem Word.written_keyword {k : Keyword} (word : Word (.keyword k)) :
    Written [keyword k] [word.1] := by
  refine .token (by rw [word.2]; rintro ⟨⟩) fun h => ⟨word.2, ?_⟩
  rw [word.2] at h
  exact String.toList_inj.1 h

theorem Sign.written {s : Symbol} (sign : Sign s) (hne : s ≠ .comma) :
    Written [symbol s] [sign.1] := by
  refine .token (by rw [sign.2]; rintro ⟨⟩; exact hne rfl) fun h => ⟨sign.2, ?_⟩
  rw [sign.2] at h
  exact String.toList_inj.1 h

/-- A literal is its text between quotes. -/
theorem quoted_unquoted {quote : Char} {least : Nat} {t : Token}
    (h : QuotedLetters quote least t.lexeme.toList) :
    ArcLang.Expr.quoted quote (unquoted t) = t.lexeme := by
  obtain ⟨letters, hletters, -⟩ := h
  have hinner : (unquoted t).toList = letters := by
    unfold unquoted
    rw [hletters, String.toList_ofList]
    simp
  unfold ArcLang.Expr.quoted
  rw [← String.toList_inj, String.toList_ofList, hinner, hletters]

theorem Word.written_char (word : Word .char) :
    Written [.word .char (ArcLang.Expr.quoted '\x27' (unquoted word.1))] [word.1] := by
  refine .token (by rw [word.2]; rintro ⟨⟩) fun h => ⟨word.2, ?_⟩
  rw [word.2] at h
  exact (quoted_unquoted h).symm

theorem Word.written_string (word : Word .string) :
    Written [.word .string (ArcLang.Expr.quoted '"' (unquoted word.1))] [word.1] := by
  refine .token (by rw [word.2]; rintro ⟨⟩) fun h => ⟨word.2, ?_⟩
  rw [word.2] at h
  exact (quoted_unquoted h).symm

/-- A list with its closing symbol; a comma behind the last element leaves no mark. -/
theorem Elements.written {δ : Type} {marks : δ → List Mark} {tokens : δ → List Token}
    {kinds : Kind → Bool} {s : Symbol} (hkinds : ∀ k, kinds k = true → k.closes = false)
    (hs : (Kind.symbol s).closes = true) (closer : Sign s) : (es : Elements δ) →
      (∀ d ∈ es.list, Written (marks d) (tokens d) ∧ Starts kinds (tokens d)) →
      Written (commaSeparated (es.list.map marks) ++ [symbol s]) (es.tokens tokens ++ [closer.1])
  | .none, _ => closer.written (by rintro rfl; cases hs)
  | .last d, h => (h d (List.mem_singleton_self d)).1.append
      (closer.written (by rintro rfl; cases hs))
  -- the comma in front of the closing symbol is left out
  | .more d comma .none, h => by
    have hd := (h d (List.mem_singleton_self d)).1
    have hcloser := closer.written (by rintro rfl; cases hs)
    simpa [Elements.tokens, Elements.list, commaSeparated] using
      hd.append (.trailing comma.2 (by rw [closer.2]; exact hs) hcloser)
  -- any other comma is kept, as the next element does not start with a closing symbol
  | .more d comma (.last d'), h => by
    obtain ⟨⟨hd, -⟩, h⟩ := List.forall_mem_cons.1 h
    have hstarts := ((h d' List.mem_cons_self).2).append [closer.1]
    have hrest := Elements.written hkinds hs closer (.last d') h
    have hopen := hkinds _ hstarts.firstKind
    simpa [Elements.tokens, Elements.list, commaSeparated] using
      hd.append (.comma comma.2 hstarts.ne_nil hopen hrest)
  | .more d comma (.more d' comma' rest), h => by
    obtain ⟨⟨hd, -⟩, h⟩ := List.forall_mem_cons.1 h
    have hstarts := ((h d' List.mem_cons_self).2).append
      (comma'.1 :: rest.tokens tokens ++ [closer.1])
    have hrest := Elements.written hkinds hs closer (.more d' comma' rest) h
    have hopen := hkinds _ hstarts.firstKind
    simp only [Elements.tokens, List.append_assoc, List.cons_append] at hrest hstarts hopen ⊢
    simpa [Elements.list, commaSeparated] using
      hd.append (.comma comma.2 hstarts.ne_nil hopen hrest)

theorem TypeName.written (t : TypeName) (h : Resolve t.lengths) :
    Written t.tree.marks t.tokens := by
  induction t with
  | bool word => exact word.written_keyword
  | float word => exact word.written_keyword
  | int signed width word => exact word.written_keyword
  | named word => exact word.written (by decide)
  | array opener element comma length closer ih =>
    obtain ⟨n, hn⟩ := h length.1 (List.mem_append_right _ (List.mem_singleton_self _))
    have helement := ih fun t ht => h t (List.mem_append_left _ ht)
    have hlength : Written [.length n] [length.1] :=
      .token (by rw [length.2]; decide) fun _ => ⟨length.2, hn⟩
    have hclose := Written.cons hlength (closer.written (by decide))
    -- the comma is kept, as the length behind it is a number
    have hopen : (firstKind [length.1, closer.1]).closes = false := by
      rw [firstKind_cons, length.2]; rfl
    have hrest := Written.comma comma.2 (List.cons_ne_nil _ _) hopen hclose
    simp only [tree, ArcLang.TypeName.marks, lengthOf, hn, tokens]
    exact (Written.cons (opener.written (by decide)) helement).append hrest

theorem marks_graft (op : BinaryOp) (x : ArcLang.Expr) : (e : ArcLang.Expr) →
    (ArcLang.Expr.graft op x e).marks = e.marks ++ symbol op.symbol :: x.marks
  | .binary span o l r => by
    unfold ArcLang.Expr.graft
    split
    · simp only [ArcLang.Expr.marks, marks_graft op x r, List.append_assoc, List.cons_append]
    · rfl
  | .char .. | .string .. | .number .. | .boolean .. | .array .. | .name .. | .member .. | .index ..
  | .call .. | .unary .. | .paren .. | .assign .. => rfl

theorem startsExpression_not_closes (k : Kind) (h : k.startsExpression = true) :
    k.closes = false := by
  unfold Kind.closes
  split
  · cases h
  · cases h
  · cases h
  · rfl

mutual

/-- **The tokens of an expression stand for the marks of its tree.** -/
theorem Expr.written : (e : Expr) → Written e.tree.marks e.tokens
  | .plain operand => operand.written
  | .assign target op sign value =>
    target.written.append (.cons (sign.written (by cases op <;> decide)) value.written)

theorem Chain.written : (c : Chain) → Written c.tree.marks c.tokens
  | .single operand => operand.written
  | .more front op sign operand => by
    rw [Chain.tree, marks_graft]
    exact front.written.append (.cons (sign.written (by cases op <;> decide)) operand.written)

theorem Operand.written : (e : Operand) → Written e.tree.marks e.tokens
  | .unary op sign operand => .cons (sign.written (by cases op <;> decide)) operand.written
  | .trailed e => e.written

theorem Trailed.written : (e : Trailed) → Written e.tree.marks e.tokens
  | .primary e => e.written
  | .member target dot name =>
    target.written.append (.cons (dot.written (by decide)) (name.written (by decide)))
  | .index target opener place closer =>
    (target.written.append (.cons (opener.written (by decide)) place.written)).append
      (closer.written (by decide))
  | .call callee opener arguments closer => by
    have harguments := Elements.written startsExpression_not_closes rfl closer arguments
      (elements_written arguments)
    simp only [Trailed.tree, Trailed.tokens, ArcLang.Expr.marks, ArcLang.Expr.marksEach_eq,
      elementsTrees_eq, elementsTokens_eq, List.map_map, List.append_assoc, List.cons_append]
    exact callee.written.append (.cons (opener.written (by decide)) harguments)

theorem Primary.written : (e : Primary) → Written e.tree.marks e.tokens
  | .number word => word.written (by decide)
  | .char word => word.written_char
  | .string word => word.written_string
  | .boolean value word => word.written_keyword
  | .name word => word.written (by decide)
  | .paren opener inner closer =>
    (Written.cons (opener.written (by decide)) inner.written).append (closer.written (by decide))
  | .array opener elements closer => by
    have helements := Elements.written startsExpression_not_closes rfl closer elements
      (elements_written elements)
    simp only [Primary.tree, Primary.tokens, ArcLang.Expr.marks, ArcLang.Expr.marksEach_eq,
      elementsTrees_eq, elementsTokens_eq, List.map_map, List.cons_append]
    exact .cons (opener.written (by decide)) helements

theorem elements_written : (es : Elements Expr) → ∀ e ∈ es.list,
    Written (ArcLang.Expr.marks (Expr.tree e)) e.tokens ∧ Starts Kind.startsExpression e.tokens
  | .none => List.forall_mem_nil _
  | .last e => List.forall_mem_singleton.2 ⟨e.written, e.starts⟩
  | .more e _ rest => List.forall_mem_cons.2 ⟨⟨e.written, e.starts⟩, elements_written rest⟩

end

mutual

/-- **The tokens of a statement stand for the marks of its tree.** -/
theorem Statement.written : (s : Statement) → Written s.tree.marks s.tokens
  | .breakLoop word stop => .cons word.written_keyword (stop.written (by decide))
  | .ret word none stop => .cons word.written_keyword (stop.written (by decide))
  | .ret word (some e) stop =>
    (Written.cons word.written_keyword e.written).append (stop.written (by decide))
  | .loop word condition body => (Written.cons word.written_keyword condition.written).append
      body.written
  | .branch word condition consequent =>
    (Written.cons word.written_keyword condition.written).append consequent.written
  | .branchElse word condition consequent other alternate =>
    ((Written.cons word.written_keyword condition.written).append consequent.written).append
      (.cons other.written_keyword alternate.written)
  | .expression e stop => e.written.append (stop.written (by decide))

theorem Body.written : (b : Body) → Written b.tree.marks b.tokens
  | .mk opener statements closer =>
    (Written.cons (opener.written (by decide)) (statements_written statements)).append
      (closer.written (by decide))

theorem statements_written : (ss : List Statement) →
    Written (Stmt.marksEach (statementsTrees ss)) (statementsTokens ss)
  | [] => .nil
  | s :: more => s.written.append (statements_written more)

end

theorem Binding.written (b : Binding) (h : Resolve b.type.lengths) :
    Written b.tree.marks b.tokens :=
  .cons (b.name.written (by decide)) (.cons (b.colon.written (by decide)) (b.type.written h))

/-- Bindings with the symbol behind them. -/
theorem bindings_written {s : Symbol} (hs : (Kind.symbol s).closes = true) (closer : Sign s)
    (ds : Elements Binding) (h : Resolve (ds.list.flatMap (·.type.lengths))) :
    Written (commaSeparated ((ds.list.map Binding.tree).map ArcLang.Binding.marks) ++ [symbol s])
      (ds.tokens Binding.tokens ++ [closer.1]) := by
  have hds : ∀ d ∈ ds.list, Written d.tree.marks d.tokens ∧
      Starts (· = .identifier) d.tokens := by
    intro d hd
    refine ⟨d.written fun t ht => h t (List.mem_flatMap.2 ⟨d, hd, ht⟩), ?_⟩
    exact .of_word d.name rfl _
  have hkinds (k : Kind) (hk : decide (k = .identifier) = true) : k.closes = false := by
    rw [of_decide_eq_true hk]; rfl
  rw [List.map_map]
  exact Elements.written hkinds hs closer ds hds

theorem Function.written (f : Function) (h : Resolve (Item.function f).lengths) :
    Written f.tree.marks f.tokens := by
  have hparameters := bindings_written rfl f.closer f.parameters
    fun t ht => h t (List.mem_append_left _ ht)
  have hresult : Written
      ((f.tree.result.map fun t => symbol .colon :: t.marks).getD [])
      ((f.result.map fun r => r.1.1 :: r.2.tokens).getD []) := by
    have hlengths := fun t ht => h t (List.mem_append_right _ ht)
    unfold Function.tree
    cases hr : f.result with
    | none => exact .nil
    | some r =>
      rw [hr] at hlengths
      exact .cons (r.1.written (by decide)) (r.2.written hlengths)
  have hhead := Written.cons f.word.written_keyword
    (.cons (f.name.written (by decide)) (.cons (f.opener.written (by decide)) hparameters))
  have hall := (hhead.append hresult).append f.body.written
  simpa [ArcLang.Function.marks, Function.tokens, Function.tree, Mark.name] using hall

theorem Struct.written (s : Struct) (h : Resolve (Item.struct s).lengths) :
    Written s.tree.marks s.tokens := by
  have hfields := bindings_written rfl s.closer s.fields h
  have hall := Written.cons s.word.written_keyword
    (.cons (s.name.written (by decide)) (.cons (s.opener.written (by decide)) hfields))
  simpa [ArcLang.Struct.marks, Struct.tokens, Struct.tree, Mark.name] using hall

/-- **The tokens of an item stand for the marks of its tree.** -/
theorem Item.written (i : Item) (h : Resolve i.lengths) : Written i.tree.marks i.tokens := by
  cases i with
  | function f => exact f.written h
  | struct s => exact s.written h
  | statement s => exact s.written

theorem Program.written (d : Program) (h : Resolve d.lengths) :
    Written (d.trees.flatMap ArcLang.Item.marks) d.tokens := by
  obtain ⟨items⟩ := d
  induction items with
  | nil => exact .nil
  | cons i items ih =>
    have hi := i.written fun t ht => h t (List.mem_append_left _ ht)
    have hrest := ih fun t ht => h t (List.mem_append_right _ ht)
    exact hi.append hrest

end Grammar

/-- What the parser builds without diagnostics keeps the tokens, also with bounds that the options
do not allow. -/
theorem parseScans_keeps_tokens {text file : String} {m n : Int} {p : Program} {s : State}
    (hn : 1 ≤ n) (h : parseScans ⟨.ofText file text, m⟩ { capacity := n } .shared
      (scansOf text file) = .ok (p, s)) (hs : s.errors.errors = []) :
    List.Forall₂ Mark.Fits p.marks
      (withoutTrailingCommas (Scan.beforeEnd (scansOf text file))) := by
  obtain ⟨hfaults, d, hd, htrees⟩ := derives_of_parseScans hn h hs
  have hspells : ∀ t ∈ d.tokens, t.kind.Spells t.lexeme.toList := by
    intro t ht
    rw [hd.tokens] at ht
    exact Scan.spells_of_mem_beforeEnd _ _ ht ((Scan.faults_scan_eq_nil_iff _ _).1 hfaults t ht)
  obtain ⟨kept, hkept, hfits⟩ := d.written hd.lengths hspells []
  rw [htrees] at hfits
  rw [List.append_nil, hd.tokens] at hkept
  rw [hkept, withoutTrailingCommas, List.append_nil]
  exact hfits

/-- **No token is lost, doubled or moved:** the program of a text without faults, flattened, is what
the tokens of the text say, each at its place, but for the commas before closing symbols. So it is
with the front end, whatever the options; and for every bound on nesting and on diagnostics, also
beyond what the options allow. -/
theorem parse_keeps_tokens (text file : String) :
    (∀ {o : Options} {r : Parsed}, parse text file o = .ok r → r.diagnostics = [] →
      List.Forall₂ Mark.Fits r.program.marks
        (withoutTrailingCommas (Scan.beforeEnd (scansOf text file)))) ∧
    ∀ {m n : Int} {p : Program} {s : State}, 1 ≤ n →
      parseScans ⟨.ofText file text, m⟩ { capacity := n } .shared (scansOf text file) =
        .ok (p, s) → s.errors.errors = [] →
      List.Forall₂ Mark.Fits p.marks
        (withoutTrailingCommas (Scan.beforeEnd (scansOf text file))) := by
  refine ⟨fun {o r} h hclean => ?_, parseScans_keeps_tokens⟩
  obtain ⟨s, hs, hdiagnostics⟩ := parseScans_of_parse h
  rw [hdiagnostics, Collector.sorted_eq_nil_iff] at hclean
  exact parseScans_keeps_tokens o.one_le_maxErrors hs hclean

/-- Here the list has a comma behind its last element, and a length is spelled in hexadecimal. -/
theorem parse_keeps_tokens_of_trailing_comma :
    (∃ r, parse "struct s \x7b a: [u8, 0x10], \x7d" "m.arc" {} = .ok r ∧ r.diagnostics = [] ∧
      List.Forall₂ Mark.Fits r.program.marks (withoutTrailingCommas
        (Scan.beforeEnd (scansOf "struct s \x7b a: [u8, 0x10], \x7d" "m.arc")))) ∧
    ∃ p s, parseScans ⟨.ofText "m.arc" "struct s \x7b a: [u8, 0x10], \x7d", 5000⟩ { capacity := 1 }
        .shared (scansOf "struct s \x7b a: [u8, 0x10], \x7d" "m.arc") = .ok (p, s) ∧
      s.errors.errors = [] ∧ List.Forall₂ Mark.Fits p.marks (withoutTrailingCommas
        (Scan.beforeEnd (scansOf "struct s \x7b a: [u8, 0x10], \x7d" "m.arc"))) := by
  have keeps := parse_keeps_tokens "struct s \x7b a: [u8, 0x10], \x7d" "m.arc"
  constructor
  · have h : (parse "struct s \x7b a: [u8, 0x10], \x7d" "m.arc" {}).toOption.map Parsed.isClean =
        some true := by decide +kernel
    obtain ⟨r, hp, hclean⟩ := exists_of_map_toOption h
    have hclean : r.diagnostics = [] := List.isEmpty_iff.1 hclean
    exact ⟨r, hp, hclean, keeps.1 hp hclean⟩
  · have h : (parseScans ⟨.ofText "m.arc" "struct s \x7b a: [u8, 0x10], \x7d", 5000⟩
        { capacity := 1 } .shared
        (scansOf "struct s \x7b a: [u8, 0x10], \x7d" "m.arc")).toOption.map
          (fun r => r.2.errors.kept.size) = some 0 := by decide +kernel
    obtain ⟨⟨p, s⟩, hp, hsize⟩ := exists_of_map_toOption h
    have hsilent : s.errors.errors = [] := List.length_eq_zero_iff.1 hsize
    exact ⟨p, s, hp, hsilent, keeps.2 (by decide) hp hsilent⟩

end ArcLang
