import Mathlib.Data.List.Find
import ArcLang.Proofs.Marks

/-!
# Scanning what marks are written as

Marks are written one after the other with single blanks between them. Every lexeme ends at a blank,
so a scan gives back a token for each mark, and nothing else.

* `Numeral.resolve_toString`: a length in decimal stands for itself.
* `Reading.front_of_spells`: a lexeme before a blank is read as a whole, and as what it is.
* `scanFrom_written`: the scan of what is written.
-/

namespace ArcLang

/-! ## Numbers in decimal -/

theorem Radix.ofChars_of_digits {cs : List Char} (h : ∀ c ∈ cs, c.isDigit = true) :
    ofChars cs = decimal := by
  unfold ofChars
  split
  · exact absurd (h 'x' (List.mem_cons_of_mem _ List.mem_cons_self)) (by decide)
  · exact absurd (h 'b' (List.mem_cons_of_mem _ List.mem_cons_self)) (by decide)
  · rfl

theorem Radix.digit?_of_isDigit {c : Char} (h : c.isDigit = true) :
    decimal.digit? c = some (c.toNat - '0'.toNat) := by
  have hle : '0' ≤ c ∧ c ≤ '9' := Char.isDigit_iff_toNat.1 h
  have hlt : c.toNat - '0'.toNat < 10 := by
    have : c.toNat ≤ '9'.toNat := hle.2
    have : '9'.toNat = '0'.toNat + 9 := rfl
    omega
  unfold digit?
  rw [if_pos hle]
  exact if_pos (decide_eq_true hlt)

theorem Radix.mapM_digit? {cs : List Char} (h : ∀ c ∈ cs, c.isDigit = true) :
    cs.mapM decimal.digit? = some (cs.map fun c => c.toNat - '0'.toNat) := by
  induction cs with
  | nil => rfl
  | cons c cs ih =>
    obtain ⟨hc, hcs⟩ := List.forall_mem_cons.1 h
    rw [List.mapM_cons, digit?_of_isDigit hc, ih hcs]
    rfl

theorem Radix.value_map (cs : List Char) :
    decimal.value (cs.map fun c => c.toNat - '0'.toNat) = Nat.ofDigitChars 10 cs 0 := by
  unfold value
  rw [List.foldl_map, Nat.ofDigitChars_eq_foldl]
  simp only [base, Nat.mul_comm]

theorem Numeral.length_toDigits_le {n k : Nat} (hk : 0 < k) (h : n < Nat.pow 10 k) :
    (Nat.toDigits 10 n).length ≤ k := (Nat.length_toDigits_le_iff (by decide) hk).2 h

/-- **A length in decimal stands for itself,** unless it has too many digits. -/
theorem Numeral.resolve_toString {n : Nat} (h : isWritable n = true) :
    resolve (toString n) = .length n := by
  have hdigits (c : Char) (hc : c ∈ Nat.toDigits 10 n) : c.isDigit = true :=
    Nat.isDigit_of_mem_toDigits (by decide) (by decide) hc
  have hlength : (Nat.toDigits 10 n).length ≤ maxDigits :=
    length_toDigits_le (by decide) (of_decide_eq_true h)
  have hradix : Radix.of (toString n) = .decimal := by
    unfold Radix.of
    rw [Nat.toString_eq_repr, Nat.toList_repr]
    exact Radix.ofChars_of_digits hdigits
  have hvalue : Radix.decimal.value ((Nat.toDigits 10 n).map fun c => c.toNat - '0'.toNat) = n := by
    rw [Radix.value_map, Nat.ofDigitChars_ten_toDigits]
  -- the digits resolve to their value, as there are some and not too many
  unfold resolve
  rw [hradix]
  unfold Radix.digits
  dsimp only
  rw [Nat.toString_eq_repr, Nat.toList_repr, Radix.mapM_digit? hdigits]
  cases hmap : (Nat.toDigits 10 n).map fun c => c.toNat - '0'.toNat with
  | nil => exact absurd (List.map_eq_nil_iff.1 hmap) Nat.toDigits_ne_nil
  | cons v vs =>
    rw [hmap] at hvalue
    dsimp only
    rw [if_neg, hvalue]
    rintro ⟨-, hlong⟩
    rw [← hmap, List.length_map] at hlong
    exact absurd hlength (Nat.not_le.2 hlong)

/-! ## Lexemes before a blank -/

/-- The text ends, or goes on with a blank. -/
def Breaks (rest : List Char) : Prop := ∀ c ∈ rest.head?, c = ' '

theorem breaks_nil : Breaks [] := fun _ hc => nomatch hc

theorem breaks_blank (r : List Char) : Breaks (' ' :: r) := fun _ hc => (Option.some.inj hc).symm

/-- What breaks starts with no character of a class without the blank. -/
theorem Breaks.boundary {p : Char → Bool} {rest : List Char} (h : Breaks rest)
    (hp : p ' ' = false) : ∀ c ∈ rest.head?, p c = false := fun c hc => by rw [h c hc, hp]

/-- What has no blank fits in front of a text only if it fits before the blank. -/
theorem isPrefixOf_append_of_breaks {s w rest : List Char} (hs : ' ' ∉ s) (hrest : Breaks rest) :
    s.isPrefixOf (w ++ rest) = s.isPrefixOf w := by
  induction s generalizing w with
  | nil => rw [List.isPrefixOf_nil_left, List.isPrefixOf_nil_left]
  | cons c s ih =>
    rw [List.mem_cons, not_or] at hs
    -- behind the word comes a blank, which is not in the text that should fit
    cases w with
    | nil =>
      cases rest with
      | nil => rfl
      | cons d rest =>
        rw [hrest d rfl]
        show (c == ' ' && _) = false
        rw [beq_false_of_ne (Ne.symm hs.1), Bool.false_and]
    | cons d w => rw [List.cons_append, List.isPrefixOf, List.isPrefixOf, ih hs.2]

theorem Keyword.word_spelling (k : Keyword) : ∃ c r, k.spelling.toList = c :: r ∧
    Reading.isWordStart c = true ∧ ∀ d ∈ r, Reading.isWordChar d = true := by
  have h : ∀ text : List Char, (text.head?.any Reading.isWordStart &&
      text.tail.all Reading.isWordChar) = true → ∃ c r, text = c :: r ∧
        Reading.isWordStart c = true ∧ ∀ d ∈ r, Reading.isWordChar d = true := by
    intro text htext
    cases text with
    | nil => cases htext
    | cons c r =>
      rw [Bool.and_eq_true, List.all_eq_true] at htext
      exact ⟨c, r, rfl, htext⟩
  refine h _ ?_
  rcases k with _ | _ | _ | _ | _ | _ | _ | (_ | _) | _ | _ | ⟨_ | _, _ | _ | _ | _⟩ <;> decide

/-- No symbol starts like a word, a number or a literal. -/
theorem Symbol.head_spelling {s : Symbol} {c : Char} {t : List Char}
    (h : s.spelling.toList = c :: t) :
    Reading.isWordStart c = false ∧ c.isDigit = false ∧ c ≠ '"' ∧ c ≠ '\x27' := by
  have hhead : s.spelling.toList.head?.all (fun c => !Reading.isWordStart c && !c.isDigit &&
      c != '"' && c != '\x27') = true := by cases s <;> decide
  rw [h] at hhead
  simpa [and_assoc] using hhead

theorem Symbol.front?_spelling {s : Symbol} {rest : List Char} (h : Breaks rest) :
    front? (s.spelling.toList ++ rest) = some s := by
  have hblank : ∀ t : Symbol, ' ' ∉ t.spelling.toList := by rintro ⟨⟩ <;> decide
  have hwhole : front? s.spelling.toList = some s := by cases s <;> decide
  rw [← hwhole]
  exact List.find?_congr fun t _ => isPrefixOf_append_of_breaks (hblank t) h

namespace Reading

theorem wordKind_of_none {w : List Char} (h : Keyword.ofSpelling? (String.ofList w) = none) :
    wordKind w = .identifier := by
  unfold wordKind
  rw [h]

theorem wordKind_spelling (k : Keyword) : wordKind k.spelling.toList = .keyword k := by
  unfold wordKind
  rw [String.ofList_toList, Keyword.ofSpelling?_spelling]

variable {c : Char} {r rest : List Char}

theorem isWordStart_of_isDigit (h : c.isDigit = true) : isWordStart c = false := by
  have hhigh : c.toNat ≤ 57 := (Char.isDigit_iff_toNat.1 h).2
  have hne : c ≠ '_' := by rintro rfl; revert h; decide
  have hupper : c.isUpper = false := decide_eq_false fun hc => by
    have : 65 ≤ c.toNat := hc.1
    omega
  have hlower : ¬ 'a'.val ≤ c.val := fun hc => by
    have : 97 ≤ c.toNat := hc
    omega
  show ((c.isUpper || (decide ('a'.val ≤ c.val) && _)) || decide (c = '_')) = false
  rw [hupper, decide_eq_false hlower, decide_eq_false hne]
  rfl

theorem front_of_word (hc : isWordStart c = true) (hr : ∀ d ∈ r, isWordChar d = true)
    (hrest : ∀ d ∈ rest.head?, isWordChar d = false) :
    front c (r ++ rest) = ⟨r.length, .ok (wordKind (c :: r))⟩ := by
  unfold front
  rw [if_pos hc]
  unfold word
  rw [takeWhile_of_boundary hr hrest]

theorem front_of_number (hc : c.isDigit = true) (hr : ∀ d ∈ r, d.isAlphanum = true)
    (hrest : ∀ d ∈ rest.head?, d.isAlphanum = false) :
    front c (r ++ rest) = ⟨r.length, .ok .number⟩ := by
  unfold front
  rw [isWordStart_of_isDigit hc, if_neg (by decide), if_pos hc]
  unfold number
  rw [takeWhile_of_boundary hr hrest]

/-- A literal ends at its second quote, whatever follows. -/
theorem literal_of_letters {quote : Char} {kind : Kind} {name : String} {least : Nat}
    {letters : List Char} (hquote : quote.isAlpha = false) (hl : ∀ d ∈ letters, d.isAlpha = true)
    (hlong : least ≤ letters.length) :
    literal quote kind name least (letters ++ [quote] ++ rest) =
      ⟨(letters ++ [quote]).length, .ok kind⟩ := by
  have hneg : ¬ quote.isAlpha = true := by rw [hquote]; decide
  unfold literal
  rw [List.append_assoc, List.takeWhile_append_of_pos hl, List.dropWhile_append_of_pos hl,
    List.singleton_append, List.takeWhile_cons_of_neg hneg, List.dropWhile_cons_of_neg hneg,
    List.append_nil]
  dsimp only [List.head?_cons]
  rw [if_pos rfl, if_pos hlong, List.length_append, List.length_singleton]

theorem front_of_symbol {s : Symbol} (hs : s.spelling.toList = c :: r) (hrest : Breaks rest) :
    front c (r ++ rest) = ⟨r.length, .ok (.symbol s)⟩ := by
  have hfront := Symbol.front?_spelling (s := s) hrest
  rw [hs] at hfront
  obtain ⟨hword, hdigit, hstring, hchar⟩ := Symbol.head_spelling hs
  unfold front
  rw [hword, hdigit, if_neg (by decide), if_neg (by decide), if_neg hstring, if_neg hchar]
  unfold symbol
  rw [← List.cons_append, hfront]
  dsimp only
  rw [hs, List.length_cons, Nat.add_sub_cancel]

/-- **A lexeme before a blank is read as a whole, and as what it is.** -/
theorem front_of_spells {k : Kind} (h : k.Spells (c :: r)) (hrest : Breaks rest) :
    front c (r ++ rest) = ⟨r.length, .ok k⟩ := by
  cases k with
  | endOfInput => exact h.elim
  | error => exact h.elim
  | identifier =>
    obtain ⟨d, t, heq, hd, ht, hnone⟩ := h
    cases heq
    rw [front_of_word hd ht (hrest.boundary rfl), wordKind_of_none hnone]
  | number =>
    obtain ⟨d, t, heq, hd, ht⟩ := h
    cases heq
    exact front_of_number hd ht (hrest.boundary rfl)
  | string =>
    obtain ⟨letters, heq, hletters, hlong⟩ := h
    cases heq
    exact literal_of_letters rfl hletters hlong
  | char =>
    obtain ⟨letters, heq, hletters, hlong⟩ := h
    cases heq
    exact literal_of_letters rfl hletters hlong
  | keyword k =>
    have heq : c :: r = k.spelling.toList := h
    obtain ⟨d, t, hspelling, hd, ht⟩ := k.word_spelling
    have hword := wordKind_spelling k
    rw [← heq] at hspelling hword
    cases hspelling
    rw [front_of_word hd ht (hrest.boundary rfl), hword]
  | symbol s => exact front_of_symbol (Eq.symm h) hrest

end Reading

/-- No lexeme starts like a blank, and none like a comment. -/
theorem Kind.Spells.head {k : Kind} {w : List Char} (h : k.Spells w) :
    ∃ c r, w = c :: r ∧ isBlank c = false ∧ (c = '/' → r.head? ≠ some '/') := by
  have hword : ∀ c : Char, (Reading.isWordStart c || c.isDigit || c == '"' || c == '\x27') = true →
      isBlank c = false ∧ c ≠ '/' := by
    intro c hc
    constructor
    · by_contra hblank
      unfold isBlank at hblank
      simp only [Bool.not_eq_false, Bool.or_eq_true, decide_eq_true_eq] at hblank
      rcases hblank with ((rfl | rfl) | rfl) | rfl <;> revert hc <;> decide
    · rintro rfl
      revert hc; decide
  have hsymbol (s : Symbol) : (s.spelling.toList.head?.all fun c => !isBlank c &&
      (c != '/' || s.spelling.toList.tail.head? != some '/')) = true := by cases s <;> decide
  have hstart : ∀ c r, w = c :: r →
      (Reading.isWordStart c || c.isDigit || c == '"' || c == '\x27') = true →
        ∃ c r, w = c :: r ∧ isBlank c = false ∧ (c = '/' → r.head? ≠ some '/') :=
    fun c r hw hc => ⟨c, r, hw, (hword c hc).1, fun hslash => absurd hslash (hword c hc).2⟩
  cases k with
  | endOfInput => exact h.elim
  | error => exact h.elim
  | identifier =>
    obtain ⟨c, r, hw, hc, -⟩ := h
    exact hstart c r hw (by rw [hc]; rfl)
  | number =>
    obtain ⟨c, r, hw, hc, -⟩ := h
    exact hstart c r hw (by rw [hc, Bool.or_true]; rfl)
  | string =>
    obtain ⟨letters, hw, -⟩ := h
    exact hstart _ _ hw rfl
  | char =>
    obtain ⟨letters, hw, -⟩ := h
    exact hstart _ _ hw rfl
  | keyword k =>
    obtain ⟨c, r, hspelling, hc, -⟩ := k.word_spelling
    exact hstart c r (Eq.trans h hspelling) (by rw [hc]; rfl)
  | symbol s =>
    obtain ⟨c, r, hspelling⟩ := List.exists_cons_of_ne_nil s.spelling_ne_nil
    have hs := hsymbol s
    rw [hspelling] at hs
    refine ⟨c, r, Eq.trans h hspelling, ?_⟩
    simpa [imp_iff_not_or] using hs

/-- Nothing is skipped in front of a lexeme. -/
theorem trivia_of_spells {k : Kind} {w rest : List Char} (h : k.Spells w) (hrest : Breaks rest) :
    trivia false (w ++ rest) = ([], w ++ rest) := by
  obtain ⟨c, r, rfl, hblank, hslash⟩ := h.head
  -- a slash before a blank is the operator
  have hcomment : ¬ (decide (c = '/') && decide ((r ++ rest).head? = some '/')) = true := by
    rw [Bool.and_eq_true, decide_eq_true_eq, decide_eq_true_eq]
    rintro ⟨hc, hhead⟩
    cases r with
    | nil => exact absurd (hrest _ hhead) (by decide)
    | cons d r => exact hslash hc hhead
  rw [List.cons_append, trivia, if_neg (by decide), hblank, if_neg (by decide), if_neg hcomment]

section Scanning

variable {source : Source} {p : Position} {text : List Char}

theorem scanFrom_of_trivia {skipped : List Char} {c : Char} {r : List Char}
    (h : trivia false text = (skipped, c :: r)) : scanFrom source p text =
      .ofPiece source (p.after skipped) (Piece.front c r) ::
        scanFrom source ((p.after skipped).after (Piece.front c r).text)
          (Piece.front c r).rest := by
  rw [scanFrom]
  split
  · next hnil => rw [h] at hnil; cases hnil
  · next c' r' hcons =>
    rw [h] at hcons
    cases hcons
    rw [h]

theorem scanFrom_of_trivia_nil {skipped : List Char} (h : trivia false text = (skipped, [])) :
    scanFrom source p text = [.token (.endAt ((p.after skipped).inFile source.file))] := by
  rw [scanFrom]
  split
  · rw [h]
  · next hcons => rw [h] at hcons; cases hcons

/-- A blank only moves the scan on. -/
theorem scanFrom_blank : scanFrom source p (' ' :: text) = scanFrom source (p.next ' ') text := by
  obtain ⟨skipped, rest, htrivia⟩ : ∃ skipped rest, trivia false text = (skipped, rest) :=
    ⟨_, _, rfl⟩
  have hblank : trivia false (' ' :: text) = (' ' :: skipped, rest) := by
    rw [trivia, htrivia]; rfl
  cases rest with
  | nil => rw [scanFrom_of_trivia_nil hblank, scanFrom_of_trivia_nil htrivia]; rfl
  | cons c r => rw [scanFrom_of_trivia hblank, scanFrom_of_trivia htrivia]; rfl

/-- What is read as a lexeme, with nothing skipped in front of it, is scanned as one token. -/
theorem scanFrom_of_front (source : Source) (p : Position) {k : Kind} {c : Char} {r : List Char}
    (htrivia : trivia false (c :: (r ++ text)) = ([], c :: (r ++ text)))
    (hfront : Reading.front c (r ++ text) = ⟨r.length, .ok k⟩) :
    ∃ t, t.kind = k ∧ t.lexeme.toList = c :: r ∧ scanFrom source p (c :: (r ++ text)) =
      .token t :: scanFrom source (p.after (c :: r)) text := by
  have hpiece : Piece.front c (r ++ text) = ⟨c :: r, text, .ok k⟩ := by
    unfold Piece.front
    rw [hfront]
    simp
  rw [scanFrom_of_trivia htrivia, hpiece]
  exact ⟨⟨k, String.ofList (c :: r), _⟩, rfl, String.toList_ofList, rfl⟩

/-- **A lexeme before a blank is scanned as one token.** -/
theorem scanFrom_of_spells (source : Source) (p : Position) {k : Kind} {w : List Char}
    (h : k.Spells w) (hbreaks : Breaks text) :
    ∃ t, t.kind = k ∧ t.lexeme.toList = w ∧
      scanFrom source p (w ++ text) = .token t :: scanFrom source (p.after w) text := by
  have htrivia := trivia_of_spells h hbreaks
  obtain ⟨c, r, rfl, -⟩ := h.head
  exact scanFrom_of_front source p htrivia (Reading.front_of_spells h hbreaks)

end Scanning

/-! ## What marks are written as -/

namespace Mark

/-- The kind of the tokens that stand for the mark. -/
def kind : Mark → Kind
  | word kind _ => kind
  | length _ => .number

/-- A mark as it is written, with lengths in decimal. -/
def text : Mark → String
  | word _ text => text
  | length n => toString n

/-- The mark can be written. -/
def IsLexical : Mark → Prop
  | word kind text => kind.Spells text.toList
  | length n => Numeral.isWritable n = true

theorem IsLexical.spells {m : Mark} (h : m.IsLexical) : m.kind.Spells m.text.toList := by
  cases m with
  | word kind text => exact h
  | length n =>
    show Kind.number.Spells (toString n).toList
    rw [Nat.toString_eq_repr, Nat.toList_repr]
    have hdigits (c : Char) (hc : c ∈ Nat.toDigits 10 n) : c.isDigit = true :=
      Nat.isDigit_of_mem_toDigits (by decide) (by decide) hc
    obtain ⟨c, r, hcons⟩ := List.exists_cons_of_ne_nil (Nat.toDigits_ne_nil (n := n) (b := 10))
    rw [hcons] at hdigits ⊢
    obtain ⟨hc, hr⟩ := List.forall_mem_cons.1 hdigits
    refine ⟨c, r, rfl, hc, fun d hd => ?_⟩
    unfold Char.isAlphanum
    rw [hr d hd, Bool.or_true]

/-- A token with the text of a mark stands for it. -/
theorem IsLexical.fits {m : Mark} {t : Token} (h : m.IsLexical) (hkind : t.kind = m.kind)
    (htext : t.lexeme = m.text) : m.Fits t := by
  cases m with
  | word kind text => exact ⟨hkind, htext⟩
  | length n => exact ⟨hkind, by rw [htext]; exact Numeral.resolve_toString h⟩

/-- Marks written one after the other, with single blanks between them. -/
def written (ms : List Mark) : String := " ".intercalate (ms.map text)

end Mark

/-- Tokens with an end token behind them are faultless, and they are those before the end. -/
theorem Scan.faults_and_beforeEnd {ts : List Token} {e : Token} (hend : e.isEnd = true)
    (hspells : ∀ t ∈ ts, t.kind.Spells t.lexeme.toList) :
    Scan.faults (ts.map .token ++ [.token e]) = [] ∧
      Scan.beforeEnd (ts.map .token ++ [.token e]) = ts := by
  have hxs : ∀ x ∈ ts.map Scan.token, x.IsSpelled := List.forall_mem_map.2 hspells
  constructor
  · unfold Scan.faults
    simp [Scan.fault?]
  · rw [Scan.beforeEnd_append hend hxs, List.map_map]
    exact List.map_id ts

/-- **The scan of written marks gives back a token for each,** and then the end token. -/
theorem scanFrom_written (source : Source) {ms : List Mark} (h : ∀ m ∈ ms, m.IsLexical)
    (p : Position) : ∃ ts e, scanFrom source p (Mark.written ms).toList =
      ts.map .token ++ [.token e] ∧ e.isEnd = true ∧ List.Forall₂ Mark.Fits ms ts ∧
        ∀ t ∈ ts, t.kind.Spells t.lexeme.toList := by
  induction ms generalizing p with
  | nil =>
    exact ⟨[], _, scanFrom_of_trivia_nil rfl, rfl, .nil, List.forall_mem_nil _⟩
  | cons m ms ih =>
    obtain ⟨hm, hms⟩ := List.forall_mem_cons.1 h
    -- behind the mark the text ends, or a blank leads over to the next one
    obtain ⟨rest, p', hwritten, hbreaks, hrest⟩ : ∃ rest p',
        (Mark.written (m :: ms)).toList = m.text.toList ++ rest ∧ Breaks rest ∧
          scanFrom source (p.after m.text.toList) rest =
            scanFrom source p' (Mark.written ms).toList := by
      unfold Mark.written
      cases ms with
      | nil => exact ⟨[], _, by simp, breaks_nil, rfl⟩
      | cons n ms =>
        refine ⟨' ' :: (" ".intercalate ((n :: ms).map Mark.text)).toList, _, ?_, breaks_blank _,
          scanFrom_blank⟩
        rw [List.map_cons, List.map_cons, String.intercalate_cons_cons]
        simp
    obtain ⟨t, hkind, hlexeme, hscan⟩ := scanFrom_of_spells source p hm.spells hbreaks
    obtain ⟨ts, e, hts, hend, hfits, hspells⟩ := ih hms p'
    have ht : t.kind.Spells t.lexeme.toList := by rw [hkind, hlexeme]; exact hm.spells
    refine ⟨t :: ts, e, ?_, hend, .cons (hm.fits hkind (String.toList_inj.1 hlexeme)) hfits,
      List.forall_mem_cons.2 ⟨ht, hspells⟩⟩
    rw [hwritten, hscan, hrest, hts]
    rfl

end ArcLang
