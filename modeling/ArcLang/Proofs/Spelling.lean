import ArcLang.Proofs.Input

/-!
# How tokens are spelled

Each kind of token has its spellings. The scanner gives a kind only to a text that spells it, and a
scan is a list of such tokens and of faults, up to one end token.

* `Piece.front_spells`: a piece with a kind spells it.
* `scanFrom_eq`: the shape of a whole scan.
-/

namespace ArcLang

open Reading (isWordStart isWordChar)

/-- A literal: letters between two quotes, at least so many. -/
def QuotedLetters (quote : Char) (least : Nat) (text : List Char) : Prop :=
  ∃ letters, text = quote :: letters ++ [quote] ∧ (∀ c ∈ letters, c.isAlpha = true) ∧
    least ≤ letters.length

/-- The text is one that tokens of the kind may have. -/
def Kind.Spells : Kind → List Char → Prop
  | identifier, text => ∃ c r, text = c :: r ∧ isWordStart c = true ∧
      (∀ d ∈ r, isWordChar d = true) ∧ Keyword.ofSpelling? (String.ofList text) = none
  | number, text => ∃ c r, text = c :: r ∧ c.isDigit = true ∧ ∀ d ∈ r, d.isAlphanum = true
  | string, text => QuotedLetters '"' 0 text
  | char, text => QuotedLetters '\x27' 1 text
  | keyword k, text => text = k.spelling.toList
  | symbol s, text => text = s.spelling.toList
  | endOfInput, _ | error, _ => False

-- decided along the list; there is an instance that goes through all characters
instance (priority := high) decidableAll {p : Char → Bool} (text : List Char) :
    Decidable (∀ c ∈ text, p c = true) := List.decidableBAll _ _

instance (priority := high) decidableNone {p : Char → Bool} (text : List Char) :
    Decidable (∀ c ∈ text, p c = false) := List.decidableBAll _ _

instance (quote : Char) (least : Nat) (text : List Char) :
    Decidable (QuotedLetters quote least text) :=
  -- the letters can only be what is between the first and the last character
  decidable_of_iff (text = quote :: text.tail.dropLast ++ [quote] ∧
      (∀ c ∈ text.tail.dropLast, c.isAlpha = true) ∧ least ≤ text.tail.dropLast.length) <| by
    constructor
    · exact fun h => ⟨_, h⟩
    · rintro ⟨letters, rfl, h⟩
      simpa using h

instance decidableCons {P : Char → List Char → Prop} [∀ c r, Decidable (P c r)] :
    (text : List Char) → Decidable (∃ c r, text = c :: r ∧ P c r)
  | [] => isFalse (by rintro ⟨_, _, ⟨⟩, _⟩)
  | c :: r => decidable_of_iff (P c r) ⟨fun h => ⟨c, r, rfl, h⟩, by
      rintro ⟨_, _, heq, h⟩
      cases heq
      exact h⟩

instance : (k : Kind) → (text : List Char) → Decidable (k.Spells text)
  | .identifier, text | .number, text => decidableCons text
  | .string, _ | .char, _ => inferInstanceAs (Decidable (QuotedLetters _ _ _))
  | .keyword k, text => inferInstanceAs (Decidable (text = k.spelling.toList))
  | .symbol s, text => inferInstanceAs (Decidable (text = s.spelling.toList))
  | .endOfInput, _ | .error, _ => inferInstanceAs (Decidable False)

theorem Keyword.spelling_of_ofSpelling? {text : String} {k : Keyword}
    (h : ofSpelling? text = some k) : k.spelling = text := by
  have := List.find?_some h
  simpa using this

theorem Symbol.prefix_of_front? {text : List Char} {s : Symbol} (h : front? text = some s) :
    s.spelling.toList <+: text := by
  have := List.find?_some h
  simpa using this

theorem Symbol.spelling_ne_nil (s : Symbol) : s.spelling.toList ≠ [] := by cases s <;> decide

theorem take_length_takeWhile {α : Type} (p : α → Bool) (l : List α) :
    l.take (l.takeWhile p).length = l.takeWhile p :=
  (List.prefix_iff_eq_take.1 (List.takeWhile_prefix p)).symm

/-- A run of one class of characters ends where what follows starts with none of the class. -/
theorem takeWhile_of_boundary {α : Type} {p : α → Bool} {r rest : List α}
    (hr : ∀ c ∈ r, p c = true) (hrest : ∀ c ∈ rest.head?, p c = false) :
    (r ++ rest).takeWhile p = r := by
  rw [List.takeWhile_append_of_pos hr]
  cases rest with
  | nil => exact List.append_nil r
  | cons c rest => rw [List.takeWhile_cons_of_neg (by rw [hrest c rfl]; decide), List.append_nil]

namespace Piece

open Reading

theorem word_spells {c : Char} {r : List Char} (hc : isWordStart c = true) :
    (wordKind (c :: r.takeWhile isWordChar)).Spells (c :: r.takeWhile isWordChar) := by
  unfold wordKind
  split
  · next k hk =>
    show _ = k.spelling.toList
    rw [Keyword.spelling_of_ofSpelling? hk, String.toList_ofList]
  · next hk => exact ⟨c, _, rfl, hc, fun d hd => List.mem_takeWhile_imp hd, hk⟩

/-- A literal that is not broken ends with a quote behind enough letters. -/
theorem literal_ok {quote : Char} {kind k : Kind} {name : String} {least : Nat} {r : List Char}
    (h : (literal quote kind name least r).outcome = .ok k) :
    k = kind ∧ least ≤ (r.takeWhile Char.isAlpha).length ∧
      (r.dropWhile Char.isAlpha).head? = some quote ∧
      (literal quote kind name least r).more = (r.takeWhile Char.isAlpha).length + 1 := by
  have hbroken (why : Refusal) : (brokenLiteral quote r why).outcome ≠ .ok k := by
    rintro ⟨⟩
  unfold literal at h ⊢
  dsimp only at h ⊢
  cases hd : (r.dropWhile Char.isAlpha).head? with
  | none => rw [hd] at h; exact absurd h (hbroken _)
  | some c =>
    rw [hd] at h
    dsimp only at h ⊢
    by_cases hquote : c = quote
    · rw [if_pos hquote] at h ⊢
      by_cases hlong : least ≤ (r.takeWhile Char.isAlpha).length
      · rw [if_pos hlong] at h ⊢
        cases h
        exact ⟨rfl, hlong, congrArg some hquote, rfl⟩
      · rw [if_neg hlong] at h
        exact absurd h (hbroken _)
    · rw [if_neg hquote] at h
      split at h
      · exact absurd h (hbroken _)
      · exact absurd h (hbroken _)

theorem literal_spells {quote : Char} {kind k : Kind} {name : String} {least : Nat}
    {r : List Char} (h : (literal quote kind name least r).outcome = .ok k) :
    k = kind ∧
      QuotedLetters quote least (quote :: r.take (literal quote kind name least r).more) := by
  obtain ⟨rfl, hlong, hquote, hmore⟩ := literal_ok h
  obtain ⟨rest, hrest⟩ := List.head?_eq_some_iff.1 hquote
  refine ⟨rfl, r.takeWhile Char.isAlpha, ?_, fun d hd => List.mem_takeWhile_imp hd, hlong⟩
  -- what is taken is the letters and the quote behind them
  have hprefix : r.takeWhile Char.isAlpha ++ [quote] <+: r := by
    refine ⟨rest, ?_⟩
    rw [List.append_assoc, List.singleton_append, ← hrest, List.takeWhile_append_dropWhile]
  have htake := List.prefix_iff_eq_take.1 hprefix
  rw [List.length_append, List.length_singleton] at htake
  rw [hmore, ← htake]
  rfl

theorem symbol_spells {c : Char} {r : List Char} {k : Kind}
    (h : (Reading.symbol c r).outcome = .ok k) :
    k.Spells (c :: r.take (Reading.symbol c r).more) := by
  unfold Reading.symbol at h ⊢
  split at h
  · next s hs =>
    cases h
    obtain ⟨rest, hrest⟩ := Symbol.prefix_of_front? hs
    show _ = s.spelling.toList
    obtain ⟨d, ds, hd⟩ := List.exists_cons_of_ne_nil s.spelling_ne_nil
    rw [hd] at hrest ⊢
    cases hrest
    simp
  · cases h

/-- **A piece with a kind spells it.** -/
theorem front_spells {c : Char} {r : List Char} {k : Kind} (h : (front c r).outcome = .ok k) :
    k.Spells (front c r).text := by
  unfold front at h ⊢
  dsimp only at h ⊢
  unfold Reading.front at h ⊢
  split at h
  · next hc =>
    rw [if_pos hc]
    cases h
    unfold Reading.word
    rw [take_length_takeWhile]
    exact word_spells hc
  · next hword =>
    rw [if_neg hword]
    split at h
    · next hc =>
      rw [if_pos hc]
      cases h
      unfold Reading.number
      rw [take_length_takeWhile]
      exact ⟨c, _, rfl, hc, fun d hd => List.mem_takeWhile_imp hd⟩
    · next hdigit =>
      rw [if_neg hdigit]
      split at h
      · next hc =>
        rw [if_pos hc]
        subst hc
        obtain ⟨rfl, hq⟩ := literal_spells h
        exact hq
      · next hquote =>
        rw [if_neg hquote]
        split at h
        · next hc =>
          rw [if_pos hc]
          subst hc
          obtain ⟨rfl, hq⟩ := literal_spells h
          exact hq
        · next hapostrophe =>
          rw [if_neg hapostrophe]
          exact symbol_spells h

end Piece

namespace Scan

/-- A token that is spelled as its kind says, or a fault with an error token. -/
def IsSpelled : Scan → Prop
  | token t => t.kind.Spells t.lexeme.toList
  | fault _ t => t.kind = .error

theorem IsSpelled.isEnd_shown {x : Scan} (h : x.IsSpelled) : x.shown.isEnd = false := by
  unfold Token.isEnd
  rw [decide_eq_false_iff_not]
  intro hend
  cases x with
  | token t =>
    have hspells : t.kind.Spells t.lexeme.toList := h
    rw [show t.kind = .endOfInput from hend] at hspells
    exact hspells
  | fault why t =>
    rw [show (fault why t).shown.kind = .error from h] at hend
    cases hend

/-- A scan that is spelled is a fault exactly if it shows an error token. -/
theorem IsSpelled.fault?_eq_none_iff {x : Scan} (h : x.IsSpelled) :
    x.fault? = none ↔ x.shown.isError = false := by
  unfold Token.isError
  rw [decide_eq_false_iff_not]
  cases x with
  | token t =>
    refine ⟨fun _ herror => ?_, fun _ => rfl⟩
    have hspells : t.kind.Spells t.lexeme.toList := h
    rw [show t.kind = .error from herror] at hspells
    exact hspells
  | fault why t => exact ⟨nofun, fun hne => absurd h hne⟩

theorem isSpelled_ofPiece (source : Source) (p : Position) (c : Char) (r : List Char) :
    (ofPiece source p (Piece.front c r)).IsSpelled := by
  unfold ofPiece
  dsimp only
  cases h : (Piece.front c r).outcome with
  | ok k =>
    show k.Spells (String.ofList _).toList
    rw [String.toList_ofList]
    exact Piece.front_spells h
  | error why => rfl

end Scan

/-- **A scan is a list of spelled tokens and of faults, and then the end token.** -/
theorem scanFrom_eq (source : Source) (p : Position) (text : List Char) :
    ∃ xs e, scanFrom source p text = xs ++ [.token e] ∧ e.isEnd = true ∧
      ∀ x ∈ xs, x.IsSpelled := by
  fun_induction scanFrom source p text with
  | case1 p text start h => exact ⟨[], _, rfl, rfl, List.forall_mem_nil _⟩
  | case2 p text start c r h piece ih =>
    obtain ⟨xs, e, hxs, hend, hspelled⟩ := ih
    refine ⟨_ :: xs, e, by rw [hxs]; rfl, hend, ?_⟩
    exact List.forall_mem_cons.2 ⟨Scan.isSpelled_ofPiece source start c r, hspelled⟩

namespace Scan

variable (source : Source) (text : String)

theorem beforeEnd_append {xs : List Scan} {e : Token} (hend : e.isEnd = true)
    (hxs : ∀ x ∈ xs, x.IsSpelled) : beforeEnd (xs ++ [.token e]) = xs.map shown := by
  unfold beforeEnd tokens
  rw [List.map_append, List.takeWhile_append_of_pos]
  · simp [shown, hend]
  · intro t ht
    obtain ⟨x, hx, rfl⟩ := List.mem_map.1 ht
    rw [(hxs x hx).isEnd_shown]
    rfl

/-- **A scan has no faults exactly if there is no error token before its end.** -/
theorem faults_scan_eq_nil_iff :
    faults (scan source text) = [] ↔ ∀ t ∈ beforeEnd (scan source text), t.isError = false := by
  obtain ⟨xs, e, hscan, hend, hxs⟩ := scanFrom_eq source .start text.toList
  unfold scan
  rw [hscan, beforeEnd_append hend hxs, List.forall_mem_map]
  unfold faults
  rw [List.filterMap_eq_nil_iff, List.forall_mem_append]
  have hlast : fault? (.token e) = none := rfl
  rw [List.forall_mem_singleton, and_iff_left hlast]
  exact forall₂_congr fun x hx => (hxs x hx).fault?_eq_none_iff

/-- The tokens before the end that are no error tokens are spelled as their kinds say. -/
theorem spells_of_mem_beforeEnd {t : Token} (h : t ∈ beforeEnd (scan source text))
    (herror : t.isError = false) : t.kind.Spells t.lexeme.toList := by
  obtain ⟨xs, e, hscan, hend, hxs⟩ := scanFrom_eq source .start text.toList
  unfold scan at h
  rw [hscan, beforeEnd_append hend hxs] at h
  obtain ⟨x, hx, rfl⟩ := List.mem_map.1 h
  have hspelled := hxs x hx
  have hnone := hspelled.fault?_eq_none_iff.2 herror
  cases x with
  | token t => exact hspelled
  | fault why t => cases hnone

/-- Proper tokens of a scan are no error tokens. -/
theorem isError_of_token_mem {t : Token} (h : .token t ∈ scan source text) :
    t.isError = false := by
  obtain ⟨xs, e, hscan, hend, hxs⟩ := scanFrom_eq source .start text.toList
  unfold scan at h
  rw [hscan] at h
  rcases List.mem_append.1 h with h | h
  · exact (hxs _ h).fault?_eq_none_iff.1 rfl
  · cases List.mem_singleton.1 h
    rw [← Bool.not_eq_true, Token.isError_iff, Token.isEnd_iff.1 hend]
    decide

end Scan

end ArcLang
