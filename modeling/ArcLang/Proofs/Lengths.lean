import ArcLang.Proofs.Attributes

/-!
# The lengths of arrays

Which texts stand for lengths, and for which. The digits of a radix are told by the characters that
write them, in either case, and a text by its digits, of which the first weighs most.

* `Radix.digit?_eq_some_iff`: the digits of a radix.
* `Numeral.IsPositional.toDigits`: every number is written in every radix.
* `Numeral.resolve_exact`: the statement about texts and numbers.
-/

namespace ArcLang

/-! ## Digits -/

/-- The character writes a digit of the base, in lower or in upper case. -/
def WritesDigit (base : Nat) (c : Char) (d : Nat) : Prop :=
  d < base ∧ (c = d.digitChar ∨ c = d.digitChar.toUpper)

theorem eq_digitChar_of_toNat {c : Char} {d : Nat} (hd : d < 16)
    (h : c.toNat = if d < 10 then d + 48 else d + 87) : c = d.digitChar := by
  have hdigit : ∀ d < 16, d.digitChar.toNat = if d < 10 then d + 48 else d + 87 := by decide
  exact Char.toNat_inj.1 (h.trans (hdigit d hd).symm)

theorem eq_toUpper_digitChar_of_toNat {c : Char} {d : Nat} (hd : d < 16) (hletter : 10 ≤ d)
    (h : c.toNat = d + 55) : c = d.digitChar.toUpper := by
  have hdigit : ∀ d < 16, 10 ≤ d → d.digitChar.toUpper.toNat = d + 55 := by decide
  exact Char.toNat_inj.1 (h.trans (hdigit d hd hletter).symm)

namespace Radix

theorem base_le (r : Radix) : r.base ≤ 16 := by cases r <;> decide

/-- **The digits of a radix are those that its characters write.** -/
theorem digit?_eq_some_iff {r : Radix} {c : Char} {d : Nat} :
    r.digit? c = some d ↔ WritesDigit r.base c d := by
  constructor
  · intro h
    obtain ⟨hvalue, hlt⟩ := Option.filter_eq_some_iff.1 h
    have hlt : d < r.base := of_decide_eq_true hlt
    have hd : d < 16 := hlt.trans_le r.base_le
    refine ⟨hlt, ?_⟩
    -- a digit, a lower-case letter or an upper-case letter
    split at hvalue
    next hc =>
      have hc : 48 ≤ c.toNat ∧ c.toNat ≤ 57 := hc
      have hd : c.toNat - 48 = d := Option.some.inj hvalue
      refine .inl (eq_digitChar_of_toNat ‹d < 16› ?_)
      rw [if_pos (by omega)]
      omega
    split at hvalue
    next hc =>
      have hc : 97 ≤ c.toNat ∧ c.toNat ≤ 102 := hc
      have hd : c.toNat - 97 + 10 = d := Option.some.inj hvalue
      refine .inl (eq_digitChar_of_toNat ‹d < 16› ?_)
      rw [if_neg (by omega)]
      omega
    split at hvalue
    next hc =>
      have hc : 65 ≤ c.toNat ∧ c.toNat ≤ 70 := hc
      have hd : c.toNat - 65 + 10 = d := Option.some.inj hvalue
      exact .inr (eq_toUpper_digitChar_of_toNat ‹d < 16› (by omega) (by omega))
    · cases hvalue
  · rintro ⟨hlt, hc⟩
    have hdigits : ∀ r : Radix, ∀ d < 16, d < r.base →
        r.digit? d.digitChar = some d ∧ r.digit? d.digitChar.toUpper = some d := by
      intro r
      cases r <;> decide
    obtain ⟨hlower, hupper⟩ := hdigits r d (hlt.trans_le r.base_le) hlt
    rcases hc with rfl | rfl
    · exact hlower
    · exact hupper

theorem mapM_digit?_eq_some_iff {r : Radix} {cs : List Char} {ds : List Nat} :
    cs.mapM r.digit? = some ds ↔ List.Forall₂ (WritesDigit r.base) cs ds := by
  constructor
  · exact fun h => (forall₂_of_mapM h).imp fun _ _ => digit?_eq_some_iff.1
  · intro h
    induction h with
    | nil => rfl
    | cons hc _ ih =>
      rw [List.mapM_cons, digit?_eq_some_iff.2 hc, ih]
      rfl

end Radix

namespace Numeral

/-! ## Numbers by place -/

/-- The characters are digits of the base, at least one, and the number is their value by place, the
first one weighing most. -/
def IsPositional (base : Nat) (cs : List Char) (n : Nat) : Prop :=
  ∃ ds, List.Forall₂ (WritesDigit base) cs ds ∧ ds ≠ [] ∧ n = Nat.ofDigits base ds.reverse

namespace IsPositional

variable {base n : Nat} {cs : List Char}

theorem digit {c : Char} {d : Nat} (h : WritesDigit base c d) : IsPositional base [c] d :=
  ⟨[d], .cons h .nil, List.cons_ne_nil d [], Nat.ofDigits_singleton.symm⟩

/-- A digit behind a number multiplies it by the base. -/
theorem concat (h : IsPositional base cs n) {c : Char} {d : Nat} (hc : WritesDigit base c d) :
    IsPositional base (cs ++ [c]) (base * n + d) := by
  obtain ⟨ds, hds, -, rfl⟩ := h
  refine ⟨ds ++ [d], List.rel_append hds (.cons hc .nil), by simp, ?_⟩
  rw [List.reverse_append, List.reverse_singleton, List.singleton_append, Nat.ofDigits_cons]
  exact Nat.add_comm _ _

/-- **Every number is what its digits stand for,** in lower or in upper case. -/
theorem toDigits (hbase : 1 < base) {case : Char → Char}
    (hcase : ∀ d < base, WritesDigit base (case d.digitChar) d) (n : Nat) :
    IsPositional base ((Nat.toDigits base n).map case) n := by
  induction n using Nat.strongRecOn with
  | ind n ih =>
    rw [Nat.toDigits_eq_if hbase]
    split
    next hlt => exact digit (hcase n hlt)
    next hle =>
      have hpos : 0 < n := by omega
      have hlast := hcase (n % base) (Nat.mod_lt n (by omega))
      have hnumber := (ih (n / base) (Nat.div_lt_self hpos hbase)).concat hlast
      rw [Nat.div_add_mod] at hnumber
      rw [List.map_append]
      exact hnumber

end IsPositional

/-! ## Texts -/

/-- The text stands for the number: digits in hexadecimal or binary behind what announces them, or
not too many in decimal. -/
inductive Spells : List Char → Nat → Prop
  | hexadecimal {cs : List Char} {n : Nat} : IsPositional 16 cs n → Spells ('0' :: 'x' :: cs) n
  | binary {cs : List Char} {n : Nat} : IsPositional 2 cs n → Spells ('0' :: 'b' :: cs) n
  | decimal {cs : List Char} {n : Nat} : IsPositional 10 cs n → cs.length ≤ maxDigits → Spells cs n

/-- The text has decimal digits only, and too many of them. -/
def IsTooLong (cs : List Char) : Prop := (∀ c ∈ cs, c.isDigit = true) ∧ maxDigits < cs.length

theorem isDigit_iff_writesDigit {c : Char} :
    c.isDigit = true ↔ ∃ d, WritesDigit 10 c d := by
  constructor
  · intro h
    exact ⟨_, Radix.digit?_eq_some_iff.1 (Radix.digit?_of_isDigit h)⟩
  · rintro ⟨d, hd, hc⟩
    have hdigits : ∀ d < 10, d.digitChar.isDigit = true ∧ d.digitChar.toUpper.isDigit = true := by
      decide
    rcases hc with rfl | rfl
    · exact (hdigits d hd).1
    · exact (hdigits d hd).2

theorem exists_digits_iff {cs : List Char} :
    (∃ ds, List.Forall₂ (WritesDigit 10) cs ds) ↔ ∀ c ∈ cs, c.isDigit = true := by
  constructor
  · rintro ⟨ds, h⟩
    induction h with
    | nil => exact List.forall_mem_nil _
    | cons hc _ ih => exact List.forall_mem_cons.2 ⟨isDigit_iff_writesDigit.2 ⟨_, hc⟩, ih⟩
  · intro h
    exact ⟨_, Radix.mapM_digit?_eq_some_iff.1 (Radix.mapM_digit? h)⟩

section Resolving

variable {spelling : String} {n : Nat} {ds : List Nat}

/-- What digits of the announced radix resolve to. -/
theorem resolve_of_digits (hne : ds ≠ []) (h : List.Forall₂ (WritesDigit (Radix.of spelling).base)
      ((Radix.of spelling).digits spelling.toList) ds) :
    resolve spelling = if Radix.of spelling = .decimal ∧ maxDigits < ds.length then
      .tooManyDigits ds.length else .length (Nat.ofDigits (Radix.of spelling).base ds.reverse) := by
  rw [← Radix.value_eq_ofDigits]
  unfold resolve
  dsimp only
  rw [Radix.mapM_digit?_eq_some_iff.2 h]
  cases ds with
  | nil => exact absurd rfl hne
  | cons d ds => rfl

/-- What has other characters, or none, resolves to nothing. -/
theorem resolve_of_no_digits (h : ∀ ds, List.Forall₂ (WritesDigit (Radix.of spelling).base)
      ((Radix.of spelling).digits spelling.toList) ds → ds = []) : resolve spelling = .invalid := by
  unfold resolve
  dsimp only
  cases hds : ((Radix.of spelling).digits spelling.toList).mapM (Radix.of spelling).digit? with
  | none => rfl
  | some ds =>
    rw [h ds (Radix.mapM_digit?_eq_some_iff.1 hds)]

/-- A text stands for a number if its digits do, in the radix that it announces. -/
theorem spells_iff : Spells spelling.toList n ↔
    IsPositional (Radix.of spelling).base ((Radix.of spelling).digits spelling.toList) n ∧
      (Radix.of spelling = .decimal → spelling.length ≤ maxDigits) := by
  have hdigits {cs : List Char} (h : IsPositional 10 cs n) : ∀ c ∈ cs, c.isDigit = true :=
    exists_digits_iff.1 (h.imp fun _ hds => hds.1)
  rw [← String.length_toList]
  unfold Radix.of
  generalize spelling.toList = cs
  constructor
  · rintro (hn | hn | ⟨hn, hlength⟩)
    · exact ⟨hn, nofun⟩
    · exact ⟨hn, nofun⟩
    · rw [Radix.ofChars_of_digits (hdigits hn)]
      exact ⟨hn, fun _ => hlength⟩
  · unfold Radix.ofChars
    split
    · exact fun h => .hexadecimal h.1
    · exact fun h => .binary h.1
    · exact fun h => .decimal h.1 (h.2 rfl)

theorem resolve_of_spells (h : Spells spelling.toList n) : resolve spelling = .length n := by
  obtain ⟨⟨ds, hds, hne, rfl⟩, hlength⟩ := spells_iff.1 h
  rw [resolve_of_digits hne hds, if_neg]
  rintro ⟨hdecimal, hlong⟩
  have hle := hlength hdecimal
  rw [← hds.length_eq, hdecimal] at hlong
  exact absurd (hlong.trans_le hle) (lt_irrefl maxDigits)

theorem resolve_of_isTooLong (h : IsTooLong spelling.toList) :
    resolve spelling = .tooManyDigits spelling.length := by
  obtain ⟨hdigits, hlong⟩ := h
  have hdecimal : Radix.of spelling = .decimal := Radix.ofChars_of_digits hdigits
  obtain ⟨ds, hds⟩ := exists_digits_iff.2 hdigits
  have hlength : ds.length = spelling.length := by rw [← hds.length_eq, String.length_toList]
  have hne : ds ≠ [] := by
    rintro rfl
    rw [hds.length_eq] at hlong
    exact absurd hlong (Nat.not_lt_zero maxDigits)
  have hds' : List.Forall₂ (WritesDigit (Radix.of spelling).base)
      ((Radix.of spelling).digits spelling.toList) ds := by
    rw [hdecimal]
    exact hds
  rw [resolve_of_digits hne hds', if_pos ⟨hdecimal, hds.length_eq ▸ hlong⟩, hlength]

theorem resolve_of_neither (h : ∀ n, ¬ Spells spelling.toList n)
    (hshort : ¬ IsTooLong spelling.toList) : resolve spelling = .invalid := by
  refine resolve_of_no_digits fun ds hds => ?_
  by_contra hne
  -- digits would stand for a number, if there are not too many of them
  refine h _ (spells_iff.2 ⟨⟨ds, hds, hne, rfl⟩, fun hdecimal => ?_⟩)
  rw [hdecimal] at hds
  by_contra hlong
  exact hshort ⟨exists_digits_iff.1 ⟨ds, hds⟩, String.length_toList ▸ Nat.lt_of_not_le hlong⟩

/-- A text stands for a number, or has too many digits, or is invalid. -/
theorem resolve_cases (spelling : String) :
    (∃ n, Spells spelling.toList n ∧ resolve spelling = .length n) ∨
    (IsTooLong spelling.toList ∧ resolve spelling = .tooManyDigits spelling.length) ∨
    ((∀ n, ¬ Spells spelling.toList n) ∧ ¬ IsTooLong spelling.toList ∧
      resolve spelling = .invalid) := by
  by_cases hn : ∃ n, Spells spelling.toList n
  · exact .inl (hn.imp fun n h => ⟨h, resolve_of_spells h⟩)
  by_cases hlong : IsTooLong spelling.toList
  · exact .inr (.inl ⟨hlong, resolve_of_isTooLong hlong⟩)
  · exact .inr (.inr ⟨not_exists.1 hn, hlong, resolve_of_neither (not_exists.1 hn) hlong⟩)

end Resolving

/-- A number in hexadecimal, in lower or in upper case, or in binary. -/
theorem spells_toDigits (n : Nat) : Spells ('0' :: 'x' :: Nat.toDigits 16 n) n ∧
    Spells ('0' :: 'x' :: (Nat.toDigits 16 n).map Char.toUpper) n ∧
      Spells ('0' :: 'b' :: Nat.toDigits 2 n) n := by
  have hlower (base : Nat) (hbase : 1 < base) : IsPositional base (Nat.toDigits base n) n := by
    rw [← List.map_id (Nat.toDigits base n)]
    exact .toDigits hbase (fun d hd => ⟨hd, .inl rfl⟩) n
  exact ⟨.hexadecimal (hlower 16 (by decide)),
    .hexadecimal (.toDigits (by decide) (fun d hd => ⟨hd, .inr rfl⟩) n),
    .binary (hlower 2 (by decide))⟩

/-- A number in decimal is written with digits, and it is that number. -/
theorem isPositional_toString (n : Nat) : IsPositional 10 (toString n).toList n := by
  rw [Nat.toString_eq_repr, Nat.toList_repr, ← List.map_id (Nat.toDigits 10 n)]
  exact .toDigits (by decide) (fun d hd => ⟨hd, .inl rfl⟩) n

/-- **Array lengths are resolved exactly.** A text resolves to the number that it stands for;
decimal digits that are too many are refused with their count; and every other text is invalid.
Every number is what its hexadecimal and its binary form resolve to, and its decimal form if that is
short enough. -/
theorem resolve_exact (spelling : String) :
    (∀ n, resolve spelling = .length n ↔ Spells spelling.toList n) ∧
    (∀ k, resolve spelling = .tooManyDigits k ↔ IsTooLong spelling.toList ∧ k = spelling.length) ∧
    (resolve spelling = .invalid ↔
      (∀ n, ¬ Spells spelling.toList n) ∧ ¬ IsTooLong spelling.toList) ∧
    ∀ n, resolve ("0x" ++ String.ofList (Nat.toDigits 16 n)) = .length n ∧
      resolve ("0x" ++ String.ofList ((Nat.toDigits 16 n).map Char.toUpper)) = .length n ∧
      resolve ("0b" ++ String.ofList (Nat.toDigits 2 n)) = .length n ∧
      resolve (toString n) = if (toString n).length ≤ maxDigits then .length n
        else .tooManyDigits (toString n).length := by
  refine ⟨fun n => ⟨fun h => ?_, resolve_of_spells⟩, fun k => ⟨fun h => ?_, ?_⟩,
    ⟨fun h => ?_, fun h => resolve_of_neither h.1 h.2⟩, fun n => ?_⟩
  · rcases resolve_cases spelling with ⟨m, hm, hr⟩ | ⟨-, hr⟩ | ⟨-, -, hr⟩ <;> rw [hr] at h <;>
      cases h
    exact hm
  · rcases resolve_cases spelling with ⟨m, -, hr⟩ | ⟨hlong, hr⟩ | ⟨-, -, hr⟩ <;> rw [hr] at h <;>
      cases h
    exact ⟨hlong, rfl⟩
  · rintro ⟨hlong, rfl⟩
    exact resolve_of_isTooLong hlong
  · rcases resolve_cases spelling with ⟨m, -, hr⟩ | ⟨-, hr⟩ | ⟨hn, hlong, -⟩
    · rw [hr] at h
      cases h
    · rw [hr] at h
      cases h
    · exact ⟨hn, hlong⟩
  · obtain ⟨hlower, hupper, hbinary⟩ := spells_toDigits n
    have hdecimal := isPositional_toString n
    refine ⟨resolve_of_spells ?_, resolve_of_spells ?_, resolve_of_spells ?_, ?_⟩
    · simpa using hlower
    · simpa using hupper
    · simpa using hbinary
    split
    next hle => exact resolve_of_spells (.decimal hdecimal (String.length_toList ▸ hle))
    next hlt =>
      refine resolve_of_isTooLong ⟨exists_digits_iff.1 (hdecimal.imp fun _ hds => hds.1), ?_⟩
      rw [String.length_toList]
      exact Nat.lt_of_not_le hlt

/-- Leading zeros, a digit that looks like the announcement of a radix, both cases of letters; and
no digits, a second announcement, digits that are not ASCII, and an announcement in upper case. -/
example : ["007", "0x0b1", "0xAb", "0b10"].map resolve = [7, 177, 171, 2].map .length ∧
    ["", "0x", "0b2", "0x0x1", "٣", "0xＡ", "0X1"].all fun s => resolve s = .invalid := by
  decide +kernel

end Numeral

end ArcLang
