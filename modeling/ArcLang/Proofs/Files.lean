import Mathlib.Data.List.Forall2
import ArcLang.Parsed

/-!
# Files hold texts

A file that holds the UTF-8 octets of a text is parsed like that text, once every line end in it is
a line feed: reading turns carriage returns into line feeds, which parsing alone does not.

* `Utf8.decodeFrom_begun`: a character that has begun is read to its end.
* `Utf8.exists_octets`: what the octets of a character promise.
* `Utf8.decode_toUTF8`: decoding gives back the text that was encoded.
* `parseFile_of_text`: the statement.
-/

namespace ArcLang

namespace Utf8

/-! ## Characters -/

/-- The octets are those that a first octet has promised. -/
def Owes (owed : List (Nat × Nat)) (octets : List UInt8) : Prop :=
  List.Forall₂ (fun range b => range.1 ≤ b.toNat ∧ b.toNat ≤ range.2) owed octets

@[simp] theorem owes_nil : Owes [] [] := .nil

@[simp] theorem owes_cons {range : Nat × Nat} {owed : List (Nat × Nat)} {b : UInt8}
    {octets : List UInt8} : Owes (range :: owed) (b :: octets) ↔
      (range.1 ≤ b.toNat ∧ b.toNat ≤ range.2) ∧ Owes owed octets :=
  List.forall₂_cons

/-- The bits of a character, when these octets have brought theirs. -/
def gather (bits : Nat) (octets : List UInt8) : Nat :=
  octets.foldl (fun bits b => bits * 64 + (b.toNat - 0x80)) bits

@[simp] theorem gather_nil (bits : Nat) : gather bits [] = bits := rfl

@[simp] theorem gather_cons (bits : Nat) (b : UInt8) (octets : List UInt8) :
    gather bits (b :: octets) = gather (bits * 64 + (b.toNat - 0x80)) octets := by
  rw [gather, List.foldl_cons, gather]

/-- **A character that has begun is read to its end.** -/
theorem decodeFrom_begun {owed : List (Nat × Nat)} {octets : List UInt8} (h : Owes owed octets)
    (hne : owed ≠ []) (place octet read bits : Nat) (rest : List UInt8) :
    decodeFrom place (some ⟨octet, read, bits, owed⟩) (octets ++ rest) =
      (Char.ofNat (gather bits octets) :: ·) <$> decodeFrom (place + octets.length) none rest := by
  induction h generalizing place read bits with
  | nil => exact absurd rfl hne
  | @cons range b owed octets hrange h ih =>
    rw [List.cons_append, decodeFrom]
    simp only [if_pos hrange]
    cases h with
    | nil =>
      rw [List.isEmpty_nil, if_pos rfl, List.nil_append, List.length_singleton, gather_cons,
        gather_nil]
    | cons =>
      rw [List.isEmpty_cons, if_neg Bool.false_ne_true, ih (List.cons_ne_nil _ _),
        ← gather_cons, List.length_cons (a := b), ← Nat.add_assoc, Nat.add_right_comm]

theorem toNat_ofNat_of_lt {n : Nat} (h : n < 256) : (UInt8.ofNat n).toNat = n := by
  rw [UInt8.toNat_ofNat']
  exact Nat.mod_eq_of_lt h

/-- An octet that follows a first one brings six bits. -/
@[simp] theorem toNat_ofNat_follower (n : Nat) :
    (UInt8.ofNat (n % 64 + 0x80)).toNat = n % 64 + 0x80 :=
  toNat_ofNat_of_lt (by omega)

theorem lead_one {a : Nat} (h : a ≤ 0x7F) : lead (UInt8.ofNat a).toNat = some (a, []) := by
  rw [toNat_ofNat_of_lt (by omega), lead, if_pos h]

theorem lead_two {a : Nat} (h : 2 ≤ a) (h' : a < 32) :
    lead (UInt8.ofNat (a + 0xC0)).toNat = some (a, [(0x80, 0xBF)]) := by
  rw [toNat_ofNat_of_lt (by omega), lead, if_neg (by omega), if_neg (by omega),
    if_pos (by omega), Nat.add_sub_cancel]

/-- Overlong forms and surrogates are ruled out by the second octet. -/
theorem lead_three : ∀ a < 16, lead (UInt8.ofNat (a + 0xE0)).toNat = some (a,
    [(if a = 0 then 0xA0 else 0x80, if a = 0xD then 0x9F else 0xBF), (0x80, 0xBF)]) := by decide

/-- Overlong forms and codes past the last one are ruled out by the second octet. -/
theorem lead_four : ∀ a < 5, lead (UInt8.ofNat (a + 0xF0)).toNat = some (a,
    [(if a = 0 then 0x90 else 0x80, if a = 4 then 0x8F else 0xBF), (0x80, 0xBF),
      (0x80, 0xBF)]) := by decide

/-- **The octets of a character** are a first one and what it promises, and bring its bits. -/
theorem exists_octets (c : Char) : ∃ b octets bits owed, String.utf8EncodeChar c = b :: octets ∧
    lead b.toNat = some (bits, owed) ∧ Owes owed octets ∧ gather bits octets = c.toNat := by
  have hvalid : c.toNat < 0xD800 ∨ 0xDFFF < c.toNat ∧ c.toNat < 0x110000 := c.valid
  unfold String.utf8EncodeChar
  extract_lets v
  change v < 0xD800 ∨ 0xDFFF < v ∧ v < 0x110000 at hvalid
  change ∃ b octets bits owed, _ ∧ _ ∧ _ ∧ _ = v
  clear_value v
  split
  · next h1 => exact ⟨_, _, _, _, rfl, lead_one h1, owes_nil, gather_nil v⟩
  split
  · next h1 h2 =>
    refine ⟨_, _, _, _, rfl, lead_two (by omega) (by omega), ?_⟩
    simp only [owes_cons, owes_nil, gather_cons, gather_nil, toNat_ofNat_follower, and_true]
    omega
  split
  · next h1 h2 h3 =>
    refine ⟨_, _, _, _, rfl, lead_three _ (by omega), ?_⟩
    simp only [owes_cons, owes_nil, gather_cons, gather_nil, toNat_ofNat_follower, and_true]
    split_ifs <;> omega
  · next h1 h2 h3 =>
    refine ⟨_, _, _, _, rfl, lead_four _ (by omega), ?_⟩
    simp only [owes_cons, owes_nil, gather_cons, gather_nil, toNat_ofNat_follower, and_true]
    split_ifs <;> omega

/-! ## Texts -/

theorem decodeFrom_utf8EncodeChar (place : Nat) (c : Char) (rest : List UInt8) :
    decodeFrom place none (String.utf8EncodeChar c ++ rest) =
      (c :: ·) <$> decodeFrom (place + (String.utf8EncodeChar c).length) none rest := by
  obtain ⟨b, octets, bits, owed, hc, hlead, howed, hbits⟩ := exists_octets c
  rw [hc, List.cons_append, decodeFrom, hlead, List.length_cons]
  cases howed with
  | nil =>
    rw [gather_nil] at hbits
    simp only [hbits, Char.ofNat_toNat, List.nil_append, List.length_nil, Nat.zero_add]
  | cons hb howed =>
    simp only [decodeFrom_begun (.cons hb howed) (List.cons_ne_nil _ _), hbits, Char.ofNat_toNat,
      ← Nat.add_assoc, Nat.add_right_comm place 1]

/-- **Decoding gives back what was encoded**, wherever it starts. -/
theorem decodeFrom_encode (place : Nat) (text : List Char) :
    decodeFrom place none (text.flatMap String.utf8EncodeChar) = .ok text := by
  induction text generalizing place with
  | nil => rfl
  | cons c text ih =>
    rw [List.flatMap_cons, decodeFrom_utf8EncodeChar, ih]
    rfl

theorem decode_toUTF8 (text : String) : decode text.toUTF8.data.toList = .ok text.toList := by
  have h : text.toUTF8 = (text.toList.flatMap String.utf8EncodeChar).toByteArray := by
    conv => lhs; rw [← String.ofList_toList (s := text)]
    rw [String.toUTF8_eq_toByteArray, String.toByteArray_ofList, List.utf8Encode]
  rw [h, List.toList_data_toByteArray]
  exact decodeFrom_encode 0 _

theorem readText_toUTF8 (text : String) :
    readText text.toUTF8.data.toList = .ok (String.ofList (unifyLineEnds text.toList)) := by
  rw [readText, decode_toUTF8]
  rfl

end Utf8

/-! ## Files -/

/-- **A file is parsed like the text that it holds, with its line ends unified**, and so like the
text itself when that has no carriage return. -/
theorem parseFile_of_text {m : Type → Type} [Monad m] [LawfulMonad m] (find : String → m Target)
    (path text : String) (options : Options)
    (hfile : find (Path.normal path) = pure (.file text.toUTF8.data.toList)) :
    parseFile find path options = pure ((parse (String.ofList (unifyLineEnds text.toList)) path
        options).mapError .aborted) ∧
      ('\r' ∉ text.toList →
        parseFile find path options = pure ((parse text path options).mapError .aborted)) := by
  have hread : parseFile find path options = pure ((parse (String.ofList
      (unifyLineEnds text.toList)) path options).mapError .aborted) := by
    rw [parseFile, hfile, pure_bind]
    simp only [Utf8.readText_toUTF8]
  refine ⟨hread, fun h => ?_⟩
  rw [hread, unifyLineEnds_of_not_mem h, String.ofList_toList]

/-- In a file a comment ends at a carriage return, and an item follows; in the text it goes on to
the end. With a line feed instead, the file is parsed like its text. -/
theorem parseFile_of_comment_return :
    let noted := "// note\rx := 1;"
    let plain := "// note\nx := 1;"
    let holding : String → String → Id Target := fun text path =>
      if path = Path.normal "ship.arc" then .file text.toUTF8.data.toList else .missing
    ((parseFile (holding noted) "ship.arc" {}).toOption.map (·.program.items.length) = some 1 ∧
      (parse noted "ship.arc" {}).toOption.map (·.program.items.length) = some 0) ∧
      parseFile (holding plain) "ship.arc" {} =
        pure ((parse plain "ship.arc" {}).mapError .aborted) := by
  intro noted plain holding
  have hholding (text : String) : holding text (Path.normal "ship.arc") =
      pure (.file text.toUTF8.data.toList) := if_pos rfl
  refine ⟨?_, (parseFile_of_text _ "ship.arc" plain {} (hholding plain)).2 (by decide +kernel)⟩
  rw [(parseFile_of_text _ "ship.arc" noted {} (hholding noted)).1]
  decide +kernel

end ArcLang
