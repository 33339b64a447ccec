import ArcLang.Proofs.Phrases
import ArcLang.Proofs.Shifting
import ArcLang.Tree.Listing

/-!
# Indented lines

The lines of a listing show a forest. Each line opens with a word, what else it says stands behind a
blank, and the lines nested in it are one level deeper. So the forest can be read back: a line ends
at a line feed, its word starts behind the indentation and ends at a blank, and what is nested ends
where the level is no longer deeper.

* `Row.line_inj`: a line tells its level, its word and what else it says.
* `Entry.eq_of_rowsEach_append`: the levels tell what is nested in what.
* `Entry.eq_of_text`: the text of a forest tells the forest.
-/

namespace ArcLang

/-! ## Lines -/

/-- The word that a line of a listing opens with. -/
inductive Head
  | program
  | function
  | struct
  | field
  | branch
  | consequent
  | alternate
  | loop
  | ret
  | breakLoop
  | expression
  deriving DecidableEq

namespace Head

/-- The word as it is printed. -/
def spelling : Head → String
  | program => "Program"
  | function => "Function:"
  | struct => "Struct:"
  | field => "Field:"
  | branch => "If"
  | consequent => "Then:"
  | alternate => "Else:"
  | loop => "While"
  | ret => "Return"
  | breakLoop => "Break"
  | expression => "Expr:"

/-- Every word that a line may open with. -/
def all : List Head :=
  [program, function, struct, field, branch, consequent, alternate, loop, ret, breakLoop,
   expression]

/-- **Words are known by their spellings.** -/
theorem find?_spelling (head : Head) : all.find? (·.spelling = head.spelling) = some head := by
  cases head <;> decide

theorem spelling_inj {a b : Head} (h : a.spelling = b.spelling) : a = b := by
  have hfind := find?_spelling a
  rw [h, find?_spelling b] at hfind
  exact (Option.some.inj hfind).symm

/-- No word has a blank in it. -/
theorem ne_blank_of_mem_spelling (head : Head) :
    ∀ c ∈ head.spelling.toList, (c != ' ') = true := by
  cases head <;> decide

theorem feed_notMem_spelling (head : Head) : '\n' ∉ head.spelling.toList := by
  cases head <;> decide

theorem spelling_ne_nil (head : Head) : head.spelling.toList ≠ [] := by cases head <;> decide

/-- What a line says: its word, and behind a blank the detail, if there is any. -/
def text (head : Head) (detail : Option String) : String :=
  head.spelling ++ detail.elim "" (" " ++ ·)

theorem toList_text (head : Head) (detail : Option String) : (head.text detail).toList =
    head.spelling.toList ++ detail.elim [] (' ' :: ·.toList) := by
  rw [text, String.toList_append]
  cases detail with
  | none => rfl
  | some t => rw [Option.elim_some, Option.elim_some, String.toList_append]; rfl

end Head

/-- A line of a listing. -/
structure Row where
  level : Nat
  head : Head
  detail : Option String

namespace Row

/-- The line as it is printed. -/
def line (r : Row) : String := indented r.level (r.head.text r.detail)

theorem toList_line (r : Row) : r.line.toList =
    List.replicate (2 * r.level) ' ' ++ (r.head.text r.detail).toList := by
  rw [line, indented, String.toList_append, String.toList_ofList]

/-- The indentation ends at the word. -/
theorem head?_text_ne_blank (r : Row) :
    ∀ c ∈ (r.head.text r.detail).toList.head?, (c == ' ') = false := by
  obtain ⟨d, rest, hword⟩ := List.exists_cons_of_ne_nil r.head.spelling_ne_nil
  have hd := r.head.ne_blank_of_mem_spelling d (by rw [hword]; exact List.mem_cons_self)
  rw [Head.toList_text, hword]
  rintro _ ⟨⟩
  simpa using hd

/-- **A line tells its level, its word and its detail.** -/
theorem line_inj {a b : Row} (h : a.line = b.line) : a = b := by
  have hlines := congrArg String.toList h
  rw [toList_line, toList_line] at hlines
  have hblank (n : Nat) : ∀ c ∈ List.replicate n ' ', (c == ' ') = true := fun c hc => by
    rw [List.eq_of_mem_replicate hc]
    decide
  obtain ⟨hindents, htexts⟩ := run_append_inj (hblank _) (hblank _) a.head?_text_ne_blank
    b.head?_text_ne_blank hlines
  have hlevels := congrArg List.length hindents
  rw [List.length_replicate, List.length_replicate] at hlevels
  rw [Head.toList_text, Head.toList_text] at htexts
  have hends (detail : Option String) :
      ∀ c ∈ (detail.elim [] (' ' :: ·.toList)).head?, (c != ' ') = false := by
    cases detail with
    | none => exact nofun
    | some t => rintro _ ⟨⟩; decide
  obtain ⟨hwords, hdetails⟩ := run_append_inj a.head.ne_blank_of_mem_spelling
    b.head.ne_blank_of_mem_spelling (hends a.detail) (hends b.detail) htexts
  obtain ⟨level, head, detail⟩ := a
  obtain ⟨level', head', detail'⟩ := b
  obtain rfl := Head.spelling_inj (String.toList_injective hwords)
  obtain rfl : level = level' := Nat.eq_of_mul_eq_mul_left Nat.two_pos hlevels
  cases detail with
  | none =>
    cases detail' with
    | none => rfl
    | some t' => cases hdetails
  | some t =>
    cases detail' with
    | none => cases hdetails
    | some t' => rw [String.toList_injective (List.cons.inj hdetails).2]

/-- The row stands on a line of its own. -/
def IsUnbroken (r : Row) : Prop := ∀ t ∈ r.detail, '\n' ∉ t.toList

theorem IsUnbroken.feed_notMem {r : Row} (h : r.IsUnbroken) : '\n' ∉ r.line.toList := by
  rw [toList_line, Head.toList_text, List.mem_append, List.mem_append]
  rintro (hc | hc | hc)
  · exact absurd (List.eq_of_mem_replicate hc) (by decide)
  · exact r.head.feed_notMem_spelling hc
  · cases hdetail : r.detail with
    | none => rw [hdetail] at hc; cases hc
    | some t =>
      rw [hdetail] at hc
      rcases List.mem_cons.1 hc with hc | hc
      · exact absurd hc (by decide)
      · exact h t hdetail hc

end Row

/-- **Lines can be told from their text** if none has a line feed in it. -/
theorem Lines.split_join {lines : List (List Char)} (hne : lines ≠ [])
    (h : ∀ line ∈ lines, '\n' ∉ line) : split (join lines) = lines := by
  have hone {line : List Char} (hline : '\n' ∉ line) : split line = [line] := by
    obtain ⟨first, more, hsplit⟩ := List.exists_cons_of_ne_nil (split_ne_nil line)
    have hlength := length_split line
    rw [List.count_eq_zero_of_not_mem hline, hsplit] at hlength
    obtain rfl : more = [] := List.length_eq_zero_iff.1 (Nat.succ.inj hlength)
    have hjoin := join_split line
    rw [hsplit] at hjoin
    rw [hsplit, ← hjoin]
    rfl
  induction lines with
  | nil => exact absurd rfl hne
  | cons line lines ih =>
    obtain ⟨hline, hlines⟩ := List.forall_mem_cons.1 h
    cases lines with
    | nil => exact hone hline
    | cons next lines =>
      rw [join, split_append, hone hline, ih (List.cons_ne_nil _ _) hlines]
      · rfl
      · exact List.cons_ne_nil _ _

theorem Lines.toList_intercalate (texts : List String) :
    ("\n".intercalate texts).toList = join (texts.map String.toList) := by
  induction texts with
  | nil => rfl
  | cons t texts ih =>
    cases texts with
    | nil => rfl
    | cons u texts =>
      rw [String.intercalate_cons_cons, String.toList_append, String.toList_append, ih,
        List.append_assoc]
      rfl

/-! ## Forests -/

/-- A line with what is nested in it. -/
inductive Entry
  | mk (head : Head) (detail : Option String) (nested : List Entry)

namespace Entry

mutual

/-- The lines of an entry at a level. -/
def rows (level : Nat) : Entry → List Row
  | mk head detail nested => ⟨level, head, detail⟩ :: rowsEach (level + 1) nested

/-- The lines of entries one after the other, at a level. -/
def rowsEach (level : Nat) : List Entry → List Row
  | [] => []
  | e :: more => e.rows level ++ rowsEach level more

end

theorem rowsEach_append (level : Nat) (as bs : List Entry) :
    rowsEach level (as ++ bs) = rowsEach level as ++ rowsEach level bs := by
  induction as with
  | nil => rfl
  | cons a as ih => rw [List.cons_append, rowsEach, rowsEach, ih, List.append_assoc]

theorem rowsEach_singleton (level : Nat) (e : Entry) : rowsEach level [e] = e.rows level :=
  List.append_nil _

/-- An entry opens at its level. -/
theorem level_head?_rows {level : Nat} {e : Entry} {r : List Row} :
    ∀ x ∈ (e.rows level ++ r).head?, x.level = level := by
  cases e
  rintro _ ⟨⟩
  rfl

/-- What follows entries of a level is as deep as they are at most. -/
theorem level_head?_rowsEach {level : Nat} (es : List Entry) {r : List Row}
    (hr : ∀ x ∈ r.head?, x.level < level) :
    ∀ x ∈ (rowsEach level es ++ r).head?, x.level ≤ level := by
  cases es with
  | nil => exact fun x hx => (hr x hx).le
  | cons e es =>
    rw [rowsEach, List.append_assoc]
    exact fun x hx => (level_head?_rows x hx).le

mutual

/-- **An entry can be told from its lines** if what follows is not deeper than it. -/
theorem eq_of_rows_append {level : Nat} {r s : List Row} : (a b : Entry) →
    (∀ x ∈ r.head?, x.level ≤ level) → (∀ x ∈ s.head?, x.level ≤ level) →
    a.rows level ++ r = b.rows level ++ s → a = b ∧ r = s
  | mk head detail nested, mk head' detail' nested', hr, hs, h => by
    obtain ⟨hrow, hrows⟩ := List.cons.inj h
    obtain ⟨-, rfl, rfl⟩ := Row.mk.inj hrow
    obtain ⟨rfl, rfl⟩ := eq_of_rowsEach_append nested nested'
      (fun x hx => Nat.lt_succ_of_le (hr x hx)) (fun x hx => Nat.lt_succ_of_le (hs x hx)) hrows
    exact ⟨rfl, rfl⟩

/-- **Entries of one level can be told from their lines** if what follows is less deep. -/
theorem eq_of_rowsEach_append {level : Nat} {r s : List Row} : (as bs : List Entry) →
    (∀ x ∈ r.head?, x.level < level) → (∀ x ∈ s.head?, x.level < level) →
    rowsEach level as ++ r = rowsEach level bs ++ s → as = bs ∧ r = s
  | [], [], _, _, h => ⟨rfl, h⟩
  | [], b :: bs, hr, _, h => by
    rw [rowsEach, List.nil_append, rowsEach, List.append_assoc] at h
    obtain ⟨head, detail, nested⟩ := b
    exact absurd (hr _ (by rw [h]; rfl)) (lt_irrefl level)
  | a :: as, [], _, hs, h => by
    rw [rowsEach, rowsEach, List.nil_append, List.append_assoc] at h
    obtain ⟨head, detail, nested⟩ := a
    exact absurd (hs _ (by rw [← h]; rfl)) (lt_irrefl level)
  | a :: as, b :: bs, hr, hs, h => by
    rw [rowsEach, rowsEach, List.append_assoc, List.append_assoc] at h
    obtain ⟨rfl, hmore⟩ := eq_of_rows_append a b (level_head?_rowsEach as hr)
      (level_head?_rowsEach bs hs) h
    obtain ⟨rfl, rfl⟩ := eq_of_rowsEach_append as bs hr hs hmore
    exact ⟨rfl, rfl⟩

end

/-- No line of the entry is broken by what it says. -/
inductive IsUnbroken : Entry → Prop
  | mk {head : Head} {detail : Option String} {nested : List Entry} :
      (∀ t ∈ detail, '\n' ∉ t.toList) → (∀ e ∈ nested, IsUnbroken e) →
      IsUnbroken (mk head detail nested)

theorem IsUnbroken.bare {head : Head} {nested : List Entry} (h : ∀ e ∈ nested, e.IsUnbroken) :
    (Entry.mk head none nested).IsUnbroken := .mk nofun h

theorem IsUnbroken.saying {head : Head} {detail : String} {nested : List Entry}
    (hdetail : '\n' ∉ detail.toList) (h : ∀ e ∈ nested, e.IsUnbroken) :
    (Entry.mk head (some detail) nested).IsUnbroken := by
  refine .mk ?_ h
  rintro _ ⟨⟩
  exact hdetail

mutual

theorem IsUnbroken.rows {level : Nat} : {e : Entry} → e.IsUnbroken →
    ∀ r ∈ e.rows level, r.IsUnbroken
  | .mk _ _ nested, .mk hdetail hnested =>
    List.forall_mem_cons.2 ⟨hdetail, isUnbroken_rowsEach nested hnested⟩

theorem isUnbroken_rowsEach {level : Nat} : (es : List Entry) → (∀ e ∈ es, e.IsUnbroken) →
    ∀ r ∈ rowsEach level es, r.IsUnbroken
  | [], _ => List.forall_mem_nil _
  | e :: more, h => by
    obtain ⟨he, hmore⟩ := List.forall_mem_cons.1 h
    exact List.forall_mem_append.2 ⟨he.rows, isUnbroken_rowsEach more hmore⟩

end

/-- The lines of an entry as one text. -/
def text (e : Entry) : String := "\n".intercalate ((e.rows 0).map Row.line)

/-- **The text of an entry tells the entry.** -/
theorem eq_of_text {a b : Entry} (ha : a.IsUnbroken) (hb : b.IsUnbroken) (h : a.text = b.text) :
    a = b := by
  have hsplit {e : Entry} (he : e.IsUnbroken) :
      Lines.split e.text.toList = (e.rows 0).map (·.line.toList) := by
    rw [text, Lines.toList_intercalate, List.map_map, Lines.split_join]
    · rfl
    · cases e
      exact List.cons_ne_nil _ _
    · exact List.forall_mem_map.2 fun r hr => (he.rows r hr).feed_notMem
  have hlines : (a.rows 0).map (·.line.toList) = (b.rows 0).map (·.line.toList) := by
    rw [← hsplit ha, ← hsplit hb, h]
  have hrows := List.map_injective_iff.2
    (fun r s hrs => Row.line_inj (String.toList_injective hrs)) hlines
  exact (eq_of_rows_append (r := []) (s := []) a b nofun nofun (congrArg (· ++ []) hrows)).1

end Entry

end ArcLang
