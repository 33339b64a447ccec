import ArcLang.Proofs.Spelling

/-!
# Phrases

Texts that are made of words, of lists between brackets, and of forms: a label with parts between
parentheses. If no word has a comma, a parenthesis, a bracket or a line feed in it, a text is that
of one phrase only, it shows where the phrase ends, and it is one line.

* `Phrase.IsPlain`: no word could be taken for anything else.
* `Phrase.eq_of_text_append`: unique readability.
* `Phrase.IsPlain.feed_notMem`: plain phrases stand on one line.
-/

namespace ArcLang

/-- What stands in front of the parts of a form. -/
inductive Label
  | binding
  | intType
  | arrayType
  | namedType
  | number
  | boolean
  | char
  | string
  | array
  | name
  | member
  | index
  | call
  | binary
  | unary
  | paren
  | assign
  | ret
  | loop
  | branch
  | expression
  | function
  | struct
  | program
  deriving DecidableEq

namespace Label

/-- The label as it is written; a name with its type has none. -/
@[simp]
def spelling : Label → String
  | binding => ""
  | intType => "Int"
  | arrayType => "Array"
  | namedType => "Named"
  | number => "Num"
  | boolean => "Bool"
  | char => "Char"
  | string => "Str"
  | array => "ArrayLiteral"
  | name => "Variable"
  | member => "Member"
  | index => "Index"
  | call => "Call"
  | binary => "Binary"
  | unary => "Prefix"
  | paren => "Paren"
  | assign => "Assign"
  | ret => "Return"
  | loop => "While"
  | branch => "If"
  | expression => "ExprStmt"
  | function => "FunctionDef"
  | struct => "StructDef"
  | program => "Program"

/-- Every label. -/
def all : List Label :=
  [binding, intType, arrayType, namedType, number, boolean, char, string, array, name, member,
   index, call, binary, unary, paren, assign, ret, loop, branch, expression, function, struct,
   program]

/-- **Labels are known by their spellings.** -/
theorem find?_spelling (label : Label) : all.find? (·.spelling = label.spelling) = some label := by
  cases label <;> decide

theorem spelling_inj {a b : Label} (h : a.spelling = b.spelling) : a = b := by
  have hfind := find?_spelling a
  rw [h, find?_spelling b] at hfind
  exact (Option.some.inj hfind).symm

/-- What stands between the parts of a form. -/
@[simp]
def separator : Label → List Char
  | intType | arrayType => [',']
  | _ => [',', ' ']

theorem separator_eq (label : Label) : ∃ gap, label.separator = ',' :: gap := by
  cases label <;> exact ⟨_, rfl⟩

end Label

/-- A text with a structure: a word, parts in parentheses behind a label, or members in brackets. -/
inductive Phrase
  | word (text : String)
  | form (label : Label) (first : Phrase) (rest : List Phrase)
  | list (members : List Phrase)

/-- A comma or a closing bracket. -/
def isStop (c : Char) : Bool := c = ',' || c = ')' || c = ']'

/-- Neither a comma nor a bracket, and not the end of a line. -/
def isPlain (c : Char) : Bool := !(isStop c || c = '(' || c = '[' || c = '\n')

/-- The text is empty, or a stop stands first in it. -/
def Stops (rest : List Char) : Prop := ∀ c ∈ rest.head?, isStop c = true

theorem stops_cons {c : Char} (h : isStop c = true) (rest : List Char) : Stops (c :: rest) := by
  rintro _ ⟨⟩
  exact h

/-- Two runs of one class of characters can be told from what follows, if that starts with no
character of the class. -/
theorem run_append_inj {p : Char → Bool} {v w r s : List Char} (hv : ∀ c ∈ v, p c = true)
    (hw : ∀ c ∈ w, p c = true) (hr : ∀ c ∈ r.head?, p c = false) (hs : ∀ c ∈ s.head?, p c = false)
    (h : v ++ r = w ++ s) : v = w ∧ r = s := by
  have hruns := congrArg (List.takeWhile p) h
  rw [takeWhile_of_boundary hv hr, takeWhile_of_boundary hw hs] at hruns
  subst hruns
  exact ⟨rfl, List.append_cancel_left h⟩

theorem Label.isPlain_spelling (label : Label) :
    ∀ c ∈ label.spelling.toList, isPlain c = true := by
  cases label <;> decide

namespace Phrase

mutual

/-- The phrase as it is written. -/
@[simp]
def text : Phrase → List Char
  | word text => text.toList
  | form label first rest => label.spelling.toList ++
      '(' :: (first.text ++ (restText label.separator rest ++ [')']))
  | list [] => ['[', ']']
  | list (first :: rest) => '[' :: (first.text ++ (restText [',', ' '] rest ++ [']']))

/-- The texts of parts, with a separator in front of each. -/
@[simp]
def restText (separator : List Char) : List Phrase → List Char
  | [] => []
  | part :: more => separator ++ (part.text ++ restText separator more)

end

/-- No word of the phrase has a comma, a bracket or a line feed in it, and no member of a list is
empty. -/
inductive IsPlain : Phrase → Prop
  | word {text : String} : (∀ c ∈ text.toList, isPlain c = true) → IsPlain (word text)
  | form {label : Label} {first : Phrase} {rest : List Phrase} :
      IsPlain first → (∀ p ∈ rest, IsPlain p) → IsPlain (form label first rest)
  | list {members : List Phrase} : (∀ p ∈ members, IsPlain p) → (∀ p ∈ members, p.text ≠ []) →
      IsPlain (list members)

/-- The word or the label that the phrase starts with. -/
def head : Phrase → List Char
  | word text => text.toList
  | form label .. => label.spelling.toList
  | list _ => []

/-- What follows the word or the label. -/
def behind : Phrase → List Char
  | word _ => []
  | form label first rest => '(' :: (first.text ++ (restText label.separator rest ++ [')']))
  | list members => (list members).text

theorem text_eq (p : Phrase) : p.text = p.head ++ p.behind := by
  cases p with
  | word text => rw [Phrase.text, head, behind, List.append_nil]
  | form label first rest => rw [Phrase.text, head, behind]
  | list members => rw [head, behind, List.nil_append]

theorem IsPlain.head {p : Phrase} (h : p.IsPlain) : ∀ c ∈ p.head, isPlain c = true := by
  cases h with
  | word hword => exact hword
  | form => exact Label.isPlain_spelling _
  | list => exact List.forall_mem_nil _

/-- What follows the label of a form or opens a list. -/
theorem behind_cases (p : Phrase) : (∃ text, p = word text) ∨
    ∃ c rest, p.behind = c :: rest ∧ isPlain c = false ∧ isStop c = false := by
  cases p with
  | word text => exact .inl ⟨text, rfl⟩
  | form label first rest => exact .inr ⟨'(', _, rfl, rfl, rfl⟩
  | list members =>
    cases members with
    | nil => exact .inr ⟨'[', _, by rw [behind, text], rfl, rfl⟩
    | cons first rest => exact .inr ⟨'[', _, by rw [behind, text], rfl, rfl⟩

variable {a b : Phrase} {r s : List Char}

/-- Nothing but a word has a stop behind its first word. -/
theorem eq_word_of_stops {p : Phrase} (h : Stops (p.behind ++ s)) : ∃ text, p = word text := by
  rcases p.behind_cases with hword | ⟨c, rest, hbehind, -, hstop⟩
  · exact hword
  · rw [hbehind] at h
    rw [h c rfl] at hstop
    cases hstop

/-- The word or the label of a plain phrase can be told from what follows. -/
theorem head_eq_of_text_append (ha : a.IsPlain) (hb : b.IsPlain) (hr : Stops r) (hs : Stops s)
    (h : a.text ++ r = b.text ++ s) : a.head = b.head ∧ a.behind ++ r = b.behind ++ s := by
  have hbehind (p : Phrase) {rest : List Char} (hrest : Stops rest) :
      ∀ c ∈ (p.behind ++ rest).head?, isPlain c = false := by
    rcases p.behind_cases with ⟨text, rfl⟩ | ⟨c, more, hmore, hplain, -⟩
    · intro c hc
      unfold isPlain
      rw [hrest c hc]
      rfl
    · rw [hmore]
      rintro _ ⟨⟩
      exact hplain
  rw [text_eq a, text_eq b, List.append_assoc, List.append_assoc] at h
  exact run_append_inj ha.head hb.head (hbehind a hr) (hbehind b hs) h

/-- A phrase that is not empty does not start with a stop. -/
theorem IsPlain.isStop_head {p : Phrase} (h : p.IsPlain) (hne : p.text ≠ []) {c : Char}
    {rest : List Char} (hc : p.text ++ rest = c :: s) : isStop c = false := by
  rw [text_eq, List.append_assoc] at hc
  cases hhead : p.head with
  | cons d more =>
    rw [hhead] at hc
    obtain ⟨rfl, -⟩ := List.cons.inj hc
    have hplain : isPlain d = true := h.head d (by rw [hhead]; exact List.mem_cons_self)
    unfold isPlain at hplain
    simp only [Bool.not_eq_true', Bool.or_eq_false_iff] at hplain
    exact hplain.1.1.1
  | nil =>
    rcases p.behind_cases with ⟨text, rfl⟩ | ⟨d, more, hbehind, -, hstop⟩
    · exact absurd hhead hne
    · rw [hhead, hbehind] at hc
      obtain ⟨rfl, -⟩ := List.cons.inj hc
      exact hstop

theorem stops_restText {separator gap : List Char} (hseparator : separator = ',' :: gap) {c : Char}
    (hc : isStop c = true) : (parts : List Phrase) → Stops (restText separator parts ++ c :: r)
  | [] => stops_cons hc r
  | part :: more => by
    rw [restText, hseparator]
    exact stops_cons rfl _

theorem form_behind_append (label : Label) (first : Phrase) (rest : List Phrase) (r : List Char) :
    (form label first rest).behind ++ r =
      '(' :: (first.text ++ (restText label.separator rest ++ ')' :: r)) := by
  simp [behind]

theorem list_behind_append (first : Phrase) (rest : List Phrase) (r : List Char) :
    (list (first :: rest)).behind ++ r =
      '[' :: (first.text ++ (restText [',', ' '] rest ++ ']' :: r)) := by
  simp [behind, text]

mutual

/-- **Unique readability:** before a stop, a plain phrase can be told from its text, and where it
ends. -/
theorem eq_of_text_append {r s : List Char} : (a b : Phrase) → a.IsPlain → b.IsPlain → Stops r →
    Stops s → a.text ++ r = b.text ++ s → a = b ∧ r = s
  | word v, b, ha, hb, hr, hs, h => by
    obtain ⟨hhead, hbehind⟩ := head_eq_of_text_append ha hb hr hs h
    have hrest : r = b.behind ++ s := hbehind
    obtain ⟨w, rfl⟩ := eq_word_of_stops (hrest ▸ hr)
    exact ⟨congrArg word (String.toList_injective hhead), hrest⟩
  | form label first rest, b, ha, hb, hr, hs, h => by
    obtain ⟨hhead, hbehind⟩ := head_eq_of_text_append ha hb hr hs h
    rw [form_behind_append] at hbehind
    cases b with
    | word w =>
      have hrest : _ = s := hbehind
      cases hs '(' (by rw [← hrest]; rfl)
    | list members =>
      cases members with
      | nil => cases hbehind
      | cons first' rest' =>
        rw [list_behind_append] at hbehind
        cases hbehind
    | form label' first' rest' =>
      obtain rfl := Label.spelling_inj (String.toList_injective hhead)
      rw [form_behind_append] at hbehind
      obtain ⟨gap, hgap⟩ := label.separator_eq
      cases ha with | form hfirst hrest =>
      cases hb with | form hfirst' hrest' =>
      obtain ⟨rfl, htail⟩ := eq_of_text_append first first' hfirst hfirst'
        (stops_restText hgap rfl rest) (stops_restText hgap rfl rest') (List.cons.inj hbehind).2
      obtain ⟨rfl, rfl⟩ := eq_of_restText_append rest rest' hgap rfl (by decide) hrest hrest' htail
      exact ⟨rfl, rfl⟩
  | list [], b, ha, hb, hr, hs, h => by
    obtain ⟨hhead, hbehind⟩ := head_eq_of_text_append ha hb hr hs h
    cases b with
    | word w =>
      have hrest : _ = s := hbehind
      cases hs '[' (by rw [← hrest]; rfl)
    | form label first rest =>
      rw [form_behind_append] at hbehind
      cases hbehind
    | list members =>
      cases members with
      | nil => exact ⟨rfl, List.append_cancel_left hbehind⟩
      | cons first rest =>
        rw [list_behind_append] at hbehind
        -- what stands before the closing bracket would be a member, but no member is empty
        cases hb with | list hmembers hne =>
        obtain ⟨hfirst, -⟩ := List.forall_mem_cons.1 hmembers
        cases hfirst.isStop_head (hne first List.mem_cons_self) (List.cons.inj hbehind).2.symm
  | list (first :: rest), b, ha, hb, hr, hs, h => by
    obtain ⟨hhead, hbehind⟩ := head_eq_of_text_append ha hb hr hs h
    rw [list_behind_append] at hbehind
    cases ha with | list hmembers hne =>
    obtain ⟨hfirst, hrest⟩ := List.forall_mem_cons.1 hmembers
    cases b with
    | word w =>
      have hrest : _ = s := hbehind
      cases hs '[' (by rw [← hrest]; rfl)
    | form label first rest =>
      rw [form_behind_append] at hbehind
      cases hbehind
    | list members =>
      cases members with
      | nil =>
        cases hfirst.isStop_head (hne first List.mem_cons_self) (List.cons.inj hbehind).2
      | cons first' rest' =>
        rw [list_behind_append] at hbehind
        cases hb with | list hmembers' hne' =>
        obtain ⟨hfirst', hrest'⟩ := List.forall_mem_cons.1 hmembers'
        obtain ⟨rfl, htail⟩ := eq_of_text_append first first' hfirst hfirst'
          (stops_restText rfl rfl rest) (stops_restText rfl rfl rest') (List.cons.inj hbehind).2
        obtain ⟨rfl, rfl⟩ := eq_of_restText_append rest rest' rfl rfl (by decide) hrest hrest' htail
        exact ⟨rfl, rfl⟩

theorem eq_of_restText_append {r s separator gap : List Char} {c : Char} : (ps qs : List Phrase) →
    separator = ',' :: gap → isStop c = true → c ≠ ',' → (∀ p ∈ ps, p.IsPlain) →
    (∀ q ∈ qs, q.IsPlain) → restText separator ps ++ c :: r = restText separator qs ++ c :: s →
      ps = qs ∧ r = s
  | [], [], _, _, _, _, _, h => ⟨rfl, (List.cons.inj h).2⟩
  | [], q :: qs, hgap, _, hc, _, _, h => by
    rw [restText, hgap] at h
    exact absurd (List.cons.inj h).1 hc
  | p :: ps, [], hgap, _, hc, _, _, h => by
    rw [restText, hgap] at h
    exact absurd (List.cons.inj h).1.symm hc
  | p :: ps, q :: qs, hgap, hstop, hc, hps, hqs, h => by
    obtain ⟨hp, hps'⟩ := List.forall_mem_cons.1 hps
    obtain ⟨hq, hqs'⟩ := List.forall_mem_cons.1 hqs
    rw [restText, restText, List.append_assoc, List.append_assoc, List.append_assoc,
      List.append_assoc] at h
    obtain ⟨rfl, htail⟩ := eq_of_text_append p q hp hq (stops_restText hgap hstop ps)
      (stops_restText hgap hstop qs) (List.append_cancel_left h)
    obtain ⟨rfl, rfl⟩ := eq_of_restText_append ps qs hgap hstop hc hps' hqs' htail
    exact ⟨rfl, rfl⟩

end

mutual

/-- **Plain phrases stand on one line.** -/
theorem IsPlain.feed_notMem : {p : Phrase} → p.IsPlain → '\n' ∉ p.text
  | .word _, .word h => by
    rw [Phrase.text]
    exact fun hc => absurd (h _ hc) (by decide)
  | .form label first rest, .form hfirst hrest => by
    have hlabel : '\n' ∉ label.spelling.toList := fun hc =>
      absurd (label.isPlain_spelling _ hc) (by decide)
    have hseparator : '\n' ∉ label.separator := by cases label <;> decide
    simp only [Phrase.text, List.mem_append, List.mem_cons, hlabel, hfirst.feed_notMem,
      feed_notMem_restText hseparator rest hrest, false_or]
    decide
  | .list [], _ => by simp
  | .list (first :: rest), .list hmembers _ => by
    obtain ⟨hfirst, hrest⟩ := List.forall_mem_cons.1 hmembers
    have hseparator : '\n' ∉ [',', ' '] := by decide
    simp [hfirst.feed_notMem, feed_notMem_restText hseparator rest hrest]

theorem feed_notMem_restText {separator : List Char} (hseparator : '\n' ∉ separator) :
    (parts : List Phrase) → (∀ p ∈ parts, p.IsPlain) → '\n' ∉ restText separator parts
  | [], _ => List.not_mem_nil
  | part :: more, h => by
    obtain ⟨hpart, hmore⟩ := List.forall_mem_cons.1 h
    simp [hseparator, hpart.feed_notMem, feed_notMem_restText hseparator more hmore]

end

/-- **Plain phrases with the same text are the same.** -/
theorem eq_of_text {a b : Phrase} (ha : a.IsPlain) (hb : b.IsPlain) (h : a.text = b.text) : a = b :=
  (eq_of_text_append (r := []) (s := []) a b ha hb nofun nofun (congrArg (· ++ []) h)).1

end Phrase

end ArcLang
