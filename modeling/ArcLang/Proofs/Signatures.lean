import ArcLang.Proofs.Faithfulness
import ArcLang.Tree.Listing

/-!
# Signatures

Listings write types as scripts do, and names with their types behind a colon. Such a spelling is
the text of a plain phrase, so it can be told from what follows; a name ends at the colon or at the
parenthesis.

* `Binding.signature`, `Function.signature`: the texts, which `Function.takes_format` says are
  brought where there are frames enough.
* `TypeName.ofSpelled_spelled`: a type is read back from its spelling.
* `Binding.eq_of_signature_append`: so is a name with its type, before a comma or a bracket.
* `Function.eq_of_signature`: and so are name, parameters and result of a function.
-/

namespace ArcLang

open Phrase (word list IsPlain)

/-! ## What is written -/

section Walks

open Walk (Takes takes_pure)

variable {σ : Type} {s : σ}

theorem TypeName.takes_format : (t : TypeName) → Takes t.format s t.frames t.spelling s
  | bool _ | float _ | int .. | named .. => (takes_pure _ s).call
  | array _ element _ => (element.takes_format.map _).call

/-- The name and the spelling of the type. -/
def Binding.signature (b : Binding) : String := s!"{b.name}: {b.type.spelling}"

theorem Binding.takes_format (b : Binding) : Takes b.format s b.type.frames b.signature s :=
  b.type.takes_format.map _

namespace Function

/-- What stands behind the parameters of a function. -/
def resultText (result : Option TypeName) : String := result.elim "" fun t => ": " ++ t.spelling

/-- The name, the parameters and the result, as scripts write them. -/
def signature (f : Function) : String :=
  let parameters := ", ".intercalate (f.parameters.map Binding.signature)
  s!"{f.name}({parameters}){resultText f.result}"

/-- The frames that writing the signature takes. -/
def formatFrames (f : Function) : Nat :=
  max (Walk.most (fun b => b.type.frames) f.parameters + 1) (f.result.elim 0 TypeName.frames)

theorem takes_format (f : Function) : Takes f.format s f.formatFrames f.signature s := by
  have hresult : Takes (formatResult f.result) s (f.result.elim 0 TypeName.frames)
      (resultText f.result) s := by
    cases f.result with
    | none => exact takes_pure _ s
    | some t => exact t.takes_format.map _
  have hparameters : Takes (Walk.each Binding.format f.parameters) s _ _ s :=
    Walk.takes_each fun b _ => b.takes_format
  exact hparameters.call.bind (hresult.map _)

end Function

end Walks

/-! ## Types -/

namespace TypeName

/-- The spelling of a type as a phrase. -/
def spelled : TypeName → Phrase
  | bool _ => word Keyword.bool.spelling
  | float _ => word Keyword.float.spelling
  | int _ signed width => word (Keyword.int signed width).spelling
  | array _ element length => list [element.spelled, word (toString length)]
  | named _ name => word name

theorem toList_spelling : (t : TypeName) → t.spelling.toList = t.spelled.text
  | bool _ | float _ => rfl
  | int .. | named .. => by rw [spelled, Phrase.text]; rfl
  | array _ element length => by
    show ("[" ++ element.spelling ++ ", " ++ toString length ++ "]").toList = _
    simp [spelled, element.toList_spelling]

end TypeName

theorem Keyword.isPlain_spelling (k : Keyword) : IsPlain (word k.spelling) := by
  obtain ⟨c, r, htext, hc, hr⟩ := k.word_spelling
  refine .word ?_
  rw [htext]
  exact List.forall_mem_cons.2 ⟨isPlain_of_class (by decide) hc,
    fun d hd => isPlain_of_class (by decide) (hr d hd)⟩

theorem Keyword.spelling_ne_nil (k : Keyword) : k.spelling.toList ≠ [] := by
  obtain ⟨c, r, htext, -⟩ := k.word_spelling
  rw [htext]
  exact List.cons_ne_nil c r

theorem IsName.ne_nil {text : String} (h : IsName text) : text.toList ≠ [] := by
  obtain ⟨c, r, htext, -⟩ := h
  rw [htext]
  exact List.cons_ne_nil c r

namespace TypeName

theorem isPlain_spelled {t : TypeName} (h : (Node.typeName t).Throughout Node.HasWords) :
    t.spelled.IsPlain ∧ t.spelled.text ≠ [] := by
  induction t with
  | bool | float | int =>
    rw [spelled, Phrase.text]
    exact ⟨Keyword.isPlain_spelling _, Keyword.spelling_ne_nil _⟩
  | named span name =>
    rw [spelled, Phrase.text]
    exact ⟨IsName.isPlain h.root, IsName.ne_nil h.root⟩
  | array span element length ih =>
    obtain ⟨hplain, hne⟩ := ih (h.child (List.mem_singleton_self _))
    have hlength : (word (toString length)).text ≠ [] := by
      rw [Phrase.text, Nat.toString_eq_repr, Nat.toList_repr]
      exact List.ne_nil_of_length_pos Nat.length_toDigits_pos
    refine ⟨.list ?_ ?_, by simp [spelled]⟩
    · exact List.forall_mem_cons.2 ⟨hplain, List.forall_mem_singleton.2 (isPlain_toString length)⟩
    · exact List.forall_mem_cons.2 ⟨hne, List.forall_mem_singleton.2 hlength⟩

/-- The type that a reserved word names. -/
def ofKeyword? : Keyword → Option TypeName
  | .bool => some (bool .blank)
  | .float => some (float .blank)
  | .int signed width => some (int .blank signed width)
  | _ => none

/-- The type that a word names. -/
def ofWord (text : String) : TypeName :=
  ((Keyword.ofSpelling? text).bind ofKeyword?).getD (named .blank text)

/-- The type that a phrase spells, without spans. -/
def ofSpelled : Phrase → TypeName
  | word text => ofWord text
  | list [element, word length] => array .blank (ofSpelled element) (natOf length)
  | _ => bool .blank

/-- **A type is read back from its spelling,** without its spans. -/
theorem ofSpelled_spelled {t : TypeName} (h : (Node.typeName t).Throughout Node.HasWords) :
    ofSpelled t.spelled = t.erased := by
  induction t with
  | bool | float | int =>
    rw [spelled, ofSpelled, ofWord, Keyword.ofSpelling?_spelling]
    rfl
  | named span name =>
    obtain ⟨-, -, -, -, -, hfree⟩ := (h.root : IsName name)
    rw [String.ofList_toList] at hfree
    rw [spelled, ofSpelled, ofWord, hfree]
    rfl
  | array span element length ih =>
    rw [spelled, ofSpelled, natOf_toString, ih (h.child (List.mem_singleton_self _)), erased]

/-- A type can be told from its spelling, before a comma or a closing bracket. -/
theorem eq_of_spelling_append {a b : TypeName} (ha : (Node.typeName a).Throughout Node.HasWords)
    (hb : (Node.typeName b).Throughout Node.HasWords) {r s : List Char} (hr : Stops r)
    (hs : Stops s) (h : a.spelling.toList ++ r = b.spelling.toList ++ s) :
    a.erased = b.erased ∧ r = s := by
  rw [a.toList_spelling, b.toList_spelling] at h
  obtain ⟨hspelled, hrest⟩ := Phrase.eq_of_text_append _ _ (isPlain_spelled ha).1
    (isPlain_spelled hb).1 hr hs h
  rw [← ofSpelled_spelled ha, ← ofSpelled_spelled hb, hspelled]
  exact ⟨rfl, hrest⟩

theorem spelling_erased (t : TypeName) : t.erased.spelling = t.spelling := by
  induction t with
  | array span element length ih => rw [erased, spelling, ih, spelling]
  | _ => rfl

end TypeName

/-! ## Names with types -/

/-- A name is made of letters, digits and underscores. -/
theorem IsName.isWordChar {text : String} (h : IsName text) :
    ∀ c ∈ text.toList, Reading.isWordChar c = true := by
  obtain ⟨c, r, htext, hc, hr, -⟩ := h
  rw [htext]
  refine List.forall_mem_cons.2 ⟨?_, hr⟩
  unfold Reading.isWordStart at hc
  unfold Reading.isWordChar Char.isAlphanum
  rcases Bool.or_eq_true_iff.1 hc with hc | hc <;> simp [hc]

/-- Two names can be told from what follows, if that starts with neither a letter nor a digit. -/
theorem IsName.eq_of_append {a b : String} (ha : IsName a) (hb : IsName b) {c d : Char}
    {r s : List Char} (hc : Reading.isWordChar c = false) (hd : Reading.isWordChar d = false)
    (h : a.toList ++ c :: r = b.toList ++ d :: s) : a = b ∧ r = s := by
  obtain ⟨hnames, hrest⟩ := run_append_inj ha.isWordChar hb.isWordChar
    (by rintro _ ⟨⟩; exact hc) (by rintro _ ⟨⟩; exact hd) h
  exact ⟨String.toList_injective hnames, (List.cons.inj hrest).2⟩

namespace Binding

/-- Name and type of a parameter or a field are texts of their classes. -/
structure HasWords (b : Binding) : Prop where
  name : IsName b.name
  type : (Node.typeName b.type).Throughout Node.HasWords

theorem hasWords_of_field {b : Binding} (h : (Node.field b).Throughout Node.HasWords) :
    b.HasWords := ⟨h.root, h.child (List.mem_singleton_self _)⟩

theorem hasWords_of_parameter {b : Binding} (h : (Node.parameter b).Throughout Node.HasWords) :
    b.HasWords := ⟨h.root, h.child (List.mem_singleton_self _)⟩

theorem toList_signature (b : Binding) :
    b.signature.toList = b.name.toList ++ ':' :: ' ' :: b.type.spelling.toList := by
  show (b.name ++ ": " ++ b.type.spelling).toList = _
  simp

/-- **A name with its type can be told from its signature,** before a comma or a closing bracket. -/
theorem eq_of_signature_append {a b : Binding} (ha : a.HasWords) (hb : b.HasWords)
    {r s : List Char} (hr : Stops r) (hs : Stops s)
    (h : a.signature.toList ++ r = b.signature.toList ++ s) : a.erased = b.erased ∧ r = s := by
  rw [toList_signature, toList_signature, List.append_assoc, List.append_assoc] at h
  obtain ⟨hname, htypes⟩ := ha.name.eq_of_append hb.name rfl rfl h
  obtain ⟨htype, hrest⟩ := TypeName.eq_of_spelling_append ha.type hb.type hr hs
    (List.cons.inj htypes).2
  exact ⟨by rw [erased, erased, hname, htype], hrest⟩

theorem signature_erased (b : Binding) : b.erased.signature = b.signature := by
  unfold signature erased
  dsimp only
  rw [TypeName.spelling_erased]

/-- Parameters behind the first one, up to the closing parenthesis. -/
def moreSignatures (bs : List Binding) : List Char :=
  (bs.map signature).flatMap fun t => [',', ' '] ++ t.toList

theorem stops_moreSignatures (bs : List Binding) (r : List Char) :
    Stops (moreSignatures bs ++ ')' :: r) := by
  cases bs with
  | nil => exact stops_cons rfl r
  | cons b bs => exact stops_cons rfl _

theorem eq_of_moreSignatures_append {as bs : List Binding} (ha : ∀ a ∈ as, a.HasWords)
    (hb : ∀ b ∈ bs, b.HasWords) {r s : List Char}
    (h : moreSignatures as ++ ')' :: r = moreSignatures bs ++ ')' :: s) :
    as.map erased = bs.map erased ∧ r = s := by
  induction as generalizing bs with
  | nil =>
    cases bs with
    | nil => exact ⟨rfl, (List.cons.inj h).2⟩
    | cons b bs => exact absurd (List.cons.inj h).1 (by decide)
  | cons a as ih =>
    cases bs with
    | nil => exact absurd (List.cons.inj h).1 (by decide)
    | cons b bs =>
      obtain ⟨ha, has⟩ := List.forall_mem_cons.1 ha
      obtain ⟨hb, hbs⟩ := List.forall_mem_cons.1 hb
      have hmore : a.signature.toList ++ (moreSignatures as ++ ')' :: r) =
          b.signature.toList ++ (moreSignatures bs ++ ')' :: s) := by
        simpa [moreSignatures] using h
      obtain ⟨hfirst, hmore⟩ := eq_of_signature_append ha hb (stops_moreSignatures as r)
        (stops_moreSignatures bs s) hmore
      obtain ⟨hrest, rfl⟩ := ih has hbs hmore
      exact ⟨by rw [List.map_cons, List.map_cons, hfirst, hrest], rfl⟩

/-- **Parameters can be told from their signatures,** up to the closing parenthesis. -/
theorem eq_of_signatures_append {as bs : List Binding} (ha : ∀ a ∈ as, a.HasWords)
    (hb : ∀ b ∈ bs, b.HasWords) {r s : List Char}
    (h : (", ".intercalate (as.map signature)).toList ++ ')' :: r =
      (", ".intercalate (bs.map signature)).toList ++ ')' :: s) :
    as.map erased = bs.map erased ∧ r = s := by
  -- where there are none, the parenthesis follows, but a name does not start with one
  have hfirst {b : Binding} (hb : b.HasWords) {bs : List Binding} {r s : List Char}
      (h : ')' :: r = (", ".intercalate ((b :: bs).map signature)).toList ++ ')' :: s) : False := by
    rw [List.map_cons, toList_intercalate, toList_signature] at h
    obtain ⟨c, more, hname, -⟩ := hb.name
    have hword := hb.name.isWordChar c (by rw [hname]; exact List.mem_cons_self)
    rw [hname] at h
    rw [← (List.cons.inj h).1] at hword
    exact absurd hword (by decide)
  cases as with
  | nil =>
    cases bs with
    | nil => exact ⟨rfl, (List.cons.inj h).2⟩
    | cons b bs => exact (hfirst (List.forall_mem_cons.1 hb).1 h).elim
  | cons a as =>
    cases bs with
    | nil => exact (hfirst (List.forall_mem_cons.1 ha).1 h.symm).elim
    | cons b bs =>
      rw [List.map_cons, List.map_cons, toList_intercalate, toList_intercalate] at h
      refine eq_of_moreSignatures_append ha hb ?_
      simpa [moreSignatures] using h

end Binding

/-! ## Functions -/

namespace Function

/-- Name, parameters and result of a function are texts of their classes. -/
structure HasWords (f : Function) : Prop where
  name : IsName f.name
  parameters : ∀ b ∈ f.parameters, b.HasWords
  result : ∀ t ∈ f.result, (Node.typeName t).Throughout Node.HasWords

theorem hasWords {f : Function} (h : (Node.function f).Throughout Node.HasWords) :
    f.HasWords := by
  have hchildren := (Node.throughout_iff.1 h).2
  simp only [Node.children, List.forall_mem_append, List.forall_mem_map] at hchildren
  obtain ⟨⟨hparameters, hresult⟩, -⟩ := hchildren
  exact ⟨h.root, fun b hb => Binding.hasWords_of_parameter (hparameters b hb),
    fun t ht => hresult t (Option.mem_toList.2 ht)⟩

theorem toList_signature (f : Function) : f.signature.toList = f.name.toList ++
    '(' :: ((", ".intercalate (f.parameters.map Binding.signature)).toList ++
      ')' :: (resultText f.result).toList) := by
  show (f.name ++ "(" ++ ", ".intercalate (f.parameters.map Binding.signature) ++ ")" ++
    resultText f.result).toList = _
  simp

theorem eq_of_resultText {a b : Option TypeName}
    (ha : ∀ t ∈ a, (Node.typeName t).Throughout Node.HasWords)
    (hb : ∀ t ∈ b, (Node.typeName t).Throughout Node.HasWords)
    (h : (resultText a).toList = (resultText b).toList) :
    a.map TypeName.erased = b.map TypeName.erased := by
  have hsome (t : TypeName) :
      (resultText (some t)).toList = ':' :: ' ' :: t.spelling.toList := by simp [resultText]
  cases a with
  | none =>
    cases b with
    | none => rfl
    | some u => rw [hsome] at h; cases h
  | some t =>
    cases b with
    | none => rw [hsome] at h; cases h
    | some u =>
      rw [hsome, hsome] at h
      have hspelling := (List.cons.inj (List.cons.inj h).2).2
      exact congrArg some (TypeName.eq_of_spelling_append (r := []) (s := []) (ha t rfl) (hb u rfl)
        nofun nofun (congrArg (· ++ []) hspelling)).1

/-- **A function's signature tells name, parameters and result.** -/
theorem eq_of_signature {f g : Function} (hf : f.HasWords) (hg : g.HasWords)
    (h : f.signature = g.signature) : f.name = g.name ∧
      f.parameters.map Binding.erased = g.parameters.map Binding.erased ∧
        f.result.map TypeName.erased = g.result.map TypeName.erased := by
  have hlists := congrArg String.toList h
  rw [toList_signature, toList_signature] at hlists
  obtain ⟨hname, hlists⟩ := hf.name.eq_of_append hg.name rfl rfl hlists
  obtain ⟨hparameters, hresults⟩ :=
    Binding.eq_of_signatures_append hf.parameters hg.parameters hlists
  exact ⟨hname, hparameters, eq_of_resultText hf.result hg.result hresults⟩

theorem signature_erased (f : Function) : f.erased.signature = f.signature := by
  have hparameters : (f.parameters.map Binding.erased).map Binding.signature =
      f.parameters.map Binding.signature := by
    rw [List.map_map]
    exact List.map_congr_left fun b _ => b.signature_erased
  have hresult : resultText (f.result.map TypeName.erased) = resultText f.result := by
    cases f.result with
    | none => rfl
    | some t => exact congrArg (": " ++ ·) t.spelling_erased
  refine String.toList_injective ?_
  rw [toList_signature, toList_signature, erased]
  dsimp only
  rw [hparameters, hresult]

end Function

/-! ## Lines -/

theorem TypeName.feed_notMem_spelling {t : TypeName}
    (h : (Node.typeName t).Throughout Node.HasWords) : '\n' ∉ t.spelling.toList := by
  rw [toList_spelling]
  exact (isPlain_spelled h).1.feed_notMem

theorem IsName.feed_notMem {text : String} (h : IsName text) : '\n' ∉ text.toList :=
  fun hc => absurd (h.isWordChar _ hc) (by decide)

theorem Binding.feed_notMem_signature {b : Binding} (h : b.HasWords) :
    '\n' ∉ b.signature.toList := by
  simp [toList_signature, h.name.feed_notMem, TypeName.feed_notMem_spelling h.type]

theorem Function.feed_notMem_signature {f : Function} (h : f.HasWords) :
    '\n' ∉ f.signature.toList := by
  have hparameters : '\n' ∉
      (", ".intercalate (f.parameters.map Binding.signature)).toList := by
    have hall := h.parameters
    cases hbs : f.parameters with
    | nil => exact List.not_mem_nil
    | cons b bs =>
      rw [hbs] at hall
      obtain ⟨hb, hbs⟩ := List.forall_mem_cons.1 hall
      rw [List.map_cons, toList_intercalate]
      simpa [Binding.feed_notMem_signature hb] using
        fun b hb => Binding.feed_notMem_signature (hbs b hb)
  have hresult : '\n' ∉ (resultText f.result).toList := by
    cases hr : f.result with
    | none => exact List.not_mem_nil
    | some t => simp [resultText, TypeName.feed_notMem_spelling (h.result t hr)]
  rw [toList_signature]
  simp only [List.mem_append, List.mem_cons, h.name.feed_notMem, hparameters, hresult, or_false,
    false_or]
  decide

end ArcLang
