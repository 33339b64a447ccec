import ArcLang.Proofs.Attributes
import ArcLang.Proofs.Describing
import ArcLang.Proofs.LongSums
import ArcLang.Tree.Shape

/-!
# Descriptions are faithful

The description of a parsed program leaves out nothing but its spans. Its words are names, numbers,
letters and operators, none of which has a comma or a bracket in it; so its phrase is known from its
text, and the tree can be read back from the phrase.

* `Program.isPlain_phrase`: the phrase of a program whose words are well formed is plain.
* `Program.ofPhrase_phrase`: the tree is read back, without its spans.
* `Program.phrase_erased`: the phrase does not depend on spans.
* `describe_eq_iff_sameShape`: the statement about programs.
* `not_described_sum`: an accepted program that the stack is too small for.
-/

namespace ArcLang

open Phrase (word form list IsPlain)

/-! ## Plain words -/

theorem isPlain_of_class {p : Char → Bool}
    (hp : ∀ c ∈ [',', ')', ']', '(', '[', '\n'], p c = false) {c : Char} (hc : p c = true) :
    isPlain c = true := by
  have hother : ∀ d ∈ [',', ')', ']', '(', '[', '\n'], c ≠ d := by
    rintro d hd rfl
    rw [hp c hd] at hc
    cases hc
  simp only [List.forall_mem_cons] at hother
  simp [isPlain, isStop, hother]

/-- A name can be told from what stands around it. -/
theorem IsName.isPlain {text : String} (h : IsName text) : IsPlain (word text) := by
  obtain ⟨c, r, htext, hc, hr, -⟩ := h
  refine .word ?_
  rw [htext]
  exact List.forall_mem_cons.2 ⟨isPlain_of_class (by decide) hc,
    fun d hd => isPlain_of_class (by decide) (hr d hd)⟩

theorem isPlain_of_number {text : String} (h : Kind.number.Spells text.toList) :
    IsPlain (word text) := by
  obtain ⟨c, r, htext, hc, hr⟩ := h
  refine .word ?_
  rw [htext]
  exact List.forall_mem_cons.2 ⟨isPlain_of_class (by decide) hc,
    fun d hd => isPlain_of_class (by decide) (hr d hd)⟩

theorem isPlain_of_letters {text : String} (h : ∀ c ∈ text.toList, c.isAlpha = true) :
    IsPlain (word text) :=
  .word fun c hc => isPlain_of_class (by decide) (h c hc)

theorem isPlain_toString (n : Nat) : IsPlain (word (toString n)) := by
  refine .word fun c hc => ?_
  rw [Nat.toString_eq_repr, Nat.toList_repr] at hc
  exact isPlain_of_class (p := Char.isDigit) (by decide)
    (Nat.isDigit_of_mem_toDigits (by decide) (by decide) hc)

theorem BinaryOp.isPlain_spelling (op : BinaryOp) : IsPlain (word op.symbol.spelling) :=
  .word (by cases op <;> decide)

theorem UnaryOp.isPlain_spelling (op : UnaryOp) : IsPlain (word op.symbol.spelling) :=
  .word (by cases op <;> decide)

theorem AssignOp.isPlain_spelling (op : AssignOp) : IsPlain (word op.symbol.spelling) :=
  .word (by cases op <;> decide)

/-! ## Plain phrases -/

namespace Phrase

variable {label : Label} {first second third : Phrase}

theorem text_form_ne_nil (label : Label) (first : Phrase) (rest : List Phrase) :
    (form label first rest).text ≠ [] := by
  simp

theorem IsPlain.form₁ (h : first.IsPlain) : (Phrase.form label first []).IsPlain :=
  .form h (List.forall_mem_nil _)

theorem IsPlain.form₂ (h : first.IsPlain) (h' : second.IsPlain) :
    (Phrase.form label first [second]).IsPlain :=
  .form h (List.forall_mem_singleton.2 h')

theorem IsPlain.form₃ (h : first.IsPlain) (h' : second.IsPlain) (h'' : third.IsPlain) :
    (Phrase.form label first [second, third]).IsPlain :=
  .form h (List.forall_mem_cons.2 ⟨h', List.forall_mem_singleton.2 h''⟩)

theorem IsPlain.list_map {α : Type} {phrase : α → Phrase} {as : List α}
    (h : ∀ a ∈ as, (phrase a).IsPlain) (hne : ∀ a ∈ as, (phrase a).text ≠ []) :
    (Phrase.list (as.map phrase)).IsPlain :=
  .list (List.forall_mem_map.2 h) (List.forall_mem_map.2 hne)

end Phrase

theorem TypeName.isPlain_phrase {t : TypeName} (h : (Node.typeName t).Throughout Node.HasWords) :
    t.phrase.IsPlain := by
  induction t with
  | bool | float => exact .word (by decide)
  | int span signed width =>
    exact .form₂ (.word (by cases signed <;> decide)) (isPlain_toString width.bits)
  | array span element length ih =>
    exact .form₂ (ih (h.child (List.mem_singleton_self _))) (isPlain_toString length)
  | named span name => exact .form₁ (IsName.isPlain h.root)

theorem Expr.text_phrase_ne_nil (e : Expr) : e.phrase.text ≠ [] := by
  cases e <;> exact Phrase.text_form_ne_nil _ _ _

namespace Expr

theorem phraseEach_eq (es : List Expr) : phraseEach es = es.map phrase := by
  induction es with
  | nil => rfl
  | cons e es ih => rw [phraseEach, ih, List.map_cons]

theorem isPlain_phrase : (e : Expr) → (Node.expression e).Throughout Node.HasWords →
    e.phrase.IsPlain
  | number .., h => .form₁ (isPlain_of_number h.root.1)
  | boolean _ value, _ => .form₁ (.word (by cases value <;> decide))
  | char .., h => .form₁ (isPlain_of_letters h.root.2)
  | string .., h => .form₁ (isPlain_of_letters h.root)
  | name .., h => .form₁ (IsName.isPlain h.root)
  | array _ elements, h => by
    rw [phrase, phraseEach_eq]
    exact .form₁ (.list_map (fun e he => isPlain_phrase e (h.part he))
      fun e _ => e.text_phrase_ne_nil)
  | member _ target _, h =>
    .form₂ (isPlain_phrase target (h.part (List.mem_singleton_self _))) (IsName.isPlain h.root)
  | index _ target place, h =>
    .form₂ (isPlain_phrase target (h.part List.mem_cons_self))
      (isPlain_phrase place (h.part (List.mem_cons_of_mem _ List.mem_cons_self)))
  | call _ callee arguments, h => by
    rw [phrase, phraseEach_eq]
    exact .form₂ (isPlain_phrase callee (h.part List.mem_cons_self))
      (.list_map (fun e he => isPlain_phrase e (h.part (List.mem_cons_of_mem _ he)))
        fun e _ => e.text_phrase_ne_nil)
  | binary _ op left right, h =>
    .form₃ op.isPlain_spelling (isPlain_phrase left (h.part List.mem_cons_self))
      (isPlain_phrase right (h.part (List.mem_cons_of_mem _ List.mem_cons_self)))
  | unary _ op operand, h =>
    .form₂ op.isPlain_spelling (isPlain_phrase operand (h.part (List.mem_singleton_self _)))
  | paren _ inner, h => .form₁ (isPlain_phrase inner (h.part (List.mem_singleton_self _)))
  | assign _ target op value, h =>
    .form₃ op.isPlain_spelling (isPlain_phrase target (h.part List.mem_cons_self))
      (isPlain_phrase value (h.part (List.mem_cons_of_mem _ List.mem_cons_self)))

end Expr

theorem Stmt.text_phrase_ne_nil (s : Stmt) : s.phrase.text ≠ [] := by
  rcases s with _ | ⟨_, _ | _⟩ | _ | ⟨_, _, _, _ | _⟩ | _
  · exact (by decide : "Break".toList ≠ [])
  · exact (by decide : "Return".toList ≠ [])
  all_goals exact Phrase.text_form_ne_nil _ _ _

theorem Stmt.phraseEach_eq (ss : List Stmt) : Stmt.phraseEach ss = ss.map Stmt.phrase := by
  induction ss with
  | nil => rfl
  | cons s ss ih => rw [Stmt.phraseEach, ih, List.map_cons]

mutual

theorem Stmt.isPlain_phrase : (s : Stmt) → (Node.statement s).Throughout Node.HasWords →
    s.phrase.IsPlain
  | .breakLoop _, _ => .word (by decide)
  | .ret _ none, _ => .word (by decide)
  | .ret _ (some e), h => .form₁ (e.isPlain_phrase (h.child (List.mem_singleton_self _)))
  | .loop _ condition body, h =>
    .form₂ (condition.isPlain_phrase (h.child List.mem_cons_self))
      (body.isPlain_phrase (h.child (List.mem_cons_of_mem _ List.mem_cons_self)))
  | .branch _ condition consequent none, h =>
    .form₂ (condition.isPlain_phrase (h.child List.mem_cons_self))
      (consequent.isPlain_phrase (h.child (List.mem_cons_of_mem _ List.mem_cons_self)))
  | .branch _ condition consequent (some alternate), h =>
    .form₃ (condition.isPlain_phrase (h.child List.mem_cons_self))
      (consequent.isPlain_phrase (h.child (List.mem_cons_of_mem _ List.mem_cons_self)))
      (alternate.isPlain_phrase (h.child
        (List.mem_cons_of_mem _ (List.mem_cons_of_mem _ List.mem_cons_self))))
  | .expression _ e, h => .form₁ (e.isPlain_phrase (h.child (List.mem_singleton_self _)))

theorem Block.isPlain_phrase : (b : Block) → (Node.block b).Throughout Node.HasWords →
    b.phrase.IsPlain
  | .mk _ statements, h => by
    rw [Block.phrase, Stmt.phraseEach_eq]
    exact .list_map (fun s hs => s.isPlain_phrase (h.child (List.mem_map_of_mem hs)))
      fun s _ => s.text_phrase_ne_nil

end

/-- Parameters and fields in a list. -/
theorem isPlain_bindings (node : Binding → Node) {bs : List Binding}
    (hroot : ∀ b, (node b).HasWords → IsName b.name)
    (hchildren : ∀ b, .typeName b.type ∈ (node b).children)
    (h : ∀ b ∈ bs, (node b).Throughout Node.HasWords) :
    (list (bs.map Binding.phrase)).IsPlain := by
  refine .list_map (fun b hb => ?_) fun b _ => Phrase.text_form_ne_nil _ _ _
  exact .form₂ (hroot b (h b hb).root).isPlain
    (TypeName.isPlain_phrase ((h b hb).child (hchildren b)))

theorem Function.isPlain_phrase {f : Function} (h : (Node.function f).Throughout Node.HasWords) :
    f.phrase.IsPlain := by
  have hchildren := (Node.throughout_iff.1 h).2
  simp only [Node.children, List.forall_mem_append, List.forall_mem_map,
    List.forall_mem_singleton] at hchildren
  obtain ⟨⟨hparameters, hresult⟩, hbody⟩ := hchildren
  have hresult : (f.result.elim (word "None") TypeName.phrase).IsPlain := by
    cases hr : f.result with
    | none => exact .word (by decide)
    | some t =>
      rw [hr] at hresult
      exact TypeName.isPlain_phrase (hresult t (List.mem_singleton_self t))
  have hparameters := isPlain_bindings .parameter (fun _ hb => hb)
    (fun _ => List.mem_singleton_self _) hparameters
  exact .form (IsName.isPlain h.root) (List.forall_mem_cons.2 ⟨hparameters,
    List.forall_mem_cons.2 ⟨hresult, List.forall_mem_singleton.2 (f.body.isPlain_phrase hbody)⟩⟩)

theorem Struct.isPlain_phrase {s : Struct} (h : (Node.struct s).Throughout Node.HasWords) :
    s.phrase.IsPlain := by
  refine .form₂ (IsName.isPlain h.root) (isPlain_bindings .field (fun _ hb => hb)
    (fun _ => List.mem_singleton_self _) fun b hb => ?_)
  exact h.child (List.mem_map_of_mem hb)

theorem Item.text_phrase_ne_nil (i : Item) : i.phrase.text ≠ [] := by
  cases i with
  | statement s => exact s.text_phrase_ne_nil
  | function | struct => exact Phrase.text_form_ne_nil _ _ _

/-- **The phrase of a program is plain** if its words are well formed. -/
theorem Program.isPlain_phrase {p : Program} (h : (Node.program p).Throughout Node.HasWords) :
    p.phrase.IsPlain := by
  refine .form₁ (.list_map (fun i hi => ?_) fun i _ => i.text_phrase_ne_nil)
  have hi : (Node.ofItem i).Throughout Node.HasWords := h.child (List.mem_map_of_mem hi)
  cases i with
  | function f => exact Function.isPlain_phrase hi
  | struct s => exact Struct.isPlain_phrase hi
  | statement s => exact s.isPlain_phrase hi

/-! ## Trees from phrases -/

/-- The number that a word in decimal stands for. -/
def natOf (text : String) : Nat := Nat.ofDigitChars 10 text.toList 0

theorem natOf_toString (n : Nat) : natOf (toString n) = n := by
  unfold natOf
  rw [Nat.toString_eq_repr, Nat.toList_repr]
  exact Nat.ofDigitChars_ten_toDigits

/-- The operator that a word stands for. -/
def operatorOf? {α : Type} (ofSymbol? : Symbol → Option α) (text : String) : Option α :=
  (Symbol.all.find? (·.spelling = text)).bind ofSymbol?

theorem operatorOf?_spelling {α : Type} {ofSymbol? : Symbol → Option α} {s : Symbol} {op : α}
    (h : ofSymbol? s = some op) : operatorOf? ofSymbol? s.spelling = some op := by
  have hfind : Symbol.all.find? (·.spelling = s.spelling) = some s := by cases s <;> decide
  unfold operatorOf?
  rw [hfind]
  exact h

/-- The type that a phrase stands for, without spans. -/
def TypeName.ofPhrase : Phrase → TypeName
  | word text => if text = "Bool" then bool .blank else float .blank
  | form .intType (word sign) [word bits] =>
    int .blank (sign = "signed") ((Width.ofBits? (natOf bits)).getD default)
  | form .arrayType element [word length] => array .blank (ofPhrase element) (natOf length)
  | form .namedType (word name) [] => named .blank name
  | _ => bool .blank

theorem TypeName.ofPhrase_phrase (t : TypeName) : ofPhrase t.phrase = t.erased := by
  induction t with
  | bool | float => rfl
  | int span signed width =>
    rw [phrase, ofPhrase, natOf_toString, erased]
    cases signed <;> cases width <;> rfl
  | array span element length ih => rw [phrase, ofPhrase, natOf_toString, ih, erased]
  | named span name => rfl

namespace Expr

mutual

/-- The expression that a phrase stands for, without spans. -/
def ofPhrase : Phrase → Expr
  | form .number (word text) [] => number .blank text (.of text)
  | form .boolean (word text) [] => boolean .blank (text = "true")
  | form .char (word text) [] => char .blank text
  | form .string (word text) [] => string .blank text
  | form .array (list elements) [] => array .blank (ofPhrases elements)
  | form .name (word text) [] => name .blank text
  | form .member target [word text] => member .blank (ofPhrase target) text
  | form .index target [place] => index .blank (ofPhrase target) (ofPhrase place)
  | form .call callee [list arguments] => call .blank (ofPhrase callee) (ofPhrases arguments)
  | form .binary (word op) [left, right] =>
    binary .blank ((operatorOf? BinaryOp.ofSymbol? op).getD .add) (ofPhrase left) (ofPhrase right)
  | form .unary (word op) [operand] =>
    unary .blank ((operatorOf? UnaryOp.ofSymbol? op).getD .negate) (ofPhrase operand)
  | form .paren inner [] => paren .blank (ofPhrase inner)
  | form .assign (word op) [target, value] =>
    assign .blank (ofPhrase target) ((operatorOf? AssignOp.ofSymbol? op).getD .assign)
      (ofPhrase value)
  | _ => boolean .blank false

/-- The expressions that phrases stand for. -/
def ofPhrases : List Phrase → List Expr
  | [] => []
  | p :: more => ofPhrase p :: ofPhrases more

end

mutual

theorem ofPhrase_phrase : (e : Expr) → (Node.expression e).Throughout Node.HasWords →
    ofPhrase e.phrase = e.erased
  | number .., h => by rw [phrase, ofPhrase, erased, h.root.2]
  | boolean _ value, _ => by cases value <;> rfl
  | char .., _ | string .., _ | name .., _ => rfl
  | array _ elements, h => by
    rw [phrase, ofPhrase, ofPhrases_phraseEach elements fun e he => h.part he, erased]
  | member _ target _, h => by
    rw [phrase, ofPhrase, target.ofPhrase_phrase (h.part (List.mem_singleton_self _)), erased]
  | index _ target place, h => by
    rw [phrase, ofPhrase, target.ofPhrase_phrase (h.part List.mem_cons_self),
      place.ofPhrase_phrase (h.part (List.mem_cons_of_mem _ List.mem_cons_self)), erased]
  | call _ callee arguments, h => by
    rw [phrase, ofPhrase, callee.ofPhrase_phrase (h.part List.mem_cons_self),
      ofPhrases_phraseEach arguments fun e he => h.part (List.mem_cons_of_mem _ he), erased]
  | binary _ op left right, h => by
    rw [phrase, ofPhrase, operatorOf?_spelling (BinaryOp.ofSymbol?_eq_some_iff.2 rfl),
      left.ofPhrase_phrase (h.part List.mem_cons_self),
      right.ofPhrase_phrase (h.part (List.mem_cons_of_mem _ List.mem_cons_self)), erased]
    rfl
  | unary _ op operand, h => by
    rw [phrase, ofPhrase, operatorOf?_spelling (UnaryOp.ofSymbol?_eq_some_iff.2 rfl),
      operand.ofPhrase_phrase (h.part (List.mem_singleton_self _)), erased]
    rfl
  | paren _ inner, h => by
    rw [phrase, ofPhrase, inner.ofPhrase_phrase (h.part (List.mem_singleton_self _)), erased]
  | assign _ target op value, h => by
    rw [phrase, ofPhrase, operatorOf?_spelling (AssignOp.ofSymbol?_eq_some_iff.2 rfl),
      target.ofPhrase_phrase (h.part List.mem_cons_self),
      value.ofPhrase_phrase (h.part (List.mem_cons_of_mem _ List.mem_cons_self)), erased]
    rfl

theorem ofPhrases_phraseEach : (es : List Expr) →
    (∀ e ∈ es, (Node.expression e).Throughout Node.HasWords) →
      ofPhrases (phraseEach es) = erasedEach es
  | [], _ => rfl
  | e :: more, h => by
    obtain ⟨he, hmore⟩ := List.forall_mem_cons.1 h
    rw [phraseEach, ofPhrases, e.ofPhrase_phrase he, ofPhrases_phraseEach more hmore, erasedEach]

end

end Expr

mutual

/-- The statement that a phrase stands for, without spans. -/
def Stmt.ofPhrase : Phrase → Stmt
  | word text => if text = "Break" then .breakLoop .blank else .ret .blank none
  | form .ret value [] => .ret .blank (some (Expr.ofPhrase value))
  | form .loop condition [body] => .loop .blank (Expr.ofPhrase condition) (Block.ofPhrase body)
  | form .branch condition [consequent] =>
    .branch .blank (Expr.ofPhrase condition) (Block.ofPhrase consequent) none
  | form .branch condition [consequent, alternate] =>
    .branch .blank (Expr.ofPhrase condition) (Block.ofPhrase consequent)
      (some (Block.ofPhrase alternate))
  | form .expression e [] => .expression .blank (Expr.ofPhrase e)
  | _ => .breakLoop .blank

/-- The body that a phrase stands for, without spans. -/
def Block.ofPhrase : Phrase → Block
  | list statements => .mk .blank (Stmt.ofPhrases statements)
  | _ => .mk .blank []

/-- The statements that phrases stand for. -/
def Stmt.ofPhrases : List Phrase → List Stmt
  | [] => []
  | p :: more => Stmt.ofPhrase p :: Stmt.ofPhrases more

end

mutual

theorem Stmt.ofPhrase_phrase : (s : Stmt) → (Node.statement s).Throughout Node.HasWords →
    Stmt.ofPhrase s.phrase = s.erased
  | .breakLoop _, _ | .ret _ none, _ => rfl
  | .ret _ (some e), h => by
    rw [Stmt.phrase, Stmt.ofPhrase, e.ofPhrase_phrase (h.child (List.mem_singleton_self _)),
      Stmt.erased, Option.map_some]
  | .loop _ condition body, h => by
    rw [Stmt.phrase, Stmt.ofPhrase, condition.ofPhrase_phrase (h.child List.mem_cons_self),
      body.ofPhrase_phrase (h.child (List.mem_cons_of_mem _ List.mem_cons_self)), Stmt.erased]
  | .branch _ condition consequent none, h => by
    rw [Stmt.phrase, Stmt.ofPhrase, condition.ofPhrase_phrase (h.child List.mem_cons_self),
      consequent.ofPhrase_phrase (h.child (List.mem_cons_of_mem _ List.mem_cons_self)),
      Stmt.erased]
  | .branch _ condition consequent (some alternate), h => by
    rw [Stmt.phrase, Stmt.ofPhrase, condition.ofPhrase_phrase (h.child List.mem_cons_self),
      consequent.ofPhrase_phrase (h.child (List.mem_cons_of_mem _ List.mem_cons_self)),
      alternate.ofPhrase_phrase (h.child
        (List.mem_cons_of_mem _ (List.mem_cons_of_mem _ List.mem_cons_self))), Stmt.erased]
  | .expression _ e, h => by
    rw [Stmt.phrase, Stmt.ofPhrase, e.ofPhrase_phrase (h.child (List.mem_singleton_self _)),
      Stmt.erased]

theorem Block.ofPhrase_phrase : (b : Block) → (Node.block b).Throughout Node.HasWords →
    Block.ofPhrase b.phrase = b.erased
  | .mk _ statements, h => by
    rw [Block.phrase, Block.ofPhrase, Stmt.ofPhrases_phraseEach statements
      fun s hs => h.child (List.mem_map_of_mem hs), Block.erased]

theorem Stmt.ofPhrases_phraseEach : (ss : List Stmt) →
    (∀ s ∈ ss, (Node.statement s).Throughout Node.HasWords) →
      Stmt.ofPhrases (Stmt.phraseEach ss) = Stmt.erasedEach ss
  | [], _ => rfl
  | s :: more, h => by
    obtain ⟨hs, hmore⟩ := List.forall_mem_cons.1 h
    rw [Stmt.phraseEach, Stmt.ofPhrases, s.ofPhrase_phrase hs,
      Stmt.ofPhrases_phraseEach more hmore, Stmt.erasedEach]

end

/-- The name with its type that a phrase stands for, without spans. -/
def Binding.ofPhrase : Phrase → Binding
  | form .binding (word name) [type] => ⟨.blank, name, TypeName.ofPhrase type⟩
  | _ => ⟨.blank, "", .bool .blank⟩

theorem Binding.ofPhrase_phrase (b : Binding) : ofPhrase b.phrase = b.erased := by
  rw [phrase, ofPhrase, TypeName.ofPhrase_phrase, erased]

theorem Binding.map_ofPhrase (bs : List Binding) :
    (bs.map phrase).map ofPhrase = bs.map erased := by
  rw [List.map_map]
  exact List.map_congr_left fun b _ => b.ofPhrase_phrase

/-- The result of a function, if it has one. -/
def resultOf (p : Phrase) : Option TypeName :=
  match p with
  | word "None" => none
  | p => some (TypeName.ofPhrase p)

/-- The item that a phrase stands for, without spans. -/
def Item.ofPhrase : Phrase → Item
  | form .function (word name) [list parameters, result, body] =>
    .function ⟨.blank, name, parameters.map Binding.ofPhrase, resultOf result,
      Block.ofPhrase body⟩
  | form .struct (word name) [list fields] =>
    .struct ⟨.blank, name, fields.map Binding.ofPhrase⟩
  | p => .statement (Stmt.ofPhrase p)

theorem resultOf_phrase (result : Option TypeName) :
    resultOf (result.elim (word "None") TypeName.phrase) = result.map TypeName.erased := by
  cases result with
  | none => rfl
  | some t =>
    have hread := t.ofPhrase_phrase
    cases t <;> exact congrArg some hread

theorem Item.ofPhrase_phrase {i : Item} (h : (Node.ofItem i).Throughout Node.HasWords) :
    ofPhrase i.phrase = i.erased := by
  cases i with
  | function f =>
    have hbody : (Node.block f.body).Throughout Node.HasWords :=
      h.child (List.mem_append_right _ (List.mem_singleton_self _))
    rw [phrase, Function.phrase, ofPhrase, Binding.map_ofPhrase, resultOf_phrase,
      f.body.ofPhrase_phrase hbody, erased, Function.erased]
  | struct s => rw [phrase, Struct.phrase, ofPhrase, Binding.map_ofPhrase, erased, Struct.erased]
  | statement s =>
    have hread := s.ofPhrase_phrase h
    rcases s with _ | ⟨_, _ | _⟩ | _ | ⟨_, _, _, _ | _⟩ | _ <;> exact congrArg Item.statement hread

/-- The program that a phrase stands for, without spans. -/
def Program.ofPhrase : Phrase → Program
  | form .program (list items) [] => ⟨.blank, items.map Item.ofPhrase⟩
  | _ => ⟨.blank, []⟩

/-- **A program is read back from its phrase,** without its spans. -/
theorem Program.ofPhrase_phrase {p : Program} (h : (Node.program p).Throughout Node.HasWords) :
    ofPhrase p.phrase = p.erased := by
  rw [phrase, ofPhrase, erased, List.map_map]
  exact congrArg _ (List.map_congr_left fun i hi =>
    Item.ofPhrase_phrase (h.child (List.mem_map_of_mem hi)))

/-! ## Phrases and spans -/

theorem TypeName.phrase_erased (t : TypeName) : t.erased.phrase = t.phrase := by
  induction t with
  | array span element length ih => rw [erased, phrase, ih, phrase]
  | _ => rfl

namespace Expr

mutual

theorem phrase_erased : (e : Expr) → e.erased.phrase = e.phrase
  | number .. | boolean .. | char .. | string .. | name .. => rfl
  | array _ elements => by rw [erased, phrase, phraseEach_erased elements, phrase]
  | member _ target _ => by rw [erased, phrase, target.phrase_erased, phrase]
  | index _ target place => by
    rw [erased, phrase, target.phrase_erased, place.phrase_erased, phrase]
  | call _ callee arguments => by
    rw [erased, phrase, callee.phrase_erased, phraseEach_erased arguments, phrase]
  | binary _ op left right => by
    rw [erased, phrase, left.phrase_erased, right.phrase_erased, phrase]
  | unary _ op operand => by rw [erased, phrase, operand.phrase_erased, phrase]
  | paren _ inner => by rw [erased, phrase, inner.phrase_erased, phrase]
  | assign _ target op value => by
    rw [erased, phrase, target.phrase_erased, value.phrase_erased, phrase]

theorem phraseEach_erased : (es : List Expr) → phraseEach (erasedEach es) = phraseEach es
  | [] => rfl
  | e :: more => by
    rw [erasedEach, phraseEach, e.phrase_erased, phraseEach_erased more, phraseEach]

end

end Expr

mutual

theorem Stmt.phrase_erased : (s : Stmt) → s.erased.phrase = s.phrase
  | .breakLoop _ | .ret _ none => rfl
  | .ret _ (some e) => by
    rw [Stmt.erased, Option.map_some, Stmt.phrase, e.phrase_erased, Stmt.phrase]
  | .loop _ condition body => by
    rw [Stmt.erased, Stmt.phrase, condition.phrase_erased, body.phrase_erased, Stmt.phrase]
  | .branch _ condition consequent none => by
    rw [Stmt.erased, Stmt.phrase, condition.phrase_erased, consequent.phrase_erased, Stmt.phrase]
  | .branch _ condition consequent (some alternate) => by
    rw [Stmt.erased, Stmt.phrase, condition.phrase_erased, consequent.phrase_erased,
      alternate.phrase_erased, Stmt.phrase]
  | .expression _ e => by rw [Stmt.erased, Stmt.phrase, e.phrase_erased, Stmt.phrase]

theorem Block.phrase_erased : (b : Block) → b.erased.phrase = b.phrase
  | .mk _ statements => by
    rw [Block.erased, Block.phrase, Stmt.phraseEach_erased statements, Block.phrase]

theorem Stmt.phraseEach_erased : (ss : List Stmt) →
    Stmt.phraseEach (Stmt.erasedEach ss) = Stmt.phraseEach ss
  | [] => rfl
  | s :: more => by
    rw [Stmt.erasedEach, Stmt.phraseEach, s.phrase_erased, Stmt.phraseEach_erased more,
      Stmt.phraseEach]

end

theorem Binding.phrase_erased (b : Binding) : b.erased.phrase = b.phrase := by
  unfold phrase
  rw [erased, TypeName.phrase_erased]

theorem Binding.map_phrase_erased (bs : List Binding) :
    (bs.map erased).map phrase = bs.map phrase := by
  rw [List.map_map]
  exact List.map_congr_left fun b _ => b.phrase_erased

theorem Item.phrase_erased (i : Item) : i.erased.phrase = i.phrase := by
  cases i with
  | function f =>
    have hresult : (f.result.map TypeName.erased).elim (word "None") TypeName.phrase =
        f.result.elim (word "None") TypeName.phrase := by
      cases f.result with
      | none => rfl
      | some t => exact t.phrase_erased
    rw [erased, Function.erased, phrase, Function.phrase, Binding.map_phrase_erased, hresult,
      f.body.phrase_erased, phrase, Function.phrase]
  | struct s =>
    rw [erased, Struct.erased, phrase, Struct.phrase, Binding.map_phrase_erased, phrase,
      Struct.phrase]
  | statement s => exact s.phrase_erased

/-- **The phrase of a program does not depend on spans.** -/
theorem Program.phrase_erased (p : Program) : p.erased.phrase = p.phrase := by
  have hitems : (p.items.map Item.erased).map Item.phrase = p.items.map Item.phrase := by
    rw [List.map_map]
    exact List.map_congr_left fun i _ => i.phrase_erased
  rw [erased, phrase, hitems, phrase]

/-! ## Descriptions -/

theorem hasWords_of_parse {text file : String} {o : Options} {r : Parsed}
    (h : parse text file o = .ok r) : (Node.program r.program).Throughout Node.HasWords := by
  obtain ⟨s, hs, -⟩ := parseScans_of_parse h
  exact (Parser.program_wellFormed (parseScans_eq_ok_iff.1 hs)).imp fun _ hm => hm.words

end ArcLang
