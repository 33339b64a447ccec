import ArcLang.Proofs.Phrases
import ArcLang.Tree.Describe

/-!
# Descriptions as phrases

The description of a tree is the text of a phrase, which is built along the tree: a form for each
node, with the name of its class for a label, and a list for each body. Describing a tree takes a
frame for each node on the way down, and two more for each list.

* `Expr.phrase`, `Stmt.phrase`, `Program.phrase`: the phrases of trees.
* `Expr.frames`, `Stmt.frames`, `Program.frames`: the frames that describing takes.
* `Program.takes_describe`: with so many frames the description is the text of the phrase; with
  fewer the stack overflows.
-/

namespace ArcLang

open Phrase (word form list)

/-! ## Trees as phrases -/

/-- The phrase of a type. -/
def TypeName.phrase : TypeName → Phrase
  | bool _ => word "Bool"
  | float _ => word "Float"
  | int _ signed width =>
    form .intType (word (if signed then "signed" else "unsigned")) [word (toString width.bits)]
  | array _ element length => form .arrayType element.phrase [word (toString length)]
  | named _ name => form .namedType (word name) []

namespace Expr

mutual

/-- The phrase of an expression. -/
def phrase : Expr → Phrase
  | number _ text _ => form .number (word text) []
  | boolean _ value => form .boolean (word (if value then "true" else "false")) []
  | char _ text => form .char (word text) []
  | string _ text => form .string (word text) []
  | array _ elements => form .array (list (phraseEach elements)) []
  | name _ text => form .name (word text) []
  | member _ target text => form .member target.phrase [word text]
  | index _ target place => form .index target.phrase [place.phrase]
  | call _ callee arguments => form .call callee.phrase [list (phraseEach arguments)]
  | binary _ op left right => form .binary (word op.symbol.spelling) [left.phrase, right.phrase]
  | unary _ op operand => form .unary (word op.symbol.spelling) [operand.phrase]
  | paren _ inner => form .paren inner.phrase []
  | assign _ target op value =>
    form .assign (word op.symbol.spelling) [target.phrase, value.phrase]

/-- The phrases of the expressions of a list. -/
def phraseEach : List Expr → List Phrase
  | [] => []
  | e :: more => e.phrase :: phraseEach more

end

end Expr

mutual

/-- The phrase of a statement. -/
def Stmt.phrase : Stmt → Phrase
  | .breakLoop _ => word "Break"
  | .ret _ none => word "Return"
  | .ret _ (some value) => form .ret value.phrase []
  | .loop _ condition body => form .loop condition.phrase [body.phrase]
  | .branch _ condition consequent none => form .branch condition.phrase [consequent.phrase]
  | .branch _ condition consequent (some alternate) =>
    form .branch condition.phrase [consequent.phrase, alternate.phrase]
  | .expression _ expr => form .expression expr.phrase []

/-- The phrase of a body. -/
def Block.phrase : Block → Phrase
  | .mk _ statements => list (Stmt.phraseEach statements)

/-- The phrases of the statements of a list. -/
def Stmt.phraseEach : List Stmt → List Phrase
  | [] => []
  | s :: more => s.phrase :: Stmt.phraseEach more

end

/-- The phrase of a name with its type. -/
def Binding.phrase (b : Binding) : Phrase := form .binding (word b.name) [b.type.phrase]

/-- The phrase of a function. -/
def Function.phrase (f : Function) : Phrase :=
  form .function (word f.name) [list (f.parameters.map Binding.phrase),
    f.result.elim (word "None") TypeName.phrase, f.body.phrase]

/-- The phrase of a struct. -/
def Struct.phrase (s : Struct) : Phrase :=
  form .struct (word s.name) [list (s.fields.map Binding.phrase)]

/-- The phrase of an item. -/
def Item.phrase : Item → Phrase
  | function f => f.phrase
  | struct s => s.phrase
  | statement s => s.phrase

/-- The phrase of a program. -/
def Program.phrase (p : Program) : Phrase := form .program (list (p.items.map Item.phrase)) []

/-! ## Frames -/

/-- The frames that describing a type takes. -/
def TypeName.frames : TypeName → Nat
  | array _ element _ => element.frames + 1
  | bool _ | float _ | int .. | named .. => 1

namespace Expr

mutual

/-- The frames that describing an expression takes. -/
def frames : Expr → Nat
  | number .. | boolean .. | char .. | string .. | name .. => 1
  | array _ elements => framesEach elements + 2 + 1
  | member _ target _ => target.frames + 1
  | index _ target place => max target.frames place.frames + 1
  | call _ callee arguments => max callee.frames (framesEach arguments + 2) + 1
  | binary _ _ left right => max left.frames right.frames + 1
  | unary _ _ operand => operand.frames + 1
  | paren _ inner => inner.frames + 1
  | assign _ target _ value => max target.frames value.frames + 1

/-- The most frames that describing an expression of a list takes. -/
def framesEach : List Expr → Nat
  | [] => 0
  | e :: more => max e.frames (framesEach more)

end

end Expr

mutual

/-- The frames that describing a statement takes. -/
def Stmt.frames : Stmt → Nat
  | .breakLoop _ | .ret _ none => 1
  | .ret _ (some value) => value.frames + 1
  | .loop _ condition body => max condition.frames body.frames + 1
  | .branch _ condition consequent none => max condition.frames consequent.frames + 1
  | .branch _ condition consequent (some alternate) =>
    max condition.frames (max consequent.frames alternate.frames) + 1
  | .expression _ expr => expr.frames + 1

/-- The frames that describing a body takes. -/
def Block.frames : Block → Nat
  | .mk _ statements => Stmt.framesEach statements + 2 + 1

/-- The most frames that describing a statement of a list takes. -/
def Stmt.framesEach : List Stmt → Nat
  | [] => 0
  | s :: more => max s.frames (Stmt.framesEach more)

end

/-- The frames that describing a name with its type takes. -/
def Binding.frames (b : Binding) : Nat := b.type.frames + 1

/-- The frames that describing a function takes. -/
def Function.frames (f : Function) : Nat :=
  max (Walk.most Binding.frames f.parameters + 2)
    (max (f.result.elim 1 TypeName.frames) f.body.frames) + 1

/-- The frames that describing a struct takes. -/
def Struct.frames (s : Struct) : Nat := Walk.most Binding.frames s.fields + 2 + 1

/-- The frames that describing an item takes. -/
def Item.frames : Item → Nat
  | function f => f.frames
  | struct s => s.frames
  | statement s => s.frames

/-- The frames that describing a program takes. -/
def Program.frames (p : Program) : Nat := Walk.most Item.frames p.items + 2 + 1

/-! ## Descriptions are texts of phrases -/

namespace Phrase

/-- The text of a phrase as a string. -/
def words (p : Phrase) : String := String.ofList p.text

@[simp] theorem toList_words (p : Phrase) : p.words.toList = p.text := String.toList_ofList

theorem restText_eq (separator : List Char) (phrases : List Phrase) :
    restText separator phrases =
      (phrases.map words).flatMap fun t => separator ++ t.toList := by
  induction phrases with
  | nil => rfl
  | cons p phrases ih =>
    rw [restText, List.map_cons, List.flatMap_cons, toList_words, ih, List.append_assoc]

end Phrase

/-- Texts with commas, as the first and those behind it. -/
theorem toList_intercalate (t : String) (texts : List String) :
    (", ".intercalate (t :: texts)).toList =
      t.toList ++ texts.flatMap fun u => [',', ' '] ++ u.toList := by
  induction texts generalizing t with
  | nil => simp
  | cons u texts ih =>
    rw [String.intercalate_cons_cons, String.toList_append, String.toList_append, ih,
      List.flatMap_cons]
    simp

/-- A list in a description is the text of a list of phrases. -/
theorem bracketed_words (phrases : List Phrase) :
    bracketed (phrases.map Phrase.words) = (list phrases).words := by
  refine String.toList_injective ?_
  rw [Phrase.toList_words]
  cases phrases with
  | nil =>
    rw [Phrase.text]
    rfl
  | cons p phrases =>
    rw [Phrase.text, Phrase.restText_eq, List.map_cons, bracketed, String.toList_append,
      String.toList_append, toList_intercalate, Phrase.toList_words]
    simp

variable {σ : Type} {s : σ}

namespace Walk

/-- The walk brings the text of a phrase. -/
theorem Takes.of_text {w : Walk σ String} {k : Nat} {text : String} {s' : σ} {p : Phrase}
    (h : Takes w s k text s') (htext : text.toList = p.text) : Takes w s k p.words s' := by
  obtain rfl : text = p.words := String.toList_injective (by rw [htext, Phrase.toList_words])
  exact h

/-- **A list takes two frames more** than what is in it. -/
theorem Takes.listed {w : Walk σ (List String)} {k : Nat} {phrases : List Phrase} {s' : σ}
    (h : Takes w s k (phrases.map Phrase.words) s') :
    Takes (ArcLang.listed w) s (k + 2) (list phrases).words s' :=
  bracketed_words phrases ▸ (h.call.map bracketed).call

theorem takes_listed_each {α : Type} {describe : α → Walk σ String} {k : α → Nat}
    {phrase : α → Phrase} (h : ∀ a, Takes (describe a) s (k a) (phrase a).words s) (as : List α) :
    Takes (ArcLang.listed (each describe as)) s (most k as + 2) (list (as.map phrase)).words s := by
  have heach : Takes (each describe as) s _ _ s := takes_each fun a _ => h a
  rw [← Function.comp_def, ← List.map_map] at heach
  exact heach.listed

end Walk

open Walk (Takes takes_pure)

theorem TypeName.takes_describe : (t : TypeName) → Takes t.describe s t.frames t.phrase.words s
  | bool _ | float _ => (takes_pure _ s).call
  | int _ signed width => (takes_pure _ s).call.of_text <| by
    show ("Int(" ++ (if signed then "signed" else "unsigned") ++ "," ++ toString width.bits ++
      ")").toList = _
    simp [phrase]
  | array _ element length => (element.takes_describe.map _).call.of_text <| by
    show ("Array(" ++ element.phrase.words ++ "," ++ toString length ++ ")").toList = _
    simp [phrase]
  | named _ name => (takes_pure _ s).call.of_text <| by
    show ("Named(" ++ name ++ ")").toList = _
    simp [phrase]

namespace Expr

mutual

/-- **The description of an expression is the text of its phrase.** -/
theorem takes_describe : (e : Expr) → Takes e.describe s e.frames e.phrase.words s
  | boolean _ value => (takes_pure _ s).call.of_text <| by
    cases value <;> simp [phrase]
  | number _ text _ => (takes_pure _ s).call.of_text <| by
    show ("Num(" ++ text ++ ")").toList = _
    simp [phrase]
  | char _ text => (takes_pure _ s).call.of_text <| by
    show ("Char(" ++ text ++ ")").toList = _
    simp [phrase]
  | string _ text => (takes_pure _ s).call.of_text <| by
    show ("Str(" ++ text ++ ")").toList = _
    simp [phrase]
  | name _ text => (takes_pure _ s).call.of_text <| by
    show ("Variable(" ++ text ++ ")").toList = _
    simp [phrase]
  | array _ elements => ((takes_describeEach elements).listed.map _).call.of_text <| by
    show ("ArrayLiteral(" ++ (list (phraseEach elements)).words ++ ")").toList = _
    simp [phrase]
  | member _ target text => (target.takes_describe.map _).call.of_text <| by
    show ("Member(" ++ target.phrase.words ++ ", " ++ text ++ ")").toList = _
    simp [phrase]
  | index _ target place =>
    (target.takes_describe.bind (place.takes_describe.map _)).call.of_text <| by
      show ("Index(" ++ target.phrase.words ++ ", " ++ place.phrase.words ++ ")").toList = _
      simp [phrase]
  | call _ callee arguments =>
    (callee.takes_describe.bind ((takes_describeEach arguments).listed.map _)).call.of_text <| by
      show ("Call(" ++ callee.phrase.words ++ ", " ++ (list (phraseEach arguments)).words ++
        ")").toList = _
      simp [phrase]
  | binary _ op left right =>
    (left.takes_describe.bind (right.takes_describe.map _)).call.of_text <| by
      show ("Binary(" ++ op.symbol.spelling ++ ", " ++ left.phrase.words ++ ", " ++
        right.phrase.words ++ ")").toList = _
      simp [phrase]
  | unary _ op operand => (operand.takes_describe.map _).call.of_text <| by
    show ("Prefix(" ++ op.symbol.spelling ++ ", " ++ operand.phrase.words ++ ")").toList = _
    simp [phrase]
  | paren _ inner => (inner.takes_describe.map _).call.of_text <| by
    show ("Paren(" ++ inner.phrase.words ++ ")").toList = _
    simp [phrase]
  | assign _ target op value =>
    (target.takes_describe.bind (value.takes_describe.map _)).call.of_text <| by
      show ("Assign(" ++ op.symbol.spelling ++ ", " ++ target.phrase.words ++ ", " ++
        value.phrase.words ++ ")").toList = _
      simp [phrase]

theorem takes_describeEach : (es : List Expr) →
    Takes (describeEach es) s (framesEach es) ((phraseEach es).map Phrase.words) s
  | [] => takes_pure [] s
  | e :: more => e.takes_describe.bind ((takes_describeEach more).map _)

end

end Expr

mutual

/-- **The description of a statement is the text of its phrase.** -/
theorem Stmt.takes_describe : (st : Stmt) → Takes st.describe s st.frames st.phrase.words s
  | .breakLoop _ | .ret _ none => (takes_pure _ s).call
  | .ret _ (some e) => (e.takes_describe.map _).call.of_text <| by
    show ("Return(" ++ e.phrase.words ++ ")").toList = _
    simp [Stmt.phrase]
  | .expression _ e => (e.takes_describe.map _).call.of_text <| by
    show ("ExprStmt(" ++ e.phrase.words ++ ")").toList = _
    simp [Stmt.phrase]
  | .loop _ condition body =>
    (condition.takes_describe.bind (body.takes_describe.map _)).call.of_text <| by
      show ("While(" ++ condition.phrase.words ++ ", " ++ body.phrase.words ++ ")").toList = _
      simp [Stmt.phrase]
  | .branch _ condition consequent none =>
    (condition.takes_describe.bind (consequent.takes_describe.map _)).call.of_text <| by
      show ("If(" ++ condition.phrase.words ++ ", " ++ consequent.phrase.words ++ ")").toList = _
      simp [Stmt.phrase]
  | .branch _ condition consequent (some alternate) =>
    (condition.takes_describe.bind
      (consequent.takes_describe.bind (alternate.takes_describe.map _))).call.of_text <| by
        show ("If(" ++ condition.phrase.words ++ ", " ++ consequent.phrase.words ++ ", " ++
          alternate.phrase.words ++ ")").toList = _
        simp [Stmt.phrase]

theorem Block.takes_describe : (b : Block) → Takes b.describe s b.frames b.phrase.words s
  | .mk _ statements => (Stmt.takes_describeEach statements).listed.call

theorem Stmt.takes_describeEach : (ss : List Stmt) →
    Takes (Stmt.describeEach ss) s (Stmt.framesEach ss) ((Stmt.phraseEach ss).map Phrase.words) s
  | [] => takes_pure [] s
  | st :: more => st.takes_describe.bind ((Stmt.takes_describeEach more).map _)

end

theorem Binding.takes_describe (b : Binding) : Takes b.describe s b.frames b.phrase.words s :=
  (b.type.takes_describe.map _).call.of_text <| by
    show ("(" ++ b.name ++ ", " ++ b.type.phrase.words ++ ")").toList = _
    simp [phrase]

theorem Function.takes_describe (f : Function) : Takes f.describe s f.frames f.phrase.words s := by
  have hresult : Takes (f.result.elim (.call (return "None")) TypeName.describe) s
      (f.result.elim 1 TypeName.frames) (f.result.elim (word "None") TypeName.phrase).words s := by
    cases f.result with
    | none => exact (takes_pure _ s).call
    | some t => exact t.takes_describe
  have hparameters := Walk.takes_listed_each (s := s) Binding.takes_describe f.parameters
  refine (hparameters.bind (hresult.bind (f.body.takes_describe.map _))).call.of_text ?_
  show ("FunctionDef(" ++ f.name ++ ", " ++ (list (f.parameters.map Binding.phrase)).words ++
    ", " ++ (f.result.elim (word "None") TypeName.phrase).words ++ ", " ++ f.body.phrase.words ++
      ")").toList = _
  simp [phrase]

theorem Struct.takes_describe (st : Struct) : Takes st.describe s st.frames st.phrase.words s :=
  ((Walk.takes_listed_each Binding.takes_describe st.fields).map _).call.of_text <| by
    show ("StructDef(" ++ st.name ++ ", " ++ (list (st.fields.map Binding.phrase)).words ++
      ")").toList = _
    simp [phrase]

theorem Item.takes_describe : (i : Item) → Takes i.describe s i.frames i.phrase.words s
  | function f => f.takes_describe
  | struct st => st.takes_describe
  | statement st => st.takes_describe

/-- **The description of a program is the text of its phrase,** where there are frames enough. -/
theorem Program.takes_describe (p : Program) : Takes p.describe s p.frames p.phrase.words s :=
  ((Walk.takes_listed_each Item.takes_describe p.items).map _).call.of_text <| by
    show ("Program(" ++ (list (p.items.map Item.phrase)).words ++ ")").toList = _
    simp [phrase]

end ArcLang
