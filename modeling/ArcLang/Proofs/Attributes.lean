import Mathlib.Data.List.Induction
import Mathlib.Data.Nat.Digits.Defs
import ArcLang.Proofs.Canonical
import ArcLang.Proofs.Language
import ArcLang.Proofs.Provenance

/-!
# Attributes of nodes

What the nodes of a parsed program say of themselves, with diagnostics or without: names are
identifiers and no reserved words, numbers start with a digit, characters and strings are letters,
the length of an array is the value of the number that stands for it, and definitions and bodies
stand where the grammar has them.

* `Numeral.IsValue`: the value of a spelling, by place.
* `Node.WellFormed`: what holds of one node.
* `parse_wellFormed`: the statement about programs.
-/

namespace ArcLang

/-! ## Lengths -/

theorem Radix.value_eq_ofDigits (r : Radix) (ds : List Nat) :
    r.value ds = Nat.ofDigits r.base ds.reverse := by
  induction ds using List.reverseRecOn with
  | nil => rfl
  | append_singleton ds d ih =>
    rw [value_append_singleton, ih, List.reverse_append, List.reverse_singleton,
      List.singleton_append, Nat.ofDigits_cons, Nat.mul_comm, Nat.add_comm]

theorem Radix.forall₂_of_mapM {r : Radix} {cs : List Char} {ds : List Nat}
    (h : cs.mapM r.digit? = some ds) : List.Forall₂ (fun c d => r.digit? c = some d) cs ds := by
  induction cs generalizing ds with
  | nil =>
    cases h
    exact .nil
  | cons c cs ih =>
    rw [List.mapM_cons] at h
    obtain ⟨d, hd, h⟩ := Option.bind_eq_some_iff.1 h
    obtain ⟨ds, hds, h⟩ := Option.bind_eq_some_iff.1 h
    cases h
    exact .cons hd (ih hds)

/-- The number that a spelling stands for: one digit or more of the radix that it announces, of
which the first weighs most. -/
def Numeral.IsValue (spelling : String) (n : Nat) : Prop :=
  let radix := Radix.of spelling
  ∃ ds, List.Forall₂ (fun c d => radix.digit? c = some d) (radix.digits spelling.toList) ds ∧
    ds ≠ [] ∧ n = Nat.ofDigits radix.base ds.reverse

theorem Numeral.isValue_of_resolve {spelling : String} {n : Nat}
    (h : resolve spelling = .length n) : IsValue spelling n := by
  unfold resolve at h
  dsimp only at h
  split at h
  · cases h
  · cases h
  next ds hne hds =>
    split at h
    · cases h
    · cases h
      exact ⟨ds, Radix.forall₂_of_mapM hds, hne, Radix.value_eq_ofDigits _ ds⟩

/-! ## One node -/

/-- What an expression itself says is a text of its class. -/
def Expr.HasWords : Expr → Prop
  | number _ text radix => Kind.number.Spells text.toList ∧ radix = .of text
  | char _ text => text ≠ "" ∧ ∀ c ∈ text.toList, c.isAlpha = true
  | string _ text => ∀ c ∈ text.toList, c.isAlpha = true
  | name _ text | member _ _ text => IsName text
  | _ => True

namespace Node

/-- What a node itself says is a text of its class. -/
def HasWords : Node → Prop
  | function f => IsName f.name
  | struct s => IsName s.name
  | parameter b | field b => IsName b.name
  | typeName (.named _ text) => IsName text
  | expression e => e.HasWords
  | _ => True

/-- The length of an array type is the value of the number before the bracket that closes it. -/
def HasLength (tokens : List Token) : Node → Prop
  | typeName (.array span _ n) => ∃ opener inner number closer,
      opener :: inner ++ [number, closer] <:+: tokens ∧ span = opener.span.upTo closer.span ∧
        opener.kind = .symbol .leftBracket ∧ closer.kind = .symbol .rightBracket ∧
          number.kind = .number ∧ Numeral.IsValue number.lexeme n
  | _ => True

/-- A definition is an item of a program, a parameter or a field belongs to a definition, and a
block is the body of a function or of a loop, or one side of a branch. -/
def StandsIn : Node → Node → Prop
  | function f, parent => ∃ p, parent = program p ∧ .function f ∈ p.items
  | struct s, parent => ∃ p, parent = program p ∧ .struct s ∈ p.items
  | parameter b, parent => ∃ f, parent = function f ∧ b ∈ f.parameters
  | field b, parent => ∃ s, parent = struct s ∧ b ∈ s.fields
  | block b, parent => (∃ f, parent = function f ∧ b = f.body) ∨
      (∃ span condition, parent = statement (.loop span condition b)) ∨
      ∃ span condition consequent alternate,
        parent = statement (.branch span condition consequent alternate) ∧
          (b = consequent ∨ some b = alternate)
  | _, _ => True

/-- What the node says of itself is well formed, and its children are where such nodes may be. -/
structure WellFormed (tokens : List Token) (n : Node) : Prop where
  words : n.HasWords
  length : n.HasLength tokens
  places : ∀ c ∈ n.children, c.StandsIn n

theorem standsIn_of_mem_children {n c : Node} (h : c ∈ n.children) : c.StandsIn n := by
  cases n with
  | program p =>
    obtain ⟨i, hi, rfl⟩ := List.mem_map.1 h
    cases i with
    | function f | struct s => exact ⟨p, rfl, hi⟩
    | statement s => trivial
  | function f =>
    rcases List.mem_append.1 h with h | h
    · rcases List.mem_append.1 h with h | h
      · obtain ⟨b, hb, rfl⟩ := List.mem_map.1 h
        exact ⟨f, rfl, hb⟩
      · obtain ⟨t, -, rfl⟩ := List.mem_map.1 h
        trivial
    · rw [List.mem_singleton.1 h]
      exact .inl ⟨f, rfl, rfl⟩
  | struct s =>
    obtain ⟨b, hb, rfl⟩ := List.mem_map.1 h
    exact ⟨s, rfl, hb⟩
  | parameter b | field b =>
    rw [List.mem_singleton.1 h]
    trivial
  | block b =>
    obtain ⟨s, -, rfl⟩ := List.mem_map.1 h
    trivial
  | statement s =>
    cases s with
    | breakLoop span => exact absurd h List.not_mem_nil
    | ret span value =>
      obtain ⟨e, -, rfl⟩ := List.mem_map.1 h
      trivial
    | loop span condition body =>
      rcases List.mem_cons.1 h with rfl | h
      · trivial
      · rw [List.mem_singleton.1 h]
        exact .inr (.inl ⟨span, condition, rfl⟩)
    | branch span condition consequent alternate =>
      rcases List.mem_cons.1 h with rfl | h
      · trivial
      rcases List.mem_cons.1 h with rfl | h
      · exact .inr (.inr ⟨span, condition, consequent, alternate, rfl, .inl rfl⟩)
      · obtain ⟨b, hb, rfl⟩ := List.mem_map.1 h
        exact .inr (.inr ⟨span, condition, consequent, alternate, rfl,
          .inr (Option.mem_toList.1 hb).symm⟩)
    | expression span e =>
      rw [List.mem_singleton.1 h]
      trivial
  | expression e =>
    obtain ⟨e', -, rfl⟩ := List.mem_map.1 h
    trivial
  | typeName t =>
    cases t with
    | array span element n =>
      rw [List.mem_singleton.1 h]
      trivial
    | _ => exact absurd h List.not_mem_nil

end Node

/-! ## What derivations denote -/

/-- The tokens have lexemes of their kinds, but for error tokens. -/
def Spelled (ts : List Token) : Prop :=
  ∀ t ∈ ts, t.isError = false → t.kind.Spells t.lexeme.toList

namespace Grammar

variable {ts : List Token}

theorem Word.spells {k : Kind} (word : Word k) (hk : k ≠ .error) (hts : Spelled ts)
    (h : word.1 ∈ ts) : k.Spells word.1.lexeme.toList := by
  have hspells := hts word.1 h (by simp [Token.isError, word.2, hk])
  rwa [word.2] at hspells

/-- What stands between the quotes of a literal. -/
theorem unquoted_spelled {quote : Char} {least : Nat} {t : Token}
    (h : QuotedLetters quote least t.lexeme.toList) :
    least ≤ (unquoted t).toList.length ∧ ∀ c ∈ (unquoted t).toList, c.isAlpha = true := by
  obtain ⟨letters, htext, hletters, hleast⟩ := h
  have hunquoted : (unquoted t).toList = letters := by
    unfold unquoted
    rw [htext, String.toList_ofList]
    exact List.dropLast_concat
  rw [hunquoted]
  exact ⟨hleast, hletters⟩

theorem Primary.hasWords (e : Primary) (hts : Spelled e.tokens) : e.tree.HasWords := by
  cases e with
  | number word => exact ⟨Word.spells word nofun hts (List.mem_singleton_self _), rfl⟩
  | char word =>
    obtain ⟨hlong, hletters⟩ :=
      unquoted_spelled (Word.spells word nofun hts (List.mem_singleton_self _))
    refine ⟨fun hempty => ?_, hletters⟩
    rw [hempty] at hlong
    exact absurd hlong (by decide)
  | string word =>
    exact (unquoted_spelled (Word.spells word nofun hts (List.mem_singleton_self _))).2
  | name word => exact Word.spells word nofun hts (List.mem_singleton_self _)
  | boolean | paren | array => trivial

theorem Trailed.hasWords (e : Trailed) (hts : Spelled e.tokens) : e.tree.HasWords := by
  cases e with
  | primary e => exact e.hasWords hts
  | member target dot name =>
    exact Word.spells name nofun hts (by simp [Trailed.tokens])
  | index | call => trivial

/-- **What an expression says is in the tokens that it is read from.** -/
theorem Expr.hasWords (e : Expr) (hts : Spelled e.tokens) : e.tree.HasWords := by
  cases e with
  | assign => trivial
  | plain operand =>
    cases operand with
    | single operand =>
      cases operand with
      | unary => trivial
      | trailed e => exact e.hasWords hts
    | more front op sign operand =>
      -- an operator put behind a tree leaves an operator on top
      show (ArcLang.Expr.graft op operand.tree front.tree).HasWords
      cases front.tree with
      | binary => unfold ArcLang.Expr.graft; split <;> trivial
      | _ => trivial

end Grammar

namespace Node

variable {ts : List Token}

theorem NamedIn.isName {name : String} (hts : Spelled ts) (h : NamedIn ts name) : IsName name := by
  obtain ⟨t, ht, hkind, rfl⟩ := h
  exact Grammar.Word.spells ⟨t, hkind⟩ nofun hts ht

/-- **What comes from tokens is well formed** if the tokens have lexemes of their kinds. -/
theorem Traced.wellFormed {n : Node} (hts : Spelled ts) (h : n.Traced ts) : n.WellFormed ts := by
  suffices hown : n.HasWords ∧ n.HasLength ts from
    ⟨hown.1, hown.2, fun _ => standsIn_of_mem_children⟩
  cases n with
  | function | struct | parameter | field => exact ⟨NamedIn.isName hts h, trivial⟩
  | program | block | statement => exact ⟨trivial, trivial⟩
  | expression e =>
    obtain ⟨d, rfl, hd⟩ := h
    exact ⟨d.hasWords fun t ht => hts t (hd.subset ht), trivial⟩
  | typeName t =>
    obtain ⟨d, rfl, hd, hlengths⟩ := h
    cases d with
    | bool | float | int => exact ⟨trivial, trivial⟩
    | named word =>
      exact ⟨Grammar.Word.spells word nofun hts (hd.subset (List.mem_singleton_self _)), trivial⟩
    | array opener element comma length closer =>
      obtain ⟨n, hn⟩ := hlengths length.1 (List.mem_append_right _ (List.mem_singleton_self _))
      refine ⟨trivial, opener.1, element.tokens ++ [comma.1], length.1, closer.1, ?_, rfl, opener.2,
        closer.2, length.2, ?_⟩
      · simpa [Grammar.TypeName.tokens] using hd
      · unfold Grammar.lengthOf
        rw [hn]
        exact Numeral.isValue_of_resolve hn

end Node

/-! ## Programs -/

theorem spelled_beforeEnd (text file : String) : Spelled (Scan.beforeEnd (scansOf text file)) :=
  fun _ ht herror => Scan.spells_of_mem_beforeEnd _ _ ht herror

theorem Parser.program_wellFormed {env : Setting} {text file : String} {n : Int} {p : Program}
    {s : State} (h : Gives program env (startOf text file n) p s) :
    (Node.program p).Throughout (Node.WellFormed (Scan.beforeEnd (scansOf text file))) :=
  (program_traced h).imp fun _ hm => hm.wellFormed (spelled_beforeEnd text file)

/-- **Every node that a parse returns is well formed,** whether the text has faults or not: what it
says is a text of its class, an array has the length that a number of the text spells, and
definitions, parameters, fields and blocks are where such nodes may be. -/
theorem parse_wellFormed {text file : String} {o : Options} {r : Parsed}
    (h : parse text file o = .ok r) : (Node.program r.program).Throughout
      (Node.WellFormed (Scan.beforeEnd (scansOf text file))) := by
  obtain ⟨s, hs, -⟩ := parseScans_of_parse h
  exact Parser.program_wellFormed (parseScans_eq_ok_iff.1 hs)

/-- A struct and a call behind a statement that is broken. -/
theorem parse_wellFormed_of_broken :
    ∃ r, parse "x y; struct s \x7b t: [u8, 0x1f] \x7d f('b', \"\");" "m.arc" {} = .ok r ∧
      r.isClean = false ∧ (Node.program r.program).Throughout (Node.WellFormed (Scan.beforeEnd
        (scansOf "x y; struct s \x7b t: [u8, 0x1f] \x7d f('b', \"\");" "m.arc"))) := by
  have h : (parse "x y; struct s \x7b t: [u8, 0x1f] \x7d f('b', \"\");" "m.arc" {}).toOption.map
      (fun r => (r.isClean, r.program.items.length)) = some (false, 2) := by
    decide +kernel
  obtain ⟨r, hp, hseen⟩ := exists_of_map_toOption h
  exact ⟨r, hp, congrArg Prod.fst hseen, parse_wellFormed hp⟩

end ArcLang
