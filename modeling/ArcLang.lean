import ArcLang.CommandLine.Arguments
import ArcLang.CommandLine.Run
import ArcLang.Diagnostic
import ArcLang.Diagnostic.Collector
import ArcLang.Event
import ArcLang.LoopCheck
import ArcLang.Main
import ArcLang.Numeral
import ArcLang.Operator
import ArcLang.Options
import ArcLang.Parsed
import ArcLang.Parser.Expression
import ArcLang.Parser.Iterate
import ArcLang.Parser.Program
import ArcLang.Parser.Recovery
import ArcLang.Parser.State
import ArcLang.Parser.Statement
import ArcLang.Parser.TypeName
import ArcLang.Path
import ArcLang.Source
import ArcLang.Source.Location
import ArcLang.Text.CodeRanges
import ArcLang.Text.ControlSequence
import ArcLang.Text.DecimalDigit
import ArcLang.Text.Lines
import ArcLang.Text.Printable
import ArcLang.Text.Quoted
import ArcLang.Text.Utf8
import ArcLang.Text.WhiteSpace
import ArcLang.Token
import ArcLang.Token.Lexeme
import ArcLang.Token.Scan
import ArcLang.Token.Session
import ArcLang.Tree
import ArcLang.Tree.Describe
import ArcLang.Tree.Listing
import ArcLang.Tree.Node
import ArcLang.Tree.Shape
import ArcLang.Walk
import ArcLang.Proofs.Input
import ArcLang.Proofs.Steady
import ArcLang.Proofs.Refinement
import ArcLang.Proofs.Steps
import ArcLang.Proofs.Grouping
import ArcLang.Proofs.Derivations
import ArcLang.Proofs.Soundness
import ArcLang.Proofs.Runs
import ArcLang.Proofs.ProgramSoundness
import ArcLang.Proofs.Calm
import ArcLang.Proofs.Completeness
import ArcLang.Proofs.Precedence
import ArcLang.Proofs.ProgramCompleteness
import ArcLang.Proofs.Spelling
import ArcLang.Proofs.Language
import ArcLang.Proofs.Flattening
import ArcLang.Proofs.Erasure
import ArcLang.Proofs.Rescanning
import ArcLang.Proofs.Canonical
import ArcLang.Proofs.Rederiving
import ArcLang.Proofs.RoundTrip
import ArcLang.Proofs.Depth
import ArcLang.Proofs.LongestMatch
import ArcLang.Proofs.Partition
import ArcLang.Proofs.Seams
import ArcLang.Proofs.Insertion
import ArcLang.Proofs.Respanning
import ArcLang.Proofs.Positions
import ArcLang.Proofs.Weaving
import ArcLang.Proofs.Mending
import ArcLang.Proofs.Confinement
import ArcLang.Proofs.BrokenLines
import ArcLang.Proofs.Isolation
import ArcLang.Proofs.Coverage
import ArcLang.Proofs.Containment
import ArcLang.Proofs.Moving
import ArcLang.Proofs.Parallel
import ArcLang.Proofs.Telling
import ArcLang.Proofs.Passage
import ArcLang.Proofs.Totality
import ArcLang.Proofs.Regime
import ArcLang.Proofs.Progress
import ArcLang.Proofs.BrokenStructs
import ArcLang.Proofs.Shifting
import ArcLang.Proofs.Straying
import ArcLang.Proofs.Composition
import ArcLang.Proofs.Concerning
import ArcLang.Proofs.Kept
import ArcLang.Proofs.Skipping
import ArcLang.Proofs.Upholding
import ArcLang.Proofs.Reporting
import ArcLang.Proofs.LineNumbers
import ArcLang.Proofs.Parts
import ArcLang.Proofs.Fragments
import ArcLang.Proofs.Recording
import ArcLang.Proofs.Coupling
import ArcLang.Proofs.Truncation
import ArcLang.Proofs.Deepening
import ArcLang.Proofs.Lookahead
import ArcLang.Proofs.Unclosed
import ArcLang.Proofs.Unwinding
import ArcLang.Proofs.MissingBraces
import ArcLang.Proofs.Discovery
import ArcLang.Proofs.Files
import ArcLang.Proofs.Spacing
import ArcLang.Proofs.Interleaving
import ArcLang.Proofs.Provenance
import ArcLang.Proofs.Attributes
import ArcLang.Proofs.Phrases
import ArcLang.Proofs.Describing
import ArcLang.Proofs.LongSums
import ArcLang.Proofs.Faithfulness
import ArcLang.Proofs.Lengths
import ArcLang.Proofs.LooseBreaks
import ArcLang.Proofs.Entries
import ArcLang.Proofs.Signatures
import ArcLang.Proofs.Listings
import ArcLang.Proofs.Respelling
import ArcLang.Proofs.Reports
import ArcLang.Proofs.Choices
import ArcLang.Proofs.Verdict
