import GeneralParsing.CommandLine.Arguments
import GeneralParsing.CommandLine.Run
import GeneralParsing.Error
import GeneralParsing.Extraction.Frames
import GeneralParsing.Extraction.Options
import GeneralParsing.Extraction.Shape
import GeneralParsing.Extraction.Walk
import GeneralParsing.Forest.Basic
import GeneralParsing.Forest.Machine
import GeneralParsing.Forest.Parse
import GeneralParsing.Grammar.Basic
import GeneralParsing.Grammar.Builder
import GeneralParsing.Grammar.Isomorphism
import GeneralParsing.Grammar.Render
import GeneralParsing.Main
import GeneralParsing.Pattern.Basic
import GeneralParsing.Pattern.CharSet
import GeneralParsing.Pattern.Common
import GeneralParsing.Pattern.Escape
import GeneralParsing.Pattern.Lexeme
import GeneralParsing.Pattern.Regex
import GeneralParsing.Proofs.Arrays
import GeneralParsing.Proofs.Derivation.Alike
import GeneralParsing.Proofs.Derivation.Basic
import GeneralParsing.Proofs.Derivation.Bisimulation
import GeneralParsing.Proofs.Derivation.Counterparts
import GeneralParsing.Proofs.Derivation.Inside
import GeneralParsing.Proofs.Derivation.Inversion
import GeneralParsing.Proofs.Derivation.Outcomes
import GeneralParsing.Proofs.Derivation.Shape
import GeneralParsing.Proofs.Derivation.Sharp
import GeneralParsing.Proofs.Derivation.Unrolled
import GeneralParsing.Proofs.Derivation.Yields
import GeneralParsing.Proofs.Dialect.Bounds
import GeneralParsing.Proofs.Dialect.Compiling
import GeneralParsing.Proofs.Dialect.Edges
import GeneralParsing.Proofs.Dialect.Layout
import GeneralParsing.Proofs.Dialect.Location
import GeneralParsing.Proofs.Dialect.Names
import GeneralParsing.Proofs.Dialect.Phrases
import GeneralParsing.Proofs.Dialect.Printing
import GeneralParsing.Proofs.Dialect.Reading
import GeneralParsing.Proofs.Dialect.RoundTrip
import GeneralParsing.Proofs.Dialect.SelfDescription
import GeneralParsing.Proofs.Dialect.SelfHosting
import GeneralParsing.Proofs.Dialect.Trailing
import GeneralParsing.Proofs.Dialect.Unambiguous
import GeneralParsing.Proofs.Dialect.Words
import GeneralParsing.Proofs.Dialect.Writing
import GeneralParsing.Proofs.Extraction.Choices
import GeneralParsing.Proofs.Extraction.FirstOfPacked
import GeneralParsing.Proofs.Extraction.Frames
import GeneralParsing.Proofs.Extraction.Memory
import GeneralParsing.Proofs.Extraction.NodeReadings
import GeneralParsing.Proofs.Extraction.Paired
import GeneralParsing.Proofs.Extraction.Plain
import GeneralParsing.Proofs.Extraction.PlainShape
import GeneralParsing.Proofs.Extraction.Ways
import GeneralParsing.Proofs.Grammar.Additions
import GeneralParsing.Proofs.Grammar.Chains
import GeneralParsing.Proofs.Grammar.Definitions
import GeneralParsing.Proofs.Grammar.Extending
import GeneralParsing.Proofs.Grammar.Isomorphism
import GeneralParsing.Proofs.Grammar.Operations
import GeneralParsing.Proofs.Grammar.Patterns
import GeneralParsing.Proofs.Grammar.Session
import GeneralParsing.Proofs.Grammar.Settling
import GeneralParsing.Proofs.Grammar.Unfolding
import GeneralParsing.Proofs.Machine.Accounts
import GeneralParsing.Proofs.Machine.Behind
import GeneralParsing.Proofs.Machine.Bound
import GeneralParsing.Proofs.Machine.Distinct
import GeneralParsing.Proofs.Machine.Exhaustive
import GeneralParsing.Proofs.Machine.Found
import GeneralParsing.Proofs.Machine.Goals
import GeneralParsing.Proofs.Machine.Load
import GeneralParsing.Proofs.Machine.Lossless
import GeneralParsing.Proofs.Machine.Moves
import GeneralParsing.Proofs.Machine.Order
import GeneralParsing.Proofs.Machine.Prospects
import GeneralParsing.Proofs.Machine.Reached
import GeneralParsing.Proofs.Machine.Renaming
import GeneralParsing.Proofs.Machine.Rooted
import GeneralParsing.Proofs.Machine.Runs
import GeneralParsing.Proofs.Machine.Serving
import GeneralParsing.Proofs.Machine.Sides
import GeneralParsing.Proofs.Machine.Sought
import GeneralParsing.Proofs.Machine.Sound
import GeneralParsing.Proofs.Machine.Tickets
import GeneralParsing.Proofs.Machine.Trace
import GeneralParsing.Proofs.Machine.Turns
import GeneralParsing.Proofs.Machine.Twins
import GeneralParsing.Proofs.Machine.Unique
import GeneralParsing.Proofs.Machine.Unrolling
import GeneralParsing.Proofs.Parsing.Alike
import GeneralParsing.Proofs.Parsing.BinarySums
import GeneralParsing.Proofs.Parsing.Collapsing
import GeneralParsing.Proofs.Parsing.Consistency
import GeneralParsing.Proofs.Parsing.Coverage
import GeneralParsing.Proofs.Parsing.DelimitedList
import GeneralParsing.Proofs.Parsing.Erasure
import GeneralParsing.Proofs.Parsing.ErrorPolicy
import GeneralParsing.Proofs.Parsing.ExactlyOnce
import GeneralParsing.Proofs.Parsing.FalseAlarm
import GeneralParsing.Proofs.Parsing.FirstTree
import GeneralParsing.Proofs.Parsing.Isomorphic
import GeneralParsing.Proofs.Parsing.LeftRecursion
import GeneralParsing.Proofs.Parsing.LexicalText
import GeneralParsing.Proofs.Parsing.NestedSpans
import GeneralParsing.Proofs.Parsing.NoFaults
import GeneralParsing.Proofs.Parsing.NormalForm
import GeneralParsing.Proofs.Parsing.PackedComplete
import GeneralParsing.Proofs.Parsing.PackedSound
import GeneralParsing.Proofs.Parsing.PrintedTrees
import GeneralParsing.Proofs.Parsing.QuotedString
import GeneralParsing.Proofs.Parsing.Recognition
import GeneralParsing.Proofs.Parsing.Recorded
import GeneralParsing.Proofs.Parsing.Recursion
import GeneralParsing.Proofs.Parsing.Redirection
import GeneralParsing.Proofs.Parsing.Rejection
import GeneralParsing.Proofs.Parsing.RootOutput
import GeneralParsing.Proofs.Parsing.SourceOrder
import GeneralParsing.Proofs.Parsing.Termination
import GeneralParsing.Proofs.Parsing.Unambiguous
import GeneralParsing.Proofs.Parsing.Unrolled
import GeneralParsing.Proofs.Parsing.WholeText
import GeneralParsing.Proofs.Parsing.WordTree
import GeneralParsing.Proofs.Pattern.Anchoring
import GeneralParsing.Proofs.Pattern.Closing
import GeneralParsing.Proofs.Pattern.CommonKnown
import GeneralParsing.Proofs.Pattern.CommonReader
import GeneralParsing.Proofs.Pattern.Items
import GeneralParsing.Proofs.Pattern.Known
import GeneralParsing.Proofs.Pattern.Matching
import GeneralParsing.Proofs.Pattern.Vocabulary
import GeneralParsing.Proofs.Pattern.WholeSymbols
import GeneralParsing.Proofs.Rules.Compile
import GeneralParsing.Proofs.Rules.Compiled
import GeneralParsing.Proofs.Rules.Derivation
import GeneralParsing.Proofs.Rules.Language
import GeneralParsing.Proofs.Rules.Meaning
import GeneralParsing.Proofs.Rules.NodeTags
import GeneralParsing.Proofs.Rules.Outcome
import GeneralParsing.Proofs.Rules.Patterns
import GeneralParsing.Proofs.Rules.Session
import GeneralParsing.Proofs.Rules.Tags
import GeneralParsing.Proofs.Rules.Verdict
import GeneralParsing.Proofs.Text.Quoting
import GeneralParsing.Proofs.Tree.Comparing
import GeneralParsing.Proofs.Tree.Counting
import GeneralParsing.Proofs.Tree.First
import GeneralParsing.Proofs.Tree.Ledger
import GeneralParsing.Proofs.Tree.Nesting
import GeneralParsing.Proofs.Tree.Numbering
import GeneralParsing.Proofs.Tree.Picking
import GeneralParsing.Proofs.Tree.Places
import GeneralParsing.Proofs.Tree.Printing
import GeneralParsing.Proofs.Tree.Readings
import GeneralParsing.Proofs.Tree.Sharing
import GeneralParsing.Proofs.Tree.Tiling
import GeneralParsing.Rules.Basic
import GeneralParsing.Rules.Compile
import GeneralParsing.Rules.Dialect
import GeneralParsing.Rules.SelfDescription
import GeneralParsing.Span
import GeneralParsing.Text.Blank
import GeneralParsing.Text.CodeRanges
import GeneralParsing.Text.DecimalDigit
import GeneralParsing.Text.Quoted
import GeneralParsing.Text.Unprintable
import GeneralParsing.Text.WordCharacter
import GeneralParsing.Tree.Basic
import GeneralParsing.Tree.Build
import GeneralParsing.Tree.Count
import GeneralParsing.Tree.Equality
import GeneralParsing.Tree.First
import GeneralParsing.Tree.Fold
import GeneralParsing.Tree.Json
import GeneralParsing.Tree.Print
