import Ixml.Assoc
import Ixml.Bnf.Attributes
import Ixml.Bnf.Basic
import Ixml.Bnf.Build
import Ixml.CharSet.Basic
import Ixml.CharSet.Category
import Ixml.Chart
import Ixml.Chooser
import Ixml.Decimal.Basic
import Ixml.Decimal.Read
import Ixml.Decimal.Shortest
import Ixml.Document.Content
import Ixml.Document.Draft
import Ixml.Error
import Ixml.Failure
import Ixml.Grammar.Basic
import Ixml.Grammar.Check
import Ixml.Grammar.Node
import Ixml.Grammar.Reader
import Ixml.Grammar.Text
import Ixml.Grammar.Tree
import Ixml.Options.Basic
import Ixml.Options.Json
import Ixml.Options.Read
import Ixml.Pragma
import Ixml.Proofs.Ambiguity.Counting
import Ixml.Proofs.Ambiguity.ParseTrees
import Ixml.Proofs.Ambiguity.RuleTrees
import Ixml.Proofs.Ambiguity.Steps
import Ixml.Proofs.Ambiguity.Tally
import Ixml.Proofs.Bnf.Build
import Ixml.Proofs.Bnf.References
import Ixml.Proofs.CharSet.Canonical
import Ixml.Proofs.CharSet.Construction
import Ixml.Proofs.CharSet.Members
import Ixml.Proofs.CharSet.Runs
import Ixml.Proofs.Chart.Failure
import Ixml.Proofs.Chart.Items
import Ixml.Proofs.Chart.Rows
import Ixml.Proofs.Chooser
import Ixml.Proofs.Compile.Ambiguity
import Ixml.Proofs.Compile.Annotations
import Ixml.Proofs.Compile.Arrangement
import Ixml.Proofs.Compile.Checking
import Ixml.Proofs.Compile.Closed
import Ixml.Proofs.Compile.Diagnosis
import Ixml.Proofs.Compile.Ending
import Ixml.Proofs.Compile.Fresh
import Ixml.Proofs.Compile.Hints
import Ixml.Proofs.Compile.Language
import Ixml.Proofs.Compile.Names
import Ixml.Proofs.Compile.Origins
import Ixml.Proofs.Compile.Replacing
import Ixml.Proofs.Compile.Single
import Ixml.Proofs.Compile.Stages
import Ixml.Proofs.Compile.Strategies
import Ixml.Proofs.Compile.Terminals
import Ixml.Proofs.Compile.Verbatim
import Ixml.Proofs.Compile.Weights
import Ixml.Proofs.Compile.WellFormed
import Ixml.Proofs.Decimal.Order
import Ixml.Proofs.Document.Choices
import Ixml.Proofs.Document.Collected
import Ixml.Proofs.Document.Diagnosis
import Ixml.Proofs.Document.Drafting
import Ixml.Proofs.Document.Giving
import Ixml.Proofs.Document.Hidden
import Ixml.Proofs.Document.Marks
import Ixml.Proofs.Document.Matched
import Ixml.Proofs.Document.Rendering
import Ixml.Proofs.Document.Result
import Ixml.Proofs.Document.Sound
import Ixml.Proofs.Document.Text
import Ixml.Proofs.Document.Wrappers
import Ixml.Proofs.Document.Written
import Ixml.Proofs.Grammar.Acceptance
import Ixml.Proofs.Grammar.Altered
import Ixml.Proofs.Grammar.Attaching
import Ixml.Proofs.Grammar.Completeness
import Ixml.Proofs.Grammar.Declaring
import Ixml.Proofs.Grammar.Following
import Ixml.Proofs.Grammar.Goals
import Ixml.Proofs.Grammar.Offending
import Ixml.Proofs.Grammar.Order
import Ixml.Proofs.Grammar.Phrases
import Ixml.Proofs.Grammar.Planted
import Ixml.Proofs.Grammar.Reading
import Ixml.Proofs.Grammar.Refusal
import Ixml.Proofs.Grammar.RoundTrip
import Ixml.Proofs.Grammar.Running
import Ixml.Proofs.Grammar.Shape
import Ixml.Proofs.Grammar.Soundness
import Ixml.Proofs.Grammar.Terminals
import Ixml.Proofs.Grammar.Text
import Ixml.Proofs.Grammar.Understanding
import Ixml.Proofs.Language.Denotation
import Ixml.Proofs.Language.Derivations
import Ixml.Proofs.Language.Steps
import Ixml.Proofs.Recogniser.Choices
import Ixml.Proofs.Recogniser.Divisions
import Ixml.Proofs.Recogniser.Lowest
import Ixml.Proofs.Recogniser.Rounds
import Ixml.Proofs.Recogniser.Spans
import Ixml.Proofs.Recogniser.Telling
import Ixml.Proofs.Recogniser.Walking
import Ixml.Proofs.Recogniser.Ways
import Ixml.Proofs.Simplify.Births
import Ixml.Proofs.Simplify.Edit
import Ixml.Proofs.Simplify.Exchange
import Ixml.Proofs.Simplify.GiveUp
import Ixml.Proofs.Simplify.Groups
import Ixml.Proofs.Simplify.Hints
import Ixml.Proofs.Simplify.Hoist
import Ixml.Proofs.Simplify.Leaves
import Ixml.Proofs.Simplify.Moves
import Ixml.Proofs.Simplify.Names
import Ixml.Proofs.Simplify.Passes
import Ixml.Proofs.Simplify.Round
import Ixml.Proofs.Simplify.Split
import Ixml.Proofs.Simplify.Texts
import Ixml.Proofs.Simplify.Weight
import Ixml.Proofs.Store.Arranged
import Ixml.Proofs.Store.Copy
import Ixml.Proofs.Store.Depth
import Ixml.Proofs.Store.Layout
import Ixml.Proofs.Store.Lays
import Ixml.Proofs.Store.Links
import Ixml.Proofs.Text.Blank
import Ixml.Proofs.Text.Hex
import Ixml.Proofs.Token.Covering
import Ixml.Proofs.Token.Lexing
import Ixml.Proofs.Token.Spelling
import Ixml.Proofs.Token.Writing
import Ixml.Proofs.Work
import Ixml.Proofs.Xml.Collecting
import Ixml.Proofs.Xml.Processing
import Ixml.Proofs.Xml.Readability
import Ixml.Proofs.Xml.Text
import Ixml.Proofs.Xml.WellFormed
import Ixml.Proofs.Xml.Writing
import Ixml.Recogniser
import Ixml.Rendering
import Ixml.Simplify.Basic
import Ixml.Simplify.Edit
import Ixml.Simplify.Group
import Ixml.Simplify.Repetition
import Ixml.Source
import Ixml.Text.Blank
import Ixml.Text.Hex
import Ixml.Text.Position
import Ixml.Text.Quoted
import Ixml.Token.Basic
import Ixml.Token.Lexer
import Ixml.Unicode.Category
import Ixml.Unicode.CodeRange
import Ixml.Unicode.LetterRanges
import Ixml.Unicode.Property
import Ixml.Unicode.PropertyRanges
import Ixml.Unicode.SignRanges
import Ixml.Work
import Ixml.Xml.Char
import Ixml.Xml.Escape
import Ixml.Xml.Event
import Ixml.Xml.Node
