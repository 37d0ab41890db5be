import Lox.Main
import Lox.Proofs.Grammar.Layout
import Lox.Proofs.Grammar.ExpressionReading
import Lox.Proofs.Grammar.ExpressionTexts
import Lox.Proofs.Grammar.Rules
import Lox.Proofs.Grammar.ExpressionRules
import Lox.Proofs.Grammar.Phrases
import Lox.Proofs.Grammar.ProgramReading
import Lox.Proofs.Grammar.ProgramTexts
import Lox.Proofs.Grammar.Progress
import Lox.Proofs.Grammar.Cursor
import Lox.Proofs.Binding.Sites
import Lox.Proofs.Binding.Violations
import Lox.Proofs.Grammar.Trees
import Lox.Proofs.Evaluation.Calls
import Lox.Proofs.Evaluation.Scoping
import Lox.Proofs.Lexical.Words
import Lox.Proofs.Evaluation.Operations
import Lox.Proofs.Evaluation.Activations
import Lox.Proofs.Evaluation.Places
import Lox.Proofs.Evaluation.Lockstep
import Lox.Proofs.Evaluation.References
import Lox.Proofs.Evaluation.Sessions
import Lox.Proofs.Evaluation.Restoration
import Lox.Proofs.Evaluation.Identities
import Lox.Proofs.Evaluation.Courses
import Lox.Proofs.Evaluation.Assignments
import Lox.Proofs.Evaluation.Turns
import Lox.Proofs.Evaluation.Timelines
import Lox.Proofs.Evaluation.Nesting
import Lox.Proofs.Evaluation.Holdings
import Lox.Proofs.Evaluation.Anchoring
import Lox.Proofs.Evaluation.Chronicles
import Lox.Proofs.Evaluation.Ancestry
import Lox.Proofs.Evaluation.Initializers
import Lox.Proofs.Evaluation.Receivers
import Lox.Proofs.Evaluation.Defenses
import Lox.Proofs.Mirror.Counterparts
import Lox.Proofs.Mirror.Operations
import Lox.Proofs.Mirror.Evaluation
import Lox.Proofs.Grammar.Lines
import Lox.Proofs.Mirror.Copies
import Lox.Proofs.Mirror.Similarity
import Lox.Proofs.Mirror.Refusals
import Lox.Proofs.Lexical.LongestMatch
import Lox.Proofs.Lexical.Encoding
import Lox.Proofs.Lexical.ByteCursor
import Lox.Proofs.Lexical.Boundaries
import Lox.Proofs.Lexical.LineNumbers
import Lox.Proofs.Lexical.Joining
import Lox.Proofs.Lexical.Respacing
import Lox.Proofs.Mirror.Pieces
import Lox.Proofs.Mirror.Renaming
import Lox.Proofs.Grammar.Concatenation
import Lox.Proofs.Binding.Addresses
import Lox.Proofs.Evaluation.Returns
import Lox.Proofs.Evaluation.Fuel
import Lox.Proofs.Evaluation.Readings
import Lox.Proofs.Binding.Visits
import Lox.Proofs.Binding.Relabeling
import Lox.Proofs.Splice.Counterparts
import Lox.Proofs.Splice.Operations
import Lox.Proofs.Splice.Evaluation
import Lox.Proofs.Splice.Insertion
import Lox.Proofs.Splice.Machines
import Lox.Proofs.Splice.ForLoops
import Lox.Proofs.Evaluation.Changes
import Lox.Proofs.Evaluation.Names
import Lox.Proofs.Evaluation.Silence
import Lox.Proofs.Evaluation.Truncation
import Lox.Proofs.Evaluation.LimitedRuns
import Lox.Proofs.Grammar.Sightings
import Lox.Proofs.Grammar.ErrorOrder
import Lox.Proofs.Grammar.LoopTexts
import Lox.Proofs.Binding.Marks
import Lox.Proofs.Binding.Order
import Lox.Proofs.Evaluation.Sequence
import Lox.Proofs.Evaluation.Writes
import Lox.Proofs.Evaluation.Properties
import Lox.Proofs.Evaluation.Forests
import Lox.Proofs.Evaluation.Sharing
import Lox.Proofs.Evaluation.Printing
import Lox.Proofs.Syntax.Forms
import Lox.Proofs.Syntax.PrefixForms
import Lox.Proofs.Syntax.Shapes
import Lox.Proofs.Grammar.Outcomes
import Lox.Proofs.Grammar.ShapedTrees
