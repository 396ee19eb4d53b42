import StackCompiler.Main
import StackCompiler.Proofs.Grammar.Spelling
import StackCompiler.Proofs.Lowering.Forms
import StackCompiler.Proofs.Lowering.StackTypes
import StackCompiler.Proofs.Semantics.Evaluation
import StackCompiler.Proofs.Semantics.ExpressionMeaning
import StackCompiler.Proofs.Lowering.Outline
import StackCompiler.Proofs.Lowering.BodyTypes
import StackCompiler.Proofs.Lowering.Routines
import StackCompiler.Proofs.Lowering.Labels
import StackCompiler.Proofs.Lowering.StackSafety
import StackCompiler.Proofs.Semantics.Structured
import StackCompiler.Proofs.Semantics.Jumps
import StackCompiler.Proofs.Semantics.Agreement
import StackCompiler.Proofs.Semantics.Relocation
import StackCompiler.Proofs.Semantics.Counted
import StackCompiler.Proofs.Semantics.Simulation
import StackCompiler.Proofs.Semantics.FunctionRuns
import StackCompiler.Proofs.Lowering.LabelResolution
import StackCompiler.Proofs.Lowering.StaticFrame
import StackCompiler.Proofs.Lowering.StaticOrder
import StackCompiler.Proofs.Typing.Programs
import StackCompiler.Proofs.Token.Comments
import StackCompiler.Proofs.Layout.Independence
import StackCompiler.Proofs.Diagnostics.Programs
import StackCompiler.Proofs.Token.Lookahead
import StackCompiler.Proofs.Scope.Slots
import StackCompiler.Proofs.Scope.Names
import StackCompiler.Proofs.Lowering.SourceForms
import StackCompiler.Proofs.Lowering.BodyRuns
import StackCompiler.Proofs.Lowering.Calls
import StackCompiler.Proofs.Lowering.Containment
import StackCompiler.Proofs.Lowering.Linking
import StackCompiler.Proofs.Lowering.CallLinks
import StackCompiler.Proofs.Renaming.Trees
import StackCompiler.Proofs.Renaming.Scopes
import StackCompiler.Proofs.Renaming.Expressions
import StackCompiler.Proofs.Renaming.Bodies
import StackCompiler.Proofs.Renaming.Programs
import StackCompiler.Proofs.Renaming.FunctionOrder
import StackCompiler.Proofs.Grammar.Memo
import StackCompiler.Proofs.Grammar.MemoTransparency
import StackCompiler.Proofs.Grammar.Readers
import StackCompiler.Proofs.Grammar.ExpressionReaders
import StackCompiler.Proofs.Grammar.ExpressionFailures
import StackCompiler.Proofs.Grammar.ProgramReaders
import StackCompiler.Proofs.Grammar.ProgramFailures
import StackCompiler.Proofs.Lowering.Continuation
import StackCompiler.Proofs.Lowering.Histories
import StackCompiler.Proofs.Lowering.Signatures
import StackCompiler.Proofs.Semantics.Passages
import StackCompiler.Proofs.Semantics.Rounds
import StackCompiler.Proofs.Semantics.ArrayFill
import StackCompiler.Proofs.Token.Relexing
import StackCompiler.Proofs.Lowering.StaticRefusal
import StackCompiler.Proofs.Semantics.ElementStores
import StackCompiler.Proofs.Lowering.CodeSize
import StackCompiler.Proofs.Token.Positions
import StackCompiler.Proofs.Token.Bounds
import StackCompiler.Proofs.Descent.Productions
import StackCompiler.Proofs.Descent.Readers
import StackCompiler.Proofs.Descent.Steps
import StackCompiler.Proofs.Descent.Termination
import StackCompiler.Proofs.Listing.Literals
import StackCompiler.Proofs.Listing.Instructions
import StackCompiler.Proofs.Listing.Sections
import StackCompiler.Proofs.Listing.Images
