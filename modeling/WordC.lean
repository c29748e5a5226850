import WordC.Word
import WordC.Loc
import WordC.Ty
import WordC.Ty.Text
import WordC.Diagnostic
import WordC.Diagnostic.Render
import WordC.Problem
import WordC.Token
import WordC.Token.Segment
import WordC.Token.Stream
import WordC.Tree
import WordC.Tree.Typing
import WordC.Signature
import WordC.Parse.State
import WordC.Parse.Recovery
import WordC.Parse.Declarator
import WordC.Parse.Operator
import WordC.Parse.Expression
import WordC.Parse.Statement
import WordC.Parse.Objects
import WordC.Asm
import WordC.Emit.Expression
import WordC.Emit.Flow
import WordC.Emit.Program
import WordC.Compile
import WordC.CommandLine
import WordC.Main
import WordC.Proofs.Tree
import WordC.Proofs.Machine
import WordC.Proofs.Evaluation
import WordC.Proofs.ExpressionCode
import WordC.Proofs.Labels
import WordC.Proofs.Listing
import WordC.Proofs.ControlFlow
import WordC.Proofs.Reading
import WordC.Proofs.ReadExpression
import WordC.Proofs.ReadStatement
import WordC.Proofs.Parameters
import WordC.Proofs.ReadObjects
import WordC.Proofs.Safety
import WordC.Proofs.Typing
import WordC.Proofs.Alignment
import WordC.Proofs.Jumps
import WordC.Proofs.Arity
import WordC.Proofs.ReadBack
import WordC.Proofs.Frame
import WordC.Proofs.Grammar
import WordC.Proofs.Consuming
import WordC.Proofs.Derivation
import WordC.Proofs.Outline
import WordC.Proofs.Routines
import WordC.Proofs.Recursion
import WordC.Proofs.Positions
import WordC.Proofs.Mirroring
import WordC.Proofs.TwoRuns
import WordC.Proofs.Segmentation
import WordC.Proofs.Lines
import WordC.Proofs.Pointing
import WordC.Proofs.Rounds
import WordC.Proofs.Cursor
import WordC.Proofs.Prototypes
import WordC.Proofs.SkippedFunctions
import WordC.Proofs.Isolation
import WordC.Proofs.PointerArithmetic
import WordC.Proofs.RowMajor
import WordC.Proofs.Joining
import WordC.Proofs.Emission
import WordC.Proofs.Undeclared
import WordC.Proofs.ElementSizes
import WordC.Proofs.Decay
import WordC.Proofs.Compatibility
import WordC.Proofs.ArgumentSteps
import WordC.Proofs.WrittenTypes
