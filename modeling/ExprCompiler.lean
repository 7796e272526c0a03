import ExprCompiler.Asm.Code
import ExprCompiler.Command
import ExprCompiler.Compile
import ExprCompiler.Diagnostic
import ExprCompiler.Expr.Basic
import ExprCompiler.Expr.Fault
import ExprCompiler.Expr.Parser
import ExprCompiler.Main
import ExprCompiler.Text.Decimal
import ExprCompiler.Text.Position
import ExprCompiler.Text.Span
import ExprCompiler.Token.Basic
import ExprCompiler.Token.Lexer
import ExprCompiler.Proofs.Grammar
import ExprCompiler.Proofs.Terminal
import ExprCompiler.Proofs.Parsing
import ExprCompiler.Proofs.Viability
import ExprCompiler.Proofs.Refusal
import ExprCompiler.Proofs.Lexing
import ExprCompiler.Proofs.FirstFault
import ExprCompiler.Proofs.Scannerless
import ExprCompiler.Proofs.Assembly
import ExprCompiler.Proofs.Correctness
import ExprCompiler.Proofs.DivisionFault
import ExprCompiler.Proofs.Trace
import ExprCompiler.Proofs.Printing
import ExprCompiler.Proofs.StackDepth
import ExprCompiler.Proofs.InStep
import ExprCompiler.Proofs.BlankInsertion
import ExprCompiler.Proofs.Composition
import ExprCompiler.Proofs.LexicalFault
import ExprCompiler.Proofs.EventLog
import ExprCompiler.Proofs.CommandOutcome
import ExprCompiler.Proofs.Checked
import ExprCompiler.Proofs.Cursor
import ExprCompiler.Proofs.PanicFreedom
import ExprCompiler.Proofs.Segmentation
import ExprCompiler.Proofs.LexicalErrorPlace
import ExprCompiler.Proofs.InOrder
import ExprCompiler.Proofs.Excess
import ExprCompiler.Proofs.SizeLimits
import ExprCompiler.Proofs.CaretPlace
import ExprCompiler.Proofs.Reconstruction
import ExprCompiler.Proofs.EndMarker
import ExprCompiler.Proofs.RecursionDepth
import ExprCompiler.Proofs.SeparatedTexts
import ExprCompiler.Proofs.ParserState
