import Tradeoff.Decimal.Shortest
import Tradeoff.Decimal.Text
import Tradeoff.Json.Basic
import Tradeoff.Json.Text
import Tradeoff.SymbolMap
import Tradeoff.Operator
import Tradeoff.Expr.Basic
import Tradeoff.Expr.Nodes
import Tradeoff.Formula.Token
import Tradeoff.Formula.Error
import Tradeoff.Formula.Scan
import Tradeoff.Formula.ByteScan
import Tradeoff.Formula.Grammar
import Tradeoff.Formula.Layer
import Tradeoff.Formula.Parse
import Tradeoff.Formula.Machine
import Tradeoff.Formula.Print
import Tradeoff.Formula.Normal
import Tradeoff.Expr.ArrayForm
import Tradeoff.Table
import Tradeoff.Table.Store
import Tradeoff.Environment
import Tradeoff.Evaluation.Error
import Tradeoff.Evaluation.Arithmetic
import Tradeoff.Evaluation.Attempt
import Tradeoff.Evaluation.Expression
import Tradeoff.Evaluation.Policy
import Tradeoff.Problem.Field
import Tradeoff.Problem.Samples
import Tradeoff.Problem.Draft
import Tradeoff.Problem.Basic
import Tradeoff.Problem.Scalarization
import Tradeoff.Problem.Description.Write
import Tradeoff.Problem.Description.Read
import Tradeoff.Evaluation.Result
import Tradeoff.Evaluation.Run
import Tradeoff.Evaluation.Observed
import Tradeoff.Matching.Hypotenuse
import Tradeoff.Matching.Nearest
import Tradeoff.Proofs.Formula.Reading
import Tradeoff.Proofs.Formula.Derivation
import Tradeoff.Proofs.Formula.Recognition
import Tradeoff.Proofs.Formula.Grammar
import Tradeoff.Proofs.Decimal.Doubles
import Tradeoff.Proofs.Decimal.Rounding
import Tradeoff.Proofs.Decimal.ReadBack
import Tradeoff.Proofs.Decimal.Numerals
import Tradeoff.Proofs.Decimal.Neutral
import Tradeoff.Proofs.Decimal.Order
import Tradeoff.Proofs.Decimal.Whole
import Tradeoff.Proofs.Decimal.Zeros
import Tradeoff.Proofs.Decimal.Signs
import Tradeoff.Proofs.Decimal.Shape
import Tradeoff.Proofs.Formula.Spacing
import Tradeoff.Proofs.Formula.Fragment
import Tradeoff.Proofs.Formula.Linked
import Tradeoff.Proofs.Formula.Printable
import Tradeoff.Proofs.Formula.NormalForm
import Tradeoff.Proofs.Formula.RoundTrip
import Tradeoff.Proofs.Formula.Arity
import Tradeoff.Proofs.Formula.Numbers
import Tradeoff.Proofs.Formula.Height
import Tradeoff.Proofs.Formula.Enclosure
import Tradeoff.Proofs.Formula.Nesting
import Tradeoff.Proofs.Formula.Lexemes
import Tradeoff.Proofs.Formula.ByteScan
import Tradeoff.Proofs.Formula.Forms
import Tradeoff.Proofs.Formula.Leaving
import Tradeoff.Proofs.Formula.Machine
import Tradeoff.Proofs.Formula.Calls
import Tradeoff.Proofs.Formula.Blame
import Tradeoff.Proofs.Formula.Places
import Tradeoff.Proofs.Expr.ArrayForm
import Tradeoff.Proofs.Table.Columns
import Tradeoff.Proofs.Table.Labels
import Tradeoff.Proofs.Table.Additions
import Tradeoff.Proofs.Formula.Symbols
import Tradeoff.Proofs.Problem.Claims
import Tradeoff.Proofs.Problem.Soundness
import Tradeoff.Proofs.Problem.FirstFault
import Tradeoff.Proofs.Problem.Scalarization
import Tradeoff.Proofs.Problem.Finite
import Tradeoff.Proofs.Problem.Loading
import Tradeoff.Proofs.Expr.ArrayReading
import Tradeoff.Proofs.Problem.Description
import Tradeoff.Proofs.Problem.Reloading
import Tradeoff.Proofs.Evaluation.Nodes
import Tradeoff.Proofs.Evaluation.Policy
import Tradeoff.Proofs.Evaluation.Bindings
import Tradeoff.Proofs.Evaluation.Outcomes
import Tradeoff.Proofs.Evaluation.Stages
import Tradeoff.Proofs.Evaluation.Fields
import Tradeoff.Proofs.Evaluation.Scope
import Tradeoff.Proofs.Evaluation.Row
import Tradeoff.Proofs.Evaluation.RowRun
import Tradeoff.Proofs.Evaluation.Escalation
import Tradeoff.Proofs.Evaluation.Locality
import Tradeoff.Proofs.Evaluation.LookedUp
import Tradeoff.Proofs.Evaluation.Inheritance
import Tradeoff.Proofs.Evaluation.Solution
import Tradeoff.Proofs.Evaluation.Equations
import Tradeoff.Proofs.Evaluation.NotANumber
import Tradeoff.Proofs.Evaluation.Causes
import Tradeoff.Proofs.Evaluation.Order
import Tradeoff.Proofs.Evaluation.Extension
import Tradeoff.Proofs.Evaluation.Moments
import Tradeoff.Proofs.Evaluation.CutOff
import Tradeoff.Proofs.Evaluation.Reports
import Tradeoff.Proofs.Evaluation.Feasibility
import Tradeoff.Proofs.Evaluation.WrittenOut
import Tradeoff.Proofs.Evaluation.Faults
import Tradeoff.Proofs.Evaluation.NormalForms
import Tradeoff.Proofs.Evaluation.Reread
import Tradeoff.Proofs.Evaluation.Form
import Tradeoff.Proofs.Evaluation.SpelledOut
import Tradeoff.Proofs.Evaluation.Pointwise
import Tradeoff.Proofs.Evaluation.Scalarizing
import Tradeoff.Proofs.Evaluation.Operands
import Tradeoff.Proofs.Evaluation.Refusals
import Tradeoff.Proofs.Evaluation.Checked
import Tradeoff.Proofs.Evaluation.InBounds
import Tradeoff.Proofs.Evaluation.RunFailures
import Tradeoff.Proofs.Evaluation.ArgumentCounts
import Tradeoff.Proofs.Problem.Mirror
import Tradeoff.Proofs.Evaluation.Mirror
import Tradeoff.Proofs.Matching.Distance
import Tradeoff.Proofs.Matching.Search
import Tradeoff.Proofs.Matching.Nearest
