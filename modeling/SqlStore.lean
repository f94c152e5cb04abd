import SqlStore.Connection
import SqlStore.Main
import SqlStore.Proofs.Expr.Typed
import SqlStore.Proofs.RoundTrip
import SqlStore.Proofs.Selection.Columns
import SqlStore.Proofs.History
import SqlStore.Proofs.Token.Join
import SqlStore.Proofs.Placement
import SqlStore.Proofs.Batch
import SqlStore.Proofs.Token.Tiling
import SqlStore.Proofs.Token.Written
import SqlStore.Proofs.Token.Relex
import SqlStore.Proofs.Expr.Display
import SqlStore.Proofs.Diagnosis
import SqlStore.Proofs.Progress
import SqlStore.Proofs.Storage
import SqlStore.Proofs.Selection.All
import SqlStore.Proofs.Selection.Meaning
import SqlStore.Proofs.Selection.Window
import SqlStore.Proofs.Expr.WellFormed
import SqlStore.Proofs.Selection.WellFormed
import SqlStore.Proofs.Query
import SqlStore.Proofs.Connection
import SqlStore.Proofs.Representation
import SqlStore.Proofs.Clients
import SqlStore.Proofs.Independence
import SqlStore.Proofs.Expr.Description
import SqlStore.Proofs.Shell.Session
import SqlStore.Proofs.Selection.Dependence
import SqlStore.Proofs.Expr.Boolean
import SqlStore.Proofs.Selection.Condition
import SqlStore.Proofs.Expr.Grouping
import SqlStore.Proofs.Text.Walk
import SqlStore.Proofs.Text.Quoted
import SqlStore.Proofs.Token.Quoted
import SqlStore.Proofs.Text.LongestNumeral
import SqlStore.Proofs.Token.Word
import SqlStore.Proofs.Token.Numeral
import SqlStore.Proofs.Integer
import SqlStore.Proofs.Token.Failure
import SqlStore.Proofs.Shell.Columns
import SqlStore.Proofs.Shell.Layout
