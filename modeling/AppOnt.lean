import AppOnt.Library.Program
import AppOnt.Library.Recognizer
import AppOnt.Config
import AppOnt.Sdk.Calls
import AppOnt.Transaction.Utils
import AppOnt.Transaction.Correctness
import AppOnt.Address
import AppOnt.Library.Memory
import AppOnt.Transaction.Amount
import AppOnt.Ui.Display
import AppOnt.Transaction.Fields
import AppOnt.Ui.Conventions
import AppOnt.Ui.Rows
import AppOnt.Ui.Batch
import AppOnt.Ui.Nodes
import AppOnt.Ui.Review
import AppOnt.Ui.Agreement
import AppOnt.Ui.Fee
import AppOnt.Transaction.Undefined
import AppOnt.Transaction.Layouts
import AppOnt.Ui.Intact
import AppOnt.Ui.Outcome
import AppOnt.Ui.LaidOut
import AppOnt.Ui.Stakes
import AppOnt.Ui.Content
import AppOnt.Ui.Reading
import AppOnt.Library.Decimal
import AppOnt.Ui.Amounts
import AppOnt.Library.Run
import AppOnt.Sdk.Command
import AppOnt.App.Context
import AppOnt.App.Handlers
import AppOnt.App.Effect
import AppOnt.App.Steps
import AppOnt.App.Chunks
import AppOnt.App.Paths
import AppOnt.App.Fresh
import AppOnt.Transaction.Checked
import AppOnt.Ui.Visible
import AppOnt.App.Approval
import AppOnt.App.Preimage
import AppOnt.Transaction.DigitLoop
import AppOnt.Transaction.Precision
import AppOnt.App.Protocol
import AppOnt.Library.Simulation
import AppOnt.Transaction.Verdict
import AppOnt.Library.SelfDelimiting
import AppOnt.Transaction.Unambiguous
import AppOnt.App.Represents
import AppOnt.App.Refinement
import AppOnt.App.Covered
import AppOnt.App.Responses
import AppOnt.App.Shown
import AppOnt.Library.Client
import AppOnt.Host.Responses
import AppOnt.Host.Sender
import AppOnt.Host.Correspondence
import AppOnt.Host.Progress
