import MifirReport.Main
import MifirReport.Files.Disk
import MifirReport.Proofs.Table.Emission
import MifirReport.Proofs.Batch.KeepGoing
import MifirReport.Proofs.Batch.FailFast
import MifirReport.Proofs.Xml.Rendering
import MifirReport.Proofs.Report.Indifference
import MifirReport.Proofs.Report.Parties
import MifirReport.Proofs.Report.Traders
import MifirReport.Proofs.Xml.Ending
import MifirReport.Proofs.Xml.Fragments
import MifirReport.Proofs.Batch.Placed
import MifirReport.Proofs.Batch.Readings
import MifirReport.Proofs.Batch.Diagnostics
import MifirReport.Proofs.Batch.Directory
import MifirReport.Proofs.Report.Cancellations
import MifirReport.Proofs.Batch.Unreadable
import MifirReport.Proofs.Command.Outcome
import MifirReport.Proofs.Xml.Building
import MifirReport.Proofs.Report.Texts
import MifirReport.Proofs.Xml.Shadowing
import MifirReport.Proofs.Report.Kinds
import MifirReport.Proofs.Report.Amounts
import MifirReport.Proofs.Report.Precedence
import MifirReport.Proofs.Report.Underlyings
import MifirReport.Proofs.Report.Statuses
import MifirReport.Proofs.Xml.Surroundings
import MifirReport.Proofs.Xml.Comments
import MifirReport.Proofs.Table.Diagnostic
import MifirReport.Proofs.Client.Table
import MifirReport.Proofs.Batch.Names
import MifirReport.Proofs.Batch.Party
import MifirReport.Proofs.Command.Mode
import MifirReport.Proofs.Xml.Lockstep
