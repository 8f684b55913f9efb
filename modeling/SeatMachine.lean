import SeatMachine.Challenge.Basic
import SeatMachine.Challenge.Catalog
import SeatMachine.Challenge.Record
import SeatMachine.Command.Arguments
import SeatMachine.Command.Execution
import SeatMachine.Command.Listing
import SeatMachine.Command.Report
import SeatMachine.Command.Trace
import SeatMachine.Completion
import SeatMachine.Fault
import SeatMachine.Folder
import SeatMachine.History
import SeatMachine.Instruction.Basic
import SeatMachine.Instruction.Record
import SeatMachine.Json.Basic
import SeatMachine.Json.Fields
import SeatMachine.Json.Number
import SeatMachine.Json.Reader
import SeatMachine.Json.Text
import SeatMachine.Json.Token
import SeatMachine.Json.Writer
import SeatMachine.Ledger.Basic
import SeatMachine.Ledger.Record
import SeatMachine.Ledger.Storage
import SeatMachine.LoadError
import SeatMachine.Machine.Basic
import SeatMachine.Machine.Step
import SeatMachine.Main
import SeatMachine.Program
import SeatMachine.Proofs.Challenge.Judging
import SeatMachine.Proofs.Command.ExitCode
import SeatMachine.Proofs.Command.Tracing
import SeatMachine.Proofs.Folder.Naming
import SeatMachine.Proofs.General
import SeatMachine.Proofs.History.Editing
import SeatMachine.Proofs.History.Limit
import SeatMachine.Proofs.Instruction.Record
import SeatMachine.Proofs.Json.Layout
import SeatMachine.Proofs.Json.Literal
import SeatMachine.Proofs.Json.Reading
import SeatMachine.Proofs.Json.RoundTrip
import SeatMachine.Proofs.Json.Spelling
import SeatMachine.Proofs.Ledger.Durability
import SeatMachine.Proofs.Ledger.Merging
import SeatMachine.Proofs.Ledger.RoundTrip
import SeatMachine.Proofs.Ledger.Writing
import SeatMachine.Proofs.Machine.Accounting
import SeatMachine.Proofs.Machine.Bounds
import SeatMachine.Proofs.Machine.Change
import SeatMachine.Proofs.Machine.Checks
import SeatMachine.Proofs.Machine.Course
import SeatMachine.Proofs.Machine.Evaluation
import SeatMachine.Proofs.Machine.Failure
import SeatMachine.Proofs.Machine.Hindrance
import SeatMachine.Proofs.Machine.InversePairs
import SeatMachine.Proofs.Machine.Landing
import SeatMachine.Proofs.Machine.Mirror
import SeatMachine.Proofs.Machine.Nesting
import SeatMachine.Proofs.Machine.Rewinding
import SeatMachine.Proofs.Machine.Termination
import SeatMachine.Proofs.Machine.Transition
import SeatMachine.Proofs.Machine.Words
import SeatMachine.Proofs.Program.Bodies
import SeatMachine.Proofs.Program.Canonical
import SeatMachine.Proofs.Program.Labels
import SeatMachine.Proofs.Program.Metadata
import SeatMachine.Proofs.Program.Place
import SeatMachine.Proofs.Program.RoundTrip
import SeatMachine.Proofs.Session.Coherence
import SeatMachine.Proofs.Session.Conservation
import SeatMachine.Proofs.Session.EarlyFinish
import SeatMachine.Proofs.Session.Ending
import SeatMachine.Proofs.Session.Iteration
import SeatMachine.Proofs.Session.Mirror
import SeatMachine.Proofs.Session.Operation
import SeatMachine.Proofs.Session.PauseHandle
import SeatMachine.Proofs.Session.Reporting
import SeatMachine.Proofs.Session.Safety
import SeatMachine.Proofs.Session.Settled
import SeatMachine.Proofs.Session.StartingOver
import SeatMachine.Proofs.Session.StepCounter
import SeatMachine.Proofs.Session.Ticking
import SeatMachine.Proofs.Session.TimedRun
import SeatMachine.Session.Basic
import SeatMachine.Session.Run
import SeatMachine.Session.Switch
import SeatMachine.Verdict
import SeatMachine.Proofs.Challenge.Definition
import SeatMachine.Proofs.Command.Marking
