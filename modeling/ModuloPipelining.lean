import ModuloPipelining.Exchange.Read
import ModuloPipelining.Exchange.Write
import ModuloPipelining.Json.Basic
import ModuloPipelining.Json.Decode
import ModuloPipelining.Json.Numeral
import ModuloPipelining.Json.Parse
import ModuloPipelining.Json.Print
import ModuloPipelining.Main
import ModuloPipelining.Operator
import ModuloPipelining.Pass
import ModuloPipelining.Pipeline.Basic
import ModuloPipelining.Pipeline.Construct
import ModuloPipelining.Pipeline.Verify
import ModuloPipelining.Problem.Basic
import ModuloPipelining.Problem.Check
import ModuloPipelining.Problem.Cycle
import ModuloPipelining.Problem.FromLoop
import ModuloPipelining.Problem.Link
import ModuloPipelining.Problem.Snapshot
import ModuloPipelining.Program.Eligibility
import ModuloPipelining.Program.Func
import ModuloPipelining.Program.Loop
import ModuloPipelining.Program.Operation
import ModuloPipelining.Program.TripCount
import ModuloPipelining.Program.Value
import ModuloPipelining.Report.Text
import ModuloPipelining.Schedule.LongestPath
import ModuloPipelining.Schedule.Recurrence
import ModuloPipelining.Schedule.Solve
import ModuloPipelining.Tool
import ModuloPipelining.Word
import ModuloPipelining.Proofs.Graph.Marks
import ModuloPipelining.Proofs.Graph.Walk
import ModuloPipelining.Proofs.Schedule.Relaxation
import ModuloPipelining.Proofs.Schedule.Components
import ModuloPipelining.Proofs.Schedule.RecurrenceBound
import ModuloPipelining.Proofs.Problem.Acyclic
import ModuloPipelining.Proofs.Problem.History
import ModuloPipelining.Proofs.Problem.NamedCycle
import ModuloPipelining.Proofs.Problem.FirstViolation
import ModuloPipelining.Proofs.Schedule.Optimal
import ModuloPipelining.Proofs.Problem.LoopProblem
import ModuloPipelining.Proofs.Pipeline.Captures
import ModuloPipelining.Proofs.Pipeline.Verified
import ModuloPipelining.Proofs.Pipeline.Assembly
import ModuloPipelining.Proofs.Pipeline.Lowering
import ModuloPipelining.Proofs.Pass.Run
import ModuloPipelining.Proofs.Pass.LoopByLoop
import ModuloPipelining.Proofs.Program.Iterations
import ModuloPipelining.Proofs.Problem.MemoryOrder
import ModuloPipelining.Proofs.Problem.IntraIteration
import ModuloPipelining.Proofs.Problem.CastChains
import ModuloPipelining.Proofs.Pipeline.Routing
import ModuloPipelining.Proofs.Pipeline.Checks
import ModuloPipelining.Proofs.Problem.InsertionOrder
import ModuloPipelining.Proofs.Schedule.Traps
import ModuloPipelining.Proofs.Problem.Classification
import ModuloPipelining.Proofs.Pipeline.Placement
import ModuloPipelining.Proofs.Problem.Resolution
import ModuloPipelining.Proofs.Pipeline.CaptureFixpoint
