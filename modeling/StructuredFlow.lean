import StructuredFlow.Assembly
import StructuredFlow.BuildError
import StructuredFlow.Builder
import StructuredFlow.Builder.Construct
import StructuredFlow.Builder.Statement
import StructuredFlow.EvalError
import StructuredFlow.Expr
import StructuredFlow.Fragment
import StructuredFlow.Fragment.Resolution
import StructuredFlow.Host
import StructuredFlow.Host.Standard
import StructuredFlow.Machine
import StructuredFlow.Machine.Eval
import StructuredFlow.Machine.Exec
import StructuredFlow.Machine.Run
import StructuredFlow.Node
import StructuredFlow.Node.Printer
import StructuredFlow.Operator
import StructuredFlow.Options
import StructuredFlow.Options.Config
import StructuredFlow.Proofs.ScopeTree
import StructuredFlow.Proofs.ScopeUpdate
import StructuredFlow.Scope
import StructuredFlow.Scope.Lookup
import StructuredFlow.Script
import StructuredFlow.Symbol
import StructuredFlow.Text.Printable
import StructuredFlow.Text.Quoted
import StructuredFlow.Toml.Document
import StructuredFlow.Toml.Item
import StructuredFlow.Toml.Lexeme
import StructuredFlow.Toml.Number
import StructuredFlow.Toml.Reader
import StructuredFlow.Ty
import StructuredFlow.Value
import StructuredFlow.Value.Cursor
import StructuredFlow.Value.Heap
import StructuredFlow.Proofs.BuildOutcome
import StructuredFlow.Proofs.BuilderEdit
import StructuredFlow.Proofs.BuilderShape
import StructuredFlow.Proofs.Operations
import StructuredFlow.Proofs.ConstructOperations
import StructuredFlow.Proofs.Reachable
import StructuredFlow.Proofs.Refusal
import StructuredFlow.Proofs.NamesApart
import StructuredFlow.Proofs.MachineKept
import StructuredFlow.Proofs.Calls
import StructuredFlow.Proofs.Visits
import StructuredFlow.Proofs.NodeFits
import StructuredFlow.Proofs.ScopeFits
import StructuredFlow.Proofs.BuilderFits
import StructuredFlow.Proofs.AssemblyFits
import StructuredFlow.Proofs.Runs
import StructuredFlow.Proofs.JumpsConsumed
import StructuredFlow.Proofs.NothingMissing
import StructuredFlow.Proofs.CallsComplete
import StructuredFlow.Proofs.NodeTree
import StructuredFlow.Proofs.Places
import StructuredFlow.Proofs.AssembledPlaces
import StructuredFlow.Proofs.LabelsClosed
import StructuredFlow.Proofs.Evaluation
import StructuredFlow.Proofs.Metering
import StructuredFlow.Proofs.Turns
import StructuredFlow.Proofs.TurnsFollowed
import StructuredFlow.Proofs.Continuations
import StructuredFlow.Proofs.ContinuationPlaces
import StructuredFlow.Proofs.ContinuationsAgree
import StructuredFlow.Proofs.JumpsLand
import StructuredFlow.Proofs.Emulation
import StructuredFlow.Proofs.EmulatedParts
import StructuredFlow.Proofs.EmulatedRegions
import StructuredFlow.Proofs.NodesAlike
import StructuredFlow.Proofs.CollapseTransparent
import StructuredFlow.Proofs.NamesStable
import StructuredFlow.Proofs.Clauses
import StructuredFlow.Proofs.AssembledClauses
import StructuredFlow.Proofs.Binders
import StructuredFlow.Proofs.StaticScoping
import StructuredFlow.Proofs.StoredClauses
import StructuredFlow.Proofs.TypedClauses
import StructuredFlow.Proofs.Conformance
import StructuredFlow.Proofs.EvaluationTyped
import StructuredFlow.Proofs.HeapLater
import StructuredFlow.Proofs.Upkeep
import StructuredFlow.Proofs.VariableValues
import StructuredFlow.Proofs.TypePreservation
import StructuredFlow.Proofs.RegionEvents
import StructuredFlow.Proofs.Sessions
import StructuredFlow.Proofs.Disposals
import StructuredFlow.Proofs.ResourcesReleased
import StructuredFlow.Proofs.FragmentsWithoutCaptures
import StructuredFlow.Proofs.ForeignSymbols
import StructuredFlow.Proofs.Sites
import StructuredFlow.Proofs.Offences
import StructuredFlow.Proofs.Ownership
import StructuredFlow.Proofs.Plans
import StructuredFlow.Proofs.Rows
import StructuredFlow.Proofs.Layout
import StructuredFlow.Proofs.LaidOut
import StructuredFlow.Proofs.StepsCounted
import StructuredFlow.Proofs.Termination
import StructuredFlow.Proofs.StepLimit
import StructuredFlow.Proofs.EvaluationFails
import StructuredFlow.Proofs.AbruptEnds
import StructuredFlow.Proofs.ExceptionsSurface
import StructuredFlow.Proofs.LoopsAround
import StructuredFlow.Proofs.InnermostLoop
import StructuredFlow.Proofs.Executions
import StructuredFlow.Proofs.GuardedRegions
import StructuredFlow.Proofs.PendingFlows
import StructuredFlow.Proofs.CleanupRegions
import StructuredFlow.Proofs.HeldIterators
import StructuredFlow.Proofs.HiddenIterators
import StructuredFlow.Proofs.Iterations
import StructuredFlow.Proofs.ForEach
import StructuredFlow.Proofs.LoopMeaning
import StructuredFlow.Proofs.WhileLoops
import StructuredFlow.Proofs.ElseIfChains
import StructuredFlow.Proofs.SwitchDispatch
import StructuredFlow.Proofs.SoleDefault
import StructuredFlow.Proofs.Mentions
import StructuredFlow.Proofs.BindableFragments
import StructuredFlow.Proofs.FilledFragments
import StructuredFlow.Proofs.FragmentsInTurn
import StructuredFlow.Proofs.Captures
import StructuredFlow.Proofs.CatchKinds
import StructuredFlow.Proofs.Conversions
import StructuredFlow.Proofs.ShortCircuit
import StructuredFlow.Proofs.AdmittedValues
import StructuredFlow.Proofs.NullStores
import StructuredFlow.Proofs.IntegerArithmetic
import StructuredFlow.Proofs.Cursors
import StructuredFlow.Proofs.Footprints
import StructuredFlow.Proofs.Descents
import StructuredFlow.Proofs.SoughtPlaces
