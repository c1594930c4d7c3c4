import Scripting.Main
import Scripting.Options.Unchecked
import Scripting.Proofs.Run.Invariant
import Scripting.Proofs.Run.Preservation
import Scripting.Proofs.Run.Evaluation
import Scripting.Proofs.Run.Reachable
import Scripting.Proofs.Run.Signals
import Scripting.Proofs.Reading.Phrase
import Scripting.Proofs.Reading.Yields
import Scripting.Proofs.Reading.Soundness
import Scripting.Proofs.Reading.Extent
import Scripting.Proofs.Reading.Atoms
import Scripting.Proofs.Token.DigitRow
import Scripting.Proofs.Reading.WellMade
import Scripting.Proofs.Session.WellMade
import Scripting.Proofs.Reading.Completeness
import Scripting.Proofs.Token.Position
import Scripting.Proofs.Reading.Position
import Scripting.Proofs.Reading.Written
import Scripting.Proofs.Run.Calls
import Scripting.Proofs.Run.Part
import Scripting.Proofs.Run.FirstSignal
import Scripting.Proofs.Run.Nodes
import Scripting.Proofs.Run.Corresponds
import Scripting.Proofs.Value.Rename
import Scripting.Proofs.Run.Counterpart
import Scripting.Proofs.Run.TwoRuns
import Scripting.Proofs.Run.Agreement
import Scripting.Proofs.Run.Simulation
import Scripting.Proofs.Session.Simulation
import Scripting.Proofs.Session.Isolation
import Scripting.Proofs.Session.Leniency
import Scripting.Proofs.Token.Word
import Scripting.Proofs.Reading.Names
import Scripting.Proofs.Session.Resolution
import Scripting.Proofs.Run.Course
import Scripting.Proofs.Run.Declared
import Scripting.Proofs.Run.LastStep
import Scripting.Proofs.Run.Frame
import Scripting.Proofs.Run.Methods
import Scripting.Proofs.Session.History
import Scripting.Proofs.Session.Methods
import Scripting.Proofs.Token.Join
import Scripting.Proofs.Reading.Join
import Scripting.Proofs.Session.Batch
import Scripting.Proofs.Token.Bare
import Scripting.Proofs.Tree.Printable
import Scripting.Proofs.Token.Printed
import Scripting.Proofs.Reading.Printed
import Scripting.Proofs.Token.Tiling
import Scripting.Proofs.Token.Layout
import Scripting.Proofs.Run.Activation
import Scripting.Proofs.Run.Nesting
import Scripting.Proofs.Session.Termination
import Scripting.Proofs.Reading.Literals
import Scripting.Proofs.Session.Boundary
import Scripting.Proofs.Shell.Assembly
import Scripting.Proofs.Tree.Given
import Scripting.Proofs.Reading.Given
import Scripting.Proofs.Run.Children
import Scripting.Proofs.Run.Started
import Scripting.Proofs.Run.Watch
import Scripting.Proofs.Run.Conduct
import Scripting.Proofs.Run.Abiding
import Scripting.Proofs.Session.Conduct
import Scripting.Proofs.Session.Hygiene
import Scripting.Proofs.Session.IntegerRange
import Scripting.Proofs.Value.Definitions
import Scripting.Proofs.Run.Invocation
import Scripting.Proofs.Run.SuperCall
import Scripting.Proofs.Session.Untouched
import Scripting.Proofs.Run.SuperChain
import Scripting.Proofs.Run.SuperReturn
import Scripting.Proofs.Session.SuperDispatch
import Scripting.Proofs.Token.Nested
import Scripting.Proofs.Reading.Nested
import Scripting.Proofs.Reading.Fuel
import Scripting.Proofs.Shell.Closing
import Scripting.Proofs.Scopes.Calls
import Scripting.Proofs.Reading.Chain
import Scripting.Proofs.Reading.Climbing
import Scripting.Proofs.Value.Arithmetic
import Scripting.Proofs.Shell.Depth
import Scripting.Proofs.Reading.Source
import Scripting.Proofs.Run.Maps
import Scripting.Proofs.Reading.Routine
import Scripting.Proofs.Reading.Ending
import Scripting.Proofs.Run.Logic
import Scripting.Proofs.Run.Equality
import Scripting.Proofs.Reading.ElseIf
import Scripting.Proofs.Run.Cascade
import Scripting.Proofs.Run.Arguments
import Scripting.Proofs.Reading.NamedFunction
import Scripting.Proofs.Token.Interleaving
import Scripting.Proofs.Scopes.Map
import Scripting.Proofs.Run.Pairing
import Scripting.Proofs.Run.Copies
import Scripting.Proofs.Run.Fallback
import Scripting.Proofs.Run.FallbackCalls
import Scripting.Proofs.Run.FallbackNodes
import Scripting.Proofs.Session.CopiedMethods
