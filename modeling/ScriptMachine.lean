import ScriptMachine.Main
import ScriptMachine.Proofs.Heap.Marking
import ScriptMachine.Proofs.Heap.Allocation
import ScriptMachine.Proofs.Heap.Interning
import ScriptMachine.Proofs.Heap.Slots
import ScriptMachine.Proofs.Code.Forms
import ScriptMachine.Proofs.Compile.Emission
import ScriptMachine.Proofs.Compile.Classes
import ScriptMachine.Proofs.Compile.Loops
import ScriptMachine.Proofs.Compile.Script
import ScriptMachine.Proofs.Code.WellFormed
import ScriptMachine.Proofs.Compile.Operating
import ScriptMachine.Proofs.Heap.Building
import ScriptMachine.Proofs.Machine.Operating
import ScriptMachine.Proofs.Session.Account
import ScriptMachine.Proofs.Session.Opening
import ScriptMachine.Proofs.Table.History
import ScriptMachine.Proofs.Parallel.Sessions
import ScriptMachine.Proofs.Parallel.Joined
import ScriptMachine.Proofs.Parallel.Pieces
import ScriptMachine.Proofs.Syntax.Derivation
import ScriptMachine.Proofs.Session.Effects
import ScriptMachine.Proofs.Session.Limits
import ScriptMachine.Proofs.Session.Errors
import ScriptMachine.Proofs.Session.Disassembly
import ScriptMachine.Proofs.Session.Traces
import ScriptMachine.Proofs.Session.Returns
import ScriptMachine.Proofs.Session.Invoking
import ScriptMachine.Proofs.Session.Comparing
import ScriptMachine.Proofs.Scoping.Elements
import ScriptMachine.Proofs.Scoping.Sectioning
import ScriptMachine.Proofs.Machine.Retaining
import ScriptMachine.Proofs.Session.Entering
import ScriptMachine.Proofs.Session.Constructing
import ScriptMachine.Proofs.Session.Lineage
import ScriptMachine.Proofs.Compile.Reporting
import ScriptMachine.Proofs.Source.Positions
import ScriptMachine.Proofs.Token.Tiling
import ScriptMachine.Proofs.Token.Writing
import ScriptMachine.Proofs.Meaning.Programs
import ScriptMachine.Proofs.Value.Boxing
import ScriptMachine.Proofs.Diagnostic.Json
import ScriptMachine.Proofs.Diagnostic.Terminal
import ScriptMachine.Proofs.Table.Stopping
import ScriptMachine.Proofs.Compile.Recovery
