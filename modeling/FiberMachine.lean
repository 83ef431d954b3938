import FiberMachine.Code.Symbolic
import FiberMachine.Heap.Equality
import FiberMachine.Library
import FiberMachine.Main
import FiberMachine.Probe
import FiberMachine.Code.Assembler
import FiberMachine.Proofs.Machine.Wakening
import FiberMachine.Proofs.Machine.Loaders
import FiberMachine.Proofs.Machine.Recovery
import FiberMachine.Proofs.Machine.Awaits
import FiberMachine.Proofs.Machine.Spawning
import FiberMachine.Proofs.Machine.Balance
import FiberMachine.Proofs.Timers.Account
import FiberMachine.Proofs.Heap.Interning
import FiberMachine.Proofs.Code.Formats
import FiberMachine.Proofs.Json.Values
import FiberMachine.Proofs.Machine.Isolation
import FiberMachine.Proofs.Machine.Format
import FiberMachine.Proofs.Code.Rows
import FiberMachine.Proofs.Machine.Landing
import FiberMachine.Proofs.Machine.Dictionaries
import FiberMachine.Proofs.Heap.Bisimilarity
import FiberMachine.Proofs.Code.Drafts
import FiberMachine.Proofs.Heap.Descent
import FiberMachine.Proofs.Machine.Instances
import FiberMachine.Proofs.Object.Words
import FiberMachine.Proofs.Machine.Loops
import FiberMachine.Proofs.Heap.InsertionOrder
import FiberMachine.Proofs.Machine.Subscripts
import FiberMachine.Proofs.Decimal.Printed
import FiberMachine.Proofs.Heap.Thresholds
import FiberMachine.Proofs.Machine.Bindings
import FiberMachine.Proofs.Machine.Methods
