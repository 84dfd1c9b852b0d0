import Threefold.Program.Source
import Threefold.Evaluation
import Threefold.Bytecode.Compilation
import Threefold.Bytecode.Json
import Threefold.Bytecode.Machine
import Threefold.Bytecode.Reader
import Threefold.X86.Text
import Threefold.X86.Reader
import Threefold.X86.Lowering
import Threefold.X86.Trap
import Threefold.X86.Machine
import Threefold.Files.Memory
import Threefold.Main
import Threefold.Proofs.Bytecode.Equivalence
import Threefold.Proofs.Heap.Traffic
import Threefold.Proofs.Heap.Sessions
import Threefold.Proofs.Bytecode.Tags
import Threefold.Proofs.X86.Simulation
import Threefold.Proofs.Bytecode.Reached
import Threefold.Proofs.X86.Heights
import Threefold.Proofs.Bytecode.Harmless
import Threefold.Proofs.X86.Fitting
import Threefold.Proofs.X86.Shapes
import Threefold.Proofs.X86.Discipline
import Threefold.Proofs.Bytecode.Closing
import Threefold.Proofs.Program.Printing
import Threefold.Proofs.Program.Binding
import Threefold.Proofs.X86.Labels
import Threefold.Proofs.Heap.Cascade
import Threefold.Proofs.X86.Frames
import Threefold.Proofs.X86.Parameters
import Threefold.Proofs.Heap.Conservation
import Threefold.Proofs.X86.Activations
import Threefold.Proofs.X86.Calling
import Threefold.Proofs.X86.Extension
import Threefold.Proofs.X86.Protocol
import Threefold.Proofs.X86.Recursion
import Threefold.Proofs.Program.Exceptions
import Threefold.Proofs.Program.Raising
import Threefold.Proofs.Heap.Catalogue
import Threefold.Proofs.Bytecode.Copying
import Threefold.Proofs.Evaluation.Moments
import Threefold.Proofs.Program.Literals
import Threefold.Proofs.Token.Spans
import Threefold.Proofs.X86.Encoding
import Threefold.Proofs.X86.Strings
import Threefold.Proofs.Settings.Targets
import Threefold.Proofs.Bytecode.Patching
import Threefold.Proofs.Bytecode.Exits
import Threefold.Proofs.Program.Progress
import Threefold.Proofs.Bytecode.Notes
import Threefold.Proofs.Bytecode.Listings
import Threefold.Proofs.Bytecode.Pending
