import Pseudocode.Forest.Workbench
import Pseudocode.Main
import Pseudocode.Proofs.Activations
import Pseudocode.Proofs.Arguments
import Pseudocode.Proofs.Arrays
import Pseudocode.Proofs.Blame
import Pseudocode.Proofs.Comparison
import Pseudocode.Proofs.Conversion.Text
import Pseudocode.Proofs.Failures
import Pseudocode.Proofs.Faults.Interpreter
import Pseudocode.Proofs.Grammar.Exact
import Pseudocode.Proofs.Integers
import Pseudocode.Proofs.Irrelevance
import Pseudocode.Proofs.Isolation
import Pseudocode.Proofs.Lexing.Rendering
import Pseudocode.Proofs.Locality.Builder
import Pseudocode.Proofs.Outputs
import Pseudocode.Proofs.Progress
import Pseudocode.Proofs.Rounding
import Pseudocode.Proofs.Runs
import Pseudocode.Proofs.Scopes
import Pseudocode.Proofs.Slots
import Pseudocode.Proofs.Source.Exact
import Pseudocode.Proofs.Source.Shape
import Pseudocode.Proofs.Symbols
import Pseudocode.Registry
import Pseudocode.Session
