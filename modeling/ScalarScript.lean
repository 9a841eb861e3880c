import ScalarScript.Engine
import ScalarScript.Number.Bits
import ScalarScript.Proofs.Text.Numeral
import ScalarScript.Proofs.Text.Quoted
import ScalarScript.Proofs.Literal
import ScalarScript.Proofs.Bytecode.Execution
import ScalarScript.Proofs.Operand
import ScalarScript.Proofs.Bytecode.Table
import ScalarScript.Proofs.Bytecode.Compilation
import ScalarScript.Proofs.Bytecode.Optimization
import ScalarScript.Proofs.Bytecode.Session
import ScalarScript.Proofs.Bytecode.Preservation
import ScalarScript.Proofs.Folding
import ScalarScript.Proofs.Agreement
import ScalarScript.Proofs.Script
import ScalarScript.Proofs.Deferral
import ScalarScript.Proofs.Bytecode.Safety
import ScalarScript.Proofs.Bytecode.Refusal
import ScalarScript.Proofs.Bytecode.Decompilation
import ScalarScript.Proofs.Bytecode.Building
import ScalarScript.Proofs.Bytecode.Listing
import ScalarScript.Proofs.Bytecode.Fetching
import ScalarScript.Proofs.Bytecode.References
import ScalarScript.Proofs.Bytecode.Renumbering
import ScalarScript.Proofs.Bytecode.Settling
import ScalarScript.Proofs.Bytecode.DeadConstants
import ScalarScript.Proofs.Bytecode.Overflow
import ScalarScript.Proofs.Bytecode.Deduplication
import ScalarScript.Proofs.Materialization
import ScalarScript.Proofs.Intermediate
import ScalarScript.Proofs.Acceptance
import ScalarScript.Proofs.Number.Order
import ScalarScript.Proofs.Number.Integral
import ScalarScript.Proofs.Comparison
import ScalarScript.Proofs.Text.Display
import ScalarScript.Proofs.TextForm
import ScalarScript.Proofs.Arithmetic
import ScalarScript.Proofs.SinglePrecision
import ScalarScript.Proofs.Projections
import ScalarScript.Proofs.Observation
import ScalarScript.Proofs.Text.OneLine
import ScalarScript.Proofs.Bytecode.Faithfulness
import ScalarScript.Proofs.Bytecode.Scanning
import ScalarScript.Proofs.Number.TwosComplement
