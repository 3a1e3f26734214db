import TaintAnalysis.Pipeline
import TaintAnalysis.Program.Export
import TaintAnalysis.Proofs.Calls.Arity
import TaintAnalysis.Proofs.Calls.Convergence
import TaintAnalysis.Proofs.Calls.FoldedSummaries
import TaintAnalysis.Proofs.Flow.Frontier
import TaintAnalysis.Proofs.Flow.Nesting
import TaintAnalysis.Proofs.Flow.Sweeps
import TaintAnalysis.Proofs.Memory.BlockOrder
import TaintAnalysis.Proofs.Memory.Closure
import TaintAnalysis.Proofs.Memory.ConstantOffsets
import TaintAnalysis.Proofs.Memory.Registry
import TaintAnalysis.Proofs.Memory.Retargeting
import TaintAnalysis.Proofs.Program.BlockNumbers
import TaintAnalysis.Proofs.Program.Declared
import TaintAnalysis.Proofs.Program.Pruning
import TaintAnalysis.Proofs.Program.Sealing
import TaintAnalysis.Proofs.Scalar.DirectFlow
import TaintAnalysis.Proofs.Solver.Ascent
import TaintAnalysis.Proofs.Solver.Copies
import TaintAnalysis.Proofs.Solver.Cycles
import TaintAnalysis.Proofs.Solver.Setters
import TaintAnalysis.Proofs.Solver.SharedMemory
import TaintAnalysis.Proofs.Solver.UnknownCode
import TaintAnalysis.Proofs.Solver.Widening
import TaintAnalysis.Proofs.Source.Concatenation
import TaintAnalysis.Proofs.Source.ProgramTrees
import TaintAnalysis.Proofs.Source.Validity
import TaintAnalysis.Proofs.Taint.ChangeFlags
import TaintAnalysis.Proofs.Taint.Substitution
