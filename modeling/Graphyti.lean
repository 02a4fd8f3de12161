import Graphyti.Graph
import Graphyti.KCoreEngine
import Graphyti.KCoreInvariant
import Graphyti.VertexQuery
import Graphyti.KCoreRun
import Graphyti.KCoreProgram
import Graphyti.SparseFormat
import Graphyti.BlockComputeTask
import Graphyti.BlockMultiply
import Graphyti.RowComputeTask
import Graphyti.FlashMatrixInit
import Graphyti.FgSparseMatrix
import Graphyti.SparseMatrixIndex
import Graphyti.Workload
import Graphyti.SharedWorkload
import Graphyti.SparseMatrixCompute
import Graphyti.BlockComputeTaskBuffer
