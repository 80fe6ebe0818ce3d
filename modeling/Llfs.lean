import Llfs.Native.BloomFilter
import Llfs.Native.SliceWork
import Llfs.Native.ParallelBuild
import Llfs.Spec.Addressing
import Llfs.Spec.Interleaving
import Llfs.Spec.InsertCorrect
import Llfs.Spec.Sizing
import Llfs.Spec.SliceWorkCorrect
import Llfs.Spec.ParallelBuildCorrect
import Llfs.Spec.BloomRefinement
import Llfs.Spec.TempMemory
import Llfs.Spec.ParallelBuildProperties
