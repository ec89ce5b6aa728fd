import MojoMac.BinaryHeap
import MojoMac.PopCast
import MojoMac.BitSetProgram
import MojoMac.BitSetRange
import MojoMac.AtolReads
import MojoMac.DequeRun
import MojoMac.IntervalSearch
import MojoMac.IntervalBounds
import MojoMac.GraphemeBreak
import MojoMac.IntTupleRun
import MojoMac.LayoutKeepRank
import MojoMac.LayoutComplement
import MojoMac.ComposedLayout
import MojoMac.OrderedLayout
import MojoMac.JengaHits
import MojoMac.BlockManagerRuns
import MojoMac.PrefixHits
import MojoMac.GenerationStream
import MojoMac.LoraProtection
import MojoMac.BatchRuns
import MojoMac.FileLock
import MojoMac.LockFreeRingBuffer
import MojoMac.TimerHeap
import MojoMac.DeviceBuffer
import MojoMac.MetalErrors
import MojoMac.BlobFile
import MojoMac.Partition
import MojoMac.TrailingZeros
