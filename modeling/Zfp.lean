import Zfp.CoderRoundTrip
import Zfp.DecodeChecked
import Zfp.BlockLockstep
import Zfp.Header
import Zfp.Hybrid4
import Zfp.Hybrid8
import Zfp.CopyDecision
import Zfp.CacheRuns
import Zfp.FixedRate
import Zfp.SeekFrame
import Zfp.BlockStore
import Zfp.CudaCompress
import Zfp.MetalDecode
import Zfp.MetalLaunch
import Zfp.MetalGather
import Zfp.Compress1d
import Zfp.TransformRange
import Zfp.Partition
import Zfp.FieldSpan
import Zfp.Chunks
import Zfp.ArrayBlocks
import Zfp.BlockIterator
import Zfp.StridedStream
import Zfp.Reporting
import Zfp.FieldCode
import Zfp.ChunkOrder
import Zfp.StoreSerial
import Zfp.FieldAccuracy
import Zfp.ThreadSafety
import Zfp.GenericCodec
import Zfp.Archive
import Zfp.Serialization
import Zfp.ConstArray
import Zfp.AnyStream
