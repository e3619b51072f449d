import NanoCpu.Rob
import NanoCpu.Execute
import NanoCpu.Rename
import NanoCpu.IssuePipe
import NanoCpu.CommitFsm
import NanoCpu.Privilege
import NanoCpu.DcacheOps
import NanoCpu.DcacheDirty
import NanoCpu.Em
import NanoCpu.Conform
import NanoCpu.LsuLanes
import NanoCpu.Timer
import NanoCpu.DataSide
import NanoCpu.Translate
import NanoCpu.ExcEntry
import NanoCpu.MsrStore
import NanoCpu.DmmuOwn
import NanoCpu.ContextSync
import NanoCpu.AxiArbiter
import NanoCpu.Crossbar
import NanoCpu.EmCacheDead
import NanoCpu.IqQueue
import NanoCpu.CommittedValues
import NanoCpu.Station
import NanoCpu.AxiFabric
import NanoCpu.IcacheBus
import NanoCpu.AxiDiscipline
import NanoCpu.IcInvalidate
import NanoCpu.IcacheFlat
import NanoCpu.RnRat
import NanoCpu.FreeList
import NanoCpu.BpuTraining
import NanoCpu.FifoQueue
import NanoCpu.EmCacheLru
import NanoCpu.EmCacheDirty
import NanoCpu.EmCacheAlloc
import NanoCpu.EmMmio
import NanoCpu.EmMemoryBounds
import NanoCpu.CrossbarWrite
import NanoCpu.Prediction
import NanoCpu.Lockstep
import NanoCpu.MemProgram
import NanoCpu.EmDifftest
import NanoCpu.EmLoad
import NanoCpu.DataLedger
import NanoCpu.DataStore
import NanoCpu.Precise
import NanoCpu.MemCore
import NanoCpu.FetchSide
import NanoCpu.Ncpu64k
import NanoCpu.StallEnds
import NanoCpu.BackendProgress
import NanoCpu.CoreProgress
import NanoCpu.Ncpu64kProgress
import NanoCpu.Ncpu64kCosim
import NanoCpu.DcacheVictim
import NanoCpu.EmUart
import NanoCpu.EmUartRx
