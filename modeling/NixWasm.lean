import NixWasm.Runs
import NixWasm.WorkerRoot
import NixWasm.Bytes
import NixWasm.Unicode
import NixWasm.NinepCodec
import NixWasm.NinepRoundTrip
import NixWasm.JsMap
import NixWasm.Vfs
import NixWasm.NinepServer
import NixWasm.NinepWorlds
import NixWasm.NinepSim
import NixWasm.NinepStreaming
import NixWasm.NinepStreamedRuns
import NixWasm.NinepRules
import NixWasm.NinepConfine
import NixWasm.NinepExports
import NixWasm.NinepAtomic
import NixWasm.NinepContents
import NixWasm.Coroutines
import NixWasm.Cursor
import NixWasm.Leb
import NixWasm.Dylink
import NixWasm.DynamicLoader
import NixWasm.DylinkSteps
import NixWasm.DylinkGot
import NixWasm.DylinkReplay
import NixWasm.DylinkAtomic
import NixWasm.DylinkSlots
import NixWasm.DylinkTable
import NixWasm.DylinkAddresses
import NixWasm.DynsymInject
import NixWasm.DynsymAssign
import NixWasm.SideModule
import NixWasm.DynsymRebuild
import NixWasm.DylinkReading
import NixWasm.DynsymOutput
import NixWasm.DynsymAgree
import NixWasm.DynsymExact
import NixWasm.ByteStore
import NixWasm.Effects
import NixWasm.BlkDisk
import NixWasm.Vring
import NixWasm.BlkDevice
import NixWasm.BlkSaves
import NixWasm.BlkAlone
import NixWasm.VsockDevice
import NixWasm.VsockMoves
import NixWasm.VsockStream
import NixWasm.VsockTable
import NixWasm.VsockControl
import NixWasm.Trampolines
import NixWasm.TrampolineKeys
import NixWasm.NinepInflight
import NixWasm.NinepStored
import NixWasm.NinepReadBack
import NixWasm.NinepWritten
import NixWasm.WordFlags
import NixWasm.PageProtection
import NixWasm.NinepRename
import NixWasm.NinepFrame
import NixWasm.NinepAnswers
import NixWasm.NinepReplySize
import NixWasm.KernelHost
import NixWasm.TaskLifecycle
import NixWasm.Ownership
import NixWasm.ExecImage
import NixWasm.ExecImageBooks
import NixWasm.ExecImageRefs
import NixWasm.ExecImageBudget
import NixWasm.ExecImageFresh
import NixWasm.WlDevice
import NixWasm.WlStreams
import NixWasm.WlDelivery
import NixWasm.SoftmmuSections
import NixWasm.Hierarchy
import NixWasm.MemVfs
import NixWasm.MemVfsPaths
import NixWasm.MemVfsCalls
import NixWasm.MemVfsTree
import NixWasm.MemVfsReadOnly
import NixWasm.VfsTree
import NixWasm.MemVfsWays
import NixWasm.MemVfsBackend
import NixWasm.WlPipes
import NixWasm.PathLookup
import NixWasm.Ninepd
import NixWasm.NinepdReplies
import NixWasm.NinepdGuard
import NixWasm.SndDevice
import NixWasm.SndStreams
import NixWasm.WireLayout
import NixWasm.NinepTruncation
import NixWasm.IndexedRing
import NixWasm.VringChains
import NixWasm.VringFifo
import NixWasm.Wasm
import NixWasm.SoftmmuWalk
import NixWasm.UserAccess
import NixWasm.UserTranslate
import NixWasm.UserFrames
import NixWasm.UserReads
import NixWasm.UserWrites
import NixWasm.WasmCode
import NixWasm.FfiCodegen
import NixWasm.FfiPaths
import NixWasm.SoftmmuAtomics
import NixWasm.WasmLoops
import NixWasm.Scatter
import NixWasm.SoftmmuBulk
import NixWasm.SoftmmuBulkRounds
import NixWasm.SoftmmuBulkRuns
import NixWasm.SoftmmuBulkMoves
import NixWasm.ImportWalkers
import NixWasm.BlkOverlay
import NixWasm.ConsoleDevice
import NixWasm.NinepReaddir
import NixWasm.NixStore
import NixWasm.NixStoreTree
import NixWasm.FlatCode
import NixWasm.SoftmmuRewrite
import NixWasm.DylinkMeminfo
import NixWasm.MeminfoReaders
import NixWasm.VringPosted
import NixWasm.VsockProgress
import NixWasm.UserCopy
import NixWasm.UserCopyRuns
import NixWasm.RawFfi
import NixWasm.RawFfiLowering
import NixWasm.RawFfiCalls
import NixWasm.RawFfiAggregates
import NixWasm.Rereads
import NixWasm.DynsymReread
import NixWasm.DynsymIdempotent
import NixWasm.SinkRuns
import NixWasm.RamfsContents
import NixWasm.TrayHostChunks
import NixWasm.NoticeRuns
