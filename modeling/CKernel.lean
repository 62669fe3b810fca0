import CKernel.Lib.Word
import CKernel.Stl.Deque
import CKernel.Stl.DequeGrowth
import CKernel.Stl.DequeCalls
import CKernel.Stl.DequeShape
import CKernel.Stl.DequeResize
import CKernel.Stl.DequeIter
import CKernel.Lib.AssocList
import CKernel.Stl.AvlMap
import CKernel.Stl.AvlBalance
import CKernel.Stl.UnorderedMap
import CKernel.Stl.UnorderedIter
import CKernel.Lib.Heap
import CKernel.Lib.LinkedTree
import CKernel.Lib.TreeOrder
import CKernel.Stl.BstMap
import CKernel.Stl.BstIter
import CKernel.Lib.Mem
import CKernel.Malloc.Tags
import CKernel.Malloc.Ptmalloc
import CKernel.Malloc.PtmallocHeap
import CKernel.Lib.Run
import CKernel.Malloc.PtmallocFrame
import CKernel.Malloc.PtmallocReuse
import CKernel.Malloc.PtmallocSize
import CKernel.Malloc.Realloc
import CKernel.Lib.Extents
import CKernel.Malloc.ReallocList
import CKernel.Malloc.ReallocHeap
import CKernel.Malloc.ReallocRuns
import CKernel.Net.LoginMgr
import CKernel.Net.Session
import CKernel.Conc.Logger
import CKernel.Conc.Rotation
import CKernel.Lib.Pieces
import CKernel.Conc.Format
import CKernel.Net.Frames
import CKernel.Lib.Lines
import CKernel.Net.Framework
import CKernel.Net.FrameworkTables
import CKernel.Net.FrameworkInv
import CKernel.Net.FrameworkEffect
import CKernel.Net.FrameworkEof
import CKernel.Memory.SharedRelease
import CKernel.Memory.SharedPtr
import CKernel.Memory.SharedDelete
import CKernel.Memory.SharedCounts
import CKernel.Lib.Text
import CKernel.Task.TaskManager
import CKernel.Task.Update
import CKernel.Task.Filter
import CKernel.Task.MainLoop
import CKernel.Lib.Links
import CKernel.Malloc.Flsp
import CKernel.Malloc.FlspHeap
import CKernel.Malloc.FlspSearch
import CKernel.Malloc.FlspArena
import CKernel.Malloc.FlspWide
import CKernel.Lib.Wire
import CKernel.Net.Byteorder
import CKernel.Net.Protobuf
import CKernel.Net.ChatServer
import CKernel.Net.ChatRound
import CKernel.Net.EpollEcho
import CKernel.Net.AsyncWrite
import CKernel.Net.AsioPlus
import CKernel.Net.TlvSession
import CKernel.Patterns.Audit
import CKernel.Lib.Throws
import CKernel.Patterns.Checkout
import CKernel.Net.SessionManager
import CKernel.Net.SessionReads
import CKernel.Conc.EpollCoroutines
import CKernel.Lib.Chain
import CKernel.Stl.LinkedList
import CKernel.Malloc.ReallocTile
import CKernel.Malloc.ReallocGrow
import CKernel.Malloc.ReallocBytes
import CKernel.Malloc.ReallocSize
import CKernel.Malloc.ReallocRecords
import CKernel.Lib.Monitor
import CKernel.Lib.LinkedQueue
import CKernel.Lib.Feed
import CKernel.Lib.Machine
import CKernel.Net.Rio
import CKernel.Net.RioRuns
import CKernel.Net.EchoPool
import CKernel.Net.EchoSession
import CKernel.Conc.TasksQueue
import CKernel.Net.LogicSystem
import CKernel.Net.LogicEcho
import CKernel.Conc.BoundedBuffer
import CKernel.Malloc.PtmallocStore
