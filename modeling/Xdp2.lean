import Xdp2.Lib.StateError
import Xdp2.Lib.BitWord
import Xdp2.Lib.SetBits
import Xdp2.Lib.WordOrder
import Xdp2.Lib.Ring
import Xdp2.Lib.Chain
import Xdp2.Lib.ListEnd
import Xdp2.Lib.Chunks
import Xdp2.Lib.Ranked
import Xdp2.Lib.Memory
import Xdp2.Lib.Reading
import Xdp2.Lib.Locked
import Xdp2.Lib.Abut
import Xdp2.Lib.OnesComplement
import Xdp2.Parser.Types
import Xdp2.Parser.Sub
import Xdp2.Parser.Walk
import Xdp2.Parser.Fast
import Xdp2.Parser.FastSub
import Xdp2.Parser.Log
import Xdp2.Parser.SubSpec
import Xdp2.Parser.VisitSpec
import Xdp2.Parser.Bounds
import Xdp2.Parser.Frames
import Xdp2.Parser.Encap
import Xdp2.Parser.NodeLimit
import Xdp2.Parser.Exit
import Xdp2.Parser.Stop
import Xdp2.Parser.FastEquiv
import Xdp2.Parser.Generated
import Xdp2.Parser.GeneratedEquiv
import Xdp2.Parser.Select
import Xdp2.Parser.OneTlv
import Xdp2.Parser.Tiles
import Xdp2.Parser.FlagFields
import Xdp2.Parser.Elements
import Xdp2.Parser.FastValid
import Xdp2.Parser.LenStop
import Xdp2.Pvbuf.Types
import Xdp2.Pvbuf.Mgr
import Xdp2.Pvbuf.Pop
import Xdp2.Pvbuf.Insert
import Xdp2.Pvbuf.Wf
import Xdp2.Pvbuf.Owns
import Xdp2.Pvbuf.Ops
import Xdp2.Pvbuf.Compress
import Xdp2.Pvbuf.Trim
import Xdp2.Pvbuf.PopEntry
import Xdp2.Pvbuf.PopSpec
import Xdp2.Pvbuf.Place
import Xdp2.Pvbuf.InsertEntry
import Xdp2.Pvbuf.InsertSpec
import Xdp2.Pvbuf.InsertPvbuf
import Xdp2.Pvbuf.InsertPvbufSpec
import Xdp2.Pvbuf.Clone
import Xdp2.Pvbuf.Books
import Xdp2.Pvbuf.Iterate
import Xdp2.Pvbuf.CloneLeaf
import Xdp2.Pvbuf.CloneSpec
import Xdp2.Pvbuf.CloneFixup
import Xdp2.Pvbuf.Alloc
import Xdp2.Pvbuf.AllocSpec
import Xdp2.Pvbuf.Length
import Xdp2.Pvbuf.Runs
import Xdp2.Pvbuf.Stream
import Xdp2.Pvbuf.Append
import Xdp2.Pvbuf.AllocChain
import Xdp2.Pvbuf.AllocParams
import Xdp2.Pvbuf.Leaves
import Xdp2.Pvbuf.MakeIovecs
import Xdp2.Pvbuf.Copy
import Xdp2.Pvbuf.Checksum
import Xdp2.Pvbuf.Frame
import Xdp2.Pvbuf.Pull
import Xdp2.Pvbuf.PullSlots
import Xdp2.Pvbuf.PullSpec
import Xdp2.Pvbuf.PullUp
import Xdp2.Pvbuf.PullTail
import Xdp2.Pvpkt.Segment
import Xdp2.Pvpkt.Vector
import Xdp2.Pvpkt.Packets
import Xdp2.Pvpkt.SegmentLoop
import Xdp2.Pvpkt.SegmentSpec
import Xdp2.Dtable.Table
import Xdp2.Dtable.Idents
import Xdp2.Dtable.Live
import Xdp2.Dtable.Lookup
import Xdp2.Dtable.Stable
import Xdp2.Dtable.Plain
import Xdp2.ObjAlloc.Allocator
import Xdp2.ObjAlloc.FreeList
import Xdp2.Metadata.Consistentify
import Xdp2.Parselite.Parse
import Xdp2.Parselite.Steps
import Xdp2.Parselite.Ends
import Xdp2.Parselite.Within
import Xdp2.Bitmap.Find
import Xdp2.Bitmap.Iterate
import Xdp2.Bitmap.Layout
import Xdp2.Bitmap.Search
import Xdp2.Bitmap.Word
import Xdp2.Bitmap.Ops
import Xdp2.Bitmap.OpsSpec
import Xdp2.Bitmap.Fill
import Xdp2.Bitmap.Gen
import Xdp2.Bitmap.GenSpec
import Xdp2.Bitmap.GenOps
import Xdp2.Timer.Wheel
import Xdp2.Timer.Lists
import Xdp2.Timer.Sweep
import Xdp2.Timer.Ops
import Xdp2.Timer.Expire
import Xdp2.Timer.Pop
import Xdp2.Timer.Threads
import Xdp2.Fifo.Queue
import Xdp2.Fifo.Refine
import Xdp2.Fifo.Wakeup
import Xdp2.Fifo.Poll
import Xdp2.Accelerator.Pipe
import Xdp2.Accelerator.Pipeline
import Xdp2.Accelerator.Flow
import Xdp2.Switch.Cases
