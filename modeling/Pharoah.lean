import Pharoah.Lib.Prog
import Pharoah.Future.Basic
import Pharoah.Future.Run
import Pharoah.Future.Chain
import Pharoah.Future.Refine
import Pharoah.Future.Build
import Pharoah.Future.Order
import Pharoah.Future.Compare
import Pharoah.Future.Style
import Pharoah.Future.Rerun
import Pharoah.Future.Deferred
import Pharoah.Future.Schedule
import Pharoah.Future.Owners
import Pharoah.Future.Alive
import Pharoah.Future.Lost
import Pharoah.Lib.Leases
import Pharoah.Lib.SelfRef
import Pharoah.Storm.I2c
import Pharoah.Storm.Queue
import Pharoah.Storm.Timer
import Pharoah.Storm.Udp
import Pharoah.Storm.World
import Pharoah.Storm.Accounting
import Pharoah.Storm.TimerLife
import Pharoah.Storm.Cancel
import Pharoah.Storm.SocketIds
import Pharoah.Storm.FnOwners
import Pharoah.Storm.I2cLife
import Pharoah.Storm.Running
import Pharoah.Storm.IrqTable
import Pharoah.Storm.Dispatch
import Pharoah.Storm.OpenAtomic
import Pharoah.Storm.Refusals
import Pharoah.Interface.Sbrk
import Pharoah.Storm.I2cBuffers
import Pharoah.Future.Pieces
import Pharoah.Future.Once
import Pharoah.Future.Names
import Pharoah.Future.Places
import Pharoah.Future.Commute
import Pharoah.Future.Traits
import Pharoah.Lib.Cells
import Pharoah.Rtt.Buffer
import Pharoah.Rtt.Write
import Pharoah.Rtt.Channel
import Pharoah.Rtt.Progress
import Pharoah.Rtt.Control
import Pharoah.Rtt.Calls
import Pharoah.Rtt.Terminal
import Pharoah.Lib.Numeral
import Pharoah.Rtt.Format
import Pharoah.Rtt.Printf
import Pharoah.Rtt.Rendered
import Pharoah.Rtt.Chunks
import Pharoah.Rtt.Printed
import Pharoah.Rtt.Vprintf
import Pharoah.Interface.Blocks
