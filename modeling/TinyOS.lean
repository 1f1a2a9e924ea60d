import TinyOS.Lib.Transition
import TinyOS.Lib.Ring
import TinyOS.Lib.Tally
import TinyOS.Util.RList
import TinyOS.Sched.Model
import TinyOS.Sched.Queues
import TinyOS.Sched.Invariant
import TinyOS.Sched.Sections
import TinyOS.Sched.Safety
import TinyOS.Sched.Timeouts
import TinyOS.Sched.Exit
import TinyOS.Kernel.Streams
import TinyOS.Kernel.Syscalls
import TinyOS.Kernel.Family
import TinyOS.Kernel.Table
import TinyOS.Kernel.Refs
import TinyOS.Kernel.Reserve
import TinyOS.Kernel.Ledger
import TinyOS.Kernel.Invariant
import TinyOS.Kernel.Exit
import TinyOS.Kernel.Steps
import TinyOS.Kernel.Boot
import TinyOS.Kernel.Safety
import TinyOS.Util.Argv
import TinyOS.Util.Loops
import TinyOS.Util.Handled
import TinyOS.Kernel.Execute
import TinyOS.Kernel.Frame
import TinyOS.Kernel.ProcInfo
import TinyOS.Kernel.Transfer
import TinyOS.Kernel.Isolation
import TinyOS.CC.Safety
import TinyOS.Terminal.Safety
import TinyOS.Sched.Lifetime
import TinyOS.Bios.Halt
import TinyOS.Bios.Handlers
import TinyOS.Bios.Safety
import TinyOS.Spin.Safety
import TinyOS.Symposium.Safety
import TinyOS.Bios.HaltedList
import TinyOS.Shell.WordCount
import TinyOS.Shell.ProcessLine
import TinyOS.Shell.Remote
import TinyOS.Testing.ParseIntList
import TinyOS.Bios.VmSafety
import TinyOS.Bios.Serial
import TinyOS.Kernel.Tasked
import TinyOS.Kernel.Shutdown
import TinyOS.Testing.TermProxy
import TinyOS.Terminal.Emulator
import TinyOS.Sched.Fairness
import TinyOS.Kernel.UserProgram
import TinyOS.Shell.Streams
import TinyOS.Testing.RunTest
