import Nehcpu.Lib.Machine
import Nehcpu.Cpu.AddressMap
import Nehcpu.Cpu.Decode
import Nehcpu.Cpu.Execute
import Nehcpu.Cpu.Bus
import Nehcpu.Cpu.BusOnce
import Nehcpu.Cpu.ByteMemory
import Nehcpu.Cpu.Forwarding
import Nehcpu.Cpu.Isa
import Nehcpu.Cpu.IsaCorrect
import Nehcpu.Cpu.Precise
import Nehcpu.Cpu.DelaySlots
import Nehcpu.Cpu.SoftInterrupts
import Nehcpu.Cpu.TlbFaults
import Nehcpu.Cpu.Uart
import Nehcpu.Cpu.SerialLink
import Nehcpu.Cpu.UserMode
import Nehcpu.Cpu.ZeroRegister
import Nehcpu.Decaf.ArraySafe
import Nehcpu.Decaf.Division
import Nehcpu.Decaf.MipsAsm
import Nehcpu.Decaf.NewObject
import Nehcpu.Decaf.ReadLine
import Nehcpu.Decaf.RegAllocOk
import Nehcpu.Decaf.TypeTest
import Nehcpu.Decaf.StackFrames
import Nehcpu.Decaf.Inheritance
import Nehcpu.Decaf.TranslateOk
import Nehcpu.Decaf.Booleans
import Nehcpu.Kernel.Areas
import Nehcpu.Kernel.MapRange
import Nehcpu.Kernel.Coherence
import Nehcpu.Kernel.FrameCopy
import Nehcpu.Kernel.SemaphoreOk
import Nehcpu.Kernel.BuddyOk
import Nehcpu.Kernel.SlabOk
import Nehcpu.Kernel.SfsAccount
import Nehcpu.Kernel.TlbRefill
import Nehcpu.Kernel.Timers
import Nehcpu.Kernel.Console
import Nehcpu.Kernel.Trap
import Nehcpu.Kernel.ReclaimOk
import Nehcpu.Kernel.FileTableOk
import Nehcpu.Kernel.CopyString
import Nehcpu.Kernel.Pids
import Nehcpu.Kernel.Mksfs
import Nehcpu.Kernel.SfsAppend
import Nehcpu.Kernel.FreshPages
import Nehcpu.Kernel.ForkOk
import Nehcpu.Kernel.PrintfmtOk
import Nehcpu.Kernel.Oversized
import Nehcpu.Kernel.VfsLookup
import Nehcpu.Kernel.Namefile
import Nehcpu.Kernel.SysfileIo
import Nehcpu.Kernel.SysfileFiles
import Nehcpu.Kernel.RbTreeOk
import Nehcpu.Kernel.RbWalk
import Nehcpu.Kernel.Fairness
import Nehcpu.Decaf.Tree
