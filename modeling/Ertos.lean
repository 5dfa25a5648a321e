import Ertos.Basis.Transition
import Ertos.Basis.Simulation
import Ertos.Basis.Linked
import Ertos.Basis.Ring
import Ertos.Basis.Custody
import Ertos.Basis.OnesComplement
import Ertos.Basis.Traced
import Ertos.Basis.Service
import Ertos.Basis.WriteOnce
import Ertos.Basis.Copy
import Ertos.Basis.Words
import Ertos.Basis.Arm
import Ertos.Basis.Sections
import Ertos.Basis.Spool
import Ertos.Basis.Crc
import Ertos.Basis.Exclusive
import Ertos.Basis.Erasable
import Ertos.Lib.Divide
import Ertos.Lib.Memory
import Ertos.Lib.String
import Ertos.Lib.Strncpy
import Ertos.Lib.Decimal
import Ertos.Lib.Hexadecimal
import Ertos.Lib.Printf
import Ertos.Sys.List
import Ertos.Sys.Bfifo
import Ertos.Sys.Queue
import Ertos.Kernel.Mem
import Ertos.Kernel.MemInit
import Ertos.Kernel.MemPartition
import Ertos.Kernel.MemSize
import Ertos.Kernel.Smalloc
import Ertos.Kernel.Proc
import Ertos.Kernel.Sched
import Ertos.Kernel.Syscall
import Ertos.Kernel.Machine
import Ertos.Kernel.Active
import Ertos.Kernel.Killed
import Ertos.Kernel.Orphan
import Ertos.Kernel.Release
import Ertos.Kernel.Checks
import Ertos.Kernel.RoundRobin
import Ertos.Kernel.Boot
import Ertos.Kernel.Alarm
import Ertos.Kernel.Wakeups
import Ertos.Kernel.Dispatch
import Ertos.Kernel.Irq
import Ertos.Kernel.Sem
import Ertos.Kernel.SemExclusive
import Ertos.Kernel.Stack
import Ertos.Arch.Entry
import Ertos.Arch.Board
import Ertos.Arch.Switch
import Ertos.Arch.Abort
import Ertos.Arch.Mmu
import Ertos.Lib.Syscall
import Ertos.Dev.Uart
import Ertos.Dev.UartLength
import Ertos.Dev.Console
import Ertos.Dev.Reader
import Ertos.Dev.Hub
import Ertos.Dev.HubDesc
import Ertos.Dev.Stdio
import Ertos.Dev.Gets
import Ertos.Dev.UsbAttach
import Ertos.Dev.UsbCrc
import Ertos.Net.Pkt
import Ertos.Net.PktBytes
import Ertos.Dev.GetsEdit
import Ertos.Net.PktAdd
import Ertos.Net.Eth
import Ertos.Dev.EthRx
import Ertos.Net.Arp
import Ertos.Net.Route
import Ertos.Net.RouteTable
import Ertos.Net.Ip
import Ertos.Net.Terminate
import Ertos.Net.Cksum
import Ertos.Net.Frame
import Ertos.Net.Echo
import Ertos.Net.Disposal
import Ertos.Net.Leak
import Ertos.Net.Oversize
import Ertos.Net.Lengths
import Ertos.Net.Framed
import Ertos.Net.ArpMsg
import Ertos.Net.ArpResolve
import Ertos.Net.ArpCache
import Ertos.Net.Effects
import Ertos.Net.Order
import Ertos.Dev.EthTx
import Ertos.Basis.Bits
import Ertos.Basis.LinearCode
import Ertos.Dev.Hamming
import Ertos.Dev.HammingCorrect
import Ertos.Dev.Nand
import Ertos.Dev.NandFlash
import Ertos.Dev.NandPage
import Ertos.Dev.NandErase
import Ertos.Dev.NandStore
import Ertos.Kernel.Timekeeping
import Ertos.User.Console
import Ertos.User.Dispatch
