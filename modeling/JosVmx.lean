import JosVmx.Boot.Bootmain
import JosVmx.Kern.TlbRun
import JosVmx.Kern.PageCheck
import JosVmx.Kern.RefCount
import JosVmx.Kern.BootAlloc
import JosVmx.Kern.TrapEntry
import JosVmx.Kern.DebugInfo
import JosVmx.Kern.Readline
import JosVmx.Hvm.WorldSwitch
import JosVmx.Hvm.WorldSwitch64
import JosVmx.Hvm.Cpuid
import JosVmx.Kern.FormatField
import JosVmx.Kern.FormatAccess
import JosVmx.Kern.Printf
import JosVmx.Kern.Strtol
import JosVmx.Kern.Keyboard
import JosVmx.Kern.MemMove
import JosVmx.Kern.SelfMap
import JosVmx.Kern.Monitor
import JosVmx.Hvm.SegBase
import JosVmx.Hvm.Vmrun
import JosVmx.Kern.Cprintf
import JosVmx.Kern.Session
import JosVmx.Kern.Typing
import JosVmx.Kern.AddressSwitch
