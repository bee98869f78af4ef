import Hlos.Gdt.Gdt
import Hlos.Kernel.SymbolNames
import Hlos.Mm.BuddyCalls
import Hlos.Mm.FrameArray
import Hlos.Mm.HeapRequests
import Hlos.Mm.MemoryMap
import Hlos.Mm.UsableFrames
import Hlos.Mm.References
import Hlos.Mm.PageMap
import Hlos.Boot.Init
import Hlos.Drivers.Console
import Hlos.Lib.TextLines
import Hlos.Drivers.Screen
import Hlos.Lib.Scan
import Hlos.Libs.Vsprintf
import Hlos.Lib.BoundedOutput
import Hlos.Libs.Conversions
import Hlos.Libs.Vsnprintf
import Hlos.Libs.Directives
import Hlos.Libs.Qualifiers
import Hlos.Lib.Numeral
import Hlos.Libs.Digits
import Hlos.Libs.NumberOutput
import Hlos.Libs.DecimalOutput
import Hlos.Libs.FormatRun
import Hlos.Libs.FormatText
import Hlos.Libs.Truncation
import Hlos.Lib.Extents
import Hlos.Mm.Placement
import Hlos.Mm.MapWalk
import Hlos.Mm.HeapStart
import Hlos.Kernel.SymbolBounds
import Hlos.Drivers.Cursor
import Hlos.Lib.Noted
import Hlos.Libs.Reciprocals
import Hlos.Libs.RadixOutput
import Hlos.Libs.FormatBounds
import Hlos.Mm.HeapRestored
import Hlos.Include.ListWalks
import Hlos.Idt.Service
import Hlos.Mm.KernelMemory
import Hlos.Libs.StringTokens
import Hlos.Libs.StringCopies
import Hlos.Libs.StringScans
import Hlos.Drivers.Printk
import Hlos.Libs.FormatMeaning
import Hlos.Drivers.Timer
import Hlos.Idt.Unhandled
import Hlos.Kernel.Panic
