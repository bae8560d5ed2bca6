import LineOS.HeapSafety
import LineOS.ZoneDrain
import LineOS.TtyPage
import LineOS.FaultFrames
import LineOS.CreateWrites
import LineOS.SleepInterrupt
import LineOS.TickRounds
import LineOS.SwitchRun
import LineOS.PrintfReads
import LineOS.TtyRace
import LineOS.Mutex
import LineOS.KmallocRace
import LineOS.HeapCounters
import LineOS.ProcessEnds
import LineOS.PreemptFlag
import LineOS.Interrupts
import LineOS.UnmapPage
import LineOS.AllocFit
import LineOS.BitmapBytes
import LineOS.KernelWindow
import LineOS.HeapFit
import LineOS.Digits
import LineOS.PrintfCount
import LineOS.RoundRobin
import LineOS.TtyCursor
import LineOS.PagedHeap
import LineOS.Dispatch
import LineOS.HeapChecker
import LineOS.HeapStore
import LineOS.Devices
import LineOS.ProcessRefines
import LineOS.ProcessTable
