import Colix.Arch.InterruptTable
import Colix.Arch.SegmentTable
import Colix.Arch.SystemCallReturn
import Colix.Arch.UserEntry
import Colix.Arch.VgaPage
import Colix.Boot.BootImage
import Colix.Boot.LargestRegion
import Colix.Boot.TagWalks
import Colix.Elf.LoaderBounds
import Colix.Initrd.FileRead
import Colix.Initrd.ReadBounds
import Colix.Ipc.Leaks
import Colix.Ipc.SlotExclusion
import Colix.Ipc.Stranded
import Colix.Lib.SharedLine
import Colix.Lib.FormatScan
import Colix.Mm.FreePagedir
import Colix.Mm.LargeRequests
import Colix.Mm.PmmRegion
import Colix.Mm.TableRuns
import Colix.Mm.UserAccess
import Colix.Proc.AnswerTimes
import Colix.Proc.CachedTranslations
import Colix.Proc.CreatedPages
import Colix.Proc.CreationOrder
import Colix.Proc.EntryStack
import Colix.Proc.InterruptDelivery
import Colix.Proc.InterruptFlag
import Colix.Proc.Isolation
import Colix.Proc.KernelBase
import Colix.Proc.RoundRobin
import Colix.Proc.Sleep
import Colix.Proc.StackOwners
import Colix.Proc.TimerAcknowledge
