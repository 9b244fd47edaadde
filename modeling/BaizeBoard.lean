import BaizeBoard.Library.Transition
import BaizeBoard.Libc.Vprintf
import BaizeBoard.Libc.VprintfRun
import BaizeBoard.Libc.PrintCount
import BaizeBoard.Libc.Vsnprintf
import BaizeBoard.Libc.Truncation
import BaizeBoard.Libc.FieldWidth
import BaizeBoard.Libc.Walk
import BaizeBoard.Libc.ScanEnd
import BaizeBoard.Libc.Agreement
import BaizeBoard.Libc.PrintersAgree
import BaizeBoard.Platform.Print
import BaizeBoard.Framework.Bus
import BaizeBoard.Framework.BusLog
import BaizeBoard.Framework.Delivery
import BaizeBoard.Framework.Example
import BaizeBoard.Framework.FeatureMacro
import BaizeBoard.Framework.FeatureNames
import BaizeBoard.Framework.Init
import BaizeBoard.StackLevel
import BaizeBoard.Libc.SignedRange
import BaizeBoard.Libc.VprintfRange
import BaizeBoard.Libc.VsnprintfRange
import BaizeBoard.Libc.Strtol
import BaizeBoard.Libc.ReadBack
import BaizeBoard.Libc.ReadStored
import BaizeBoard.Libc.Memset
import BaizeBoard.Libc.MemsetA32
import BaizeBoard.Libc.MemsetA64
import BaizeBoard.Libc.SetjmpA64
import BaizeBoard.Libc.Strtok
import BaizeBoard.Libc.Endian
import BaizeBoard.Libc.Memmove
import BaizeBoard.Libc.Strchr
import BaizeBoard.Libc.Strcmp
import BaizeBoard.Libc.Strlcat
import BaizeBoard.Libc.Puts
import BaizeBoard.Libc.Joined
