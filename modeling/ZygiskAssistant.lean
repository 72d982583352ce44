import ZygiskAssistant.Lib.InputStream
import ZygiskAssistant.Lib.CString
import ZygiskAssistant.Parsers.Mountinfo
import ZygiskAssistant.Parsers.MountinfoLine
import ZygiskAssistant.Modules.ShouldUnmount
import ZygiskAssistant.Modules.DoUnmount
import ZygiskAssistant.Modules.MountinfoRoundTrip
import ZygiskAssistant.Modules.UnmountExact
import ZygiskAssistant.Modules.KernelUnmount
import ZygiskAssistant.Modules.RootStability
import ZygiskAssistant.Utils.SafeStringCopy
import ZygiskAssistant.Modules.MrProp
import ZygiskAssistant.Lib.LabelledRun
import ZygiskAssistant.Lib.MountTree
import ZygiskAssistant.Lib.MountResolve
import ZygiskAssistant.Lib.MountRun
import ZygiskAssistant.Lib.MountExact
import ZygiskAssistant.Lib.MountMissed
import ZygiskAssistant.Lib.MountAgain
import ZygiskAssistant.Lib.MountDue
import ZygiskAssistant.Lib.MountLoop
import ZygiskAssistant.Modules.UnmountAgain
import ZygiskAssistant.Zygisk.Api
import ZygiskAssistant.Zygisk.Module
import ZygiskAssistant.Zygisk.CallbackOnce
import ZygiskAssistant.Zygisk.UnshareHook
import ZygiskAssistant.Zygisk.CompanionFd
import ZygiskAssistant.Companion.System
import ZygiskAssistant.Companion.Invariants
import ZygiskAssistant.Companion.Isolation
import ZygiskAssistant.Companion.Handshake
import ZygiskAssistant.Companion.Messages
import ZygiskAssistant.Companion.Rules
import ZygiskAssistant.Companion.Progress
import ZygiskAssistant.Companion.Liveness
import ZygiskAssistant.Companion.Ownership
import ZygiskAssistant.Companion.AppTable
import ZygiskAssistant.Companion.Atomic
import ZygiskAssistant.Companion.Flawless
import ZygiskAssistant.Companion.Recovery
import ZygiskAssistant.Lib.Numerals
import ZygiskAssistant.Parsers.Maps
import ZygiskAssistant.Parsers.MountOptions
import ZygiskAssistant.Parsers.MountinfoLines
import ZygiskAssistant.Zygisk.PltRestore
import ZygiskAssistant.Parsers.MapsRoundTrip
import ZygiskAssistant.Atexit.Machine
import ZygiskAssistant.Lib.DetRun
import ZygiskAssistant.Lib.LifoLog
import ZygiskAssistant.Atexit.Table
import ZygiskAssistant.Atexit.Finalize
import ZygiskAssistant.Lib.FlagTable
import ZygiskAssistant.Modules.Remount
import ZygiskAssistant.Lib.MountMap
import ZygiskAssistant.Modules.Passes
import ZygiskAssistant.Modules.HideZygisk
import ZygiskAssistant.Lib.Grep
import ZygiskAssistant.Lib.ShellWords
import ZygiskAssistant.Template.PostFsData
import ZygiskAssistant.Template.DiscoveryExact
import ZygiskAssistant.Lib.KeyedUpdates
import ZygiskAssistant.Template.CommonFunc
import ZygiskAssistant.Template.EarlyProps
import ZygiskAssistant.Template.Service
import ZygiskAssistant.Zygisk.Lifecycle
import ZygiskAssistant.Zygisk.Descriptors
import ZygiskAssistant.Lib.Accepted
import ZygiskAssistant.Modules.MountinfoImage
import ZygiskAssistant.Parsers.MapsImage
import ZygiskAssistant.Modules.MrPropRuns
import ZygiskAssistant.Atexit.Threads
import ZygiskAssistant.Atexit.ThreadsSafe
