import Thumos.Lfs.Files
import Thumos.Kernel.SlabRuns
import Thumos.Vfs.RamFsRuns
import Thumos.Vfs.Resolve
import Thumos.Kernel.Lifecycle
import Thumos.Kernel.Scheduler
import Thumos.Kernel.MemoryRuns
import Thumos.Security.BfuTimer
import Thumos.Security.Audit
import Thumos.Security.Clock
import Thumos.Modem.IdentityFilter
import Thumos.Security.Secrets
import Thumos.Storage.Encryption
import Thumos.Boot.SecureBoot
import Thumos.Kernel.SignalFrame
import Thumos.Krypta.Conversation
import Thumos.Matrix.MegolmRuns
import Thumos.Net.DnsBlocking
import Thumos.Net.DnsResolver
import Thumos.Net.HttpResponse
import Thumos.Metaxu.Exchange
import Thumos.Kernel.Csprng
import Thumos.Kernel.Supervisor
import Thumos.Security.Modes
import Thumos.Kernel.PipeRuns
import Thumos.Sema.Cell
import Thumos.Time.Calendar
import Thumos.Kelyphos.Wmt
import Thumos.Modem.Telephony
