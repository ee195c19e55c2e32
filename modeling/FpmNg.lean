import FpmNg.ProxyRead
import FpmNg.FcgiEncode
import FpmNg.Budget
import FpmNg.Truncation
import FpmNg.HttpHandoff
import FpmNg.UpgradeEnd
import FpmNg.HttpRoute
import FpmNg.TlsReload
import FpmNg.PackRun
import FpmNg.Payload
import FpmNg.Metrics
import FpmNg.MetricsReload
import FpmNg.CrashBackoff
import FpmNg.SupervisorOneShot
import FpmNg.AcmeChallengeRun
import FpmNg.ConnCap
import FpmNg.WorkerOneResponse
import FpmNg.WorkerQueue
import FpmNg.TlsSnapshot
import FpmNg.AcmeAccount
import FpmNg.AcmeRenewal
import FpmNg.AcmeOrder
import FpmNg.ReloadGuardRun
import FpmNg.ClassicOneResponse
import FpmNg.AcceptGateRun
import FpmNg.HttpChunks
import FpmNg.ScriptPath
import FpmNg.HeaderCgi
import FpmNg.AddressList
import FpmNg.GatewayRespawn
import FpmNg.UserIni
