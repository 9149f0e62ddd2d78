import Registrar.DeleteIssuance
import Registrar.IouBalances
import Registrar.MptBalances
import Registrar.SweepResume
import Registrar.ExactBalances
import Registrar.Written
import Registrar.Governor
import Registrar.JobClaims
import Registrar.AdminLock
import Registrar.IngestSchedule
import Registrar.HistoryLinks
import Registrar.Discovery
import Registrar.GatewayIsolation
import Registrar.Rederivation
import Registrar.Scans
import Registrar.CoveredBalances
import Registrar.TailProgress
import Registrar.HealTail
import Registrar.AsOfLedger
import Registrar.HolderPages
import Registrar.AccountTx
import Registrar.Periods
import Registrar.Undecodable
import Registrar.GapReports
import Registrar.EventQueue
import Registrar.ClioClient
import Registrar.PageMarkers
import Registrar.BatchWriter
import Registrar.Traversal
import Registrar.Rescan
import Registrar.Restarts
import Registrar.FailClosed
import Registrar.HandOver
import Registrar.TrueBalances
import Registrar.Heals
import Registrar.Migrations
import Registrar.Transactions
import Registrar.Serve
import Registrar.AdminSessions
import Registrar.Discover
import Registrar.Deletions
import Registrar.Remnants
import Registrar.Subscription
