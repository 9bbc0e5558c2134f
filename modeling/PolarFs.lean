import PolarFs.Journal.OnlineRecovery
import PolarFs.Journal.Promotion
import PolarFs.Journal.Freshness
import PolarFs.Lease.SharedLease
import PolarFs.File.FailedWrite
import PolarFs.Journal.Intersection
import PolarFs.Lease.HostidLock
import PolarFs.Lease.LoadFailure
import PolarFs.Lease.SelfFence
import PolarFs.Dir.ExtName
import PolarFs.File.BlkMap
import PolarFs.Lease.BadSectors
import PolarFs.Meta.TxOps
import PolarFs.Dir.NameCacheMap
import PolarFs.Dir.NameiResolve
import PolarFs.Dir.Readdir
import PolarFs.File.BlkIoExact
import PolarFs.File.FdTable
import PolarFs.File.FileRelease
import PolarFs.Journal.LogFile
import PolarFs.Journal.WorkGroups
import PolarFs.Lease.BlockedMount
import PolarFs.Meta.ReplayInodes
import PolarFs.Meta.TxAbort
import PolarFs.Tools.Growfs
import PolarFs.File.InFlight
import PolarFs.Dir.NameCoherence
import PolarFs.Dir.InodeLru
import PolarFs.Journal.Assertions
