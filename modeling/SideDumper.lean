import SideDumper.ScheduleUnlink
import SideDumper.ScheduleMixed
import SideDumper.HcLists
import SideDumper.RemovalLists
import SideDumper.CopyBack
import SideDumper.OutData
import SideDumper.SubmitFailures
import SideDumper.PeriodicReturn
import SideDumper.RemovalFrames
import SideDumper.Teardown
import SideDumper.EdCounts
import SideDumper.FillFifo
import SideDumper.TdRuns
import SideDumper.DeviceUse
import SideDumper.TdLinks
import SideDumper.TdLists
import SideDumper.TdOwners
import SideDumper.Threads
import SideDumper.LockDiscipline
import SideDumper.WorkQueueMemory
import SideDumper.LocalMemFragments
import SideDumper.DumpReads
import SideDumper.DumpSize
import SideDumper.SettingsText
import SideDumper.SettingsRaces
import SideDumper.SettingsPrint
import SideDumper.RootHubRequests
import SideDumper.RootHubTimer
import SideDumper.ProcFs
import SideDumper.HexDump
import SideDumper.CdSections
import SideDumper.StringDump
import SideDumper.IntLoad
import SideDumper.IsoFrames
import SideDumper.QuadCopy
import SideDumper.DelQueue
import SideDumper.RemovalPasses
import SideDumper.TdCount
import SideDumper.BulkTds
import SideDumper.Probe
import SideDumper.LifeCycle
import SideDumper.DumpTraffic
import SideDumper.LocalMemGrowth
import SideDumper.Completions
import SideDumper.HcInterrupt
import SideDumper.SettleOrder
import SideDumper.LogReader
import SideDumper.SettingsSaved
import SideDumper.WireLog
import SideDumper.BufferBounds
import SideDumper.RequestOrder
import SideDumper.InterruptEnds
