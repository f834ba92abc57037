import Octos.Fleet.Reservation
import Octos.Fleet.Verdict
import Octos.Fleet.Escalation
import Octos.Fleet.Budget
import Octos.Fleet.Delivery
import Octos.Fleet.Isolation
import Octos.Pipeline.DagVerdict
import Octos.Pipeline.WalkRuns
import Octos.Pipeline.Accounting
import Octos.Agent.RepairValid
import Octos.Bus.CronFires
import Octos.Agent.Ssrf
import Octos.Memory.OpsAuthority
import Octos.BuildCache.PoolExclusive
import Octos.Bus.TranscriptRewrite
import Octos.Fleet.DigestBudget
import Octos.Agent.TaskShared
import Octos.Agent.FailureSignals
import Octos.Memory.ExpiryCrash
import Octos.Ui.LedgerCursors
import Octos.Ui.EnvelopeBarrier
import Octos.Ledger.ClearSettle
import Octos.Ledger.Tasks
import Octos.Fleet.ReadyPaths
import Octos.Fleet.Recovery
import Octos.Fleet.PlanCycle
import Octos.Pipeline.DotMentions
import Octos.Pipeline.ConditionRender
import Octos.Pipeline.DotLayout
import Octos.Pipeline.Depth
import Octos.Agent.CallIds
import Octos.Tools.PatchRoundTrip
import Octos.Tools.DiffApply
import Octos.Tools.ReplacerStages
import Octos.Bus.FileHandle
import Octos.Bus.Resume
import Octos.Agent.CarryForward
import Octos.Bus.Coalesce
import Octos.Agent.SummaryBudget
import Octos.Bus.PromptPreview
import Octos.Bus.SessionMerge
import Octos.Core.HeadTail
import Octos.Agent.LoopDetect
import Octos.Core.SafeFilename
import Octos.Pipeline.EscapedBudget
import Octos.Llm.Catalog
import Octos.Agent.Alternatives
import Octos.Fleet.WriteFence
import Octos.Ui.LogShortcut
import Octos.Memory.Readable
import Octos.Tools.RollingRows
import Octos.Core.SecretMemo
import Octos.Agent.PlanCarry
import Octos.Tools.WriteGuard
