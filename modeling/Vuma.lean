import Vuma.Codegen.ResolvePhis
import Vuma.Opt.ConstantFold
import Vuma.Opt.Cse
import Vuma.Opt.InlineCorrect
import Vuma.Opt.LicmCorrect
import Vuma.Opt.CrossConst
import Vuma.Scg.MergeCorrect
import Vuma.Ive.LinearCorrect
import Vuma.Package.ResolverCorrect
import Vuma.Ive.PmtCorrect
import Vuma.Ive.FlowCorrect
import Vuma.Msg.SnapshotRebuild
import Vuma.Codegen.Riscv64Correct
import Vuma.Codegen.Coalesce
import Vuma.Opt.WholeProgramDce
import Vuma.Codegen.StackLayout
import Vuma.Opt.DeadState
import Vuma.Codegen.SchedulerPriority
import Vuma.Opt.ProofScheduleCorrect
import Vuma.Opt.AliasSound
import Vuma.Opt.EqSatOrder
import Vuma.Runtime.Arena
import Vuma.Codegen.RegCacheCorrect
import Vuma.Codegen.RegAllocHome
import Vuma.Bd.UnifyCommon
import Vuma.Codegen.Monomorphize
import Vuma.Codegen.LoopDepth
import Vuma.Bd.SolverRun
import Vuma.Bd.LayoutCorrect
import Vuma.Bd.Manifold
import Vuma.Package.TomlCorrect
import Vuma.Package.RegistryIndex
import Vuma.Scg.EditScript
import Vuma.Scg.GraphMerge
import Vuma.Ive.SessionDual
import Vuma.Scg.DeadCode
import Vuma.Scg.UseAfterFree
import Vuma.Ive.VerificationCache
import Vuma.Ive.SessionApart
import Vuma.Scg.DeserializeCorrect
import Vuma.Msg.Provenance
import Vuma.Ipc.WorkerBudget
import Vuma.Ipc.DelegationChain
import Vuma.Ipc.Crypto
import Vuma.Ipc.Sha256Indexed
import Vuma.Codegen.TripCountCorrect
import Vuma.Parser.ImportCycles
import Vuma.Parser.ExprDepthCorrect
import Vuma.Ipc.Checkpoint
