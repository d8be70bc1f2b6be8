import AthenaPG.Optimizer.PlanSession
import AthenaPG.Optimizer.JopExtension
import AthenaPG.Lero.LeroExtension
import AthenaPG.Optimizer.JoinSearch
import AthenaPG.Partitioning.PruneSteps
import AthenaPG.Interfaces.FeExec
import AthenaPG.Nodes.TidBitmapIterate
import AthenaPG.Lib.IntegerSetRead
import AthenaPG.Lib.Knapsack
import AthenaPG.Utils.Guc
import AthenaPG.Common.PgLzCompress
import AthenaPG.Storage.SInvalDelivery
import AthenaPG.Storage.FreeSpaceMap
import AthenaPG.Storage.ShmMqFifo
import AthenaPG.Storage.DeadLockSound
import AthenaPG.Utils.NumericMul
import AthenaPG.Utils.NumericSort
import AthenaPG.Access.XLogReserve
import AthenaPG.Executor.NodeLimit
import AthenaPG.Utils.RangeLiteral
import AthenaPG.Utils.Datetime
import AthenaPG.Scripts.CandidateOracle
import AthenaPG.Storage.FsmSearch
import AthenaPG.Optimizer.NegateClause
import AthenaPG.Optimizer.GeqoEval
import AthenaPG.Contrib.LqueryOp
import AthenaPG.Bin.Permute
