import SysteMoC.MultiplexDelivery
import SysteMoC.FiringCovered
import SysteMoC.Destruction
import SysteMoC.TokenId
import SysteMoC.Multicast
import SysteMoC.Hooks
import SysteMoC.Priority
import SysteMoC.Registration
import SysteMoC.MultiplexConsume
import SysteMoC.Register
import SysteMoC.EventQueueSound
import SysteMoC.GeneratorRates
import SysteMoC.GeneratorTopology
import SysteMoC.TransformTraffic
import SysteMoC.SngDumperSound
import SysteMoC.AncestorCodes
import SysteMoC.GuardMeaning
import SysteMoC.JunctionPaths
import SysteMoC.PeriodicRuns
import SysteMoC.ChanAdapter
import SysteMoC.GeneratorClusters
import SysteMoC.GeneratorDelays
import SysteMoC.GeneratorBudget
import SysteMoC.GeneratorEnds
import SysteMoC.MoveTokens
import SysteMoC.Activation
import SysteMoC.Evaluation
import SysteMoC.ResetFiring
import SysteMoC.Completion
import SysteMoC.HierarchicalNetwork
import SysteMoC.CoupledRuns
import SysteMoC.MultiplexMerge
import SysteMoC.SngDumperLoads
