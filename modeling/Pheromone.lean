import Pheromone.BySetReplication
import Pheromone.BatchReplication
import Pheromone.RequestRuns
import Pheromone.ForwardedArguments
import Pheromone.TriggeredArguments
import Pheromone.ManyToOneJoin
import Pheromone.CallAttribution
import Pheromone.InformedWorkers
import Pheromone.DataAddresses
import Pheromone.CachedValues
import Pheromone.DurableWrites
import Pheromone.DelayBounds
import Pheromone.ExecutorIsolation
import Pheromone.ClientTriggers
import Pheromone.ReplicaFaithfulness
import Pheromone.RegistrationIdempotence
import Pheromone.BucketOwnership
import Pheromone.BucketRoutes
import Pheromone.DeletedTriggers
import Pheromone.OperationResponses
import Pheromone.RedundantRounds
import Pheromone.BySetReruns
import Pheromone.SessionSlots
import Pheromone.BatchScheduling
import Pheromone.WriteTimestamps
import Pheromone.ObjectNames
import Pheromone.GroupRounds
import Pheromone.BufferedStreams
import Pheromone.ArgumentModes
import Pheromone.ObjectSizes
import Pheromone.PlainEncodings
import Pheromone.PrefixedMessages
import Pheromone.ReportedCapacity
import Pheromone.DataLocalRouting
import Pheromone.RerunRounds
import Pheromone.IoThreads
import Pheromone.CoordinatorAssignment
import Pheromone.ObjectIdentity
import Pheromone.CoordinatorProgress
import Pheromone.WorkerRefinement
