import PrioProcessor.Core.Lts
import PrioProcessor.Core.Effect
import PrioProcessor.Core.Base64
import PrioProcessor.L1Prio.Libprio
import PrioProcessor.Core.Table
import PrioProcessor.L1Prio.Plain
import PrioProcessor.L2Commands.Rounds
import PrioProcessor.L2Commands.Cli
import PrioProcessor.L3Pipeline.CliAgreement
import PrioProcessor.L2Commands.Udf
import PrioProcessor.L2Commands.Spark
import PrioProcessor.L3Pipeline.AggregateEquiv
import PrioProcessor.L3Pipeline.SparkEndToEnd
import PrioProcessor.L3Pipeline.Partitioning
import PrioProcessor.Bugs.JoinMultiplicity
import PrioProcessor.Bugs.MalformedLine
import PrioProcessor.Bugs.EmptyBatch
import PrioProcessor.Bugs.UncountedShares
import PrioProcessor.L2Commands.CliPoints
import PrioProcessor.Bugs.SharedStream
import PrioProcessor.Core.ObjectStore
import PrioProcessor.L4Bucket.Paths
import PrioProcessor.L4Bucket.Process
import PrioProcessor.L4Bucket.SingleRun
import PrioProcessor.L4Bucket.HandOff
import PrioProcessor.Bugs.MissingBatch
import PrioProcessor.L4Bucket.Rerun
import PrioProcessor.Bugs.StaleMarker
import PrioProcessor.L5Origin.Staging
import PrioProcessor.L5Origin.Pairing
import PrioProcessor.Bugs.StalePartition
import PrioProcessor.Bugs.NoPayload
import PrioProcessor.L4Bucket.Objects
import PrioProcessor.Core.Lazy
import PrioProcessor.L1Prio.Wrapper
import PrioProcessor.Bugs.Repickled
import PrioProcessor.Core.Python
import PrioProcessor.L5Origin.Origins
import PrioProcessor.L5Origin.Indexing
import PrioProcessor.Bugs.UnevenParts
import PrioProcessor.L5Origin.Attribution
import PrioProcessor.L2Commands.Encode
import PrioProcessor.Bugs.EncodedLabels
import PrioProcessor.Core.Lockstep
import PrioProcessor.Core.Mailbox
import PrioProcessor.L6Exchange.Consume
import PrioProcessor.L6Exchange.Exchange
import PrioProcessor.L6Exchange.Agreement
import PrioProcessor.L6Exchange.Completion
import PrioProcessor.L6Exchange.Fifo
import PrioProcessor.L6Exchange.Main
import PrioProcessor.L6Exchange.Service
import PrioProcessor.L7Telemetry.Staged
import PrioProcessor.L7Telemetry.Batch
import PrioProcessor.L7Telemetry.Telemetry
import PrioProcessor.Core.Backoff
import PrioProcessor.L4Bucket.Timed
import PrioProcessor.L4Bucket.Patience
import PrioProcessor.L3Pipeline.CliEndToEnd
import PrioProcessor.L7Telemetry.Integration
