import Tracemate.Lib.Runs
import Tracemate.Lib.CStr
import Tracemate.Circonus.SendThread
import Tracemate.Lib.Wildcard
import Tracemate.Squasher.Tree
import Tracemate.Squasher.Paths
import Tracemate.Squasher.Cardinality
import Tracemate.Lib.Pattern
import Tracemate.Squasher.Regexes
import Tracemate.Squasher.Matching
import Tracemate.Lib.Decimal
import Tracemate.Metric.Value
import Tracemate.Metric.Updates
import Tracemate.Metric.Flush
import Tracemate.Metric.Conservation
import Tracemate.Metric.Publication
import Tracemate.Metric.Interleaving
import Tracemate.Lib.Json
import Tracemate.Lib.Lmdb
import Tracemate.Document
import Tracemate.TransactionStore.Records
import Tracemate.TransactionStore.Operations
import Tracemate.TransactionStore.Contents
import Tracemate.TransactionStore.Marks
import Tracemate.TransactionStore.Colocation
import Tracemate.Lib.Outcome
import Tracemate.Lib.Base64
import Tracemate.Metric.Escape
import Tracemate.Team
import Tracemate.Url
import Tracemate.Process.Timestamp
import Tracemate.Process.Tags
import Tracemate.Process.Transaction
import Tracemate.Process.Span
import Tracemate.Process.MetricDocument
import Tracemate.Lib.JsonObject
import Tracemate.Process.Measurements
import Tracemate.Process.Layouts
import Tracemate.Process.Aggregate
import Tracemate.Process.Isolation
import Tracemate.Squasher.NestedSquash
import Tracemate.Squasher.Occurrences
import Tracemate.Squasher.Rewriting
import Tracemate.Squasher.RegexTable
import Tracemate.Squasher.Readding
import Tracemate.Metric.Schedules
import Tracemate.Process.ServiceTotals
import Tracemate.Process.ErrorCounts
import Tracemate.TransactionStore.Jaeger
import Tracemate.TransactionStore.Visibility
import Tracemate.TransactionStore.Lookups
import Tracemate.TransactionStore.Quiescence
import Tracemate.TransactionStore.Blooms
import Tracemate.TransactionStore.Pending
import Tracemate.TransactionStore.Writes
import Tracemate.TransactionStore.Libmtev
import Tracemate.TransactionStore.ReadWrites
import Tracemate.TransactionStore.Retention
import Tracemate.Lib.Scan
import Tracemate.TransactionStore.ChildScan
import Tracemate.Lib.Ownership
import Tracemate.TransactionStore.Ownership
import Tracemate.TransactionStore.Completeness
import Tracemate.Lib.Transactions
import Tracemate.TransactionStore.Transactions
import Tracemate.Metric.Types
import Tracemate.Process.Types
import Tracemate.Process.Fleet
import Tracemate.Url.Replacement
import Tracemate.Url.GenericPath
import Tracemate.Metric.EscapeLoop
import Tracemate.Lib.JsonParser
import Tracemate.Process.UrlMessage
import Tracemate.Process.RegexMessage
import Tracemate.Process.Windows
import Tracemate.Process.Rollups
import Tracemate.Metric.Documents
import Tracemate.Metric.Turns
import Tracemate.Template
import Tracemate.Lib.Endian
import Tracemate.Lib.Hexadecimal
import Tracemate.Jaeger.Ids
import Tracemate.Squasher.Buffers
import Tracemate.Lib.Heap
import Tracemate.Squasher.HeapNodes
import Tracemate.Squasher.HeapTrees
import Tracemate.Squasher.HeapMerges
import Tracemate.Squasher.HeapCalls
import Tracemate.Squasher.HeapInvariant
import Tracemate.TransactionStore.ChildEntries
import Tracemate.TransactionStore.RoundTrips
import Tracemate.Circonus.Delivery
import Tracemate.Lib.JsonNumber
import Tracemate.Metric.Readback
import Tracemate.Process.AggregateMessage
import Tracemate.Process.JaegerSpan
import Tracemate.Lib.BloomFilter
import Tracemate.TransactionStore.Filters
import Tracemate.Jaeger.Messages
import Tracemate.Jaeger.Traces
import Tracemate.Jaeger.Versions
import Tracemate.Lib.KeyedLog
import Tracemate.Kafka.Consume
import Tracemate.Kafka.OwnTopics
import Tracemate.TransactionStore.CleanJob
import Tracemate.Lib.Dialogue
import Tracemate.Visuals
