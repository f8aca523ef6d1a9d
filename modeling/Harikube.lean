import Harikube.Proof.Compaction
import Harikube.Proof.CompactCall
import Harikube.Proof.MemoryWatch
import Harikube.Proof.Txn
import Harikube.Proof.ListRev
import Harikube.Proof.Put
import Harikube.Proof.Transaction
import Harikube.Proof.Broadcaster
import Harikube.Proof.Polled
import Harikube.Proof.Twin
import Harikube.Proof.OldValues
import Harikube.Proof.Cascade
import Harikube.Proof.Backends
import Harikube.Proof.Invisible
import Harikube.Proof.Ttl
import Harikube.Proof.CachedRev
import Harikube.Proof.Kafka
import Harikube.Sorted.Scan
import Harikube.Spec.Nats
import Harikube.Proof.NatsHistory
import Harikube.Proof.NatsList
import Harikube.Spec.NatsCalls
import Harikube.Proof.NatsCreate
import Harikube.Spec.NatsCompact
import Harikube.Proof.NatsCompact
import Harikube.Proof.WatchServer
import Harikube.Sorted.Page
import Harikube.Spec.Paging
import Harikube.Proof.Paging
import Harikube.Proof.Crd
import Harikube.Spec.Selectors
import Harikube.Proof.Selectors
import Harikube.Proof.LabelSelector
import Harikube.Proof.SelectorPages
import Harikube.Proof.InsertTx
import Harikube.Proof.Race
import Harikube.Proof.NatsLease
import Harikube.Proof.KeyCodec
import Harikube.Proof.Owners
import Harikube.Proof.CompactStart
import Harikube.Spec.Rows
import Harikube.Proof.Rows
import Harikube.Spec.Producers
import Harikube.Proof.Producers
import Harikube.Spec.CompactLoop
import Harikube.Proof.CompactLoop
import Harikube.Proof.PrevKv
import Harikube.Spec.SelectorSql
import Harikube.Proof.SelectorSql
import Harikube.Proof.SelectorShape
import Harikube.Proof.NatsRestart
import Harikube.Proof.Seed
import Harikube.Proof.T4
import Harikube.Spec.Resources
import Harikube.Proof.Resources
import Harikube.Spec.DryRun
import Harikube.Proof.DryRun
import Harikube.Spec.CrdRegistry
import Harikube.Proof.CrdRegistry
import Harikube.Proof.NatsWatch
import Harikube.Heap.Binary
import Harikube.Spec.ExpireHeap
import Harikube.Proof.ExpireHeap
import Harikube.Proof.NatsReady
import Harikube.Proof.NatsChain
import Harikube.Proof.ExpireWatcher
