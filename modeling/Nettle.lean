import Nettle.InPlace
import Nettle.Slots
import Nettle.BinaryField
import Nettle.ErasureCode
import Nettle.Galois
import Nettle.GaloisField
import Nettle.RsCode
import Nettle.RsDetection
import Nettle.Rs
import Nettle.RsBlock
import Nettle.RsSane
import Nettle.RestoredSizes
import Nettle.RsRestore
import Nettle.RsRoundTrip
import Nettle.Rounding
import Nettle.Hashmap
import Nettle.HashmapTidy
import Nettle.HashmapLaws
import Nettle.DoublyLinked
import Nettle.LinkedHashmap
import Nettle.LinkedHashmapLaws
import Nettle.FiniteMap
import Nettle.HashmapRuns
import Nettle.RecencyList
import Nettle.LinkedLrumap
import Nettle.LinkedLrumapLaws
import Nettle.DuplicatePackets
import Nettle.Lists
import Nettle.Lrumap
import Nettle.LrumapLaws
import Nettle.TableLevels
import Nettle.SmallTables
import Nettle.LittleEndian
import Nettle.NtFec
import Nettle.NtRsFec
import Nettle.NtDupFec
import Nettle.EncoderStream
import Nettle.EncoderBlocks
import Nettle.DecoderBuffers
import Nettle.DecoderSafety
import Nettle.TunnelPackets
import Nettle.TunnelReceiver
import Nettle.BlockAlone
import Nettle.TunnelSoundness
import Nettle.TunnelDelivery
import Nettle.TunnelNetwork
import Nettle.DupTunnel
import Nettle.ProcessorSteps
import Nettle.TunnelEnds
import Nettle.Grouping
import Nettle.DecoderCalls
import Nettle.DecoderAccounts
import Nettle.Metric
import Nettle.MetricWindow
import Nettle.PriorityQueue
import Nettle.HeapLaws
import Nettle.DispatcherLaws
import Nettle.Queue
import Nettle.QueueLaws
import Nettle.WorkerQueues
import Nettle.ListenerBuffers
import Nettle.NtProto
import Nettle.Udp
import Nettle.NtClient
import Nettle.NtProcessor
import Nettle.Utils
import Nettle.Sbuilder
import Nettle.NtDistributor
import Nettle.DistributorTable
import Nettle.DistributorPaths
import Nettle.NtListener
import Nettle.ApiMessages
import Nettle.ApiLoops
import Nettle.ApiAborts
import Nettle.ConfigLaws
import Nettle.EchoCache
import Nettle.TunnelCopies
import Nettle.TunnelThreads
import Nettle.ListenerTurns
import Nettle.ListenerAccounts
import Nettle.ProcessorAccounts
import Nettle.Perf
