import Diversity.Programs.Containers.RingBuffer
import Diversity.Programs.Graph.DepthFirst
import Diversity.Programs.Graph.BreadthFirst
import Diversity.Programs.Graph.Build
import Diversity.Programs.Trees.Tree
import Diversity.Programs.Puzzles.Hanoi
import Diversity.Programs.Leveldb.Isolation
import Diversity.Programs.Leveldb.Refinement
import Diversity.Programs.Rocks.LiveHandles
import Diversity.Programs.Rocks.LostHandles
import Diversity.Programs.Rocks.Batches
import Diversity.Programs.Rocks.Retries
import Diversity.Programs.Rocks.CommandLine
import Diversity.Schemes.Bytes
import Diversity.Schemes.OnesComplement
import Diversity.Programs.Net.Checksum
import Diversity.Programs.Net.RawSocket
import Diversity.Programs.Net.Address
import Diversity.Programs.Echo.BatchServer
import Diversity.Programs.Serialization.Message
import Diversity.Programs.Serialization.ClosedLoop
import Diversity.Programs.Echo.Timestamp
import Diversity.Programs.Dpdk.PacketHandler
import Diversity.Programs.Dpdk.EchoReply
import Diversity.Programs.Sorts.MergeSort
import Diversity.Programs.Dpdk.GenPacket
import Diversity.Programs.Dpdk.SendBatch
import Diversity.Programs.Echo.Latency
import Diversity.Programs.Echo.Proxy
import Diversity.Programs.Sorts.ScratchMerge
import Diversity.Programs.Sorts.QuickSort
import Diversity.Programs.Trees.Traversal
import Diversity.Programs.Arrays.Duplication
import Diversity.Programs.Trees.PathSum
import Diversity.Programs.Arrays.Searching
import Diversity.Programs.Arrays.Interpolation
import Diversity.Programs.Arrays.SearchMatrix
import Diversity.Programs.Sorts.ElementarySorts
import Diversity.Programs.Rocks.LineBuffer
import Diversity.Programs.Containers.RingSlots
import Diversity.Programs.Serialization.RequestBytes
import Diversity.Programs.Graph.Repeated
import Diversity.Programs.Net.BufferSize
import Diversity.Programs.Containers.Bounded
import Diversity.Programs.Containers.Defaults
import Diversity.Programs.HashTable.Khash
import Diversity.Programs.HashTable.Buckets
import Diversity.Programs.HashTable.Lookup
import Diversity.Programs.HashTable.Rehash
import Diversity.Programs.HashTable.Dictionary
import Diversity.Programs.HashTable.HashFunctions
import Diversity.Schemes.LinkedList
import Diversity.Programs.HashTable.Uthash
import Diversity.Programs.HashTable.Chains
import Diversity.Programs.HashTable.Integrity
import Diversity.Programs.HashTable.RequestTable
import Diversity.Schemes.Probing
import Diversity.Schemes.Monitor
import Diversity.Programs.Threads.CountThreshold
import Diversity.Programs.Threads.Wakeups
import Diversity.Programs.Sniffer.GotPacket
