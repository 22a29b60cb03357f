import FavoriteAssignments.Banana.Coherence
import FavoriteAssignments.Banana.Devices
import FavoriteAssignments.Banana.Truncated
import FavoriteAssignments.Banana.Boot
import FavoriteAssignments.Banana.Disassembler
import FavoriteAssignments.RwLock.Exclusion
import FavoriteAssignments.RwLock.Wakeups
import FavoriteAssignments.RwLock.Turns
import FavoriteAssignments.BoundedQueue.Fifo
import FavoriteAssignments.SchmidtSamoa.Seeds
import FavoriteAssignments.SchmidtSamoa.MillerRabin
import FavoriteAssignments.SchmidtSamoa.BlockAccesses
import FavoriteAssignments.SchmidtSamoa.Simon
import FavoriteAssignments.SchmidtSamoa.Variables
import FavoriteAssignments.HttpServer.PutStatus
import FavoriteAssignments.HttpServer.UriLocks
import FavoriteAssignments.HttpServer.Audit
import FavoriteAssignments.HttpServer.Resources
import FavoriteAssignments.Lz78.PairStream
import FavoriteAssignments.Lz78.RoundTrip
import FavoriteAssignments.Lz78.Safety
import FavoriteAssignments.Lz78.Transfers
import FavoriteAssignments.Life.Torus
import FavoriteAssignments.Life.Populate
import FavoriteAssignments.Sorting.Quick
import FavoriteAssignments.Sorting.Batcher
import FavoriteAssignments.Sorting.Shell
import FavoriteAssignments.Sorting.Heap
import FavoriteAssignments.PlayingWithMemory.Commands
import FavoriteAssignments.PlayingWithMemory.SetThenGet
import FavoriteAssignments.SingleThreaded.Grammar
import FavoriteAssignments.SingleThreaded.Bounds
import FavoriteAssignments.Library.StrongTest
import FavoriteAssignments.Lz78.Synchronisation
import FavoriteAssignments.HttpServer.Dispatcher
import FavoriteAssignments.Banana.Controller
import FavoriteAssignments.Banana.Display
import FavoriteAssignments.Banana.Frames
import FavoriteAssignments.Library.Lockstep
import FavoriteAssignments.Sorting.Counters
import FavoriteAssignments.Library.LinkedLists
import FavoriteAssignments.HttpServer.HashTable
import FavoriteAssignments.Lz78.Files
import FavoriteAssignments.Library.Streams
import FavoriteAssignments.Life.Program
import FavoriteAssignments.SchmidtSamoa.Programs
import FavoriteAssignments.Library.Trees
import FavoriteAssignments.Lz78.TrieMemory
import FavoriteAssignments.Library.Blocks
import FavoriteAssignments.Lz78.WordMemory
import FavoriteAssignments.PlayingWithMemory.Session
import FavoriteAssignments.Sorting.Program
