import StorageServer.Lib.Prog
import StorageServer.Lib.Buckets
import StorageServer.Lib.LittleEndian
import StorageServer.Lib.Selection
import StorageServer.Util
import StorageServer.HashMap
import StorageServer.HashTable
import StorageServer.Store
import StorageServer.Access
import StorageServer.Replacement
import StorageServer.Handlers
import StorageServer.Requests
import StorageServer.FileSystem
import StorageServer.Soundness
import StorageServer.Abstraction
import StorageServer.Expulsion
import StorageServer.Sections
import StorageServer.Effects
import StorageServer.Exchange
import StorageServer.Completion
import StorageServer.Lib.Transition
import StorageServer.Runs
import StorageServer.Worker
import StorageServer.Api
import StorageServer.Chunks
import StorageServer.Codec
import StorageServer.Progress
import StorageServer.Counters
import StorageServer.Handling
import StorageServer.History
import StorageServer.Oversized
import StorageServer.Ownership
import StorageServer.Paths
import StorageServer.Sessions
import StorageServer.Answers
import StorageServer.Completing
import StorageServer.Config
import StorageServer.Connections
import StorageServer.Conversation
import StorageServer.Deque
import StorageServer.Directory
import StorageServer.Lib.Fuel
import StorageServer.Directories
import StorageServer.Execution
import StorageServer.Fifo
import StorageServer.Insertions
import StorageServer.FileLocks
import StorageServer.Globals
import StorageServer.Intervals
import StorageServer.Iterator
import StorageServer.Lib.Decimal
import StorageServer.Lib.Threads
import StorageServer.LinkedMap
import StorageServer.LinkedTable
import StorageServer.MainLoop
import StorageServer.Options
import StorageServer.Peaks
import StorageServer.Races
import StorageServer.ReadNFiles
import StorageServer.Receiving
import StorageServer.RequestQueue
import StorageServer.RoundTrip
import StorageServer.Shutdown
import StorageServer.Statistics
import StorageServer.Victims
import StorageServer.Lib.Interleaving
import StorageServer.Jobs
import StorageServer.Settled
import StorageServer.Sharing
import StorageServer.Serialization
import StorageServer.Concurrency
import StorageServer.Returning
import StorageServer.Waiting
import StorageServer.Holding
import StorageServer.Lifetimes
