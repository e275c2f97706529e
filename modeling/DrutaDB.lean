import DrutaDB.Proofs.Database
import DrutaDB.Proofs.Faults
import DrutaDB.Proofs.Twins
import DrutaDB.Proofs.Cells
import DrutaDB.Proofs.Streams
import DrutaDB.Proofs.Limit
import DrutaDB.Proofs.Growth
import DrutaDB.Proofs.Crash
import DrutaDB.Proofs.Timers
import DrutaDB.Proofs.Process
import DrutaDB.Proofs.Restart
import DrutaDB.Proofs.Durability
import DrutaDB.Proofs.ParserSafety
import DrutaDB.Proofs.Isolation
import DrutaDB.Proofs.Errors
import DrutaDB.Proofs.Types
import DrutaDB.Proofs.FailedRewrite
import DrutaDB.Proofs.Eviction
import DrutaDB.Proofs.Emptied
import DrutaDB.Proofs.Expiry
import DrutaDB.Proofs.Deadlines
import DrutaDB.Proofs.LazyDeletion
import DrutaDB.Proofs.Replies
import DrutaDB.Proofs.FieldMap
import DrutaDB.Proofs.HashMemory
import DrutaDB.Proofs.ListCommands
import DrutaDB.Proofs.SetAlgebra
import DrutaDB.Proofs.Pointers
import DrutaDB.Proofs.RewriteGet
import DrutaDB.Proofs.ListMemory
import DrutaDB.Proofs.SetMemory
import DrutaDB.Proofs.Memory
import DrutaDB.Proofs.Compaction
import DrutaDB.Proofs.Frames
import DrutaDB.Proofs.Resync
import DrutaDB.Proofs.Serialising
import DrutaDB.Proofs.TimeToLive
import DrutaDB.Proofs.LongLogs
import DrutaDB.Proofs.Idempotence
import DrutaDB.Proofs.Traces
