import PropertyGraph.Condition.Document
import PropertyGraph.Edge.Document
import PropertyGraph.Json.Reader
import PropertyGraph.Proofs.Assignment
import PropertyGraph.Proofs.Edge.Identity
import PropertyGraph.Proofs.Engines
import PropertyGraph.Proofs.Reference
import PropertyGraph.Proofs.Refinement
import PropertyGraph.Proofs.Snapshot
import PropertyGraph.Proofs.Uniqueness
import PropertyGraph.Selector.Document
import PropertyGraph.Session
import PropertyGraph.Proofs.Rejection
import PropertyGraph.Proofs.Search
import PropertyGraph.Proofs.Restart
import PropertyGraph.Proofs.Addressing
import PropertyGraph.Proofs.Place
import PropertyGraph.Proofs.Reordering
import PropertyGraph.Proofs.Isolation
import PropertyGraph.Proofs.MessagePack.Bounds
import PropertyGraph.Proofs.Edge.Rereading
import PropertyGraph.Proofs.ReadModes
import PropertyGraph.Proofs.StoredKeys
import PropertyGraph.Proofs.Edits
import PropertyGraph.Proofs.Commutation
import PropertyGraph.Proofs.Lifecycle
import PropertyGraph.Proofs.Persistence
import PropertyGraph.Proofs.OwnWrites
import PropertyGraph.Proofs.Requests
import PropertyGraph.Proofs.Idempotence
import PropertyGraph.Proofs.Retrieval
import PropertyGraph.Proofs.Conflict
import PropertyGraph.Proofs.Clearing
import PropertyGraph.Proofs.TextOrder
import PropertyGraph.Proofs.NodeId
import PropertyGraph.Proofs.PairOrder
import PropertyGraph.Proofs.ConditionGrammar
import PropertyGraph.Proofs.QueryOrder
import PropertyGraph.Proofs.Absence
import PropertyGraph.Proofs.JsonForm
import PropertyGraph.Proofs.InPlace
