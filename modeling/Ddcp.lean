import Ddcp.Lib.Order
import Ddcp.Lib.Lts
import Ddcp.Lib.Registers
import Ddcp.Db.Basic
import Ddcp.Db.Proofs
import Ddcp.Db.Merge
import Ddcp.Replication.Net
import Ddcp.Replication.Cursor
import Ddcp.Db.CellOrder
import Ddcp.Replication.Convergence
import Ddcp.Replication.Isolation
import Ddcp.Replication.Agreement
import Ddcp.Lib.Prog
import Ddcp.Proto.Capnp
import Ddcp.Proto.Codec
import Ddcp.Node.Env
import Ddcp.Proto.Crypto
import Ddcp.Ident.Basic
import Ddcp.Node.Basic
import Ddcp.Node.Panic
import Ddcp.Node.Server
import Ddcp.Lib.History
import Ddcp.Node.Routes
import Ddcp.Lib.Replace
import Ddcp.Node.Keys
import Ddcp.Lib.Safe
import Ddcp.Node.Records
import Ddcp.Node.Shutdown
import Ddcp.Node.BadPeer
import Ddcp.Lib.Shared
import Ddcp.Replication.Programs
import Ddcp.Replication.Rounds
import Ddcp.Db.Transaction
import Ddcp.Replication.Versions
import Ddcp.Ident.Store
import Ddcp.Proto.Builder
import Ddcp.Ident.Startup
import Ddcp.Ident.Remotes
import Ddcp.Ident.Failures
import Ddcp.Ident.Recovery
import Ddcp.Ident.Peering
import Ddcp.Replication.RemoteCall
import Ddcp.Ident.Spending
import Ddcp.Node.Serving
import Ddcp.Lib.WriteLog
import Ddcp.Replication.Provenance
import Ddcp.Replication.Delivery
import Ddcp.Replication.Progress
import Ddcp.Lib.Protocol
import Ddcp.Replication.Conversation
import Ddcp.Replication.Cluster
import Ddcp.Replication.Relation
import Ddcp.Replication.Refinement
import Ddcp.Node.Replies
import Ddcp.Lib.Embed
import Ddcp.Cli.Basic
import Ddcp.Cli.Proofs
import Ddcp.Cli.Cleanup
import Ddcp.Cli.Network
import Ddcp.Cli.Confined
import Ddcp.Cli.StateDir
import Ddcp.Cli.Pull
import Ddcp.Replication.Snapshot
import Ddcp.Node.Disclosure
import Ddcp.Node.Interrupt
