import Ddcp.Ident.Basic

set_option autoImplicit false

/-! # The node of `src/lib.rs`

`DDCP` is a node's own state; its clones (the puller, the server, each responder) have a copy of it
and share the Veilid API and the database connection. The bodies of the two loops of `serve` are
`pullerTick` and, for the server, `push` and `handleUpdate`; a responder is returned by
`handleUpdate` and run by whoever schedules it. -/

namespace Ddcp

structure DDCP where
  conclave : Conclave

/-- The updates a node looks at. -/
inductive VeilidUpdate where
  | appCall (callId : UInt64) (message : Bytes)
  | attachment (publicInternetReady : Bool)
  | routeChange
  | shutdown
  | other
  deriving DecidableEq, Repr

/-- What the closure of a spawned responder owns. -/
structure Responder where
  conclave : Conclave
  peer : Peer
  envelope : Envelope
  callId : UInt64
  sender : String

variable [Capnp] [CryptoSystem] {σ α ι : Type}

omit [Capnp] [CryptoSystem] in
/-- `DB::changes`: two closures on the connection. -/
def dbChanges (sinceDbVersion : Int64) : Act σ (Bytes × List Change) := do
  let (siteId, dbVersion) ← Act.db .status
  if sinceDbVersion ≥ dbVersion then return (siteId, [])
  else
    let changes ← Act.db (.select sinceDbVersion)
    return (siteId, changes)

/-- The sealed answer to a request. -/
def answerRequest (crypto : Crypto) : Request → Act σ Bytes
  | .status => do
      let (siteId, dbVersion) ← Act.db .status
      crypto.encode (Response.status ⟨siteId, dbVersion⟩)
  | .changes sinceDbVersion => do
      let (siteId, changes) ← dbChanges sinceDbVersion
      crypto.encode (Response.changes ⟨siteId, changes⟩)

/-- The body of a responder, from its crypto on. -/
def Responder.respond (r : Responder) (crypto : Crypto) : Act σ Unit := do
  let request ← Act.lift (crypto.decode Request r.envelope.contents)
  let resp ← answerRequest crypto request
  Act.veilid (.appCallReply r.callId (encode (Envelope.mk r.sender resp)))

/-- The body of a responder. -/
def Responder.run (r : Responder) : Act σ Unit := do
  let crypto ← r.conclave.crypto r.peer
  r.respond crypto

omit [Capnp] [CryptoSystem] in
/-- Try each item in turn; an error is noted and the next item follows. -/
def attemptEach (f : ι → Act σ α) : List ι → Act σ (List (ι × Except Error α))
  | [] => pure []
  | i :: is => do
      let r ← warnErr (f i)
      let rs ← attemptEach f is
      return (i, r) :: rs

namespace DDCP

omit [Capnp] [CryptoSystem] in
def onConclave (x : Act Conclave α) : Act DDCP α :=
  x.zoom DDCP.conclave fun _ c => ⟨c⟩

/-! ## Announcing -/

omit [Capnp] in
/-- `addr`. -/
def addr (s : DDCP) : String := CryptoSystem.keyToString s.conclave.sovereign.dhtKey

/-- `push`. -/
def push : Act DDCP (String × Bytes × Int64) := do
  let (siteId, dbVersion) ← Act.db .status
  onConclave (Conclave.refresh ⟨siteId, dbVersion⟩)
  let s ← get
  return (CryptoSystem.keyToString s.conclave.sovereign.dhtKey, siteId, dbVersion)

omit [Capnp] [CryptoSystem] in
/-- The first loop of `wait_for_network`: the updates left when the network is up. -/
def awaitAttachment : List VeilidUpdate → Except Error (List VeilidUpdate)
  | [] => .error (.other "receiving on a closed channel")
  | .attachment true :: updates => .ok updates
  | _ :: updates => awaitAttachment updates

/-- The second loop of `wait_for_network`, for at most `n` rounds: whether it has ended. -/
def pushUntilOk : Nat → Act DDCP Bool
  | 0 => pure false
  | n + 1 => do
      match ← warnErr push with
      | .ok _ => pure true
      | .error _ => pushUntilOk n

/-! ## Pulling -/

/-- `pull_from`. -/
def pullFrom (c : Conclave) (peer : Peer) (peerStatus : NodeStatus) : Act σ (Bool × Int64) := do
  let trackedVersion ← Act.db (.trackedPeerVersion peerStatus.siteId)
  if peerStatus.dbVersion ≤ trackedVersion then return (false, trackedVersion)
  else
    let resp ← c.changes peer trackedVersion
    if resp.siteId ≠ peerStatus.siteId then throw (.err (otherErr "mismatched site_id"))
    else
      let mergeVersion ← Act.db (.merge resp.siteId resp.changes)
      return (true, mergeVersion)

/-- `pull`. -/
def pull (name : String) : Act DDCP (Bool × Int64) := do
  let refreshed ← onConclave (Conclave.onPeer name Peer.refresh)
  let _ ← Act.okOr (otherErr "unknown peer") refreshed
  let s ← get
  let peer ← Act.okOr (otherErr "unknown peer") (s.conclave.peer name)
  let nodeStatus ← Act.okOr (otherErr "peer missing status") peer.nodeStatus
  pullFrom s.conclave peer nodeStatus

/-- One peer in the puller's loop. -/
def pullPeer (c : Conclave) (peer : Peer) : Act σ (Bool × Int64) := do
  let peerStatus ← Act.okOr (otherErr "peer missing status") peer.nodeStatus
  pullFrom c peer peerStatus

/-- One tick of the puller: what it logs of each peer it gets to. -/
def pullerTick : Act DDCP (List (Peer × Except Error (Bool × Int64))) := do
  match ← warnErr (onConclave Conclave.refreshPeers) with
  | .error _ => return []
  | .ok _ =>
      let s ← get
      attemptEach (pullPeer s.conclave) s.conclave.peers

/-- The loop of `ddcp pull` without a name: what it logs of each remote. -/
def pullRemotes : Act DDCP (List (String × Except Error (Bool × Int64))) := do
  let s ← get
  attemptEach pull s.conclave.remotes.keys

/-! ## Serving -/

omit [Capnp] in
/-- `peer_by_key`, built when the server task starts. -/
def peerByKey (s : DDCP) : AList fun _ : String => Peer :=
  s.conclave.peers.foldl (fun m p => m.insert (CryptoSystem.keyToString p.dhtKey) p) ∅

/-- The responder `handle_update` spawns for an `app_call`: none for an unknown sender. -/
def responderFor (s : DDCP) (peerBySender : AList fun _ : String => Peer) (callId : UInt64)
    (message : Bytes) : Except Abort (Option Responder) :=
  match decode Envelope message with
  | .error e => .error (.err (.protocol e))
  | .ok envelope =>
      .ok ((peerBySender.lookup envelope.sender).map fun peer => {
        conclave := s.conclave
        peer := peer
        envelope := envelope
        callId := callId
        sender := CryptoSystem.keyToString s.conclave.sovereign.dhtKey })

/-- `handle_update`, up to the responder it spawns. -/
def handleUpdate (peerBySender : AList fun _ : String => Peer) :
    VeilidUpdate → Act DDCP (Option Responder)
  | .appCall callId message => do
      let s ← get
      Act.lift (s.responderFor peerBySender callId message)
  | .shutdown => throw (.err (.veilidAPI .shutdown))
  | .routeChange => do
      onConclave (Conclave.onSovereign Sovereign.releaseRoute)
      return none
  | .attachment _ | .other => return none

/-- A tick of the server's loop. -/
def serverTick : Act DDCP (Option Responder) := do
  let _ ← warnErr push
  return none

/-- An update in the server's loop: the responder it spawns. -/
def serverUpdate (peerBySender : AList fun _ : String => Peer) (u : VeilidUpdate) :
    Act DDCP (Option Responder) := do
  match ← warnErr (handleUpdate peerBySender u) with
  | .ok responder => return responder
  | .error _ => return none

omit [Capnp] [CryptoSystem] in
/-- `cleanup`. -/
def cleanup : Act DDCP Unit := do
  let _ ← warnErr (onConclave Conclave.close)
  Method.perform Call.shutdown
  Act.db .finalize

end DDCP

end Ddcp
