import Mathlib.Data.List.AList
import Ddcp.Proto.Crypto

set_option autoImplicit false

/-! # The identities of `src/ident.rs`

`Sovereign` is the local identity with its cached private route, `Peer` a remote with its open
record handle, its last status and its imported route, and `Conclave` both together. The methods
follow the source call by call: which field has been written when a `?` returns early is what
several results are about.

The remotes are a Rust `HashMap`: an association list without duplicate names, in whatever order it
iterates. -/

namespace Ddcp

def DHT_SUBKEY_STATUS : Nat := 0

/-! ## The local identity -/

structure Route where
  id : RouteId
  data : Bytes
  deriving DecidableEq, Repr

structure Sovereign where
  dhtKey : TypedKey
  dhtOwnerKeypair : TypedKeyPair
  dht : Option DHTRecordDescriptor
  route : Option Route
  deriving DecidableEq, Repr

namespace Sovereign

def authKey (s : Sovereign) : TypedKey := ⟨s.dhtOwnerKeypair.kind, s.dhtOwnerKeypair.value.key⟩

/-- `release_route`. -/
def releaseRoute : Act Sovereign Unit := do
  match (← get).route with
  | some route =>
      Act.veilid (.releasePrivateRoute route.id)
      modify fun s => { s with route := none }
  | none => pure ()

/-- The route `announce` publishes: the cached one, or a new one. -/
def currentRoute : Act Sovereign Route := do
  match (← get).route with
  | some route => pure route
  | none =>
      let (id, data) ← Act.veilid .newPrivateRoute
      modify fun s => { s with route := some ⟨id, data⟩ }
      pure ⟨id, data⟩

variable [Capnp] [CryptoSystem]

/-- The status `announce` writes. -/
def nodeStatus (s : Sovereign) (status : Status) (route : Route) : NodeStatus where
  siteId := status.siteId
  dbVersion := status.dbVersion
  key := CryptoSystem.keyToString s.authKey
  route := route.data

/-- `announce`. -/
def announce (status : Status) : Act Sovereign Unit := do
  let route ← currentRoute
  let s ← get
  Act.veilid (.setDhtValue s.dhtKey DHT_SUBKEY_STATUS (encode (s.nodeStatus status route)))

omit [Capnp] [CryptoSystem] in
/-- `close`: what it `take`s is gone even if giving it back fails. -/
def close : Act Sovereign Unit := do
  let s ← get
  modify fun s => { s with dht := none }
  Act.closeRecord s.dht
  modify fun s => { s with route := none }
  Act.releaseRoute (s.route.map Route.id)

end Sovereign

/-! ## Remotes -/

structure Peer where
  name : String
  dhtKey : TypedKey
  dht : Option DHTRecordDescriptor
  nodeStatus : Option NodeStatus
  routeId : Option RouteId
  deriving DecidableEq, Repr

namespace Peer

variable [Capnp] [CryptoSystem]

omit [Capnp] in
/-- `auth_key`. -/
def authKey (p : Peer) : Except Error (Option TypedKey) :=
  match p.nodeStatus with
  | some ns => ((CryptoSystem.keyFromStr ns.key).mapError Error.veilidAPI).map some
  | none => .ok none

omit [CryptoSystem] in
/-- `refresh_dht`. -/
def refreshDht : Act Peer Unit := do
  let p ← get
  Act.closeRecord p.dht
  let dht ← Act.veilid (.openDhtRecord p.dhtKey none)
  modify fun p => { p with dht := some dht }
  let value ← Act.veilid (.getDhtValue p.dhtKey DHT_SUBKEY_STATUS true)
  match value with
  | some data =>
      let status ← Act.lift ((decode NodeStatus data).mapError fun e => .err (.protocol e))
      modify fun p => { p with nodeStatus := some status }
  | none => modify fun p => { p with nodeStatus := none }

omit [Capnp] [CryptoSystem] in
/-- `refresh_route`. -/
def refreshRoute : Act Peer Unit := do
  match (← get).nodeStatus with
  | some status =>
      let routeId ← Act.veilid (.importRemotePrivateRoute status.route)
      modify fun p => { p with routeId := some routeId }
  | none => pure ()

omit [CryptoSystem] in
/-- `refresh`. -/
def refresh : Act Peer (Option NodeStatus) := do
  refreshDht
  refreshRoute
  return (← get).nodeStatus

omit [Capnp] [CryptoSystem] in
/-- `close`. -/
def close : Act Peer Unit := do
  let p ← get
  modify fun p => { p with dht := none }
  Act.closeRecord p.dht
  modify fun p => { p with routeId := none }
  Act.releaseRoute p.routeId

end Peer

/-! ## Both together -/

structure Conclave where
  sovereign : Sovereign
  remotes : AList fun _ : String => Peer

namespace Conclave

variable {σ α : Type} [Capnp] [CryptoSystem]

omit [Capnp] [CryptoSystem] in
/-- A method of the sovereign. -/
def onSovereign (x : Act Sovereign α) : Act Conclave α :=
  x.zoom Conclave.sovereign fun c s => { c with sovereign := s }

omit [Capnp] [CryptoSystem] in
/-- A method of the peer with the given name, through `peer_mut`; `none` when there is none. -/
def onPeer (name : String) (x : Act Peer α) : Act Conclave (Option α) := do
  let c ← get
  match c.remotes.lookup name with
  | none => pure none
  | some p =>
      let a ← x.zoom (fun _ => p) fun c p => { c with remotes := c.remotes.replace name p }
      return some a

omit [CryptoSystem] in
/-- `refresh_peers`: the first error ends it. -/
def refreshPeers : Act Conclave Unit := do
  let c ← get
  c.remotes.keys.forM fun name => do
    let _ ← onPeer name Peer.refresh
    return ()

/-- `refresh`. -/
def refresh (status : Status) : Act Conclave Unit := do
  onSovereign (Sovereign.announce status)
  refreshPeers

omit [Capnp] [CryptoSystem] in
def peer (c : Conclave) (name : String) : Option Peer := c.remotes.lookup name

omit [Capnp] [CryptoSystem] in
/-- `peers`, in iteration order. -/
def peers (c : Conclave) : List Peer := c.remotes.entries.map Sigma.snd

omit [Capnp] in
/-- `crypto`, once the Veilid API has answered. -/
def cryptoWith (c : Conclave) (peer : Peer) : Option Unit → Except Abort Crypto
  | none => .error (.err (otherErr "VLD0 not available"))
  | some _ =>
      match peer.authKey with
      | .error e => .error (.err e)
      | .ok none => .error (.err (otherErr "peer key not found"))
      | .ok (some key) => .ok ⟨c.sovereign.dhtOwnerKeypair, key⟩

omit [Capnp] in
/-- `crypto`. -/
def crypto (c : Conclave) (peer : Peer) : Act σ Crypto := do
  let vld0 ← Act.veilid (.crypto CRYPTO_KIND_VLD0)
  Act.lift (c.cryptoWith peer vld0)

omit [Capnp] [CryptoSystem] in
/-- A status response as `{:?}` prints it. -/
def debugStatus (status : StatusResponse) : String :=
  "Status(StatusResponse \x7b site_id: " ++ toString status.siteId ++ ", db_version: " ++
    toString status.dbVersion ++ " \x7d)"

/-- What `changes` makes of the reply to its `app_call`. -/
def decodeReply (crypto : Crypto) (respBytes : Bytes) : Except Abort ChangesResponse := do
  let resp ← (decode Envelope respBytes).mapError fun e => Abort.err (.protocol e)
  match ← crypto.decode Response resp.contents with
  | .changes changes => .ok changes
  | .status status => .error (.err (otherErr ("invalid response: " ++ debugStatus status)))

/-- The `app_call` of `changes`: when it fails, the route is given back. -/
def callPeer (crypto : Crypto) (peerRouteId : RouteId) (reqBytes : Bytes) :
    Act σ ChangesResponse := do
  match ← warnErr (Act.veilid (.appCall peerRouteId reqBytes)) with
  | .ok respBytes => Act.lift (decodeReply crypto respBytes)
  | .error e =>
      let _ ← warnErr (Act.veilid (.releasePrivateRoute peerRouteId))
      throw (.err e)

/-- `changes`. -/
def changes (c : Conclave) (peer : Peer) (sinceDbVersion : Int64) : Act σ ChangesResponse := do
  let crypto ← c.crypto peer
  let contents ← crypto.encode (Request.changes sinceDbVersion)
  let reqBytes := encode (Envelope.mk (CryptoSystem.keyToString c.sovereign.dhtKey) contents)
  let peerRouteId ← Act.okOr (otherErr "no route to peer") peer.routeId
  callPeer crypto peerRouteId reqBytes

omit [Capnp] [CryptoSystem] in
/-- `close`. -/
def close : Act Conclave Unit := do
  onSovereign Sovereign.close
  let c ← get
  c.remotes.keys.forM fun name => do
    let _ ← onPeer name Peer.close
    return ()

end Conclave

end Ddcp
