import Ddcp.Ident.Basic
import Ddcp.Replication.Net

set_option autoImplicit false

/-! # Two nodes and the messages between them

Two nodes have each other as peers and share the key that either computes from its own key pair and
the other's public key. Both seal their requests and their responses under it; the envelope around a
sealed message is not protected. `Wire.Step` lets the two run their pulls, one after another at each
node, and any number of responders, in any order, over a network in the hands of an attacker: a node
is called and answered with any message at all, as long as its contents open only if they have been
sealed by one of the two (`Genuine`).

A pull is `beginPull` up to its request and `finishPull` from the decoded reply on; a responder is
the two database calls of `answerChanges`. What else a node does to its database, its application's
transactions and its pulls from other peers, are steps of their own. -/

namespace Ddcp

/-- One of the two nodes. -/
inductive Side where
  | left
  | right
  deriving DecidableEq, Repr

def Side.other : Side → Side
  | .left => .right
  | .right => .left

/-- What the two know of each other. -/
structure Pairing where
  site : Side → Bytes
  dhtKey : Side → TypedKey
  keys : Side → TypedKeyPair

/-- A node's `Crypto` for the other. -/
def Pairing.crypto (K : Pairing) (n : Side) : Crypto :=
  ⟨K.keys n, ⟨(K.keys n.other).kind, (K.keys n.other).value.key⟩⟩

/-- What a node seals for the other. An answer is kept with the version it was asked for and the
    contents that asked for it. -/
inductive Sealed where
  | request (sinceDbVersion : Int64)
  | status (resp : StatusResponse)
  | answer (sinceDbVersion : Int64) (resp : ChangesResponse) (asked : Bytes)

/-- A sealed message, by whom, and its contents on the wire. -/
structure SealedBy where
  sealer : Side
  message : Sealed
  contents : Bytes

/-- A responder between its two database calls. -/
structure Serving where
  server : Side
  sinceDbVersion : Int64
  asked : Bytes
  status : Bytes × Int64

/-- The nodes' databases, each one's pull from the other, the responders, and all that has been
    sealed under the shared key. -/
structure Wire where
  db : Side → Database
  pull : Side → Option (Status × Int64)
  serving : Nat → Option Serving
  log : List SealedBy

def Wire.init (K : Pairing) : Wire where
  db n := Database.new (K.site n)
  pull _ := none
  serving _ := none
  log := []

section Updates

def Wire.setDb (σ : Wire) (n : Side) (db : Database) : Wire :=
  { σ with db := Function.update σ.db n db }

def Wire.setPull (σ : Wire) (n : Side) (pull : Option (Status × Int64)) : Wire :=
  { σ with pull := Function.update σ.pull n pull }

def Wire.setServing (σ : Wire) (i : Nat) (serving : Option Serving) : Wire :=
  { σ with serving := Function.update σ.serving i serving }

def Wire.seal (σ : Wire) (e : SealedBy) : Wire := { σ with log := e :: σ.log }

end Updates

inductive WireAction where
  | localTx (n : Side)
  | mergeOther (n : Side)
  | begin (n : Side) (sinceDbVersion : Int64)
  | call (server : Side) (message : Bytes)
  | answer (server : Side)
  /-- A reply to a pull that began with the given cursor: its contents, what they decode to, and
      what the pull returns. -/
  | reply (n : Side) (sinceDbVersion : Int64) (contents : Bytes) (resp : ChangesResponse)
      (result : Except Error (Bool × Int64))
  | fail (n : Side)
  | drop

variable [Capnp] [CryptoSystem]

def Sealed.plain : Sealed → Bytes
  | .request sinceDbVersion => encode (Request.changes sinceDbVersion)
  | .status resp => encode (Response.status resp)
  | .answer _ resp _ => encode (Response.changes resp)

/-- `contents` open under the key of `c`. -/
def Crypto.Opens (c : Crypto) (contents plain : Bytes) : Prop :=
  ∃ (nonce : Nonce) (rest key : Bytes), contents = nonce.bytes ++ rest ∧ c.sharedKey = .ok key ∧
    CryptoSystem.decryptInPlaceAead rest nonce key = .ok plain

/-- Contents that open have been sealed by one of the two. -/
def Wire.Genuine (K : Pairing) (σ : Wire) (contents : Bytes) : Prop :=
  ∀ n plain, (K.crypto n).Opens contents plain → ∃ e ∈ σ.log, e.contents = contents

variable [LinearOrder CellData]

inductive Wire.Step (K : Pairing) : Wire → WireAction → Wire → Prop
  | localTx {σ : Wire} (n : Side) {db' : Database} (htx : LocalTx (σ.db n) db') :
      Step K σ (.localTx n) (σ.setDb n db')
  | mergeOther {σ : Wire} (n : Side) (env : Database.TxEnv) (siteId : Bytes)
      (changes : List Change) (henv : (σ.db n).clock < env.version) :
      Step K σ (.mergeOther n) (σ.setDb n ((σ.db n).merge env siteId changes).2)
  | begin {σ : Wire} (n : Side) (st : Status) {since : Int64} {contents : Bytes}
      (hfree : σ.pull n = none) (hst : st.siteId = K.site n.other)
      (hbegin : beginPull (σ.db n) st = .request since)
      (hseal : (K.crypto n).Seals (Sealed.plain (.request since)) contents) :
      Step K σ (.begin n since)
        ((σ.setPull n (some (st, since))).seal ⟨n, .request since, contents⟩)
  | call {σ : Wire} (server : Side) (i : Nat) {message : Bytes} {envelope : Envelope}
      {since : Int64} (hfree : σ.serving i = none)
      (henv : decode Envelope message = .ok envelope)
      (hsender : envelope.sender = CryptoSystem.keyToString (K.dhtKey server.other))
      (hgenuine : σ.Genuine K envelope.contents)
      (hreq : (K.crypto server).decode Request envelope.contents = .ok (.changes since)) :
      Step K σ (.call server message) (σ.setServing i
        (some ⟨server, since, envelope.contents, (σ.db server).status⟩))
  | callStatus {σ : Wire} (server : Side) {message contents : Bytes} {envelope : Envelope}
      (henv : decode Envelope message = .ok envelope)
      (hsender : envelope.sender = CryptoSystem.keyToString (K.dhtKey server.other))
      (hgenuine : σ.Genuine K envelope.contents)
      (hreq : (K.crypto server).decode Request envelope.contents = .ok .status)
      (hseal : (K.crypto server).Seals
        (Sealed.plain (.status ⟨(σ.db server).status.1, (σ.db server).status.2⟩)) contents) :
      Step K σ (.call server message)
        (σ.seal ⟨server, .status ⟨(σ.db server).status.1, (σ.db server).status.2⟩, contents⟩)
  | answer {σ : Wire} (i : Nat) {r : Serving} {contents : Bytes} {resp : ChangesResponse}
      (hr : σ.serving i = some r)
      (hresp : resp = answerChanges (σ.db r.server) r.status r.sinceDbVersion)
      (hseal : (K.crypto r.server).Seals
        (Sealed.plain (.answer r.sinceDbVersion resp r.asked)) contents) :
      Step K σ (.answer r.server) ((σ.setServing i none).seal
        ⟨r.server, .answer r.sinceDbVersion resp r.asked, contents⟩)
  | reply {σ : Wire} (n : Side) {st : Status} {since : Int64} {message : Bytes}
      {envelope : Envelope} {resp : ChangesResponse} (env : Database.TxEnv)
      (hpull : σ.pull n = some (st, since)) (henv : decode Envelope message = .ok envelope)
      (hgenuine : σ.Genuine K envelope.contents)
      (hresp : Conclave.decodeReply (K.crypto n) message = .ok resp)
      (hversion : (σ.db n).clock < env.version) :
      Step K σ (.reply n since envelope.contents resp (finishPull env st resp (σ.db n)).1)
        ((σ.setDb n (finishPull env st resp (σ.db n)).2).setPull n none)
  | fail {σ : Wire} (n : Side) : Step K σ (.fail n) (σ.setPull n none)
  | drop {σ : Wire} (i : Nat) : Step K σ .drop (σ.setServing i none)

end Ddcp
