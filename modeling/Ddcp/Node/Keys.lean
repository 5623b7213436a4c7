import Ddcp.Lib.Replace
import Ddcp.Node.Server

set_option autoImplicit false

/-! # The keys a serving node answers with

A responder opens a request with the key of the peer in the map that the server task made when it
started; refreshes change the peers of the conclave, a different copy. A peer that had no status
when the task started, or has published another key since, is therefore not answered. As long as
every status read has the key that the map already has, every request sealed under the current key
of a peer is opened and answered from the database. -/

namespace Ddcp

open Method Lts

section Keys

variable [Capnp] [CryptoSystem] {IsKeyPair : KeyPair → Prop} {σ : Type}

/-! ## What an answer is -/

/-- The crypto system is there, the database is read and the reply is taken. -/
def Obliging : Event → Prop
  | ⟨.veilid (.crypto _), a⟩ => a = .ok (some ())
  | ⟨.veilid (.appCallReply _ _), a⟩ => a = .ok ()
  | ⟨.db _, a⟩ => ∃ v, a = .ok v
  | _ => True

/-- The response to a request, with what was read from the database in `tr`. -/
def AnswersFrom (tr : List Event) : Request → Response → Prop
  | .status, response => ∃ siteId dbVersion,
      ⟨.db .status, .ok (siteId, dbVersion)⟩ ∈ tr ∧ response = .status ⟨siteId, dbVersion⟩
  | .changes since, response => ∃ siteId dbVersion,
      ⟨.db .status, .ok (siteId, dbVersion)⟩ ∈ tr ∧
      ((since ≥ dbVersion ∧ response = .changes ⟨siteId, []⟩) ∨
        ∃ changes, ¬ since ≥ dbVersion ∧ ⟨.db (.select since), .ok changes⟩ ∈ tr ∧
          response = .changes ⟨siteId, changes⟩)

/-- With obliging answers the responder ends well, having replied to the call with a response that
    is read from the database and sealed for the owner of `key`. -/
def Responder.Answers (r : Responder) (key : TypedKey) (request : Request) : Prop :=
  ∀ s : DDCP, Ensures Obliging r.run s fun tr _ _ => ∃ response contents,
    AnswersFrom tr request response ∧
    Crypto.Seals ⟨r.conclave.sovereign.dhtOwnerKeypair, key⟩ (encode response) contents ∧
    ⟨.veilid (.appCallReply r.callId (encode (Envelope.mk r.sender contents))), .ok ()⟩ ∈ tr

/-- `message` is an envelope from the owner of `dhtKey`, around a request that the owner of `pair`
    has sealed for the node. -/
def RequestFrom (ddcp : DDCP) (dhtKey : TypedKey) (pair : TypedKeyPair) (message : Bytes)
    (request : Request) : Prop :=
  ∃ contents plain,
    decode Envelope message = .ok ⟨CryptoSystem.keyToString dhtKey, contents⟩ ∧
    Crypto.Seals ⟨pair, ddcp.conclave.sovereign.authKey⟩ plain contents ∧
    decode Request plain = .ok request

/-- Requests under the key that the last successful refresh of their sender read are answered. -/
def AnswersCurrentKeys (IsKeyPair : KeyPair → Prop) (σ : Server) : Prop :=
  ∀ name peer status key, σ.ddcp.conclave.remotes.lookup name = some peer →
    σ.lastRead name = some status → CryptoSystem.keyFromStr status.key = .ok key →
    ∀ pair : TypedKeyPair, IsKeyPair pair.value → pair.value.key = key.value →
    ∀ callId message request, RequestFrom σ.ddcp peer.dhtKey pair message request →
    ∀ tr r ddcp', Exec (DDCP.handleUpdate σ.peerByKey (.appCall callId message)) σ.ddcp tr r ddcp' →
      ∃ responder, r = .ok (some responder) ∧ responder.conclave = σ.ddcp.conclave ∧
        responder.callId = callId ∧ responder.Answers key request

/-- A refresh that reads a key reads the one that the map of the server task has for that peer. -/
def MapHasKey : Server → ServerAction → Prop
  | σ, .refresh name _ (.ok (some (some status))) =>
      ∀ key, CryptoSystem.keyFromStr status.key = .ok key →
        ∃ peer entry, σ.ddcp.conclave.remotes.lookup name = some peer ∧
          σ.peerByKey.lookup (CryptoSystem.keyToString peer.dhtKey) = some entry ∧
          entry.authKey = .ok (some key)
  | _, _ => True

/-! ## Answering one request -/

omit [Capnp] [CryptoSystem] in
theorem AnswersFrom.mono {tr tr' : List Event} {request : Request} {response : Response}
    (h : AnswersFrom tr request response) (hle : ∀ e ∈ tr, e ∈ tr') :
    AnswersFrom tr' request response := by
  cases request with
  | status =>
      obtain ⟨siteId, dbVersion, hst, hr⟩ := h
      exact ⟨siteId, dbVersion, hle _ hst, hr⟩
  | changes since =>
      obtain ⟨siteId, dbVersion, hst, hr | ⟨changes, hlt, hsel, hr⟩⟩ := h
      · exact ⟨siteId, dbVersion, hle _ hst, Or.inl hr⟩
      · exact ⟨siteId, dbVersion, hle _ hst, Or.inr ⟨changes, hlt, hle _ hsel, hr⟩⟩

omit [Capnp] [CryptoSystem] in
theorem ensures_obliging_db {c : DbCall} {s : σ} :
    Ensures Obliging (Act.db c) s fun tr v s' => tr = [⟨.db c, .ok v⟩] ∧ s' = s :=
  ensures_db fun _ ⟨v, hv⟩ => ⟨v, hv, rfl, rfl⟩

omit [Capnp] [CryptoSystem] in
theorem ensures_dbChanges {since : Int64} {s : σ} :
    Ensures Obliging (dbChanges since) s fun tr res s' =>
      AnswersFrom tr (.changes since) (.changes ⟨res.1, res.2⟩) ∧ s' = s := by
  refine ensures_obliging_db.bind ?_
  rintro _ ⟨siteId, dbVersion⟩ s₁ ⟨rfl, rfl⟩
  by_cases hle : since ≥ dbVersion
  · simp only [hle, if_true]
    exact Ensures.pure ⟨⟨siteId, dbVersion, by simp, Or.inl ⟨hle, rfl⟩⟩, rfl⟩
  · simp only [hle, if_false]
    refine ensures_obliging_db.bind ?_
    rintro _ changes s₂ ⟨rfl, rfl⟩
    exact Ensures.pure
      ⟨⟨siteId, dbVersion, by simp, Or.inr ⟨changes, hle, by simp, rfl⟩⟩, rfl⟩

/-- Between two key pairs, any request is answered from the database. -/
theorem ensures_answerRequest (hl : CryptoSystem.Lawful IsKeyPair) {p q : TypedKeyPair}
    (hp : IsKeyPair p.value) (hq : IsKeyPair q.value) {kind : CryptoKind} {request : Request}
    {s : σ} :
    Ensures Obliging (answerRequest ⟨p, ⟨kind, q.value.key⟩⟩ request) s fun tr contents s' =>
      ∃ response, AnswersFrom tr request response ∧
        Crypto.Seals ⟨p, ⟨kind, q.value.key⟩⟩ (encode response) contents ∧ s' = s := by
  cases request with
  | status =>
      refine ensures_obliging_db.bind ?_
      rintro _ ⟨siteId, dbVersion⟩ s₁ ⟨rfl, rfl⟩
      refine (Crypto.ensures_encode hl hp hq).mono fun tr contents s' h => ?_
      exact ⟨_, ⟨siteId, dbVersion, by simp, rfl⟩, h⟩
  | changes since =>
      refine ensures_dbChanges.bind ?_
      rintro tr ⟨siteId, changes⟩ s₁ ⟨hans, rfl⟩
      refine (Crypto.ensures_encode hl hp hq).mono fun tr' contents s' h => ?_
      exact ⟨_, hans.mono fun e he => List.mem_append_left _ he, h⟩

/-- **One request.** A responder whose copy of the peer has the key a request is sealed under
    answers it. -/
theorem responder_answers (hl : CryptoSystem.Lawful IsKeyPair) {r : Responder} {pair : TypedKeyPair}
    {key : TypedKey} {request : Request} {plain : Bytes}
    (hown : IsKeyPair r.conclave.sovereign.dhtOwnerKeypair.value) (hpair : IsKeyPair pair.value)
    (hkey : r.peer.authKey = .ok (some key)) (hvalue : pair.value.key = key.value)
    (hseal : Crypto.Seals ⟨pair, r.conclave.sovereign.authKey⟩ plain r.envelope.contents)
    (hplain : decode Request plain = .ok request) : r.Answers key request := by
  obtain ⟨kind, value⟩ := key
  obtain rfl : pair.value.key = value := hvalue
  intro s
  -- the crypto is that of the peer's copy
  have hcrypto : Ensures Obliging (r.conclave.crypto r.peer) s fun _ crypto _ =>
      crypto = ⟨r.conclave.sovereign.dhtOwnerKeypair, ⟨kind, pair.value.key⟩⟩ := by
    refine Ensures.bind (P := fun _ vld0 _ => vld0 = some ()) ?_ ?_
    · exact ensures_veilid fun a ha => ⟨some (), ha, rfl⟩
    rintro _ _ _ rfl
    exact ensures_lift (cryptoWith_ok_iff.2 ⟨rfl, _, hkey, rfl⟩) rfl
  refine hcrypto.bind ?_
  rintro _ _ s₁ rfl
  -- it opens the contents
  have hdecode : Crypto.decode Request
      ⟨r.conclave.sovereign.dhtOwnerKeypair, ⟨kind, pair.value.key⟩⟩ r.envelope.contents =
      .ok request := by
    rw [Crypto.decode_of_seals hl hpair hown hseal, hplain]
    rfl
  refine Ensures.bind (P := fun _ req _ => req = request) (ensures_lift hdecode rfl) ?_
  rintro _ _ s₂ rfl
  refine (ensures_answerRequest hl hown hpair).bind ?_
  rintro tr contents s₃ ⟨response, hans, hsealed, rfl⟩
  refine ensures_veilid fun a ha => ⟨(), ha, response, contents, ?_, hsealed, by simp⟩
  exact hans.mono fun e he => by simp [he]

/-! ## Every run -/

/-- What a run keeps: the node's own pair, and that what was last read is what the map has. -/
structure KeysInv (IsKeyPair : KeyPair → Prop) (σ : Server) : Prop where
  own : IsKeyPair σ.ddcp.conclave.sovereign.dhtOwnerKeypair.value
  current : ∀ name status key, σ.lastRead name = some status →
    CryptoSystem.keyFromStr status.key = .ok key →
    ∃ peer entry, σ.ddcp.conclave.remotes.lookup name = some peer ∧
      σ.peerByKey.lookup (CryptoSystem.keyToString peer.dhtKey) = some entry ∧
      entry.authKey = .ok (some key)

theorem KeysInv.step {σ σ' : Server} {l : ServerAction} (h : KeysInv IsKeyPair σ)
    (hs : guarded Server.Step MapHasKey σ l σ') : KeysInv IsKeyPair σ' := by
  obtain ⟨hcond, hs⟩ := hs
  obtain ⟨hown, hkeys, hmap⟩ := hs.keeps
  -- what the map has for the key of a peer stays
  have hstays : ∀ name key, (∃ peer entry, σ.ddcp.conclave.remotes.lookup name = some peer ∧
      σ.peerByKey.lookup (CryptoSystem.keyToString peer.dhtKey) = some entry ∧
      entry.authKey = .ok (some key)) →
      ∃ peer entry, σ'.ddcp.conclave.remotes.lookup name = some peer ∧
        σ'.peerByKey.lookup (CryptoSystem.keyToString peer.dhtKey) = some entry ∧
        entry.authKey = .ok (some key) := by
    rintro name key ⟨peer, entry, hpeer, hentry, hkey⟩
    have hsome : (σ'.ddcp.conclave.remotes.lookup name).map Peer.dhtKey = some peer.dhtKey := by
      rw [hkeys, hpeer]
      rfl
    obtain ⟨peer', hpeer', hdht⟩ := Option.map_eq_some_iff.1 hsome
    exact ⟨peer', entry, hpeer', by rw [hmap, hdht]; exact hentry, hkey⟩
  refine ⟨by rw [hown]; exact h.own, fun name status key hread hkey => hstays name key ?_⟩
  cases hs with
  | announce hx => exact h.current name status key hread hkey
  | @refresh name' tr r ddcp' hx =>
      -- either this refresh has read the status, or an earlier one
      by_cases hname : ∃ o, r = .ok (some o) ∧ name = name'
      · obtain ⟨o, rfl, rfl⟩ := hname
        have ho : o = some status := by simpa [Server.readBy] using hread
        subst ho
        exact hcond key hkey
      · refine h.current name status key ?_ hkey
        rw [← hread]
        unfold Server.readBy
        split
        · rename_i o
          exact (Function.update_of_ne (fun hn => hname ⟨o, rfl, hn⟩) _ _).symm
        · rfl
  | update hx => exact h.current name status key hread hkey

/-- **Current keys are answered**, in every run of the server task in which every status read has
    the key that the map made at its start has for that peer. -/
theorem answered_with_current_keys (hl : CryptoSystem.Lawful IsKeyPair) {ddcp : DDCP}
    (hown : IsKeyPair ddcp.conclave.sovereign.dhtOwnerKeypair.value) {ls : List ServerAction}
    {σ : Server} (hr : Run (guarded Server.Step MapHasKey) (Server.start ddcp) ls σ) :
    AnswersCurrentKeys IsKeyPair σ := by
  have h0 : KeysInv IsKeyPair (Server.start ddcp) :=
    ⟨hown, fun _ _ _ h => absurd h (by simp [Server.start])⟩
  have hinv : KeysInv IsKeyPair σ := hr.invariant h0 fun _ _ _ h hs => h.step hs
  intro name peer status key hpeer hread hkey pair hpair hvalue callId message request hreq tr r
    ddcp' hx
  obtain ⟨peer', entry, hpeer', hentry, hauth⟩ := hinv.current name status key hread hkey
  obtain rfl : peer' = peer := Option.some.inj (hpeer'.symm.trans hpeer)
  obtain ⟨contents, plain, hmessage, hseal, hplain⟩ := hreq
  obtain ⟨_, rfl, _⟩ := exec_handleAppCall_iff.1 hx
  refine ⟨⟨σ.ddcp.conclave, entry, ⟨CryptoSystem.keyToString peer'.dhtKey, contents⟩, callId,
    CryptoSystem.keyToString σ.ddcp.conclave.sovereign.dhtKey⟩, ?_, rfl, rfl, ?_⟩
  · simp only [DDCP.responderFor, hmessage, hentry, Option.map_some]
  · exact responder_answers hl hinv.own hpair hauth hvalue hseal hplain

end Keys

section Example
attribute [local instance] plainCapnp plainCrypto

/-- The status of a peer with the key `[9]`. -/
def peerStatus : NodeStatus := ⟨[1], 5, PlainCrypto.keyToString ⟨[], [9]⟩, [2]⟩

/-- A node with one peer, as far as it knows the peer's status. -/
def nodeKnowing (status : Option NodeStatus) : DDCP where
  conclave := {
    sovereign := ⟨⟨[], []⟩, ⟨[], ⟨[7], [7]⟩⟩, none, none⟩
    remotes := (∅ : AList fun _ : String => Peer).insert "p" {
      name := "p"
      dhtKey := ⟨[], [1]⟩
      dht := none
      nodeStatus := status
      routeId := none } }

/-- The peer has published its status. -/
def publishedStatus : CalmEnv where
  value _ := some (encode peerStatus)
  reply _ := []
  dbStatus := ([7], 0)
  tracked _ := 0
  rows := []

/-- A refresh of the peer, whatever was known of it. -/
def refreshTrace : List Event :=
  traceOn publishedStatus.handler (DDCP.onConclave (Conclave.onPeer "p" Peer.refresh))
    (nodeKnowing none) ()

def refreshedNode : DDCP where
  conclave := {
    sovereign := ⟨⟨[], []⟩, ⟨[], ⟨[7], [7]⟩⟩, none, none⟩
    remotes := (∅ : AList fun _ : String => Peer).insert "p" {
      name := "p"
      dhtKey := ⟨[], [1]⟩
      dht := some ⟨⟨[], [1]⟩⟩
      nodeStatus := some peerStatus
      routeId := some [2] } }

theorem exec_refresh_published (status : Option NodeStatus) :
    Exec (DDCP.onConclave (Conclave.onPeer "p" Peer.refresh)) (nodeKnowing status) refreshTrace
      (.ok (some (some peerStatus))) refreshedNode :=
  exec_traceOn publishedStatus.handler (DDCP.onConclave (Conclave.onPeer "p" Peer.refresh))
    (nodeKnowing status) ()

theorem answered_with_current_keys_known : ∃ ls σ,
    Run (guarded Server.Step MapHasKey) (Server.start (nodeKnowing (some peerStatus))) ls σ ∧
    σ.lastRead "p" = some peerStatus ∧ AnswersCurrentKeys (fun p => p.key = p.secret) σ := by
  have hcond : MapHasKey (Server.start (nodeKnowing (some peerStatus)))
      (.refresh "p" refreshTrace (.ok (some (some peerStatus)))) := by
    intro key hkey
    exact ⟨_, _, rfl, rfl, authKey_of_nodeStatus rfl hkey⟩
  obtain ⟨ls, σ, hr, hread⟩ : ∃ ls σ,
      Run (guarded Server.Step MapHasKey) (Server.start (nodeKnowing (some peerStatus))) ls σ ∧
      σ.lastRead "p" = some peerStatus :=
    ⟨_, _, .snoc .nil ⟨hcond, .refresh (exec_refresh_published _)⟩, rfl⟩
  exact ⟨ls, σ, hr, hread, answered_with_current_keys plainCrypto_lawful rfl hr⟩

/-- A request for the status, sealed by the peer. -/
def statusContents : Bytes :=
  calmNonce.bytes ++ ([9 + 7] ++ calmNonce.bytes ++ encode Request.status)

def statusMessage : Bytes :=
  encode (Envelope.mk (PlainCrypto.keyToString ⟨[], [1]⟩) statusContents)

/-- The responder for it, with the peer as it was when the task started. -/
def statusResponder : Responder where
  conclave := refreshedNode.conclave
  peer := ⟨"p", ⟨[], [1]⟩, none, none, none⟩
  envelope := ⟨PlainCrypto.keyToString ⟨[], [1]⟩, statusContents⟩
  callId := 0
  sender := PlainCrypto.keyToString ⟨[], []⟩

theorem exec_handleUpdate_status :
    Exec (DDCP.handleUpdate (nodeKnowing none).peerByKey (.appCall 0 statusMessage)) refreshedNode []
      (.ok (some statusResponder)) refreshedNode := by
  have hmessage : decode Envelope statusMessage = .ok statusResponder.envelope :=
    plainCapnp_decode_encode (Envelope.ofObj_toObj _)
  refine exec_handleAppCall_iff.2 ⟨rfl, ?_, rfl⟩
  simp only [DDCP.responderFor, hmessage]
  rfl

/-- A peer that publishes its first status after the task has started is not answered. -/
theorem first_status_unanswered : ∃ ls σ,
    Run Server.Step (Server.start (nodeKnowing none)) ls σ ∧ σ.lastRead "p" = some peerStatus ∧
    ¬ AnswersCurrentKeys (fun p => p.key = p.secret) σ := by
  refine ⟨_, _, .snoc .nil (.refresh (exec_refresh_published none)), rfl, fun hanswers => ?_⟩
  have hreq : RequestFrom refreshedNode ⟨[], [1]⟩ ⟨[], ⟨[9], [9]⟩⟩ statusMessage .status :=
    ⟨statusContents, encode Request.status, plainCapnp_decode_encode (Envelope.ofObj_toObj _),
      ⟨[9 + 7], calmNonce, _, rfl, rfl, rfl⟩, plainCapnp_decode_encode (Request.ofObj_toObj _)⟩
  obtain ⟨responder, hr, -, -, hans⟩ := hanswers "p" _ peerStatus ⟨[], [9]⟩ rfl rfl rfl
    ⟨[], ⟨[9], [9]⟩⟩ rfl rfl 0 statusMessage .status hreq [] _ _ exec_handleUpdate_status
  obtain rfl : statusResponder = responder := Option.some.inj (Except.ok.inj hr)
  -- its execution ends before the contents are opened
  have hrun : Exec (statusResponder.run : Act DDCP Unit) refreshedNode
      [⟨.veilid (.crypto CRYPTO_KIND_VLD0), .ok (some ())⟩]
      (.error (.err (otherErr "peer key not found"))) refreshedNode :=
    exec_traceOn publishedStatus.handler (statusResponder.run : Act DDCP Unit) refreshedNode ()
  obtain ⟨_, hok, _⟩ := hans refreshedNode _ _ _ hrun (by simp [Obliging])
  exact absurd hok (by simp)

end Example

end Ddcp
