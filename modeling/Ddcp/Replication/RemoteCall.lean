import Ddcp.Db.CellOrder
import Ddcp.Ident.Peering
import Ddcp.Node.Keys
import Ddcp.Replication.Cursor
import Ddcp.Replication.Programs

set_option autoImplicit false

/-! # A remote call

`Conclave::changes` at one node and a responder at the other are the two ends of a call of
`DB::changes`. Each end has its own idea of who the other is (a DHT key that a user has typed in, a
public key read from the DHT, an entry of the map that the server task made when it started), and
each wraps what it sends twice. When the network delivers what the two ends send, the call at the
one returns what `DB::changes` returns at the other. -/

namespace Ddcp

open Method Lts Relation
open Prog (Served)

section Server
variable [Capnp] [CryptoSystem]

/-! ## Who is asking -/

omit [Capnp] in
/-- The map of the server task has an entry for every key that a peer has, and it is such a peer. -/
theorem DDCP.lookup_foldl_insert {l : List Peer} {m : AList fun _ : String => Peer} {key : String} :
    (∀ p, (l.foldl (fun m p => m.insert (CryptoSystem.keyToString p.dhtKey) p) m).lookup key =
        some p →
      (p ∈ l ∧ CryptoSystem.keyToString p.dhtKey = key) ∨ m.lookup key = some p) ∧
    ((∃ p ∈ l, CryptoSystem.keyToString p.dhtKey = key) ∨ (m.lookup key).isSome →
      ((l.foldl (fun m p => m.insert (CryptoSystem.keyToString p.dhtKey) p) m).lookup
        key).isSome) := by
  induction l generalizing m with
  | nil => exact ⟨fun p hp => Or.inr hp, fun h => h.resolve_left (by simp)⟩
  | cons q l ih =>
      obtain ⟨hfound, hsome⟩ := ih (m := m.insert (CryptoSystem.keyToString q.dhtKey) q)
      constructor
      · intro p hp
        rcases hfound p hp with ⟨hmem, hkey⟩ | hp
        · exact Or.inl ⟨List.mem_cons_of_mem _ hmem, hkey⟩
        by_cases hq : key = CryptoSystem.keyToString q.dhtKey
        · subst hq
          rw [AList.lookup_insert] at hp
          obtain rfl := Option.some.inj hp
          exact Or.inl ⟨List.mem_cons_self, rfl⟩
        · rw [AList.lookup_insert_ne hq] at hp
          exact Or.inr hp
      · intro h
        refine hsome ?_
        by_cases hq : key = CryptoSystem.keyToString q.dhtKey
        · subst hq
          exact Or.inr (by rw [AList.lookup_insert]; rfl)
        · rw [AList.lookup_insert_ne hq]
          refine h.imp_left fun ⟨p, hmem, hkey⟩ => ⟨p, (List.mem_cons.1 hmem).resolve_left ?_, hkey⟩
          rintro rfl
          exact hq hkey.symm

omit [Capnp] in
/-- An entry that knows the status of another has its public key. -/
theorem Conclave.Knows.authKey {IsKeyPair : KeyPair → Prop} (hl : CryptoSystem.Lawful IsKeyPair)
    {c : Conclave} {other : Sovereign} {name : String} {p : Peer} (h : c.Knows other name)
    (hp : c.remotes.lookup name = some p) (hkey : p.dhtKey = other.dhtKey) :
    p.authKey = .ok (some other.authKey) := by
  obtain ⟨q, status, hq, hstatus, _, hauth⟩ := h
  obtain rfl : q = p := Option.some.inj (hq.symm.trans hp)
  refine authKey_of_nodeStatus hstatus ?_
  rw [hauth hkey]
  exact hl.keyFromStr_keyToString _

omit [Capnp] in
/-- When every entry a node has for another knows its status, so does the map of its server task. -/
theorem DDCP.peerByKey_knows {IsKeyPair : KeyPair → Prop} (hl : CryptoSystem.Lawful IsKeyPair)
    {s : DDCP} {other : Sovereign}
    (hknows : ∀ name p, s.conclave.remotes.lookup name = some p → p.dhtKey = other.dhtKey →
      s.conclave.Knows other name)
    (hhas : ∃ name, (s.conclave.remotes.lookup name).map Peer.dhtKey = some other.dhtKey) :
    ∃ entry, s.peerByKey.lookup (CryptoSystem.keyToString other.dhtKey) = some entry ∧
      entry.authKey = .ok (some other.authKey) := by
  obtain ⟨hfound, hsome⟩ := @DDCP.lookup_foldl_insert _ s.conclave.peers ∅
    (CryptoSystem.keyToString other.dhtKey)
  obtain ⟨name, hname⟩ := hhas
  obtain ⟨p, hp, hdht⟩ := Option.map_eq_some_iff.1 hname
  obtain ⟨entry, hentry⟩ := Option.isSome_iff_exists.1
    (hsome (Or.inl ⟨p, Conclave.mem_peers_iff.2 ⟨name, hp⟩, by rw [hdht]⟩))
  refine ⟨entry, hentry, ?_⟩
  obtain ⟨hmem, hkey⟩ := (hfound entry hentry).resolve_right (by simp)
  obtain ⟨name', hname'⟩ := Conclave.mem_peers_iff.1 hmem
  -- printed keys are equal only for equal keys
  have hdht' : entry.dhtKey = other.dhtKey := by
    have hback := hl.keyFromStr_keyToString entry.dhtKey
    rw [hkey] at hback
    exact (Except.ok.inj ((hl.keyFromStr_keyToString _).symm.trans hback)).symm
  exact (hknows name' entry hname' hdht').authKey hl hname' hdht'

/-- What the server task does leaves the node's own keys and the map. -/
theorem Server.run_keys {ddcp : DDCP} {ls : List ServerAction} {σ : Server}
    (hr : Run Server.Step (Server.start ddcp) ls σ) :
    σ.peerByKey = ddcp.peerByKey ∧
    σ.ddcp.conclave.sovereign.dhtKey = ddcp.conclave.sovereign.dhtKey ∧
    σ.ddcp.conclave.sovereign.dhtOwnerKeypair = ddcp.conclave.sovereign.dhtOwnerKeypair := by
  refine hr.invariant (I := fun σ => σ.peerByKey = ddcp.peerByKey ∧
    σ.ddcp.conclave.sovereign.dhtKey = ddcp.conclave.sovereign.dhtKey ∧
    σ.ddcp.conclave.sovereign.dhtOwnerKeypair = ddcp.conclave.sovereign.dhtOwnerKeypair)
    ⟨rfl, rfl, rfl⟩ ?_
  rintro σ l σ' ⟨hmap, hdht, hpair⟩ hs
  obtain ⟨hpair', _, hmap'⟩ := hs.keeps
  refine ⟨hmap'.trans hmap, ?_, hpair'.trans hpair⟩
  rw [← hdht]
  cases hs with
  | announce hx =>
      obtain ⟨_, _, _, ⟨_, rfl⟩ | ⟨_, _, _, _, hann, rfl⟩⟩ := Server.exec_announceStatus hx
      · rfl
      · have hkeep := congrArg Sovereign.dhtKey (announce_keeps hann)
        exact hkeep
  | refresh hx =>
      obtain ⟨c, hc, rfl⟩ := exec_zoom_iff.1 hx
      exact congrArg Sovereign.dhtKey (exec_onPeer_refresh hc).1
  | update hx =>
      rcases exec_handleUpdate hx with ⟨_, _, rfl⟩ | ⟨_, _, _, hrel, rfl⟩
      · rfl
      · have hkeep := congrArg Sovereign.dhtKey (releaseRoute_keeps hrel)
        exact hkeep

end Server

/-! ## What is asked and what is answered -/

section Call
variable [Capnp] [CryptoSystem] [LinearOrder CellData] (InLimits : Obj → Prop)
  (others : Database → Database → Prop) (db : Database)

omit [Capnp] [CryptoSystem] in
/-- `resp` is what `DB::changes` returns on a database that others change meanwhile. -/
def ChangesReturns (since : Int64) (resp : ChangesResponse) (db' : Database) : Prop :=
  ∃ tr, Exec (dbChanges since : Act Unit (Bytes × List Change)) () tr
    (.ok (resp.siteId, resp.changes)) () ∧ Served Database.Answers others db tr db'

/-- A call of the server task with `request` starts a responder that replies with `reply`. -/
def RepliesTo (σ : Server) (request reply : Bytes) (db' : Database) : Prop :=
  ∃ callId responder tr₁ ddcp₁ tr₂ ddcp₂,
    Exec (DDCP.handleUpdate σ.peerByKey (.appCall callId request)) σ.ddcp tr₁
      (.ok (some responder)) ddcp₁ ∧
    Exec (responder.run : Act DDCP Unit) ddcp₁ tr₂ (.ok ()) ddcp₂ ∧
    Served Database.Answers others db tr₂ db' ∧
    ⟨.veilid (.appCallReply callId reply), .ok ()⟩ ∈ tr₂

/-- The network delivers requests to the node `σ` and its replies back. -/
def Delivers (σ : Server) : Event → Prop
  | ⟨.veilid (.crypto _), a⟩ => a = .ok (some ())
  | ⟨.veilid (.appCall _ request), a⟩ =>
      ∃ reply db', a = .ok reply ∧ RepliesTo others db σ request reply db'
  | _ => True

/-- The messages of the call, from `a` to `b` and back, are within the library's limits. -/
structure FitsLimits (a b : Sovereign) (since : Int64) (resp : ChangesResponse) : Prop where
  request : InLimits (Request.changes since).toObj
  requestEnvelope : ∀ contents, Crypto.Seals ⟨a.dhtOwnerKeypair, b.authKey⟩
    (encode (Request.changes since)) contents →
    InLimits (Envelope.mk (CryptoSystem.keyToString a.dhtKey) contents).toObj
  response : InLimits (Response.changes resp).toObj
  replyEnvelope : ∀ contents, Crypto.Seals ⟨b.dhtOwnerKeypair, a.authKey⟩
    (encode (Response.changes resp)) contents →
    InLimits (Envelope.mk (CryptoSystem.keyToString b.dhtKey) contents).toObj

variable {InLimits others db} {since : Int64} {resp : ChangesResponse} {db' : Database}

omit [Capnp] [CryptoSystem] in
theorem changesReturns_iff : ChangesReturns others db since resp db' ↔ ∃ db₀ db₁,
    ReflTransGen others db db₀ ∧ ReflTransGen others db₀ db₁ ∧ ReflTransGen others db₁ db' ∧
    resp = answerChanges db₁ db₀.status since := by
  constructor
  · rintro ⟨tr, hx, hdb⟩
    obtain ⟨db₀, db₁, h₀, h₁, h₂, heq⟩ := exec_dbChanges_ok hx hdb
    exact ⟨db₀, db₁, h₀, h₁, h₂, heq.symm⟩
  · rintro ⟨db₀, db₁, h₀, h₁, h₂, rfl⟩
    -- what follows the status, once it has been read in `db₀`
    have hstatus : ∀ {tr res}, Exec (if since ≥ db₀.status.2 then pure (db₀.status.1, [])
        else Act.db (.select since) >>= fun changes => pure (db₀.status.1, changes) :
          Act Unit (Bytes × List Change)) () tr (.ok res) () →
        Exec (dbChanges since : Act Unit (Bytes × List Change)) ()
          (⟨.db .status, .ok db₀.status⟩ :: tr) (.ok res) () := fun h =>
      exec_bind_iff.2 (Or.inr ⟨[_], _, db₀.status, (), rfl,
        Act.exec_db_iff.2 ⟨_, rfl, rfl, rfl⟩, h⟩)
    unfold answerChanges
    by_cases hle : since ≥ db₀.status.2
    · rw [if_pos hle] at hstatus ⊢
      exact ⟨_, hstatus (.pure _), .cons h₀ ⟨Or.inl rfl, rfl⟩ (.nil (h₁.trans h₂))⟩
    · rw [if_neg hle] at hstatus ⊢
      have hselect : Exec (Act.db (.select since) >>= fun changes => pure (db₀.status.1, changes) :
          Act Unit (Bytes × List Change)) () [⟨.db (.select since), .ok (db₁.select since)⟩]
          (.ok (db₀.status.1, db₁.select since)) () :=
        exec_bind_iff.2 (Or.inr ⟨[_], [], db₁.select since, (), rfl,
          Act.exec_db_iff.2 ⟨.ok _, rfl, rfl, rfl⟩, exec_pure_iff.2 ⟨rfl, rfl, rfl⟩⟩)
      exact ⟨_, hstatus hselect, .cons h₀ ⟨Or.inl rfl, rfl⟩
        (.cons h₁ ⟨Or.inl rfl, rfl⟩ (.nil h₂))⟩

omit [Capnp] [CryptoSystem] in
/-- There is always a result: that of a database that is not changed meanwhile. -/
theorem exists_changesReturns (others : Database → Database → Prop) (db : Database)
    (since : Int64) : ∃ resp db', ChangesReturns others db since resp db' :=
  ⟨_, db, changesReturns_iff.2 ⟨db, db, .refl, .refl, .refl, rfl⟩⟩

omit [Capnp] [CryptoSystem] in
/-- On a database that nobody else changes there is one result. -/
theorem changesReturns_alone_iff : ChangesReturns Prog.alone db since resp db' ↔
    (resp.siteId, resp.changes) = db.changes since ∧ db' = db := by
  rw [changesReturns_iff]
  constructor
  · rintro ⟨db₀, db₁, h₀, h₁, h₂, rfl⟩
    obtain rfl := Prog.alone_iff.1 h₀
    obtain rfl := Prog.alone_iff.1 h₁
    obtain rfl := Prog.alone_iff.1 h₂
    rw [answerChanges_status]
    exact ⟨rfl, rfl⟩
  · rintro ⟨hresp, rfl⟩
    refine ⟨db', db', .refl, .refl, .refl, ?_⟩
    rw [answerChanges_status, ← hresp]

/-- The server task runs for `b` and has the public key of `a` in its map. -/
structure CanAnswer (σ : Server) (a b : Sovereign) : Prop where
  entry : ∃ entry, σ.peerByKey.lookup (CryptoSystem.keyToString a.dhtKey) = some entry ∧
    entry.authKey = .ok (some a.authKey)
  dhtKey : σ.ddcp.conclave.sovereign.dhtKey = b.dhtKey
  pair : σ.ddcp.conclave.sovereign.dhtOwnerKeypair = b.dhtOwnerKeypair

variable {IsKeyPair : KeyPair → Prop} {σ : Server} {a b : Sovereign} {contents : Bytes}

omit [LinearOrder CellData] in
theorem CanAnswer.responderFor (h : CanAnswer σ a b) (hc : Capnp.ReadsBack InLimits)
    (hin : InLimits (Envelope.mk (CryptoSystem.keyToString a.dhtKey) contents).toObj)
    (callId : UInt64) : ∃ r : Responder,
      σ.ddcp.responderFor σ.peerByKey callId
        (encode (Envelope.mk (CryptoSystem.keyToString a.dhtKey) contents)) = .ok (some r) ∧
      r.callId = callId ∧ r.envelope.contents = contents ∧
      r.sender = CryptoSystem.keyToString b.dhtKey ∧ r.conclave = σ.ddcp.conclave ∧
      r.peer.authKey = .ok (some a.authKey) := by
  obtain ⟨entry, hentry, hauth⟩ := h.entry
  have hback := hc.decode_of_tree (x := Envelope.mk (CryptoSystem.keyToString a.dhtKey) contents)
    (Envelope.ofObj_toObj _) hin
  refine ⟨⟨σ.ddcp.conclave, entry, ⟨CryptoSystem.keyToString a.dhtKey, contents⟩, callId,
    CryptoSystem.keyToString σ.ddcp.conclave.sovereign.dhtKey⟩, ?_, rfl, rfl,
    congrArg CryptoSystem.keyToString h.dhtKey, rfl, hauth⟩
  simp only [DDCP.responderFor, hback, hentry, Option.map_some]

omit [LinearOrder CellData] in
/-- A responder that has sent its reply has sent no other. -/
theorem Responder.reply_unique {τ : Type} {r : Responder} {crypto : Crypto} {s s' : τ}
    {tr : List Event} (h : Exec (r.respond crypto : Act τ Unit) s tr (.ok ()) s') {callId : UInt64}
    {reply reply' : Bytes} (hmem : ⟨.veilid (.appCallReply callId reply), .ok ()⟩ ∈ tr)
    (hmem' : ⟨.veilid (.appCallReply callId reply'), .ok ()⟩ ∈ tr) : reply = reply' := by
  obtain ⟨tr₁, tr₂, request, s₁, rfl, hdecode, h₁⟩ := exec_bind_ok_iff.1 h
  obtain ⟨rfl, _, rfl⟩ := Act.exec_lift_iff.1 hdecode
  obtain ⟨tr₃, tr₄, resp, s₂, rfl, hanswer, hreply⟩ := exec_bind_ok_iff.1 h₁
  obtain ⟨_, hcalls⟩ := within_answerRequest (fun _ => id) crypto request _ _ _ _ hanswer
  obtain ⟨htr₄, rfl⟩ := Act.exec_veilid_ok_iff.1 hreply
  have hlast : ∀ reply, (⟨.veilid (.appCallReply callId reply), .ok ()⟩ : Event) ∈
      [] ++ (tr₃ ++ tr₄) → reply = encode (Envelope.mk r.sender resp) := by
    intro reply hmem
    rw [List.nil_append] at hmem
    rcases List.mem_append.1 hmem with hmem | hmem
    · have hno : AnswerCall (.veilid (.appCallReply callId reply)) := hcalls _ hmem
      exact hno.elim
    · rw [htr₄] at hmem
      obtain ⟨hcall, _⟩ := Sigma.mk.inj (List.mem_singleton.1 hmem)
      exact (VeilidCall.appCallReply.inj (Call.veilid.inj hcall)).2
  rw [hlast reply hmem, hlast reply' hmem']

/-- What the node replies to a request of the other: what `DB::changes` returns, sealed. -/
theorem CanAnswer.reply_eq (h : CanAnswer σ a b) (hl : CryptoSystem.Lawful IsKeyPair)
    (hc : Capnp.ReadsBack InLimits) (ha : IsKeyPair a.dhtOwnerKeypair.value)
    (hb : IsKeyPair b.dhtOwnerKeypair.value) (hrequest : InLimits (Request.changes since).toObj)
    (hseal : Crypto.Seals ⟨a.dhtOwnerKeypair, b.authKey⟩ (encode (Request.changes since)) contents)
    (hin : InLimits (Envelope.mk (CryptoSystem.keyToString a.dhtKey) contents).toObj)
    {reply : Bytes} (hreply : RepliesTo others db σ
      (encode (Envelope.mk (CryptoSystem.keyToString a.dhtKey) contents)) reply db') :
    ∃ resp sealed, ChangesReturns others db since resp db' ∧
      Crypto.Seals ⟨b.dhtOwnerKeypair, a.authKey⟩ (encode (Response.changes resp)) sealed ∧
      reply = encode (Envelope.mk (CryptoSystem.keyToString b.dhtKey) sealed) := by
  obtain ⟨callId, responder, tr₁, ddcp₁, tr₂, ddcp₂, hcall, hrun, hdb, hmem⟩ := hreply
  obtain ⟨r, hr, rfl, hcontents, hsender, hconclave, hauth⟩ := h.responderFor hc hin callId
  obtain ⟨rfl, hresponder, rfl⟩ := exec_handleAppCall_iff.1 hcall
  obtain rfl : responder = r := Option.some.inj (Except.ok.inj (hresponder.trans hr))
  -- its crypto is that of the two
  obtain ⟨tr₃, tr₄, crypto, s₁, rfl, hcrypto, hrespond⟩ := exec_bind_ok_iff.1 hrun
  obtain ⟨vld0, rfl, rfl, hwith⟩ := exec_crypto_iff.1 hcrypto
  obtain rfl : crypto = ⟨b.dhtOwnerKeypair, a.authKey⟩ := by
    cases vld0 with
    | error e => exact absurd hwith (by simp [bind, Except.bind])
    | ok v =>
        obtain ⟨_, key, hkey, rfl⟩ := cryptoWith_ok_iff.1
          (hwith.symm : responder.conclave.cryptoWith responder.peer v = .ok crypto)
        obtain rfl := Option.some.inj (Except.ok.inj (hauth.symm.trans hkey))
        rw [hconclave, h.pair]
  have hopen : Crypto.decode Request ⟨b.dhtOwnerKeypair, a.authKey⟩ responder.envelope.contents =
      .ok (.changes since) := by
    rw [hcontents]
    refine (Crypto.decode_of_seals hl ha hb hseal).trans ?_
    rw [hc.decode_of_tree (x := Request.changes since) (Request.ofObj_toObj _) hrequest]
    rfl
  obtain ⟨db₁, hcryptoDb, hrespondDb⟩ := Prog.served_append_iff.1 hdb
  have hbefore : ReflTransGen others db db₁ := hcryptoDb.idle fun e he w w' hw => by
    rw [List.mem_singleton.1 he] at hw
    exact hw
  obtain ⟨db₂, db₃, sealed, h₁, h₂, h₃, hsealed, hsent⟩ :=
    exec_respond_changes hopen hrespond (hrespondDb.after hbefore)
  refine ⟨_, sealed, changesReturns_iff.2 ⟨db₂, db₃, h₁, h₂, h₃, rfl⟩, hsealed, ?_⟩
  have hmem₄ : ⟨.veilid (.appCallReply responder.callId reply), .ok ()⟩ ∈ tr₄ :=
    (List.mem_append.1 hmem).resolve_left (by simp)
  rw [Responder.reply_unique hrespond hmem₄ hsent, hsender]

/-- A database that nobody else changes, and an obliging network. -/
def Database.answer (db : Database) : (c : Call) → Ret c
  | .db .status => .ok db.status
  | .db (.select since) => .ok (db.select since)
  | c => (CalmEnv.mk (fun _ => none) (fun _ => []) ([], 0) (fun _ => 0) []).answer c

omit [Capnp] [CryptoSystem] in
theorem Database.answer_good {c : Call} (h : RespondCall c) :
    Obliging ⟨c, db.answer c⟩ ∧ db.Answers ⟨c, db.answer c⟩ db := by
  cases c with
  | veilid c =>
      cases c with
      | crypto kind => exact ⟨rfl, rfl⟩
      | appCallReply callId message => exact ⟨rfl, rfl⟩
      | _ => exact h.elim
  | db c =>
      cases c with
      | status => exact ⟨⟨_, rfl⟩, Or.inl rfl, rfl⟩
      | select since => exact ⟨⟨_, rfl⟩, Or.inl rfl, rfl⟩
      | _ => exact h.elim
  | randomNonce => exact ⟨trivial, rfl⟩
  | shutdown => exact h.elim

/-- The node does reply to a request of the other. -/
theorem CanAnswer.exists_reply (h : CanAnswer σ a b) (hl : CryptoSystem.Lawful IsKeyPair)
    (hc : Capnp.ReadsBack InLimits) (ha : IsKeyPair a.dhtOwnerKeypair.value)
    (hb : IsKeyPair b.dhtOwnerKeypair.value) (hrequest : InLimits (Request.changes since).toObj)
    (hseal : Crypto.Seals ⟨a.dhtOwnerKeypair, b.authKey⟩ (encode (Request.changes since)) contents)
    (hin : InLimits (Envelope.mk (CryptoSystem.keyToString a.dhtKey) contents).toObj) :
    ∃ reply, RepliesTo others db σ
      (encode (Envelope.mk (CryptoSystem.keyToString a.dhtKey) contents)) reply db := by
  obtain ⟨r, hr, hcall, rfl, _, hconclave, hauth⟩ := h.responderFor hc hin 0
  have hown : r.conclave.sovereign.dhtOwnerKeypair = b.dhtOwnerKeypair := by rw [hconclave, h.pair]
  have hanswers : r.Answers a.authKey (.changes since) := by
    refine responder_answers hl (hown ▸ hb) ha hauth rfl ?_
      (hc.decode_of_tree (x := Request.changes since) (Request.ofObj_toObj _) hrequest)
    unfold Sovereign.authKey at hseal ⊢
    rw [hown]
    exact hseal
  have hx := exec_traceOn (fun c w => (db.answer c, w)) (r.run : Act DDCP Unit) σ.ddcp ()
  have hall : ∀ e ∈ traceOn (fun c w => (db.answer c, w)) (r.run : Act DDCP Unit) σ.ddcp (),
      Obliging e ∧ db.Answers e db := by
    rintro ⟨c, answer⟩ he
    obtain rfl : answer = db.answer c := Prog.trace_answers he
    exact Database.answer_good ((within_responder r _ _ _ _ hx).2 _ he)
  obtain ⟨⟨⟩, hok, _, sealed, _, _, hmem⟩ := hanswers _ _ _ _ hx fun e he => (hall e he).1
  rw [hok] at hx
  exact ⟨_, 0, r, [], σ.ddcp, _, _, exec_handleAppCall_iff.2 ⟨rfl, hr.symm, rfl⟩, hx,
    Prog.Served.of_idle fun e he => (hall e he).2, hcall ▸ hmem⟩

/-! ## Calling -/

variable {τ : Type} {s : τ} {good : Event → Prop} {c : Conclave} {peer : Peer}

omit [LinearOrder CellData] in
/-- A reply of the node decodes to what `DB::changes` returned. -/
theorem FitsLimits.decodeReply (hlim : FitsLimits InLimits a b since resp)
    (hl : CryptoSystem.Lawful IsKeyPair) (hc : Capnp.ReadsBack InLimits)
    (ha : IsKeyPair a.dhtOwnerKeypair.value) (hb : IsKeyPair b.dhtOwnerKeypair.value)
    {sealed : Bytes} (hsealed : Crypto.Seals ⟨b.dhtOwnerKeypair, a.authKey⟩
      (encode (Response.changes resp)) sealed) :
    Conclave.decodeReply ⟨a.dhtOwnerKeypair, b.authKey⟩
      (encode (Envelope.mk (CryptoSystem.keyToString b.dhtKey) sealed)) = .ok resp := by
  have henvelope := hc.decode_of_tree (x := Envelope.mk (CryptoSystem.keyToString b.dhtKey) sealed)
    (Envelope.ofObj_toObj _) (hlim.replyEnvelope sealed hsealed)
  refine (decodeReply_ok_iff henvelope).2 ((Crypto.decode_of_seals hl hb ha hsealed).trans ?_)
  rw [hc.decode_of_tree (x := Response.changes resp) (Response.ofObj_toObj _) hlim.response]
  rfl

omit [Capnp] [LinearOrder CellData] in
/-- The crypto of a call, when the crypto system is there. -/
theorem Conclave.ensures_crypto (hauth : peer.authKey = .ok (some b.authKey))
    (hcrypto : ∀ kind (v : Except VeilidAPIError (Option Unit)),
      good ⟨.veilid (.crypto kind), v⟩ → v = .ok (some ())) :
    Ensures good (c.crypto peer) s fun tr crypto s' =>
      tr = [⟨.veilid (.crypto CRYPTO_KIND_VLD0), .ok (some ())⟩] ∧
      crypto = ⟨c.sovereign.dhtOwnerKeypair, b.authKey⟩ ∧ s' = s := by
  intro tr r s' hx hgood
  obtain ⟨v, rfl, rfl, rfl⟩ := exec_crypto_iff.1 hx
  obtain rfl := hcrypto _ v (hgood _ List.mem_cons_self)
  exact ⟨_, cryptoWith_ok_iff.2 ⟨rfl, _, hauth, rfl⟩, rfl, rfl, rfl⟩

/-- **The call**, when the crypto system is there and requests get to the node and back. -/
theorem Conclave.ensures_changes (hl : CryptoSystem.Lawful IsKeyPair)
    (hc : Capnp.ReadsBack InLimits) (ha : IsKeyPair c.sovereign.dhtOwnerKeypair.value)
    (hb : IsKeyPair b.dhtOwnerKeypair.value) (hanswer : CanAnswer σ c.sovereign b)
    (hauth : peer.authKey = .ok (some b.authKey)) (hroute : peer.routeId.isSome)
    (hlim : ∀ resp db', ChangesReturns others db since resp db' →
      FitsLimits InLimits c.sovereign b since resp)
    (hcrypto : ∀ kind (v : Except VeilidAPIError (Option Unit)),
      good ⟨.veilid (.crypto kind), v⟩ → v = .ok (some ()))
    (hcall : ∀ target contents (v : Except VeilidAPIError Bytes),
      Crypto.Seals ⟨c.sovereign.dhtOwnerKeypair, b.authKey⟩ (encode (Request.changes since))
        contents →
      good ⟨.veilid (.appCall target
        (encode (Envelope.mk (CryptoSystem.keyToString c.sovereign.dhtKey) contents))), v⟩ →
      ∃ reply db', v = .ok reply ∧ RepliesTo others db σ
        (encode (Envelope.mk (CryptoSystem.keyToString c.sovereign.dhtKey) contents)) reply db') :
    Ensures good (c.changes peer since) s fun tr resp s' =>
      (∀ e ∈ tr, Delivers others db σ e) ∧ s' = s ∧
        ∃ db', ChangesReturns others db since resp db' := by
  obtain ⟨resp₀, db₀, hresp₀⟩ := exists_changesReturns others db since
  have hlim₀ := hlim resp₀ db₀ hresp₀
  obtain ⟨target, htarget⟩ := Option.isSome_iff_exists.1 hroute
  refine (Conclave.ensures_crypto hauth hcrypto).bind ?_
  rintro tr₁ crypto s₁ ⟨rfl, rfl, rfl⟩
  -- the request is sealed under some nonce
  have hencode : Ensures good (Crypto.encode ⟨c.sovereign.dhtOwnerKeypair, b.authKey⟩
      (Request.changes since)) s₁ fun tr contents s' => (∃ nonce, tr = [⟨.randomNonce, nonce⟩]) ∧
        Crypto.Seals ⟨c.sovereign.dhtOwnerKeypair, b.authKey⟩ (encode (Request.changes since))
          contents ∧ s' = s₁ := by
    intro tr r s' hx hgood
    obtain ⟨contents, rfl, hseal, hs⟩ := Crypto.ensures_encode hl ha hb _ _ _ hx hgood
    exact ⟨contents, rfl, (Crypto.exec_encode_ok hx).2.2, hseal, hs⟩
  refine hencode.bind ?_
  rintro tr₂ contents s₂ ⟨⟨nonce, rfl⟩, hseal, rfl⟩
  rw [htarget]
  refine Ensures.bind (P := fun tr id s' => tr = [] ∧ target = id ∧ s₂ = s')
    (Ensures.pure ⟨rfl, rfl, rfl⟩) ?_
  rintro _ _ _ ⟨rfl, rfl, rfl⟩
  -- it gets to the node, and the reply back
  have hsend : Ensures good (Act.veilid (.appCall target (encode (Envelope.mk
      (CryptoSystem.keyToString c.sovereign.dhtKey) contents)))) s₂ fun tr reply s' =>
        (∀ e ∈ tr, Delivers others db σ e) ∧ s' = s₂ ∧ ∃ db', RepliesTo others db σ (encode
          (Envelope.mk (CryptoSystem.keyToString c.sovereign.dhtKey) contents)) reply db' := by
    refine ensures_veilid fun v hv => ?_
    obtain ⟨reply, db', rfl, hreply⟩ := hcall _ _ v hseal hv
    refine ⟨reply, rfl, fun e he => ?_, rfl, db', hreply⟩
    rw [List.mem_singleton.1 he]
    exact ⟨reply, db', rfl, hreply⟩
  refine hsend.attempt.bind ?_
  rintro tr₄ _ s₄ ⟨reply, rfl, hdelivers, rfl, db', hreply⟩
  obtain ⟨resp, sealed, hresp, hsealed, rfl⟩ := hanswer.reply_eq hl hc ha hb hlim₀.request hseal
    (hlim₀.requestEnvelope contents hseal) hreply
  refine ensures_lift ((hlim resp db' hresp).decodeReply hl hc ha hb hsealed)
    ⟨fun e he => ?_, rfl, db', hresp⟩
  simp only [List.append_nil, List.nil_append, List.mem_append, List.mem_singleton] at he
  rcases he with rfl | rfl | he
  · rfl
  · trivial
  · exact hdelivers e he

/-- Such a call can be made: the network sends back what the node replies. -/
theorem Conclave.exists_delivered_changes (hl : CryptoSystem.Lawful IsKeyPair)
    (hc : Capnp.ReadsBack InLimits) (ha : IsKeyPair c.sovereign.dhtOwnerKeypair.value)
    (hb : IsKeyPair b.dhtOwnerKeypair.value) (hanswer : CanAnswer σ c.sovereign b)
    (hauth : peer.authKey = .ok (some b.authKey)) (hroute : peer.routeId.isSome)
    (hlim : ∀ resp db', ChangesReturns others db since resp db' →
      FitsLimits InLimits c.sovereign b since resp) :
    ∃ tr resp, Exec (c.changes peer since) s tr (.ok resp) s ∧
      ∀ e ∈ tr, Delivers others db σ e := by
  classical
  let reply : Bytes → Bytes := fun request =>
    if h : ∃ reply, RepliesTo others db σ request reply db then h.choose else []
  let env : CalmEnv := ⟨fun _ => none, reply, ([], 0), fun _ => 0, []⟩
  have hcall : ∀ target contents (v : Except VeilidAPIError Bytes),
      Crypto.Seals ⟨c.sovereign.dhtOwnerKeypair, b.authKey⟩ (encode (Request.changes since))
        contents →
      v = env.answer (.veilid (.appCall target
        (encode (Envelope.mk (CryptoSystem.keyToString c.sovereign.dhtKey) contents)))) →
      ∃ reply db', v = .ok reply ∧ RepliesTo others db σ
        (encode (Envelope.mk (CryptoSystem.keyToString c.sovereign.dhtKey) contents)) reply db' := by
    intro target contents v hseal hv
    obtain ⟨resp₀, db₀, hresp₀⟩ := exists_changesReturns others db since
    have hlim₀ := hlim resp₀ db₀ hresp₀
    have hreply : ∃ r, RepliesTo others db σ
        (encode (Envelope.mk (CryptoSystem.keyToString c.sovereign.dhtKey) contents)) r db :=
      hanswer.exists_reply hl hc ha hb hlim₀.request hseal (hlim₀.requestEnvelope contents hseal)
    have hchosen : reply (encode (Envelope.mk (CryptoSystem.keyToString c.sovereign.dhtKey)
      contents)) = hreply.choose := dif_pos hreply
    have hspec := hreply.choose_spec
    rw [← hchosen] at hspec
    exact ⟨_, db, hv, hspec⟩
  have hx := exec_traceOn env.handler (c.changes peer since : Act τ ChangesResponse) s ()
  have hcalls : Ensures (fun e => e.2 = env.answer e.1) (c.changes peer since) s
      fun tr resp s' => (∀ e ∈ tr, Delivers others db σ e) ∧ s' = s ∧
        ∃ db', ChangesReturns others db since resp db' :=
    Conclave.ensures_changes hl hc ha hb hanswer hauth hroute hlim (fun kind v hv => hv) hcall
  obtain ⟨resp, hok, hdelivers, hs, _⟩ := hcalls _ _ _ hx fun e he => Prog.trace_answers he
  rw [hok, hs] at hx
  exact ⟨_, resp, hx, hdelivers⟩

/-- **A remote call is transparent.** Two nodes, after any commands, announcements, refreshes and
    restarts: `a` has added `b` by its address and has read its status; `b` has added `a` and had
    read the status of `a`, under each name it has for it, when its server task started; since then
    the task has done anything. Then `a` has an entry for `b`, requests for changes can be
    delivered, and when they are, `Conclave::changes` returns what `DB::changes` returns at `b`: on
    a database that nobody else changes, the one list. -/
theorem changes_transparent (hl : CryptoSystem.Lawful IsKeyPair) (hc : Capnp.ReadsBack InLimits)
    {a b : Conclave} (ha : IsKeyPair a.sovereign.dhtOwnerKeypair.value)
    (hb : IsKeyPair b.sovereign.dhtOwnerKeypair.value) {wa wa' wb wb' : StoreWorld}
    {la lb : List MemberAction}
    (hra : Run (Member.Step InLimits b.sovereign) ⟨wa, none⟩ la ⟨wa', some a⟩)
    (hrb : Run (Member.Step InLimits a.sovereign) ⟨wb, none⟩ lb ⟨wb', some b⟩)
    {nameA nameB : String} (hadda : Added la nameB (DDCP.mk b).addr) (hrefa : Refreshed la nameB)
    (haddb : Added lb nameA (DDCP.mk a).addr)
    (hrefb : ∀ name p, b.remotes.lookup name = some p → p.dhtKey = a.sovereign.dhtKey →
      Refreshed lb name)
    {ls : List ServerAction} {σ : Server} (hserve : Run Server.Step (Server.start ⟨b⟩) ls σ)
    (hlim : ∀ resp db', ChangesReturns others db since resp db' →
      FitsLimits InLimits a.sovereign b.sovereign since resp) (s : τ) :
    ∃ peer, a.peer nameB = some peer ∧
      (∃ tr resp, Exec (a.changes peer since) s tr (.ok resp) s ∧
        ∀ e ∈ tr, Delivers others db σ e) ∧
      (∀ tr r s', Exec (a.changes peer since) s tr r s' → (∀ e ∈ tr, Delivers others db σ e) →
        ∃ resp db', r = .ok resp ∧ ChangesReturns others db since resp db') ∧
      ∀ resp db', ChangesReturns Prog.alone db since resp db' ↔
        (resp.siteId, resp.changes) = db.changes since ∧ db' = db := by
  -- what each knows of the other
  have hasB := hadda.hasRemote (hl.keyFromStr_keyToString _) hra
  have hasA := haddb.hasRemote (hl.keyFromStr_keyToString _) hrb
  obtain ⟨peer, hpeer, hdht⟩ := Option.map_eq_some_iff.1 (hasB.conclave a rfl)
  have hknows := hrefa.knows hc hra a rfl
  have hauth := hknows.authKey hl hpeer hdht
  have hroute : peer.routeId.isSome := by
    obtain ⟨p, _, hp, _, hroute, _⟩ := hknows
    exact Option.some.inj (hp.symm.trans hpeer) ▸ hroute
  have hanswer : CanAnswer σ a.sovereign b.sovereign := by
    obtain ⟨hmap, hkey, hpair⟩ := Server.run_keys hserve
    refine ⟨?_, hkey, hpair⟩
    rw [hmap]
    exact DDCP.peerByKey_knows hl (fun name p hp hdht => (hrefb name p hp hdht).knows hc hrb b rfl)
      ⟨nameA, hasA.conclave b rfl⟩
  refine ⟨peer, hpeer,
    Conclave.exists_delivered_changes hl hc ha hb hanswer hauth hroute hlim,
    fun tr r s' hx hall => ?_, fun resp db' => changesReturns_alone_iff⟩
  have hcalls : Ensures (Delivers others db σ) (a.changes peer since) s
      fun tr resp s' => (∀ e ∈ tr, Delivers others db σ e) ∧ s' = s ∧
        ∃ db', ChangesReturns others db since resp db' :=
    Conclave.ensures_changes hl hc ha hb hanswer hauth hroute hlim (fun kind v hv => hv)
      fun target contents v _ hv => hv
  obtain ⟨resp, rfl, _, _, db', hresp⟩ := hcalls _ _ _ hx hall
  exact ⟨resp, db', rfl, hresp⟩

end Call

section Example
attribute [local instance] plainCapnp plainCrypto cellDataOrder

/-- A member whose record and key pair have the same key, and that has no remotes. -/
def loneConclave (x : Bytes) : Conclave :=
  ⟨⟨⟨CRYPTO_KIND_VLD0, x⟩, ⟨CRYPTO_KIND_VLD0, x, x⟩, some ⟨⟨CRYPTO_KIND_VLD0, x⟩⟩, none⟩, ∅⟩

/-- What is stored at such a member. -/
def loneWorld (x : Bytes) : StoreWorld :=
  (StoreWorld.empty.put .conclaveLocal 0 [] (some (.typedKey ⟨CRYPTO_KIND_VLD0, x⟩))).put
    .conclaveLocal 1 [] (some (.keyPair ⟨x, x⟩))

theorem runs_new (x : Bytes) :
    (loneWorld x).Runs Conclave.new () (.ok (loneConclave x)) () (loneWorld x) := by
  refine ⟨[⟨.tableStore, .ok ()⟩, ⟨.open .conclaveLocal 2, .ok ()⟩,
    ⟨.loadJson .conclaveLocal 0 [], .ok (some (.typedKey ⟨CRYPTO_KIND_VLD0, x⟩))⟩,
    ⟨.loadJson .conclaveLocal 1 [], .ok (some (.keyPair ⟨x, x⟩))⟩,
    ⟨.openDhtRecord ⟨CRYPTO_KIND_VLD0, x⟩ (some ⟨x, x⟩), .ok ⟨⟨CRYPTO_KIND_VLD0, x⟩⟩⟩,
    ⟨.tableStore, .ok ()⟩, ⟨.open .conclaveRemotes 1, .ok ()⟩,
    ⟨.getKeys .conclaveRemotes 0, .ok []⟩], ?_, ?_⟩
  · exact .call (.call (.call (.call (.call (.call (.call (.call (.pure _))))))))
  · refine .cons .refl rfl <| .cons .refl rfl <| .cons .refl ⟨rfl, rfl⟩ <| .cons .refl ⟨rfl, rfl⟩ <|
      .cons .refl ⟨rfl, rfl⟩ <| .cons .refl rfl <| .cons .refl rfl <|
      .cons .refl ⟨rfl, List.nodup_nil, fun key => ?_⟩ (.nil .refl)
    simp [loneWorld, StoreWorld.put, StoreWorld.empty]

/-- A refresh of an entry that has just been added. -/
theorem Peer.exec_refresh_fresh [Capnp] {name : String} {key : TypedKey} {data : Bytes}
    {status : NodeStatus} (hdecode : decode NodeStatus data = .ok status) :
    Exec Peer.refresh ⟨name, key, none, none, none⟩
      [⟨.veilid (.openDhtRecord key none), .ok ⟨key⟩⟩,
        ⟨.veilid (.getDhtValue key DHT_SUBKEY_STATUS true), .ok (some data)⟩,
        ⟨.veilid (.importRemotePrivateRoute status.route), .ok []⟩]
      (.ok (some status)) ⟨name, key, some ⟨key⟩, some status, some []⟩ := by
  rw [Peer.refresh_eq]
  refine exec_get_bind_iff.2 (.call ?_)
  refine Act.exec_veilid_bind_iff.2 (Or.inr ⟨some data, _, rfl, ?_⟩)
  rw [Peer.cacheStatus, hdecode]
  exact .call (.pure _)

/-- The other has been added, and its status read. -/
theorem Member.run_peering (x : Bytes) (other : Sovereign) :
    ∃ c world status, Run (Member.Step (fun _ => True) other) ⟨loneWorld x, none⟩
        [.restart (.ok (loneConclave x)),
          .add "peer" (CryptoSystem.keyToString other.dhtKey) (.ok ()),
          .refresh "peer" (.ok (some (some status)))] ⟨world, some c⟩ ∧
      c.sovereign = (loneConclave x).sovereign ∧
      ∀ name q, c.remotes.lookup name = some q → name = "peer" := by
  let status : NodeStatus := other.nodeStatus ⟨[], 0⟩ ⟨[], []⟩
  let p : Peer := ⟨"peer", other.dhtKey, none, none, none⟩
  let c : Conclave := { loneConclave x with remotes := AList.insert "peer" p ∅ }
  obtain ⟨tr₁, hnew, hw₁⟩ := runs_new x
  have hadd : (loneWorld x).Runs (remoteAdd "peer" (CryptoSystem.keyToString other.dhtKey))
      (loneConclave x) (.ok ()) c ((loneWorld x).putRemote "peer" (some other.dhtKey)) :=
    runs_remoteAdd (PlainCrypto.keyFromStr_keyToString _)
  obtain ⟨tr₂, hadd, hw₂⟩ := hadd
  have hlookup : c.remotes.lookup "peer" = some p := AList.lookup_insert _
  have hrefresh := exec_onPeer_of_lookup hlookup (Peer.exec_refresh_fresh
    (plainCapnp_decode_encode (x := status) (NodeStatus.ofObj_toObj _)))
  refine ⟨_, _, status, .cons (.restart hnew hw₁) (.cons (.add rfl hadd hw₂)
    (.cons (.refresh rfl hrefresh ?_) .nil)), rfl, ?_⟩
  · -- of the three calls of the refresh, the second reads the status
    intro e he data hdata
    subst hdata
    obtain rfl : data = encode status := by simpa using he
    exact ⟨_, _, rfl, trivial⟩
  · intro name q hq
    by_contra hne
    rw [AList.lookup_replace_ne hne, AList.lookup_insert_ne hne] at hq
    exact absurd hq (by simp)

def oneRow : Change := ⟨"t", [1], "c", .real 13837628693406821909, 1, 1, 1, 0⟩

/-- A database with that row. -/
def oneRowDatabase : Database where
  siteId := [2]
  cells := AList.insert oneRow.key ⟨oneRow.data, 1, 0, none⟩ ∅
  trackedPeers := ∅
  clock := 1

/-- A call that returns the row of the other, whose value is a real. -/
theorem changes_transparent_row : ∃ (a : Conclave) (peer : Peer) (tr : List Event)
    (resp : ChangesResponse),
    Exec (a.changes peer 0 : Act Unit ChangesResponse) () tr (.ok resp) () ∧
    resp.siteId = [2] ∧ resp.changes = [oneRow] := by
  obtain ⟨a, wa, statusA, hra, hsova, -⟩ := Member.run_peering [5] (loneConclave [7]).sovereign
  obtain ⟨b, wb, statusB, hrb, hsovb, hpeers⟩ := Member.run_peering [7] (loneConclave [5]).sovereign
  rw [← hsovb] at hra
  rw [← hsova] at hrb
  have hrefa : Refreshed [.restart (.ok (loneConclave [5])),
      .add "peer" (CryptoSystem.keyToString b.sovereign.dhtKey) (.ok ()),
      .refresh "peer" (.ok (some (some statusA)))] "peer" := ⟨[_, _], statusA, [], rfl, by simp⟩
  have hrefb : Refreshed [.restart (.ok (loneConclave [7])),
      .add "peer" (CryptoSystem.keyToString a.sovereign.dhtKey) (.ok ()),
      .refresh "peer" (.ok (some (some statusB)))] "peer" := ⟨[_, _], statusB, [], rfl, by simp⟩
  have hlim : ∀ resp db', ChangesReturns Prog.alone oneRowDatabase 0 resp db' →
      FitsLimits (fun _ => True) a.sovereign b.sovereign 0 resp := fun _ _ _ =>
    ⟨trivial, fun _ _ => trivial, trivial, fun _ _ => trivial⟩
  obtain ⟨peer, -, ⟨tr, resp, hx, hdelivers⟩, hall, hone⟩ := changes_transparent
    plainCrypto_lawful (fun o _ => plainCapnp_read_write o) (by rw [hsova]; rfl) (by rw [hsovb]; rfl)
    hra hrb ⟨[_], [_], rfl, by simp [MemberAction.Touches]⟩ hrefa
    ⟨[_], [_], rfl, by simp [MemberAction.Touches]⟩
    (fun name p hp _ => (hpeers name p hp).symm ▸ hrefb) .nil hlim ()
  obtain ⟨resp', db', hresp, hreturns⟩ := hall tr (.ok resp) () hx hdelivers
  obtain rfl := Except.ok.inj hresp
  have hrow : oneRowDatabase.changes 0 = ([2], [oneRow]) := by decide
  obtain ⟨hsite, hchanges⟩ := Prod.mk.inj (((hone resp db').1 hreturns).1.trans hrow)
  exact ⟨a, peer, tr, resp, hx, hsite, hchanges⟩

end Example

end Ddcp
