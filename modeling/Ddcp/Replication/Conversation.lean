import Ddcp.Ident.Startup
import Ddcp.Lib.Protocol
import Ddcp.Node.Serving
import Ddcp.Replication.Programs

set_option autoImplicit false

/-! # What a node says to the others

`push`, `pull` and the two loops of `serve` work on fields that earlier calls have filled: a status
that was found in the DHT, a route that was imported from another one, the node's own route. What
they ask of the network only makes sense in the light of these calls. Here this is a `Protocol`: a
method announces only statuses it has read from its own database, calls a peer only over a route
published under that peer's DHT key, with a request sealed for the key published there, from the
cursor it has read for it; and it merges only what the reply to that request decodes to. Every
method of a node keeps it, from any fields that are in order (`Conclave.Informed`), whatever
answers it gets. -/

namespace Ddcp

open Method

/-- Who the nodes are, and whose route it is that a blob describes and that an imported id leads
    to. -/
structure Setup (N : Type) where
  site : N → Bytes
  dhtKey : N → TypedKey
  keys : N → TypedKeyPair
  home : Bytes → N
  owner : RouteId → N

namespace Setup
variable {N : Type} (S : Setup N)

def authKey (n : N) : TypedKey := ⟨(S.keys n).kind, (S.keys n).value.key⟩

/-- The crypto of `n` for `m`. -/
def crypto (n m : N) : Crypto := ⟨S.keys n, S.authKey m⟩

end Setup

/-! ## The protocol -/

/-- How far the pull of a task has come: it has read its cursor for a peer whose status, found
    under the given key, is above it; and it has got a reply. -/
inductive Stage where
  | idle
  | asked (key : TypedKey) (ns : NodeStatus) (sinceDbVersion : Int64)
  | replied (key : TypedKey) (ns : NodeStatus) (sinceDbVersion : Int64) (reply : Bytes)

/-- What a task knows: the statuses found under each key, and those read from the own database. -/
structure Talk where
  known : TypedKey → NodeStatus → Prop
  read : Status → Prop
  stage : Stage

section Protocol
variable [Capnp] [CryptoSystem] {N : Type} (S : Setup N) (n : N)

omit [CryptoSystem] in
def Talk.after (q : Talk) (e : Event) (stage : Stage) : Talk where
  known key ns := q.known key ns ∨ ∃ subkey force data,
    e = ⟨.veilid (.getDhtValue key subkey force), .ok (some data)⟩ ∧
    decode NodeStatus data = .ok ns
  read st := q.read st ∨ e = ⟨.db .status, .ok (st.siteId, st.dbVersion)⟩
  stage := stage

/-- The calls that are neither part of a pull nor end one. -/
def Call.Aside : Call → Prop
  | .veilid (.appCall _ _) => False
  | .db (.merge _ _) => False
  | _ => True

omit [Capnp] [CryptoSystem] in
/-- Where a call and its answer take the pull of a task. Any call may be the first after a pull that
    has been given up. -/
inductive Talk.Moves (q : Talk) : Event → Stage → Prop
  | idle (e : Event) : Moves q e .idle
  | stay {e : Event} (he : e.1.Aside) : Moves q e q.stage
  | ask {key : TypedKey} {ns : NodeStatus} {v : Int64} (hknown : q.known key ns)
      (hlt : v < ns.dbVersion) :
      Moves q ⟨.db (.trackedPeerVersion ns.siteId), .ok v⟩ (.asked key ns v)
  | reply {key : TypedKey} {ns : NodeStatus} {since : Int64} {target : RouteId}
      {message reply : Bytes} (h : q.stage = .asked key ns since) :
      Moves q ⟨.veilid (.appCall target message), .ok reply⟩ (.replied key ns since reply)

/-- What may be called. -/
def Talk.May (q : Talk) : Call → Prop
  | .veilid (.setDhtValue key _ data) => key = S.dhtKey n ∧ ∃ ns : NodeStatus,
      data = encode ns ∧ q.read ns.status ∧ ns.key = CryptoSystem.keyToString (S.authKey n) ∧
      S.home ns.route = n
  | .veilid (.appCall target message) => ∃ key ns since ns' recipient contents,
      q.stage = .asked key ns since ∧ q.known key ns' ∧ S.owner target = S.home ns'.route ∧
      CryptoSystem.keyFromStr ns.key = .ok recipient ∧
      message = encode (Envelope.mk (CryptoSystem.keyToString (S.dhtKey n)) contents) ∧
      Crypto.Seals ⟨S.keys n, recipient⟩ (encode (Request.changes since)) contents
  | .db (.merge siteId changes) => ∃ key ns since reply recipient,
      q.stage = .replied key ns since reply ∧ siteId = ns.siteId ∧
      CryptoSystem.keyFromStr ns.key = .ok recipient ∧
      Conclave.decodeReply ⟨S.keys n, recipient⟩ reply = .ok ⟨siteId, changes⟩
  | .veilid (.appCallReply _ _) => False
  | .db (.select _) => False
  | .db .finalize => False
  | .shutdown => False
  | _ => True

/-- A route the node creates is its own, and an imported route leads to the node whose it is. -/
def Promised (e : Event) : Prop :=
  (∀ id data, e = ⟨.veilid .newPrivateRoute, .ok (id, data)⟩ → S.home data = n) ∧
  ∀ blob id, e = ⟨.veilid (.importRemotePrivateRoute blob), .ok id⟩ → S.owner id = S.home blob

def nodeProtocol : Protocol Call Ret Talk where
  may := Talk.May S n
  promised _ := Promised S n
  next q e q' := ∃ stage, q.Moves e stage ∧ q' = q.after e stage

omit [Capnp] [CryptoSystem] in
/-- Nothing is forgotten. -/
structure Talk.le (q q' : Talk) : Prop where
  known : ∀ key ns, q.known key ns → q'.known key ns
  read : ∀ st, q.read st → q'.read st

omit [Capnp] [CryptoSystem] in
theorem Talk.le.refl (q : Talk) : q.le q := ⟨fun _ _ h => h, fun _ h => h⟩

omit [Capnp] [CryptoSystem] in
theorem Talk.le.trans {q q₁ q₂ : Talk} (h : q.le q₁) (h' : q₁.le q₂) : q.le q₂ :=
  ⟨fun key ns hk => h'.known key ns (h.known key ns hk), fun st hs => h'.read st (h.read st hs)⟩

omit [CryptoSystem] in
theorem Talk.le_after (q : Talk) (e : Event) (stage : Stage) : q.le (q.after e stage) :=
  ⟨fun _ _ h => Or.inl h, fun _ h => Or.inl h⟩

end Protocol

/-! ## Steps without a call, and sealing -/

section Pure
variable {Q σ α : Type} {P : Protocol Call Ret Q} {s : σ} {q : Q}

theorem follows_lift {x : Except Abort α} {fin : Except Abort α → σ → Q → Prop}
    (h : fin x s q) : Follows P (Act.lift x) s q fin := by
  cases x with
  | ok a => exact h
  | error e => exact h

theorem follows_okOr {e : Error} {o : Option α} {fin : Except Abort α → σ → Q → Prop}
    (hsome : ∀ a, o = some a → fin (.ok a) s q) (hnone : fin (.error (.err e)) s q) :
    Follows P (Act.okOr e o) s q fin := by
  cases o with
  | some a => exact hsome a rfl
  | none => exact hnone

variable [Capnp] [CryptoSystem]

/-- Sealing asks for a nonce. -/
theorem Crypto.follows_encode [Encodable α] {I : Q → Prop} (h0 : I q)
    (hnonce : ∀ q, I q → P.may q .randomNonce ∧ ∀ nonce, P.promised q ⟨.randomNonce, nonce⟩ →
      ∃ q', P.next q ⟨.randomNonce, nonce⟩ q' ∧ I q') (crypto : Crypto) (item : α) :
    Follows P (crypto.encode item : Act σ Bytes) s q fun r s' q' => s' = s ∧ I q' ∧
      ∀ contents, r = .ok contents → crypto.Seals (Ddcp.encode item) contents := by
  refine Follows.bind (M := fun r s' q' => s' = s ∧ I q' ∧
    ∀ key, r = .ok key → crypto.sharedKey = .ok key) (follows_lift ⟨rfl, h0, fun key hkey => ?_⟩)
    (fun key s₁ q₁ h₁ => ?_) fun e s₁ q₁ h₁ => ⟨h₁.1, h₁.2.1, by simp⟩
  · exact Crypto.liftVeilid_ok hkey.symm
  obtain ⟨rfl, hI, hkey⟩ := h₁
  refine Follows.bind (M := fun _ s' q' => s' = s₁ ∧ I q') (Follows.perform (hnonce q₁ hI).1
    fun nonce hn => ?_) (fun nonce s₂ q₂ h₂ => ?_) fun e s₂ q₂ h₂ => ⟨h₂.1, h₂.2, by simp⟩
  · obtain ⟨q', hnext, hI'⟩ := (hnonce q₁ hI).2 nonce hn
    exact ⟨q', hnext, rfl, hI'⟩
  obtain ⟨rfl, hI₂⟩ := h₂
  refine Follows.bind (M := fun r s' q' => s' = s₂ ∧ I q' ∧ ∀ message, r = .ok message →
    CryptoSystem.encryptInPlaceAead (Ddcp.encode item) nonce key = .ok message)
    (follows_lift ⟨rfl, hI₂, fun message hm => ?_⟩) (fun message s₃ q₃ h₃ => ?_)
    fun e s₃ q₃ h₃ => ⟨h₃.1, h₃.2.1, by simp⟩
  · exact Crypto.liftVeilid_ok hm.symm
  · obtain ⟨rfl, hI₃, hm⟩ := h₃
    refine Follows.pure ⟨rfl, hI₃, fun contents hc => ?_⟩
    exact ⟨key, nonce, message, hkey key rfl, hm message rfl, (Except.ok.inj hc).symm⟩

end Pure

/-! ## One call -/

section Calls
variable [Capnp] [CryptoSystem] {N : Type} {S : Setup N} {n : N} {σ α : Type} {s : σ} {q : Talk}

omit [Capnp] [CryptoSystem] in
theorem nodeProtocol_le [Capnp] [CryptoSystem] {q' : Talk} {e : Event}
    (h : (nodeProtocol S n).next q e q') : q.le q' := by
  obtain ⟨stage, _, rfl⟩ := h
  exact q.le_after e stage

/-- However a method goes on, what was known stays known. -/
theorem follows_le {x : Act σ α} {fin : Except Abort α → σ → Talk → Prop}
    (h : Follows (nodeProtocol S n) x s q fin) :
    Follows (nodeProtocol S n) x s q fun r s' q' => fin r s' q' ∧ q.le q' :=
  Prog.Follows.along Talk.le.refl (fun _ _ _ => Talk.le.trans) (fun _ _ _ => nodeProtocol_le) h

theorem follows_veilid {c : VeilidCall} {fin : Except Abort c.Val → σ → Talk → Prop}
    (hmay : q.May S n (.veilid c))
    (h : ∀ a : Except VeilidAPIError c.Val, Promised S n ⟨.veilid c, a⟩ → ∃ stage,
      q.Moves ⟨.veilid c, a⟩ stage ∧
      fin (a.mapError fun e => .err (.veilidAPI e)) s (q.after ⟨.veilid c, a⟩ stage)) :
    Follows (nodeProtocol S n) (Act.veilid c) s q fin := by
  refine ⟨hmay, fun a ha => ?_⟩
  obtain ⟨stage, hmoves, hfin⟩ := h a ha
  refine ⟨_, ⟨stage, hmoves, rfl⟩, ?_⟩
  cases a with
  | ok v => exact hfin
  | error e => exact hfin

theorem follows_db {c : DbCall} {fin : Except Abort c.Val → σ → Talk → Prop}
    (hmay : q.May S n (.db c))
    (h : ∀ a : Except DbError c.Val, ∃ stage, q.Moves ⟨.db c, a⟩ stage ∧
      fin (a.mapError fun e => .err (.db e)) s (q.after ⟨.db c, a⟩ stage)) :
    Follows (nodeProtocol S n) (Act.db c) s q fin := by
  refine ⟨hmay, fun a _ => ?_⟩
  obtain ⟨stage, hmoves, hfin⟩ := h a
  refine ⟨_, ⟨stage, hmoves, rfl⟩, ?_⟩
  cases a with
  | ok v => exact hfin
  | error e => exact hfin

/-- A call aside leaves the pull as it stands. -/
theorem follows_aside {c : VeilidCall} {fin : Except Abort c.Val → σ → Talk → Prop}
    (hc : (Call.veilid c).Aside) (hmay : q.May S n (.veilid c))
    (h : ∀ a : Except VeilidAPIError c.Val, Promised S n ⟨.veilid c, a⟩ →
      fin (a.mapError fun e => .err (.veilidAPI e)) s (q.after ⟨.veilid c, a⟩ q.stage)) :
    Follows (nodeProtocol S n) (Act.veilid c) s q fin :=
  follows_veilid hmay fun a ha => ⟨q.stage, .stay hc, h a ha⟩

theorem follows_closeRecord {o : Option DHTRecordDescriptor}
    {fin : Except Abort Unit → σ → Talk → Prop} (h : ∀ r q', q.le q' → q'.stage = q.stage →
      fin r s q') : Follows (nodeProtocol S n) (Act.closeRecord o) s q fin := by
  cases o with
  | none => exact h _ q (.refl q) rfl
  | some dht =>
      exact follows_aside trivial trivial fun a _ => h _ _ (q.le_after _ _) rfl

end Calls

/-! ## The fields -/

section Informed
variable [CryptoSystem] {N : Type}

omit [CryptoSystem] in
/-- The status of an entry was found under its key, and its route is of a status that was. -/
structure Peer.Informed (S : Setup N) (known : TypedKey → NodeStatus → Prop) (p : Peer) : Prop where
  status : ∀ ns, p.nodeStatus = some ns → known p.dhtKey ns
  route : ∀ id, p.routeId = some id → ∃ ns, known p.dhtKey ns ∧ S.owner id = S.home ns.route

omit [CryptoSystem] in
structure Sovereign.Of (S : Setup N) (n : N) (s : Sovereign) : Prop where
  dhtKey : s.dhtKey = S.dhtKey n
  keys : s.dhtOwnerKeypair = S.keys n
  route : ∀ route, s.route = some route → S.home route.data = n

omit [CryptoSystem] in
structure Conclave.Informed (S : Setup N) (n : N) (known : TypedKey → NodeStatus → Prop)
    (c : Conclave) : Prop where
  sovereign : c.sovereign.Of S n
  remotes : ∀ name p, c.remotes.lookup name = some p → p.Informed S known

variable {S : Setup N} {n : N} {known known' : TypedKey → NodeStatus → Prop}

omit [CryptoSystem] in
theorem Peer.Informed.mono {p : Peer} (h : p.Informed S known)
    (hle : ∀ key ns, known key ns → known' key ns) : p.Informed S known' where
  status ns hns := hle _ _ (h.status ns hns)
  route id hid := by
    obtain ⟨ns, hns, howner⟩ := h.route id hid
    exact ⟨ns, hle _ _ hns, howner⟩

omit [CryptoSystem] in
theorem Conclave.Informed.mono {c : Conclave} (h : c.Informed S n known)
    (hle : ∀ key ns, known key ns → known' key ns) : c.Informed S n known' where
  sovereign := h.sovereign
  remotes name p hp := (h.remotes name p hp).mono hle

omit [CryptoSystem] in
/-- A startup knows of nobody. -/
theorem Peer.informed_fresh {p : Peer} (hstatus : p.nodeStatus = none) (hroute : p.routeId = none) :
    p.Informed S known where
  status ns h := absurd h (by simp [hstatus])
  route id h := absurd h (by simp [hroute])

end Informed

/-! ## Announcing -/

section Announce
variable [Capnp] [CryptoSystem] {N : Type} {S : Setup N} {n : N} {q : Talk}

theorem follows_releaseRoute {s : Sovereign} (h : s.Of S n) :
    Follows (nodeProtocol S n) Sovereign.releaseRoute s q fun _ s' q' =>
      s'.Of S n ∧ q.le q' := by
  refine follows_le (Follows.get_bind ?_)
  cases hr : s.route with
  | none => exact h
  | some route =>
      refine Follows.bind (M := fun _ s' _ => s'.Of S n) ?_ (fun _ s₁ q₁ h₁ => ?_)
        fun _ _ _ h₁ => h₁
      · exact follows_aside trivial trivial fun a _ => h
      · exact Follows.modify ⟨h₁.dhtKey, h₁.keys, fun route hroute => absurd hroute (by simp)⟩

theorem follows_currentRoute {s : Sovereign} (h : s.Of S n) :
    Follows (nodeProtocol S n) Sovereign.currentRoute s q fun r s' q' =>
      (s'.Of S n ∧ ∀ route, r = .ok route → S.home route.data = n) ∧ q.le q' := by
  refine follows_le (Follows.get_bind ?_)
  cases hr : s.route with
  | some route =>
      refine Follows.pure ⟨h, fun route' hroute => ?_⟩
      obtain rfl := Except.ok.inj hroute
      exact h.route route hr
  | none =>
      refine Follows.bind (M := fun r s' _ => s'.Of S n ∧ ∀ v : RouteId × Bytes, r = .ok v →
        S.home v.2 = n) ?_ (fun v s₁ q₁ h₁ => ?_) fun e s₁ q₁ h₁ => ⟨h₁.1, by simp⟩
      · refine follows_aside trivial trivial fun a ha => ⟨h, fun v hv => ?_⟩
        rw [Except.mapError_eq_ok_iff] at hv
        exact ha.1 v.1 v.2 (by rw [hv])
      · have hhome := h₁.2 v rfl
        refine Follows.modify_bind (Follows.pure ⟨⟨h₁.1.dhtKey, h₁.1.keys, fun route hroute => ?_⟩,
          fun route hroute => ?_⟩)
        · obtain rfl := Option.some.inj hroute
          exact hhome
        · obtain rfl := Except.ok.inj hroute
          exact hhome

/-- `announce` publishes a status that has been read. -/
theorem follows_announce {s : Sovereign} {st : Status} (h : s.Of S n) (hst : q.read st) :
    Follows (nodeProtocol S n) (Sovereign.announce st) s q fun _ s' q' =>
      s'.Of S n ∧ q.le q' := by
  refine follows_le ((follows_currentRoute h).bind (fun route s₁ q₁ h₁ => ?_)
    fun _ _ _ h₁ => h₁.1.1)
  obtain ⟨⟨hs₁, hroute⟩, hle⟩ := h₁
  refine Follows.get_bind (follows_aside trivial ⟨hs₁.dhtKey, _, rfl, hle.read _ hst, ?_,
    hroute route rfl⟩ fun _ _ => hs₁)
  show CryptoSystem.keyToString s₁.authKey = _
  rw [Sovereign.authKey, hs₁.keys, Setup.authKey]

end Announce

/-! ## Refreshing the peers -/

section Refresh
variable [Capnp] [CryptoSystem] {N : Type} {S : Setup N} {n : N} {q : Talk}

/-- A route is imported from the status that the entry has. -/
theorem follows_refreshRoute {p : Peer} (h : p.Informed S q.known) :
    Follows (nodeProtocol S n) Peer.refreshRoute p q fun _ p' q' =>
      p'.Informed S q'.known ∧ q.le q' := by
  refine follows_le (Follows.get_bind ?_)
  cases hns : p.nodeStatus with
  | none => exact h
  | some ns =>
      refine Follows.bind (M := fun r p' q' => p'.Informed S q'.known ∧ p'.dhtKey = p.dhtKey ∧
        q.le q' ∧ ∀ id, r = .ok id → S.owner id = S.home ns.route) ?_ (fun id p₁ q₁ h₁ => ?_)
        fun _ _ _ h₁ => h₁.1
      · refine follows_aside trivial trivial fun a ha => ?_
        refine ⟨h.mono fun _ _ => Or.inl, rfl, q.le_after _ _, fun id hid => ?_⟩
        rw [Except.mapError_eq_ok_iff] at hid
        exact ha.2 ns.route id (by rw [hid])
      · obtain ⟨hp₁, hkey, hle, howner⟩ := h₁
        refine Follows.modify ⟨hp₁.status, fun id' hid => ?_⟩
        obtain rfl := Option.some.inj hid
        refine ⟨ns, ?_, howner id rfl⟩
        show q₁.known p₁.dhtKey ns
        rw [hkey]
        exact hle.known _ _ (h.status ns hns)

/-- A status that is found is known under the key that it was found under. -/
theorem follows_refreshDht {p : Peer} (h : p.Informed S q.known) :
    Follows (nodeProtocol S n) Peer.refreshDht p q fun _ p' q' =>
      p'.Informed S q'.known ∧ q.le q' := by
  refine follows_le (Follows.get_bind ?_)
  have hkept : ∀ {p' : Peer} {q' : Talk}, p' = p ∧ q.le q' → p'.Informed S q'.known :=
    fun h' => h'.1 ▸ h.mono h'.2.known
  refine Follows.bind (M := fun _ p' q' => p' = p ∧ q.le q') ?_ (fun _ p₁ q₁ h₁ => ?_)
    fun _ _ _ => hkept
  · exact follows_closeRecord fun r q' hle _ => ⟨rfl, hle⟩
  refine Follows.bind (M := fun _ p' q' => p' = p ∧ q.le q') ?_ (fun dht p₂ q₂ h₂ => ?_)
    fun _ _ _ => hkept
  · exact follows_aside trivial trivial fun a _ => ⟨h₁.1, h₁.2.trans (q₁.le_after _ _)⟩
  -- from here on the entry has the new handle
  have hp₃ : ({ p₂ with dht := some dht } : Peer).Informed S q₂.known :=
    ⟨(hkept h₂).status, (hkept h₂).route⟩
  refine Follows.modify_bind (Follows.bind (M := fun r p' q' => p'.Informed S q'.known ∧
    p'.dhtKey = p.dhtKey ∧ ∀ data ns, r = .ok (some data) → decode NodeStatus data = .ok ns →
      q'.known p.dhtKey ns) ?_ (fun value p₄ q₄ h₄ => ?_) fun _ _ _ h₄ => h₄.1)
  · refine follows_aside trivial trivial fun a _ => ⟨hp₃.mono fun _ _ => Or.inl, ?_, ?_⟩
    · rw [h₂.1]
    · intro data ns hdata hdecode
      rw [Except.mapError_eq_ok_iff] at hdata
      exact Or.inr ⟨_, _, data, by rw [hdata], hdecode⟩
  obtain ⟨hp₄, hkey, hknown⟩ := h₄
  cases value with
  | none => exact Follows.modify ⟨fun ns hns => absurd hns (by simp), hp₄.route⟩
  | some data =>
      refine Follows.bind (M := fun r p' q' => p' = p₄ ∧ q' = q₄ ∧
        ∀ ns, r = .ok ns → decode NodeStatus data = .ok ns) (follows_lift ⟨rfl, rfl, ?_⟩)
        (fun ns p₅ q₅ h₅ => ?_) fun _ _ _ h₅ => h₅.2.1 ▸ h₅.1 ▸ hp₄
      · intro ns hns
        rwa [Except.mapError_eq_ok_iff] at hns
      · obtain ⟨rfl, rfl, hdecode⟩ := h₅
        refine Follows.modify ⟨fun ns' hns => ?_, hp₄.route⟩
        obtain rfl := Option.some.inj hns
        show q₅.known p₅.dhtKey ns
        rw [hkey]
        exact hknown data ns rfl (hdecode ns rfl)

theorem follows_peerRefresh {p : Peer} (h : p.Informed S q.known) :
    Follows (nodeProtocol S n) Peer.refresh p q fun _ p' q' =>
      p'.Informed S q'.known ∧ q.le q' := by
  refine follows_le ((follows_refreshDht h).bind (fun _ p₁ q₁ h₁ => ?_) fun _ _ _ h₁ => h₁.1)
  refine (follows_refreshRoute h₁.1).bind (fun _ p₂ q₂ h₂ => ?_) fun _ _ _ h₂ => h₂.1
  exact Follows.get_bind (Follows.pure h₂.1)

/-- A method of one entry, among the others. -/
theorem follows_onPeer {α : Type} {name : String} {x : Act Peer α} {c : Conclave}
    (h : c.Informed S n q.known)
    (hx : ∀ p, c.remotes.lookup name = some p → Follows (nodeProtocol S n) x p q
      fun _ p' q' => p'.Informed S q'.known ∧ q.le q') :
    Follows (nodeProtocol S n) (Conclave.onPeer name x) c q fun _ c' q' =>
      c'.Informed S n q'.known ∧ q.le q' := by
  refine Follows.get_bind ?_
  cases hp : c.remotes.lookup name with
  | none => exact ⟨h, .refl q⟩
  | some p =>
      refine Follows.bind (M := fun _ c' q' => c'.Informed S n q'.known ∧ q.le q')
        (Follows.zoom ((hx p hp).mono fun _ p' q' h' => ⟨⟨h.sovereign, fun name' p'' hp'' => ?_⟩,
          h'.2⟩)) (fun _ _ _ h₁ => Follows.pure h₁) fun _ _ _ h₁ => h₁
      by_cases hname : name' = name
      · subst hname
        rw [AList.lookup_replace_self (AList.lookup_isSome.1 (by rw [hp]; rfl))] at hp''
        obtain rfl := Option.some.inj hp''
        exact h'.1
      · rw [AList.lookup_replace_ne hname] at hp''
        exact (h.remotes name' p'' hp'').mono h'.2.known

theorem follows_refreshPeers {c : Conclave} (h : c.Informed S n q.known) :
    Follows (nodeProtocol S n) Conclave.refreshPeers c q fun _ c' q' =>
      c'.Informed S n q'.known ∧ q.le q' := by
  refine follows_le (Follows.get_bind (Follows.forM
    (I := fun (c : Conclave) (q : Talk) => c.Informed S n q.known) h fun name _ c₁ q₁ h₁ => ?_))
  refine (follows_onPeer h₁ fun p hp => follows_peerRefresh (h₁.remotes name p hp)).bind
    (fun _ _ _ h₂ => Follows.pure h₂.1) fun _ _ _ h₂ => h₂.1

theorem follows_refresh {c : Conclave} {st : Status} (h : c.Informed S n q.known)
    (hst : q.read st) : Follows (nodeProtocol S n) (Conclave.refresh st) c q fun _ c' q' =>
      c'.Informed S n q'.known ∧ q.le q' := by
  refine follows_le (Follows.bind (M := fun _ c' q' => c'.Informed S n q'.known)
    (Follows.zoom ((follows_announce h.sovereign hst).mono fun r s' q' h' =>
      ⟨h'.1, fun name p hp => (h.remotes name p hp).mono h'.2.known⟩))
    (fun _ c₁ q₁ h₁ => ?_) fun _ _ _ h₁ => h₁)
  exact (follows_refreshPeers h₁).mono fun _ _ _ h₂ => h₂.1

/-- **`push` keeps the protocol.** -/
theorem follows_push {d : DDCP} (h : d.conclave.Informed S n q.known) :
    Follows (nodeProtocol S n) DDCP.push d q fun _ d' q' =>
      d'.conclave.Informed S n q'.known ∧ q.le q' := by
  refine follows_le (Follows.bind (M := fun r d' q' => d'.conclave.Informed S n q'.known ∧
    ∀ st, r = .ok st → q'.read ⟨st.1, st.2⟩) ?_ (fun st d₁ q₁ h₁ => ?_) fun _ _ _ h₁ => h₁.1)
  · refine follows_db trivial fun a => ⟨q.stage, .stay trivial, h.mono fun _ _ => Or.inl, ?_⟩
    intro st hst
    rw [Except.mapError_eq_ok_iff] at hst
    exact Or.inr (by rw [hst])
  · refine Follows.bind (M := fun _ d' q' => d'.conclave.Informed S n q'.known)
      (Follows.zoom ((follows_refresh h₁.1 (h₁.2 st rfl)).mono fun _ _ _ h₂ => h₂.1))
      (fun _ d₂ q₂ h₂ => Follows.get_bind (Follows.pure h₂)) fun _ _ _ h₂ => h₂

end Refresh

/-! ## Pulling -/

section Pull
variable [Capnp] [CryptoSystem] {N : Type} {S : Setup N} {n : N} {q : Talk} {σ : Type} {s : σ}

theorem follows_encode {α : Type} [Encodable α] (crypto : Crypto) (item : α) :
    Follows (nodeProtocol S n) (crypto.encode item : Act σ Bytes) s q fun r s' q' => s' = s ∧
      (q'.stage = q.stage ∧ q.le q') ∧
      ∀ contents, r = .ok contents → crypto.Seals (encode item) contents :=
  Crypto.follows_encode (P := nodeProtocol S n) (I := fun q' => q'.stage = q.stage ∧ q.le q')
    ⟨rfl, .refl q⟩ (fun q' h => ⟨trivial, fun nonce _ =>
      ⟨q'.after ⟨.randomNonce, nonce⟩ q'.stage, ⟨q'.stage, .stay trivial, rfl⟩, h.1,
        h.2.trans (q'.le_after _ _)⟩⟩) crypto item

/-- The crypto for a peer has the key of its status. -/
theorem follows_crypto {c : Conclave} {peer : Peer} {ns : NodeStatus}
    (hc : c.sovereign.Of S n) (hns : peer.nodeStatus = some ns) :
    Follows (nodeProtocol S n) (c.crypto peer : Act σ Crypto) s q fun r s' q' =>
      s' = s ∧ q'.stage = q.stage ∧ q.le q' ∧ ∀ crypto, r = .ok crypto →
        ∃ recipient, CryptoSystem.keyFromStr ns.key = .ok recipient ∧
          crypto = ⟨S.keys n, recipient⟩ := by
  refine Follows.bind (M := fun _ s' q' => s' = s ∧ q'.stage = q.stage ∧ q.le q')
    (follows_aside trivial trivial fun a _ => ⟨rfl, rfl, q.le_after _ _⟩)
    (fun vld0 s₁ q₁ h₁ => follows_lift ⟨h₁.1, h₁.2.1, h₁.2.2, fun crypto hcrypto => ?_⟩)
    fun e s₁ q₁ h₁ => ⟨h₁.1, h₁.2.1, h₁.2.2, by simp⟩
  obtain ⟨_, key, hkey, rfl⟩ := cryptoWith_ok_iff.1 hcrypto
  refine ⟨key, ?_, by rw [hc.keys]⟩
  unfold Peer.authKey at hkey
  rw [hns] at hkey
  cases hfrom : CryptoSystem.keyFromStr ns.key with
  | error e => simp [hfrom, Except.map] at hkey
  | ok recipient => simpa [hfrom, Except.map] using hkey

/-- The call of `changes`: what returns is what the reply to it decodes to. -/
theorem follows_callPeer {crypto : Crypto} {target : RouteId} {message : Bytes} {key : TypedKey}
    {ns : NodeStatus} {since : Int64} (hstage : q.stage = .asked key ns since)
    (hmay : q.May S n (.veilid (.appCall target message))) :
    Follows (nodeProtocol S n) (Conclave.callPeer crypto target message : Act σ ChangesResponse) s q
      fun r s' q' => s' = s ∧ ∀ resp, r = .ok resp → ∃ reply,
        q'.stage = .replied key ns since reply ∧ Conclave.decodeReply crypto reply = .ok resp := by
  refine Follows.bind (M := fun r s' q' => s' = s ∧ (∀ reply, r = .ok (.ok reply) →
    q'.stage = .replied key ns since reply)) (Follows.attempt (follows_veilid hmay fun a _ => ?_))
    (fun r s₁ q₁ h₁ => ?_) fun e s₁ q₁ h₁ => ⟨h₁.1, by simp⟩
  · cases a with
    | ok reply =>
        refine ⟨_, .reply hstage, rfl, fun reply' hreply => ?_⟩
        obtain rfl : reply = reply' := Except.ok.inj (Except.ok.inj hreply)
        rfl
    | error e => exact ⟨_, .idle _, rfl, fun reply hreply => absurd hreply (by simp [settle, Abort.err?])⟩
  · cases r with
    | ok reply => exact follows_lift ⟨h₁.1, fun resp hresp => ⟨reply, h₁.2 reply rfl, hresp⟩⟩
    | error e =>
        refine Follows.bind (M := fun _ s' _ => s' = s) (Follows.attempt ?_)
          (fun _ s₂ q₂ h₂ => Follows.throw ⟨h₂, by simp⟩) fun e' s₂ q₂ h₂ => ⟨h₂, by simp⟩
        exact follows_aside trivial trivial fun a _ => h₁.1

/-- `changes`, by a task that has read its cursor. -/
theorem follows_changes {c : Conclave} {peer : Peer} {ns : NodeStatus} {since : Int64}
    (hc : c.sovereign.Of S n) (hp : peer.Informed S q.known) (hns : peer.nodeStatus = some ns)
    (hstage : q.stage = .asked peer.dhtKey ns since) :
    Follows (nodeProtocol S n) (c.changes peer since : Act σ ChangesResponse) s q fun r s' q' =>
      s' = s ∧ ∀ resp, r = .ok resp → ∃ reply recipient,
        q'.stage = .replied peer.dhtKey ns since reply ∧
        CryptoSystem.keyFromStr ns.key = .ok recipient ∧
        Conclave.decodeReply ⟨S.keys n, recipient⟩ reply = .ok resp := by
  refine (follows_crypto hc hns).bind (fun crypto s₁ q₁ h₁ => ?_) fun e s₁ q₁ h₁ => ⟨h₁.1, by simp⟩
  obtain ⟨rfl, hstage₁, hle₁, hcrypto⟩ := h₁
  obtain ⟨recipient, hrecipient, rfl⟩ := hcrypto crypto rfl
  refine (follows_encode _ _).bind (fun contents s₂ q₂ h₂ => ?_)
    fun e s₂ q₂ h₂ => ⟨h₂.1, by simp⟩
  obtain ⟨rfl, ⟨hstage₂, hle₂⟩, hseals⟩ := h₂
  have hasked : q₂.stage = .asked peer.dhtKey ns since := by rw [hstage₂, hstage₁, hstage]
  refine Follows.bind (M := fun r s' q' => s' = s₂ ∧ q' = q₂ ∧ ∀ id, r = .ok id →
    peer.routeId = some id) (follows_okOr (fun id hid => ⟨rfl, rfl, fun id' he => ?_⟩)
    ⟨rfl, rfl, by simp⟩) (fun id s₃ q₃ h₃ => ?_) fun e s₃ q₃ h₃ => ⟨h₃.1, by simp⟩
  · rw [hid, Except.ok.inj he]
  obtain ⟨rfl, rfl, hid⟩ := h₃
  obtain ⟨ns', hns', howner⟩ := hp.route id (hid id rfl)
  have hknown : q₃.known peer.dhtKey ns' := hle₂.known _ _ (hle₁.known _ _ hns')
  refine (follows_callPeer hasked ?_).mono fun r s' q' h' => ⟨h'.1, fun resp hresp => ?_⟩
  · exact ⟨_, ns, since, ns', recipient, contents, hasked, hknown, howner, hrecipient,
      by rw [hc.dhtKey], hseals contents rfl⟩
  · obtain ⟨reply, hreply, hdecode⟩ := h'.2 resp hresp
    exact ⟨reply, recipient, hreply, hrecipient, hdecode⟩

/-- **`pull_from` keeps the protocol.** -/
theorem follows_pullFrom {c : Conclave} {peer : Peer} {ns : NodeStatus}
    (hc : c.sovereign.Of S n) (hp : peer.Informed S q.known) (hns : peer.nodeStatus = some ns) :
    Follows (nodeProtocol S n) (DDCP.pullFrom c peer ns : Act σ (Bool × Int64)) s q
      fun _ s' q' => s' = s ∧ q.le q' := by
  refine follows_le (Follows.bind (M := fun r s' q' => s' = s ∧ q.le q' ∧ ∀ v, r = .ok v →
    v < ns.dbVersion → q'.stage = .asked peer.dhtKey ns v) (follows_db trivial fun a => ?_)
    (fun v s₁ q₁ h₁ => ?_) fun _ _ _ h₁ => h₁.1)
  · -- which pull this begins shows when the cursor is compared
    cases a with
    | error e => exact ⟨_, .idle _, rfl, q.le_after _ _, by simp⟩
    | ok v =>
        by_cases hlt : v < ns.dbVersion
        · refine ⟨_, .ask (hp.status ns hns) hlt, rfl, q.le_after _ _, fun v' hv' _ => ?_⟩
          obtain rfl : v = v' := Except.ok.inj hv'
          rfl
        · refine ⟨_, .idle _, rfl, q.le_after _ _, fun v' hv' hlt' => ?_⟩
          obtain rfl : v = v' := Except.ok.inj hv'
          exact absurd hlt' hlt
  obtain ⟨rfl, hle, hasked⟩ := h₁
  by_cases hcmp : ns.dbVersion ≤ v
  · rw [if_pos hcmp]
    exact Follows.pure rfl
  rw [if_neg hcmp]
  refine (follows_changes hc (hp.mono hle.known) hns (hasked v rfl (not_le.1 hcmp))).bind
    (fun resp s₂ q₂ h₂ => ?_) fun _ _ _ h₂ => h₂.1
  obtain ⟨rfl, hresp⟩ := h₂
  obtain ⟨reply, recipient, hstage, hrecipient, hdecode⟩ := hresp resp rfl
  by_cases hsite : resp.siteId ≠ ns.siteId
  · rw [if_pos hsite]
    exact Follows.throw rfl
  rw [if_neg hsite]
  refine Follows.bind (M := fun _ s' _ => s' = s₂) (follows_db ?_ fun a => ⟨_, .idle _, rfl⟩)
    (fun _ _ _ h₃ => Follows.pure h₃) fun _ _ _ h₃ => h₃
  exact ⟨_, ns, _, reply, recipient, hstage, not_not.1 hsite, hrecipient, hdecode⟩

theorem follows_pullPeer {c : Conclave} {peer : Peer} (hc : c.sovereign.Of S n)
    (hp : peer.Informed S q.known) :
    Follows (nodeProtocol S n) (DDCP.pullPeer c peer : Act σ (Bool × Int64)) s q
      fun _ s' q' => s' = s ∧ q.le q' := by
  refine Follows.bind (M := fun r s' q' => s' = s ∧ q' = q ∧ ∀ ns, r = .ok ns →
    peer.nodeStatus = some ns) (follows_okOr (fun ns hns => ⟨rfl, rfl, fun ns' he => ?_⟩)
    ⟨rfl, rfl, by simp⟩) (fun ns s₁ q₁ h₁ => ?_) fun e s₁ q₁ h₁ => ?_
  · rw [hns, Except.ok.inj he]
  · obtain ⟨rfl, rfl, hns⟩ := h₁
    exact follows_pullFrom hc hp (hns ns rfl)
  · obtain ⟨rfl, rfl, _⟩ := h₁
    exact ⟨rfl, .refl _⟩

omit [Capnp] [CryptoSystem] in
/-- What each item keeps, trying them in turn keeps. -/
theorem follows_attemptEach [Capnp] [CryptoSystem] {ι α : Type} {f : ι → Act σ α} {is : List ι}
    {I : σ → Talk → Prop} (h0 : I s q) (hf : ∀ i ∈ is, ∀ s q, I s q →
      Follows (nodeProtocol S n) (f i) s q fun _ s' q' => I s' q') :
    Follows (nodeProtocol S n) (attemptEach f is) s q fun _ s' q' => I s' q' := by
  induction is generalizing s q with
  | nil => exact Follows.pure h0
  | cons i is ih =>
      refine Follows.bind (M := fun _ s' q' => I s' q')
        (Follows.attempt (hf i List.mem_cons_self s q h0)) (fun r s₁ q₁ h₁ => ?_)
        fun _ _ _ h₁ => h₁
      refine (ih h₁ fun j hj => hf j (List.mem_cons_of_mem _ hj)).bind
        (fun rs s₂ q₂ h₂ => Follows.pure h₂) fun _ _ _ h₂ => h₂

end Pull

/-! ## The methods of a node -/

section Methods
variable [Capnp] [CryptoSystem] {N : Type} {S : Setup N} {n : N} {q : Talk}

/-- **`pull` keeps the protocol.** -/
theorem follows_pull {d : DDCP} (name : String) (h : d.conclave.Informed S n q.known) :
    Follows (nodeProtocol S n) (DDCP.pull name) d q fun _ d' q' =>
      d'.conclave.Informed S n q'.known ∧ q.le q' := by
  refine follows_le (Follows.bind (M := fun _ d' q' => d'.conclave.Informed S n q'.known)
    (Follows.zoom ((follows_onPeer h fun p hp => follows_peerRefresh (h.remotes name p hp)).mono
      fun _ _ _ h' => h'.1)) (fun refreshed d₁ q₁ h₁ => ?_) fun _ _ _ h₁ => h₁)
  refine Follows.bind (M := fun _ d' q' => d'.conclave.Informed S n q'.known)
    (follows_okOr (fun _ _ => h₁) h₁) (fun _ d₂ q₂ h₂ => Follows.get_bind ?_) fun _ _ _ h₂ => h₂
  refine Follows.bind (M := fun r d' q' => d' = d₂ ∧ d'.conclave.Informed S n q'.known ∧
    ∀ peer, r = .ok peer → peer.Informed S q'.known)
    (follows_okOr (fun peer hpeer => ⟨rfl, h₂, fun peer' he => ?_⟩) ⟨rfl, h₂, by simp⟩)
    (fun peer d₃ q₃ h₃ => ?_) fun _ _ _ h₃ => h₃.2.1
  · obtain rfl := Except.ok.inj he
    exact h₂.remotes name peer hpeer
  obtain ⟨rfl, hd₃, hpeer⟩ := h₃
  refine Follows.bind (M := fun r d' q' => d' = d₃ ∧ q' = q₃ ∧ ∀ ns, r = .ok ns →
    peer.nodeStatus = some ns) (follows_okOr (fun ns hns => ⟨rfl, rfl, fun ns' he => ?_⟩)
    ⟨rfl, rfl, by simp⟩) (fun ns d₄ q₄ h₄ => ?_) fun _ d₄ q₄ h₄ => ?_
  · rw [hns, Except.ok.inj he]
  · obtain ⟨rfl, rfl, hns⟩ := h₄
    refine (follows_pullFrom hd₃.sovereign (hpeer peer rfl) (hns ns rfl)).mono
      fun _ d' q' h' => ?_
    obtain ⟨rfl, hle⟩ := h'
    exact hd₃.mono hle.known
  · obtain ⟨rfl, rfl, _⟩ := h₄
    exact hd₃

/-- **A tick of the puller keeps the protocol.** -/
theorem follows_pullerTick {d : DDCP} (h : d.conclave.Informed S n q.known) :
    Follows (nodeProtocol S n) DDCP.pullerTick d q fun _ d' q' =>
      d'.conclave.Informed S n q'.known ∧ q.le q' := by
  refine follows_le (Follows.bind (M := fun _ d' q' => d'.conclave.Informed S n q'.known)
    (Follows.attempt (Follows.zoom ((follows_refreshPeers h).mono fun _ _ _ h' => h'.1)))
    (fun r d₁ q₁ h₁ => ?_) fun _ _ _ h₁ => h₁)
  cases r with
  | error e => exact Follows.pure h₁
  | ok u =>
      refine Follows.get_bind ((follows_attemptEach (I := fun d' q' => d' = d₁ ∧ q₁.le q')
        ⟨rfl, .refl q₁⟩ fun peer hpeer d₂ q₂ h₂ => ?_).mono fun _ d' q' h' => ?_)
      · obtain ⟨rfl, hle⟩ := h₂
        obtain ⟨name, hname⟩ := Conclave.mem_peers_iff.1 hpeer
        have hinformed := (h₁.remotes name peer hname).mono hle.known
        exact (follows_pullPeer h₁.sovereign hinformed).mono fun _ d' q' h' =>
          ⟨h'.1, hle.trans h'.2⟩
      · obtain ⟨rfl, hle⟩ := h'
        exact h₁.mono hle.known

theorem follows_pullRemotes {d : DDCP} (h : d.conclave.Informed S n q.known) :
    Follows (nodeProtocol S n) DDCP.pullRemotes d q fun _ d' q' =>
      d'.conclave.Informed S n q'.known ∧ q.le q' :=
  follows_le (Follows.get_bind (follows_attemptEach
    (I := fun (d' : DDCP) (q' : Talk) => d'.conclave.Informed S n q'.known) h
    fun name _ _ _ h₁ => (follows_pull name h₁).mono fun _ _ _ h' => h'.1))

theorem follows_serverTick {d : DDCP} (h : d.conclave.Informed S n q.known) :
    Follows (nodeProtocol S n) DDCP.serverTick d q fun _ d' q' =>
      d'.conclave.Informed S n q'.known ∧ q.le q' :=
  follows_le (Follows.bind (M := fun _ d' q' => d'.conclave.Informed S n q'.known)
    (Follows.attempt ((follows_push h).mono fun _ _ _ h' => h'.1))
    (fun _ _ _ h₁ => Follows.pure h₁) fun _ _ _ h₁ => h₁)

theorem follows_serverUpdate {d : DDCP} (peers : AList fun _ : String => Peer) (u : VeilidUpdate)
    (h : d.conclave.Informed S n q.known) :
    Follows (nodeProtocol S n) (DDCP.serverUpdate peers u) d q fun _ d' q' =>
      d'.conclave.Informed S n q'.known ∧ q.le q' := by
  refine follows_le (Follows.bind (M := fun _ d' q' => d'.conclave.Informed S n q'.known)
    (Follows.attempt ?_) (fun r d₁ q₁ h₁ => ?_) fun _ _ _ h₁ => h₁)
  · cases u with
    | appCall callId message => exact Follows.get_bind (follows_lift h)
    | attachment ready => exact Follows.pure h
    | routeChange =>
        refine Follows.bind (M := fun _ d' q' => d'.conclave.Informed S n q'.known)
          (Follows.zoom (Follows.zoom ((follows_releaseRoute h.sovereign).mono
            fun _ s' q' h' => ⟨h'.1, fun name p hp => (h.remotes name p hp).mono h'.2.known⟩)))
          (fun _ _ _ h₁ => Follows.pure h₁) fun _ _ _ h₁ => h₁
    | shutdown => exact Follows.throw h
    | other => exact Follows.pure h
  · cases r with
    | ok responder => exact Follows.pure h₁
    | error e => exact Follows.pure h₁

/-- The methods that the commands and the loops of a node call on its state. -/
inductive DDCP.Calls (peers : AList fun _ : String => Peer) (d : DDCP) :
    Prog Call Ret (Option DDCP) → Prop
  | push : Calls peers d (keeping DDCP.push d)
  | pull (name : String) : Calls peers d (keeping (DDCP.pull name) d)
  | pullRemotes : Calls peers d (keeping DDCP.pullRemotes d)
  | pullerTick : Calls peers d (keeping DDCP.pullerTick d)
  | serverTick : Calls peers d (keeping DDCP.serverTick d)
  | serverUpdate (u : VeilidUpdate) : Calls peers d (keeping (DDCP.serverUpdate peers u) d)

theorem follows_keeping {α : Type} {x : Act DDCP α} {d : DDCP}
    (h : Follows (nodeProtocol S n) x d q fun _ d' q' =>
      d'.conclave.Informed S n q'.known ∧ q.le q') :
    Prog.Follows (nodeProtocol S n)
      (fun q' o => ∀ d', o = some d' → d'.conclave.Informed S n q'.known) (keeping x d) q := by
  refine Prog.Follows.bind h fun p q' h' d' hd => ?_
  obtain rfl := Option.some.inj hd
  exact h'.1

/-- **All of them keep the protocol**, and leave the fields in order. -/
theorem DDCP.Calls.follows {peers : AList fun _ : String => Peer} {d : DDCP}
    {p : Prog Call Ret (Option DDCP)} (hp : DDCP.Calls peers d p)
    (h : d.conclave.Informed S n q.known) :
    Prog.Follows (nodeProtocol S n)
      (fun q' o => ∀ d', o = some d' → d'.conclave.Informed S n q'.known) p q := by
  cases hp with
  | push => exact follows_keeping (follows_push h)
  | pull name => exact follows_keeping (follows_pull name h)
  | pullRemotes => exact follows_keeping (follows_pullRemotes h)
  | pullerTick => exact follows_keeping (follows_pullerTick h)
  | serverTick => exact follows_keeping (follows_serverTick h)
  | serverUpdate u => exact follows_keeping (follows_serverUpdate peers u h)

end Methods

/-! ## Answering -/

/-- How far a responder has come: it has read the status, and it has chosen its answer. -/
inductive Answering where
  | start
  | read (status : Bytes × Int64)
  | chosen (resp : ChangesResponse)

section Answer
variable [Capnp] [CryptoSystem]

/-- What a responder may call that answers a request for the changes since a version. -/
def Answering.May (crypto : Crypto) (since : Int64) (a : Answering) : Call → Prop
  | .veilid (.crypto _) => True
  | .randomNonce => True
  | .db .status => a = .start
  | .db (.select since') => since' = since ∧ ∃ status, a = .read status ∧ since < status.2
  | .veilid (.appCallReply _ message) => ∃ resp sender contents,
      message = encode (Envelope.mk sender contents) ∧
      crypto.Seals (encode (Response.changes resp)) contents ∧
      (a = .chosen resp ∨ ∃ status, a = .read status ∧ status.2 ≤ since ∧ resp = ⟨status.1, []⟩)
  | _ => False

omit [Capnp] [CryptoSystem] in
inductive Answering.Moves : Answering → Event → Answering → Prop
  | status (status : Bytes × Int64) : Moves .start ⟨.db .status, .ok status⟩ (.read status)
  | select (status : Bytes × Int64) (since : Int64) (rows : List Change) :
      Moves (.read status) ⟨.db (.select since), .ok rows⟩ (.chosen ⟨status.1, rows⟩)
  | stay {a : Answering} {e : Event} (hstatus : ∀ status, e ≠ ⟨.db .status, .ok status⟩)
      (hselect : ∀ since rows, e ≠ ⟨.db (.select since), .ok rows⟩) : Moves a e a

def answerProtocol (crypto : Crypto) (since : Int64) : Protocol Call Ret Answering where
  may := Answering.May crypto since
  promised _ _ := True
  next a e a' := a.Moves e a'

variable {σ α : Type} {s : σ} {crypto : Crypto} {since : Int64} {a : Answering}

theorem follows_answer_veilid {c : VeilidCall} {fin : Except Abort c.Val → σ → Answering → Prop}
    (hmay : a.May crypto since (.veilid c)) (h : ∀ r, fin r s a) :
    Follows (answerProtocol crypto since) (Act.veilid c) s a fin := by
  refine ⟨hmay, fun r _ => ⟨a, .stay (by simp) (by simp), ?_⟩⟩
  cases r with
  | ok v => exact h _
  | error e => exact h _

/-- Reading the database, for an answer. -/
theorem follows_answer_db {c : DbCall} {fin : Except Abort c.Val → σ → Answering → Prop}
    (hmay : a.May crypto since (.db c)) (hok : ∀ v, ∃ a', a.Moves ⟨.db c, .ok v⟩ a' ∧
      fin (.ok v) s a') (herr : ∀ e, fin (.error (.err (.db e))) s a) :
    Follows (answerProtocol crypto since) (Act.db c) s a fin := by
  refine ⟨hmay, fun r _ => ?_⟩
  cases r with
  | ok v => exact hok v
  | error e =>
      refine ⟨a, .stay (fun status he => ?_) (fun since' rows he => ?_), herr e⟩ <;>
        cases he

/-- What `DB::changes` returns to a responder is the answer it has chosen. -/
theorem follows_answer_dbChanges : Follows (answerProtocol crypto since)
    (dbChanges since : Act σ (Bytes × List Change)) s .start fun r _ a =>
      ∀ res, r = .ok res → a = .chosen ⟨res.1, res.2⟩ ∨
        ∃ status, a = .read status ∧ status.2 ≤ since ∧ res = (status.1, []) := by
  refine Follows.bind (M := fun r _ a => ∀ status, r = .ok status → a = .read status)
    (follows_answer_db rfl (fun status => ⟨_, .status status, fun _ h => ?_⟩) fun e _ h => ?_)
    (fun status s₁ a h => ?_) fun e s₁ a _ res h => absurd h (by simp)
  · rw [Except.ok.inj h]
  · exact absurd h (by simp)
  obtain rfl := h status rfl
  by_cases hle : since ≥ status.2
  · have hdone : Follows (answerProtocol crypto since) (pure (status.1, []) :
        Act σ (Bytes × List Change)) s₁ (.read status) fun r _ a => ∀ res, r = .ok res →
          a = .chosen ⟨res.1, res.2⟩ ∨
            ∃ status, a = .read status ∧ status.2 ≤ since ∧ res = (status.1, []) :=
      Follows.pure fun res hres => Or.inr ⟨status, rfl, hle, (Except.ok.inj hres).symm⟩
    simpa only [hle, if_true] using hdone
  · have hselect : Follows (answerProtocol crypto since) (do
        let changes ← Act.db (.select since)
        return (status.1, changes) : Act σ (Bytes × List Change)) s₁ (.read status) fun r _ a =>
          ∀ res, r = .ok res → a = .chosen ⟨res.1, res.2⟩ ∨
            ∃ status, a = .read status ∧ status.2 ≤ since ∧ res = (status.1, []) := by
      refine Follows.bind (M := fun r _ a => ∀ rows, r = .ok rows → a = .chosen ⟨status.1, rows⟩)
        (follows_answer_db ⟨rfl, status, rfl, not_le.1 hle⟩
          (fun rows => ⟨_, .select status since rows, fun _ h => ?_⟩) fun e _ h => ?_)
        (fun rows s₂ a h => ?_) fun e s₂ a _ res h => absurd h (by simp)
      · rw [Except.ok.inj h]
      · exact absurd h (by simp)
      · refine Follows.pure fun res hres => Or.inl ?_
        rw [h rows rfl, ← Except.ok.inj hres]
    simpa only [hle, if_false] using hselect

/-- **A responder keeps its protocol**, if the crypto it gets is the given one, and what it is sent
    opens under that to a request for the changes since `since`, if at all. -/
theorem follows_responder {r : Responder} (hcrypto : ∀ key, r.peer.authKey = .ok (some key) →
      (⟨r.conclave.sovereign.dhtOwnerKeypair, key⟩ : Crypto) = crypto)
    (hrequest : ∀ request, crypto.decode Request r.envelope.contents = .ok request →
      request = .changes since) :
    Follows (answerProtocol crypto since) (r.run : Act σ Unit) s .start fun _ _ _ => True := by
  refine Follows.bind (M := fun c _ a => a = .start ∧ ∀ crypto', c = .ok crypto' →
    crypto' = crypto) ?_ (fun crypto' s₁ a h => ?_) fun _ _ _ _ => trivial
  · refine Follows.bind (M := fun _ _ a => a = .start)
      (follows_answer_veilid trivial fun _ => rfl) (fun vld0 s₁ a h => ?_)
      fun e _ a h => ⟨h, by simp⟩
    refine follows_lift ⟨h, fun crypto' hc => ?_⟩
    obtain ⟨_, key, hkey, rfl⟩ := cryptoWith_ok_iff.1 hc
    exact hcrypto key hkey
  obtain ⟨rfl, hc⟩ := h
  obtain rfl := hc crypto' rfl
  refine Follows.bind (M := fun req _ a => a = .start ∧ ∀ request, req = .ok request →
    request = .changes since) (follows_lift ⟨rfl, hrequest⟩) (fun request s₂ a h => ?_)
    fun _ _ _ _ => trivial
  obtain ⟨rfl, hreq⟩ := h
  obtain rfl := hreq request rfl
  -- the answer, sealed
  have hanswer : Follows (answerProtocol crypto' since)
      (answerRequest crypto' (.changes since) : Act σ Bytes) s₂ .start fun c _ a =>
        ∀ contents, c = .ok contents → ∃ resp,
          crypto'.Seals (encode (Response.changes resp)) contents ∧ (a = .chosen resp ∨
            ∃ status, a = .read status ∧ status.2 ≤ since ∧ resp = ⟨status.1, []⟩) := by
    refine follows_answer_dbChanges.bind (fun res s₃ a h => ?_) fun _ _ _ _ _ h => absurd h (by simp)
    refine (Crypto.follows_encode (P := answerProtocol crypto' since) (I := fun a' => a' = a) rfl
      (fun a' ha => ⟨trivial, fun nonce _ => ⟨a', Answering.Moves.stay (by simp) (by simp), ha⟩⟩)
      crypto' _).mono fun c s' a' hsealed contents hcont => ?_
    obtain ⟨-, rfl, hseals⟩ := hsealed
    refine ⟨⟨res.1, res.2⟩, hseals contents hcont, (h res rfl).imp_right ?_⟩
    rintro ⟨status, ha, hle, rfl⟩
    exact ⟨status, ha, hle, rfl⟩
  refine hanswer.bind (fun contents s₃ a h => ?_) fun _ _ _ _ => trivial
  obtain ⟨resp, hseals, ha⟩ := h contents rfl
  exact follows_answer_veilid ⟨resp, r.sender, contents, rfl, hseals, ha⟩ fun _ => trivial

end Answer

end Ddcp
