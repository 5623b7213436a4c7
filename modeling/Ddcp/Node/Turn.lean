import Ddcp.Node.Oracle
import Ddcp.Node.Panic

set_option autoImplicit false

/-! # What a peer is owed

`Oracle.turn` reads off the answers of an oracle what should become of a peer when its turn comes:
what its record says, whether that is newer than the tracked version, what it replies to the request
for its changes, and whether these can be merged. It says nothing of how the program goes about it;
that a pull does just this is `comesTo_pullPeer`. -/

namespace Ddcp

open Method

variable {W : Type}

/-! ## The answers -/

/-- What becomes of a peer. -/
inductive Turn where
  /-- It has nothing new, or a call fails, or its reply is refused. -/
  | nothing
  /-- It replies with an envelope whose contents are shorter than a nonce. -/
  | shortReply
  /-- Its changes are merged. -/
  | merged (siteId : Bytes) (changes : List Change) (version : Int64)
  deriving DecidableEq

/-- The merge that the peer is owed. -/
def Turn.merge : Turn → List Event
  | .merged siteId changes version => [⟨.db (.merge siteId changes), .ok version⟩]
  | .nothing | .shortReply => []

section Answers
variable [Capnp]

variable [CryptoSystem]

omit [Capnp] in
/-- The keys for a peer with this status. -/
def Oracle.keysFor (o : Oracle W) (sov : Sovereign) (st : NodeStatus) : Option Crypto := do
  let vld0 ← (o.veilid (.crypto CRYPTO_KIND_VLD0)).toOption
  let _ ← vld0
  let key ← (CryptoSystem.keyFromStr st.key).toOption
  return ⟨sov.dhtOwnerKeypair, key⟩

omit [Capnp] in
/-- A message sealed with the next nonce. -/
def Oracle.seal (o : Oracle W) (crypto : Crypto) (message : Bytes) (w : W) : Option Bytes × W :=
  match crypto.sharedKey with
  | .error _ => (none, w)
  | .ok key =>
      let (nonce, w') := o.nonce w
      ((CryptoSystem.encryptInPlaceAead message nonce key).toOption.map (nonce.bytes ++ ·), w')

omit [Capnp] [CryptoSystem] in
/-- What becomes of changes: they are merged if they are of the site in the status. -/
def Oracle.mergeOf (o : Oracle W) (st : NodeStatus) (resp : ChangesResponse) (w : W) : Turn × W :=
  if resp.siteId = st.siteId then
    match o.db (.merge resp.siteId resp.changes) w with
    | (.ok version, w') => (.merged resp.siteId resp.changes version, w')
    | (.error _, w') => (.nothing, w')
  else (.nothing, w)

/-- What becomes of a reply. -/
def Oracle.received (o : Oracle W) (crypto : Crypto) (st : NodeStatus) (reply : Bytes) (w : W) :
    Turn × W :=
  match decode Envelope reply with
  | .error _ => (.nothing, w)
  | .ok envelope =>
      if envelope.contents.length < NONCE_LENGTH then (.shortReply, w)
      else
        match crypto.decode Response envelope.contents with
        | .ok (.changes resp) => o.mergeOf st resp w
        | _ => (.nothing, w)

/-- What becomes of an `app_call`. -/
def Oracle.called (o : Oracle W) (crypto : Crypto) (st : NodeStatus) (routeId : RouteId)
    (message : Bytes) (w : W) : Turn × W :=
  match o.veilid (.appCall routeId message) with
  | .error _ => (.nothing, w)
  | .ok reply => o.received crypto st reply w

/-- What becomes of a peer that is to be asked for its changes since a version. -/
def Oracle.asked (o : Oracle W) (sov : Sovereign) (st : NodeStatus) (routeId : RouteId)
    (since : Int64) (w : W) : Turn × W :=
  match o.keysFor sov st with
  | none => (.nothing, w)
  | some crypto =>
      match o.seal crypto (encode (Request.changes since)) w with
      | (none, w') => (.nothing, w')
      | (some contents, w') => o.called crypto st routeId
          (encode (Envelope.mk (CryptoSystem.keyToString sov.dhtKey) contents)) w'

/-- What becomes of a peer with this status. -/
def Oracle.turnOf (o : Oracle W) (sov : Sovereign) (st : NodeStatus) (routeId : RouteId) (w : W) :
    Turn × W :=
  match o.db (.trackedPeerVersion st.siteId) w with
  | (.error _, w') => (.nothing, w')
  | (.ok tracked, w') =>
      if tracked < st.dbVersion then o.asked sov st routeId tracked w' else (.nothing, w')

/-- What becomes of a peer, and of the world. -/
def Oracle.turn (o : Oracle W) (sov : Sovereign) (p : Peer) (w : W) : Turn × W :=
  match o.published p with
  | none => (.nothing, w)
  | some (st, routeId) => o.turnOf sov st routeId w

/-- The turns of some peers, one after another. -/
def Oracle.turns (o : Oracle W) (sov : Sovereign) : List Peer → W → List Turn
  | [], _ => []
  | p :: ps, w => (o.turn sov p w).1 :: o.turns sov ps (o.turn sov p w).2

end Answers

/-! ## What the program makes of them -/

/-- A result that is there, or an error that is no panic. -/
inductive Gives {α : Type} : Option α → Except Abort α → Prop
  | some (a : α) : Gives (some a) (.ok a)
  | none (e : Error) : Gives none (.error (.err e))

theorem gives_mapError {α ε : Type} (x : Except ε α) (f : ε → Error) :
    Gives x.toOption (x.mapError fun e => .err (f e)) := by
  cases x with
  | ok a => exact .some a
  | error e => exact .none (f e)

section Runs
variable [Capnp] [CryptoSystem] {σ α β : Type} {o : Oracle W} {s : σ} {w : W}

/-- `x` merges nothing and gives `y.1`, and leaves the world `y.2` and the state as it was. -/
structure Oracle.Finds (o : Oracle W) (x : Act σ α) (s : σ) (w : W) (y : Option α × W) :
    Prop where
  merges : merges (traceOn o.handler x s w) = []
  run : ∃ r, Gives y.1 r ∧ runOn o.handler x s w = ((r, s), y.2)

/-- `x` merges what a turn does, panics on a short reply only, and leaves the world of the turn. -/
structure Oracle.ComesTo (o : Oracle W) (x : Act σ α) (s : σ) (w : W) (t : Turn × W) : Prop where
  merges : merges (traceOn o.handler x s w) = t.1.merge
  panics : (runOn o.handler x s w).1.1 = .error .panic ↔ t.1 = .shortReply
  world : (runOn o.handler x s w).2 = t.2

/-! ### Rules -/

omit [Capnp] [CryptoSystem] in
theorem finds_lift {x : Except Abort α} {a : Option α} (h : Gives a x) :
    o.Finds (Act.lift x) s w (a, w) := by
  cases h with
  | some a => exact ⟨rfl, _, .some a, rfl⟩
  | none e => exact ⟨rfl, _, .none e, rfl⟩

omit [Capnp] [CryptoSystem] in
theorem finds_okOr (e : Error) (a : Option α) : o.Finds (Act.okOr e a) s w (a, w) := by
  cases a with
  | some a => exact ⟨rfl, _, .some a, rfl⟩
  | none => exact ⟨rfl, _, .none e, rfl⟩

omit [Capnp] [CryptoSystem] in
theorem finds_veilid (c : VeilidCall) :
    o.Finds (Act.veilid c : Act σ c.Val) s w ((o.veilid c).toOption, w) := by
  refine ⟨?_, _, gives_mapError _ Error.veilidAPI, ?_⟩
  · rw [traceOn_veilid]
    rfl
  · rw [← bind_pure (Act.veilid c)]
    cases h : o.veilid c with
    | ok v => exact runOn_veilid_ok h
    | error e => exact runOn_veilid_error h

omit [Capnp] [CryptoSystem] in
theorem Oracle.Finds.bind {x : Act σ α} {f : α → Act σ β} {a : α} {w₁ : W} {y : Option β × W}
    (hx : o.Finds x s w (some a, w₁)) (hf : o.Finds (f a) s w₁ y) : o.Finds (x >>= f) s w y := by
  obtain ⟨hmerges, r, hr, hrun⟩ := hx
  cases hr
  refine ⟨?_, ?_⟩
  · rw [traceOn_bind, merges_append, hmerges, hrun]
    exact hf.merges
  · rw [runOn_bind, hrun]
    exact hf.run

omit [Capnp] [CryptoSystem] in
theorem Oracle.Finds.bind_none {x : Act σ α} {f : α → Act σ β} {w₁ : W}
    (hx : o.Finds x s w (none, w₁)) : o.Finds (x >>= f) s w (none, w₁) := by
  obtain ⟨hmerges, r, hr, hrun⟩ := hx
  cases hr with | none e => ?_
  refine ⟨?_, _, .none e, ?_⟩
  · rw [traceOn_bind, merges_append, hmerges, hrun]
    rfl
  · rw [runOn_bind, hrun]

omit [Capnp] [CryptoSystem] in
theorem Oracle.Finds.comesTo {x : Act σ α} {f : α → Act σ β} {a : α} {w₁ : W} {t : Turn × W}
    (hx : o.Finds x s w (some a, w₁)) (hf : o.ComesTo (f a) s w₁ t) :
    o.ComesTo (x >>= f) s w t := by
  obtain ⟨hmerges, r, hr, hrun⟩ := hx
  cases hr
  refine ⟨?_, ?_, ?_⟩
  · rw [traceOn_bind, merges_append, hmerges, hrun]
    exact hf.merges
  · rw [runOn_bind, hrun]
    exact hf.panics
  · rw [runOn_bind, hrun]
    exact hf.world

omit [Capnp] [CryptoSystem] in
theorem Oracle.Finds.nothing {x : Act σ α} {f : α → Act σ β} {w₁ : W}
    (hx : o.Finds x s w (none, w₁)) : o.ComesTo (x >>= f) s w (.nothing, w₁) := by
  obtain ⟨hmerges, r, hr, hrun⟩ := hx
  cases hr with | none e => ?_
  refine ⟨?_, ?_, ?_⟩
  · rw [traceOn_bind, merges_append, hmerges, hrun]
    rfl
  · rw [runOn_bind, hrun]
    simp
  · rw [runOn_bind, hrun]

omit [Capnp] [CryptoSystem] in
/-- `warn_err` finds out whether there was a result. -/
theorem Oracle.Finds.warnErr {x : Act σ α} {y : Option α × W} (hx : o.Finds x s w y) :
    ∃ r, Except.toOption r = y.1 ∧ o.Finds (warnErr x) s w (some r, y.2) := by
  obtain ⟨hmerges, r, hr, hrun⟩ := hx
  have htrace : traceOn o.handler (Ddcp.warnErr x) s w = traceOn o.handler x s w :=
    traceOn_attempt _ _
  have hattempt := runOn_attempt (h := o.handler) (s := s) (w := w) Abort.err? x
  rw [hrun] at hattempt
  obtain ⟨a, w'⟩ := y
  cases hr with
  | some a => exact ⟨.ok a, rfl, htrace ▸ hmerges, _, .some _, hattempt⟩
  | none e => exact ⟨.error e, rfl, htrace ▸ hmerges, _, .some _, hattempt⟩

omit [Capnp] [CryptoSystem] in
theorem comesTo_pure (a : α) : o.ComesTo (pure a : Act σ α) s w (.nothing, w) :=
  ⟨rfl, by simp, rfl⟩

omit [Capnp] [CryptoSystem] in
theorem comesTo_throw (e : Error) : o.ComesTo (throw (.err e) : Act σ α) s w (.nothing, w) :=
  ⟨rfl, by simp, rfl⟩

/-! ### The steps of a pull -/

omit [Capnp] [CryptoSystem] in
theorem finds_tracked (siteId : Bytes) :
    o.Finds (Act.db (.trackedPeerVersion siteId) : Act σ Int64) s w
      ((o.db (.trackedPeerVersion siteId) w).1.toOption,
        (o.db (.trackedPeerVersion siteId) w).2) := by
  obtain ⟨r, w', h⟩ : ∃ r w', o.db (.trackedPeerVersion siteId) w = (r, w') := ⟨_, _, rfl⟩
  rw [h]
  refine ⟨?_, _, gives_mapError _ Error.db, ?_⟩
  · rw [traceOn_db]
    rfl
  · cases r with
    | ok v => exact runOn_db_ok h
    | error e => exact runOn_db_error h

omit [Capnp] in
theorem finds_crypto {c : Conclave} {p : Peer} {st : NodeStatus} (hst : p.nodeStatus = some st) :
    o.Finds (c.crypto p : Act σ Crypto) s w (o.keysFor c.sovereign st, w) := by
  have hvld0 := finds_veilid (o := o) (s := s) (w := w) (.crypto CRYPTO_KIND_VLD0)
  unfold Conclave.crypto Oracle.keysFor
  cases h : o.veilid (.crypto CRYPTO_KIND_VLD0) with
  | error e =>
      rw [h] at hvld0
      exact hvld0.bind_none
  | ok vld0 =>
      rw [h] at hvld0
      refine hvld0.bind (finds_lift ?_)
      unfold Conclave.cryptoWith Peer.authKey
      rw [hst]
      cases vld0 with
      | none => exact .none _
      | some u =>
          cases hkey : CryptoSystem.keyFromStr st.key with
          | error e =>
              simp only [hkey]
              exact .none (.veilidAPI e)
          | ok key =>
              simp only [hkey]
              exact .some _

theorem finds_encode [Encodable α] (crypto : Crypto) (item : α) :
    o.Finds (crypto.encode item : Act σ Bytes) s w (o.seal crypto (encode item) w) := by
  unfold Crypto.encode Oracle.seal
  cases hshared : crypto.sharedKey with
  | error e => exact (finds_lift (.none (.crypto (.veilidAPI e)))).bind_none
  | ok key =>
      show o.Finds _ s w ((CryptoSystem.encryptInPlaceAead (encode item) (o.nonce w).1 key).toOption.map
        ((o.nonce w).1.bytes ++ ·), (o.nonce w).2)
      refine (finds_lift (.some key)).bind ?_
      have hnonce : o.Finds (Act.randomNonce : Act σ Nonce) s w (some (o.nonce w).1, (o.nonce w).2) :=
        ⟨rfl, _, .some _, rfl⟩
      refine hnonce.bind ?_
      cases hseal : CryptoSystem.encryptInPlaceAead (encode item) (o.nonce w).1 key with
      | error e => exact (finds_lift (.none (.crypto (.veilidAPI e)))).bind_none
      | ok m => exact (finds_lift (.some m)).bind ⟨rfl, _, .some _, rfl⟩

/-- `pull_from`, once the peer has replied. -/
def afterReply (st : NodeStatus) (resp : ChangesResponse) : Act σ (Bool × Int64) := do
  if resp.siteId ≠ st.siteId then throw (.err (otherErr "mismatched site_id"))
  else
    let mergeVersion ← Act.db (.merge resp.siteId resp.changes)
    return (true, mergeVersion)

omit [Capnp] [CryptoSystem] in
theorem comesTo_afterReply (st : NodeStatus) (resp : ChangesResponse) :
    o.ComesTo (afterReply st resp) s w (o.mergeOf st resp w) := by
  unfold afterReply Oracle.mergeOf
  by_cases hsite : resp.siteId = st.siteId
  · rw [if_neg (not_not_intro hsite), if_pos hsite]
    obtain ⟨r, w', h⟩ : ∃ r w', o.db (.merge resp.siteId resp.changes) w = (r, w') :=
      ⟨_, _, rfl⟩
    rw [h]
    cases r with
    | error e =>
        refine ⟨?_, ?_, ?_⟩
        · rw [traceOn_bind, traceOn_db, runOn_db_error h, h]
          rfl
        · rw [runOn_bind, runOn_db_error h]
          simp
        · rw [runOn_bind, runOn_db_error h]
    | ok v =>
        refine ⟨?_, ?_, ?_⟩
        · rw [traceOn_bind, traceOn_db, runOn_db_ok h, h]
          rfl
        · rw [runOn_bind, runOn_db_ok h]
          simp
        · rw [runOn_bind, runOn_db_ok h]
          rfl
  · rw [if_pos hsite, if_neg hsite]
    exact comesTo_throw _

/-- The reply to the `app_call` of `changes`, and what follows it. -/
theorem comesTo_decodeReply (crypto : Crypto) (st : NodeStatus) (reply : Bytes) :
    o.ComesTo (Act.lift (Conclave.decodeReply crypto reply) >>= afterReply (σ := σ) st) s w
      (o.received crypto st reply w) := by
  unfold Oracle.received
  cases henvelope : decode Envelope reply with
  | error e =>
      have hreply : Conclave.decodeReply crypto reply = .error (.err (.protocol e)) := by
        rw [Conclave.decodeReply, henvelope]
        rfl
      rw [hreply]
      exact (finds_lift (.none _)).nothing
  | ok envelope =>
      by_cases hshort : envelope.contents.length < NONCE_LENGTH
      · rw [(decodeReply_panic_iff crypto reply).2 ⟨envelope, henvelope, hshort⟩]
        simp only [if_pos hshort]
        exact ⟨rfl, iff_of_true rfl rfl, rfl⟩
      simp only [if_neg hshort]
      cases hopen : crypto.decode Response envelope.contents with
      | error a =>
          rw [decodeReply_error henvelope hopen]
          cases a with
          | err e => exact (finds_lift (.none e)).nothing
          | panic =>
              have hpanic := Crypto.decode_panic_iff (α := Response) crypto envelope.contents
              exact absurd (hpanic.1 hopen) hshort
      | ok response =>
          cases response with
          | status status =>
              rw [decodeReply_status henvelope hopen]
              exact (finds_lift (.none _)).nothing
          | changes resp =>
              rw [(decodeReply_ok_iff henvelope).2 hopen]
              exact (finds_lift (.some resp)).comesTo (comesTo_afterReply st resp)

/-- The `app_call` of `changes`, and what follows it. -/
theorem comesTo_callPeer (crypto : Crypto) (st : NodeStatus) (routeId : RouteId) (message : Bytes) :
    o.ComesTo (Conclave.callPeer crypto routeId message >>= afterReply (σ := σ) st) s w
      (o.called crypto st routeId message w) := by
  obtain ⟨r, hr, hwarn⟩ := (finds_veilid (o := o) (s := s) (w := w)
    (.appCall routeId message)).warnErr
  unfold Conclave.callPeer Oracle.called
  rw [bind_assoc]
  refine hwarn.comesTo ?_
  cases hcall : o.veilid (.appCall routeId message) with
  | ok reply =>
      rw [hcall] at hr
      cases r with
      | ok reply' =>
          obtain rfl : reply' = reply := Option.some.inj hr
          exact comesTo_decodeReply crypto st reply'
      | error e => exact absurd hr (by simp [Except.toOption])
  | error e =>
      rw [hcall] at hr
      cases r with
      | ok reply => exact absurd hr (by simp [Except.toOption])
      | error e =>
          obtain ⟨r', -, hrelease⟩ := (finds_veilid (o := o) (s := s) (w := w)
            (.releasePrivateRoute routeId)).warnErr
          exact (hrelease.bind ⟨rfl, _, .none e, rfl⟩).nothing

/-- `pull_from`, once the tracked version has been read. -/
theorem comesTo_changes {c : Conclave} {peer : Peer} {st : NodeStatus} {routeId : RouteId}
    (hst : peer.nodeStatus = some st) (hroute : peer.routeId = some routeId) (since : Int64) :
    o.ComesTo (c.changes peer since >>= afterReply (σ := σ) st) s w
      (o.asked c.sovereign st routeId since w) := by
  have hcrypto := finds_crypto (c := c) (o := o) (s := s) (w := w) hst
  unfold Conclave.changes Oracle.asked
  rw [bind_assoc]
  cases hkeys : o.keysFor c.sovereign st with
  | none =>
      rw [hkeys] at hcrypto
      exact hcrypto.nothing
  | some crypto =>
      rw [hkeys] at hcrypto
      refine hcrypto.comesTo ?_
      have hencode := finds_encode (o := o) (s := s) (w := w) crypto (Request.changes since)
      rw [bind_assoc]
      obtain ⟨contents, w', hseal⟩ : ∃ contents w',
          o.seal crypto (encode (Request.changes since)) w = (contents, w') := ⟨_, _, rfl⟩
      simp only [hseal]
      rw [hseal] at hencode
      cases contents with
      | none => exact hencode.nothing
      | some contents =>
          refine hencode.comesTo ?_
          rw [hroute, bind_assoc]
          refine (finds_okOr _ (some routeId)).comesTo ?_
          exact comesTo_callPeer crypto st routeId _

/-- A pull of a peer with a status and a route. -/
theorem comesTo_pullPeer {c : Conclave} {peer : Peer} {st : NodeStatus} {routeId : RouteId}
    (hst : peer.nodeStatus = some st) (hroute : peer.routeId = some routeId) :
    o.ComesTo (DDCP.pullPeer c peer : Act σ (Bool × Int64)) s w
      (o.turnOf c.sovereign st routeId w) := by
  unfold DDCP.pullPeer Oracle.turnOf
  rw [hst]
  refine (finds_okOr _ (some st)).comesTo ?_
  unfold DDCP.pullFrom
  have htracked := finds_tracked (o := o) (s := s) (w := w) st.siteId
  obtain ⟨r, w', h⟩ : ∃ r w', o.db (.trackedPeerVersion st.siteId) w = (r, w') :=
    ⟨_, _, rfl⟩
  rw [h] at htracked ⊢
  cases r with
  | error e => exact htracked.nothing
  | ok tracked =>
      refine htracked.comesTo ?_
      by_cases hlt : tracked < st.dbVersion
      · simp only [if_neg (Int64.not_le.2 hlt), if_pos hlt]
        exact comesTo_changes hst hroute tracked
      · simp only [if_pos (Int64.not_lt.1 hlt), if_neg hlt]
        exact comesTo_pure _

/-- In a tick of the puller, a peer whose refresh went well comes to its turn. -/
theorem comesTo_refreshed {c : Conclave} {p p' : Peer} {w' : W} (h : o.Refreshes p p' w') :
    o.ComesTo (DDCP.pullPeer c p' : Act σ (Bool × Int64)) s w (o.turn c.sovereign p w) := by
  have hstatus := h.status
  unfold Oracle.turn
  cases hpub : o.published p with
  | none =>
      rw [hpub] at hstatus
      unfold DDCP.pullPeer
      rw [hstatus]
      exact (finds_okOr _ none).nothing
  | some published =>
      rw [hpub] at hstatus
      exact comesTo_pullPeer hstatus (h.route published hpub)

end Runs

section Pull
variable [Capnp] [CryptoSystem] {o : Oracle W} {s : DDCP} {name : String} {p : Peer}

/-- A pull of a peer comes to its turn, and changes no other peer. -/
theorem comesTo_pull (hp : s.conclave.remotes.lookup name = some p) (w : W) :
    o.ComesTo (DDCP.pull name) s w (o.turn s.conclave.sovereign p w) ∧
      ∃ p', (runOn o.handler (DDCP.pull name) s w).1.2 = s.setPeer name p' := by
  rcases refresh_cases o p w with ⟨_, p', hr⟩ | ⟨_, hpub, e, p', hr⟩
  · have hrefresh : Prog.run o.handler (Peer.refresh p) w = ((.ok p'.nodeStatus, p'), w) := hr.run
    have hrun : runOn o.handler (DDCP.pull name) s w = runOn o.handler
        (DDCP.pullPeer (s.setPeer name p').conclave p') (s.setPeer name p') w := by
      unfold runOn
      rw [pull_apply hp, Prog.run_bind, hrefresh]
    have hmerges : merges (traceOn o.handler (DDCP.pull name) s w) = merges (traceOn o.handler
        (DDCP.pullPeer (s.setPeer name p').conclave p') (s.setPeer name p') w) := by
      unfold traceOn
      rw [pull_apply hp, Prog.trace_bind, merges_append, merges_refresh, hrefresh]
      rfl
    have hcomes := comesTo_refreshed (c := (s.setPeer name p').conclave) (o := o)
      (s := s.setPeer name p') (w := w) hr
    have hstate : (runOn o.handler (DDCP.pullPeer (s.setPeer name p').conclave p')
        (s.setPeer name p') w).1.2 = s.setPeer name p' :=
      (within_pullPeer _ _ _ _ _ _ (exec_traceOn o.handler _ _ w)).1
    rw [hrun]
    exact ⟨⟨hmerges.trans hcomes.merges, hrun ▸ hcomes.panics, hrun ▸ hcomes.world⟩, p', hstate⟩
  · have hrefresh : Prog.run o.handler (Peer.refresh p) w = ((.error (.err e), p'), w) := hr
    have hrun : runOn o.handler (DDCP.pull name) s w =
        ((.error (.err e), s.setPeer name p'), w) := by
      unfold runOn
      rw [pull_apply hp, Prog.run_bind, hrefresh]
      rfl
    have hmerges : merges (traceOn o.handler (DDCP.pull name) s w) = [] := by
      unfold traceOn
      rw [pull_apply hp, Prog.trace_bind, merges_append, merges_refresh, hrefresh]
      rfl
    unfold Oracle.turn
    rw [hpub, hrun]
    refine ⟨⟨hmerges, ?_, ?_⟩, p', rfl⟩
    · rw [hrun]
      simp
    · rw [hrun]

end Pull

end Ddcp
