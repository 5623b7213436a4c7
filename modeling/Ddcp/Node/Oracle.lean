import Ddcp.Lib.Runs
import Ddcp.Node.Proofs

set_option autoImplicit false

/-! # Runs with fixed failures

An `Oracle` fixes which Veilid calls fail and with what the others are answered; the database and
the nonces have a world of their own. Under an oracle a refresh depends on nothing but the peer
(`refresh_cases`, from its two parts, and `refresh_world`), and a pull is a refresh followed by
`pull_from` (`pull_apply`). -/

namespace Ddcp

open Method

/-- Every Veilid call has one answer. -/
structure Oracle (W : Type) where
  veilid : (c : VeilidCall) → Except VeilidAPIError c.Val
  db : (c : DbCall) → W → Except DbError c.Val × W
  nonce : W → Nonce × W

variable {W : Type}

def Oracle.handler (o : Oracle W) : (c : Call) → W → Ret c × W
  | .veilid c, w => (o.veilid c, w)
  | .db c, w => o.db c w
  | .randomNonce, w => o.nonce w
  | .shutdown, w => ((), w)

section Oracle
variable {σ α : Type} {o : Oracle W} {s : σ} {w : W}

theorem runOn_veilid_ok {c : VeilidCall} {v : c.Val} {f : c.Val → Act σ α}
    (h : o.veilid c = .ok v) :
    runOn o.handler (Act.veilid c >>= f) s w = runOn o.handler (f v) s w := by
  have hc : o.handler (.veilid c) w = (.ok v, w) := by rw [Oracle.handler, h]
  unfold Act.veilid
  rw [bind_assoc, runOn_bind, runOn_perform]
  simp only [hc]
  rfl

theorem runOn_veilid_error {c : VeilidCall} {e : VeilidAPIError} {f : c.Val → Act σ α}
    (h : o.veilid c = .error e) :
    runOn o.handler (Act.veilid c >>= f) s w = ((.error (.err (.veilidAPI e)), s), w) := by
  have hc : o.handler (.veilid c) w = (.error e, w) := by rw [Oracle.handler, h]
  unfold Act.veilid
  rw [bind_assoc, runOn_bind, runOn_perform]
  simp only [hc]
  rfl

theorem runOn_db_ok {c : DbCall} {v : c.Val} {w' : W} (h : o.db c w = (.ok v, w')) :
    runOn o.handler (Act.db c) s w = ((.ok v, s), w') := by
  have hc : o.handler (.db c) w = (.ok v, w') := h
  unfold Act.db
  rw [runOn_bind, runOn_perform, hc]
  rfl

theorem runOn_db_error {c : DbCall} {e : DbError} {w' : W} (h : o.db c w = (.error e, w')) :
    runOn o.handler (Act.db c) s w = ((.error (.err (.db e)), s), w') := by
  have hc : o.handler (.db c) w = (.error e, w') := h
  unfold Act.db
  rw [runOn_bind, runOn_perform, hc]
  rfl

theorem traceOn_db (c : DbCall) :
    traceOn o.handler (Act.db c) s w = [⟨.db c, (o.db c w).1⟩] := by
  have hperform : traceOn o.handler (perform (Call.db c) : Act σ (Ret (.db c))) s w =
      [⟨.db c, (o.db c w).1⟩] := rfl
  unfold Act.db
  rw [traceOn_bind, hperform, runOn_perform]
  cases (o.handler (.db c) w).1 <;> rfl

theorem traceOn_veilid (c : VeilidCall) :
    traceOn o.handler (Act.veilid c) s w = [⟨.veilid c, o.veilid c⟩] := by
  have hperform : traceOn o.handler (perform (Call.veilid c) : Act σ (Ret (.veilid c))) s w =
      [⟨.veilid c, o.veilid c⟩] := rfl
  unfold Act.veilid
  rw [traceOn_bind, hperform, runOn_perform]
  cases (o.handler (.veilid c) w).1 <;> rfl

/-- Closing a record that can be closed, or no record. -/
theorem runOn_closeRecord_ok {dht : Option DHTRecordDescriptor} {f : Unit → Act σ α}
    (h : ∀ d, dht = some d → ∃ u, o.veilid (.closeDhtRecord d.key) = .ok u) :
    runOn o.handler (Act.closeRecord dht >>= f) s w = runOn o.handler (f ()) s w := by
  cases dht with
  | none => rfl
  | some d =>
      obtain ⟨u, hu⟩ := h d rfl
      exact runOn_veilid_ok hu

theorem runOn_closeRecord_error {d : DHTRecordDescriptor} {e : VeilidAPIError}
    {f : Unit → Act σ α} (h : o.veilid (.closeDhtRecord d.key) = .error e) :
    runOn o.handler (Act.closeRecord (some d) >>= f) s w =
      ((.error (.err (.veilidAPI e)), s), w) := runOn_veilid_error h

end Oracle

/-! ## Refreshing -/

section Refresh
variable [Capnp] {o : Oracle W} {p : Peer}

/-- A record that can be opened and read, with a status that decodes and a route that can be
    imported, if there is a status. -/
def Oracle.Readable (o : Oracle W) (key : TypedKey) : Prop :=
  (∃ dht, o.veilid (.openDhtRecord key none) = .ok dht) ∧
  ∃ value, o.veilid (.getDhtValue key DHT_SUBKEY_STATUS true) = .ok value ∧
    ∀ data, value = some data → ∃ st, decode NodeStatus data = .ok st ∧
      ∃ routeId, o.veilid (.importRemotePrivateRoute st.route) = .ok routeId

/-- A peer whose record is readable, once the handle there is of it has been closed. -/
def Oracle.Reachable (o : Oracle W) (p : Peer) : Prop :=
  (∀ dht, p.dht = some dht → ∃ u, o.veilid (.closeDhtRecord dht.key) = .ok u) ∧
    o.Readable p.dhtKey

/-- The status in the record of a peer, and what its route is imported as, if they can be got. -/
def Oracle.published (o : Oracle W) (p : Peer) : Option (NodeStatus × RouteId) := do
  match p.dht with
  | some dht => (o.veilid (.closeDhtRecord dht.key)).toOption
  | none => some ()
  let _ ← (o.veilid (.openDhtRecord p.dhtKey none)).toOption
  let value ← (o.veilid (.getDhtValue p.dhtKey DHT_SUBKEY_STATUS true)).toOption
  let data ← value
  let st ← (decode NodeStatus data).toOption
  let routeId ← (o.veilid (.importRemotePrivateRoute st.route)).toOption
  return (st, routeId)

/-- What is in a record, if it can be opened and read and a status in it decodes. -/
def Oracle.record (o : Oracle W) (key : TypedKey) : Option (Option NodeStatus) := do
  let _ ← (o.veilid (.openDhtRecord key none)).toOption
  let value ← (o.veilid (.getDhtValue key DHT_SUBKEY_STATUS true)).toOption
  match value with
  | none => some none
  | some data => (decode NodeStatus data).toOption.map some

/-- The record is readable when it is unpublished, or the route of its status can be imported. -/
theorem readable_iff {key : TypedKey} : o.Readable key ↔ o.record key = some none ∨
    ∃ st routeId, o.record key = some (some st) ∧
      o.veilid (.importRemotePrivateRoute st.route) = .ok routeId := by
  unfold Oracle.Readable Oracle.record
  cases hopen : o.veilid (.openDhtRecord key none) with
  | error e => simp [Except.toOption]
  | ok dht =>
      cases hget : o.veilid (.getDhtValue key DHT_SUBKEY_STATUS true) with
      | error e => simp [Except.toOption]
      | ok value =>
          cases value with
          | none => simp [Except.toOption]
          | some data => cases hdecode : decode NodeStatus data <;> simp [Except.toOption, hdecode]

/-- The published status of a peer whose old handle can be closed. -/
theorem published_eq (h : ∀ d, p.dht = some d → ∃ u, o.veilid (.closeDhtRecord d.key) = .ok u) :
    o.published p = do
      let status ← o.record p.dhtKey
      let st ← status
      let routeId ← (o.veilid (.importRemotePrivateRoute st.route)).toOption
      return (st, routeId) := by
  have hrecord : (do
      let _ ← (o.veilid (.openDhtRecord p.dhtKey none)).toOption
      let value ← (o.veilid (.getDhtValue p.dhtKey DHT_SUBKEY_STATUS true)).toOption
      let data ← value
      let st ← (decode NodeStatus data).toOption
      let routeId ← (o.veilid (.importRemotePrivateRoute st.route)).toOption
      return (st, routeId)) = do
        let status ← o.record p.dhtKey
        let st ← status
        let routeId ← (o.veilid (.importRemotePrivateRoute st.route)).toOption
        return (st, routeId) := by
    unfold Oracle.record
    cases o.veilid (.openDhtRecord p.dhtKey none) with
    | error e => rfl
    | ok dht =>
        cases o.veilid (.getDhtValue p.dhtKey DHT_SUBKEY_STATUS true) with
        | error e => rfl
        | ok value =>
            cases value with
            | none => rfl
            | some data =>
                cases hdecode : decode NodeStatus data <;> simp [hdecode, Except.toOption]
  unfold Oracle.published
  cases hp : p.dht with
  | none => exact hrecord
  | some d =>
      obtain ⟨u, hu⟩ := h d hp
      simp only [hu]
      exact hrecord

/-- `refresh_dht`, when the old handle can be closed. -/
theorem refreshDht_cases (h : ∀ d, p.dht = some d → ∃ u, o.veilid (.closeDhtRecord d.key) = .ok u)
    (w : W) :
    (∃ dht status, o.record p.dhtKey = some status ∧
      runOn o.handler Peer.refreshDht p w =
        ((.ok (), { p with dht := some dht, nodeStatus := status }), w)) ∨
    (o.record p.dhtKey = none ∧
      ∃ e p', runOn o.handler Peer.refreshDht p w = ((.error (.err e), p'), w)) := by
  unfold Peer.refreshDht Oracle.record
  rw [runOn_get_bind, runOn_closeRecord_ok h]
  cases hopen : o.veilid (.openDhtRecord p.dhtKey none) with
  | error e => exact Or.inr ⟨rfl, _, _, runOn_veilid_error hopen⟩
  | ok dht =>
      rw [runOn_veilid_ok hopen, runOn_modify_bind]
      cases hget : o.veilid (.getDhtValue p.dhtKey DHT_SUBKEY_STATUS true) with
      | error e => exact Or.inr ⟨rfl, _, _, runOn_veilid_error hget⟩
      | ok value =>
          rw [runOn_veilid_ok hget]
          cases value with
          | none => exact Or.inl ⟨dht, none, rfl, rfl⟩
          | some data =>
              cases hdecode : decode NodeStatus data with
              | error e =>
                  refine Or.inr ⟨by simp [hdecode, Except.toOption], .protocol e,
                    { p with dht := some dht }, ?_⟩
                  simp only [hdecode, Except.mapError_error]
                  rfl
              | ok st =>
                  refine Or.inl ⟨dht, some st, by simp [hdecode, Except.toOption], ?_⟩
                  simp only [hdecode, Except.mapError_ok]
                  rfl

/-- A refresh that goes well, which leaves the peer as `p'`. -/
structure Oracle.Refreshes (o : Oracle W) (p p' : Peer) (w : W) : Prop where
  run : runOn o.handler Peer.refresh p w = ((.ok p'.nodeStatus, p'), w)
  status : p'.nodeStatus = (o.published p).map Prod.fst
  route : ∀ published, o.published p = some published → p'.routeId = some published.2

theorem refresh_not_closed {d : DHTRecordDescriptor} {e : VeilidAPIError} (hd : p.dht = some d)
    (h : o.veilid (.closeDhtRecord d.key) = .error e) (w : W) :
    runOn o.handler Peer.refresh p w = ((.error (.err (.veilidAPI e)), p), w) := by
  unfold Peer.refresh Peer.refreshDht
  simp only [bind_assoc, runOn_get_bind]
  rw [hd]
  exact runOn_closeRecord_error h

omit [Capnp] in
/-- `refresh_route`: without a status it does nothing. -/
theorem refreshRoute_none (h : p.nodeStatus = none) (w : W) :
    runOn o.handler Peer.refreshRoute p w = ((.ok (), p), w) := by
  unfold Peer.refreshRoute
  rw [runOn_get_bind, h]
  rfl

omit [Capnp] in
/-- `refresh_route`, when the route in the status can be imported. -/
theorem refreshRoute_imported {st : NodeStatus} {routeId : RouteId} (h : p.nodeStatus = some st)
    (himport : o.veilid (.importRemotePrivateRoute st.route) = .ok routeId) (w : W) :
    runOn o.handler Peer.refreshRoute p w = ((.ok (), { p with routeId := some routeId }), w) := by
  unfold Peer.refreshRoute
  simp only [runOn_get_bind, h]
  rw [runOn_veilid_ok himport, ← h]
  rfl

omit [Capnp] in
theorem refreshRoute_not_imported {st : NodeStatus} {e : VeilidAPIError}
    (h : p.nodeStatus = some st)
    (himport : o.veilid (.importRemotePrivateRoute st.route) = .error e) (w : W) :
    runOn o.handler Peer.refreshRoute p w = ((.error (.err (.veilidAPI e)), p), w) := by
  unfold Peer.refreshRoute
  rw [runOn_get_bind, h]
  exact runOn_veilid_error himport

/-- `refresh`, once its two parts have gone well. -/
theorem refresh_ok {p₁ p' : Peer} {w : W}
    (hdht : runOn o.handler Peer.refreshDht p w = ((.ok (), p₁), w))
    (hroute : runOn o.handler Peer.refreshRoute p₁ w = ((.ok (), p'), w)) :
    runOn o.handler Peer.refresh p w = ((.ok p'.nodeStatus, p'), w) := by
  unfold Peer.refresh
  rw [runOn_bind, hdht]
  simp only [runOn_bind, hroute]
  rfl

/-- `refresh` fails when its second part does. -/
theorem refresh_error {p₁ p' : Peer} {a : Abort} {w : W}
    (hdht : runOn o.handler Peer.refreshDht p w = ((.ok (), p₁), w))
    (hroute : runOn o.handler Peer.refreshRoute p₁ w = ((.error a, p'), w)) :
    runOn o.handler Peer.refresh p w = ((.error a, p'), w) := by
  unfold Peer.refresh
  rw [runOn_bind, hdht]
  simp only [runOn_bind, hroute]

/-- A peer is reachable and its refresh goes well, or it is not and the refresh fails. -/
theorem refresh_cases (o : Oracle W) (p : Peer) (w : W) :
    (o.Reachable p ∧ ∃ p', o.Refreshes p p' w) ∨
    (¬ o.Reachable p ∧ o.published p = none ∧
      ∃ e p', runOn o.handler Peer.refresh p w = ((.error (.err e), p'), w)) := by
  by_cases hclose : ∀ d, p.dht = some d → ∃ u, o.veilid (.closeDhtRecord d.key) = .ok u
  · have hreach : o.Reachable p ↔ o.Readable p.dhtKey := and_iff_right hclose
    rw [hreach, readable_iff, published_eq hclose]
    rcases refreshDht_cases hclose w with ⟨dht, status, hrecord, hdht⟩ | ⟨hrecord, e, p', hdht⟩
    · rw [hrecord]
      cases status with
      | none =>
          refine Or.inl ⟨Or.inl rfl, _, refresh_ok hdht (refreshRoute_none rfl w), ?_, ?_⟩
          · rw [published_eq hclose, hrecord]
            rfl
          · simp [published_eq hclose, hrecord]
      | some st =>
          cases himport : o.veilid (.importRemotePrivateRoute st.route) with
          | error e =>
              have hroute := refreshRoute_not_imported (o := o)
                (p := { p with dht := some dht, nodeStatus := some st }) rfl himport w
              refine Or.inr ⟨?_, ?_, _, _, refresh_error hdht hroute⟩
              · simp [himport]
              · simp [himport, Except.toOption]
          | ok routeId =>
              have hpub : o.published p = some (st, routeId) := by
                rw [published_eq hclose, hrecord]
                simp [himport, Except.toOption]
              refine Or.inl ⟨Or.inr ⟨st, routeId, rfl, himport⟩, _,
                refresh_ok hdht (refreshRoute_imported rfl himport w), ?_, fun published h => ?_⟩
              · rw [hpub]
                rfl
              · obtain rfl := Option.some.inj (hpub.symm.trans h)
                rfl
    · rw [hrecord]
      refine Or.inr ⟨by simp, rfl, e, p', ?_⟩
      unfold Peer.refresh
      rw [runOn_bind, hdht]
  · push Not at hclose
    obtain ⟨d, hd, hno⟩ := hclose
    cases hclose : o.veilid (.closeDhtRecord d.key) with
    | ok u => exact absurd hclose (hno u)
    | error e =>
        refine Or.inr ⟨fun hreach => ?_, ?_, _, p, refresh_not_closed hd hclose w⟩
        · obtain ⟨u, hu⟩ := hreach.1 d hd
          exact hno u hu
        · unfold Oracle.published
          rw [hd]
          simp only [hclose]
          rfl

/-- `refresh` returns normally exactly on a reachable peer. -/
theorem refresh_ok_iff (w : W) :
    (∃ st, (runOn o.handler Peer.refresh p w).1.1 = .ok st) ↔ o.Reachable p := by
  rcases refresh_cases o p w with ⟨hreach, p', hr⟩ | ⟨hreach, _, e, p', hr⟩
  · exact iff_of_true ⟨_, congrArg (fun x => x.1.1) hr.run⟩ hreach
  · exact iff_of_false (by rw [hr]; simp) hreach

/-- A refresh looks only at the Veilid calls. -/
theorem refresh_world (p : Peer) (w w' : W) :
    (runOn o.handler Peer.refresh p w).1 = (runOn o.handler Peer.refresh p w').1 ∧
      (runOn o.handler Peer.refresh p w).2 = w := by
  refine Prog.run_of_only (P := RefreshCall) (fun c hc w w' => ?_) within_peer_refresh.only w w'
  cases c with
  | veilid c => exact ⟨rfl, rfl⟩
  | db c => exact absurd hc id
  | randomNonce => exact absurd hc id
  | shutdown => exact absurd hc id

/-- A refresh does not make a peer reachable. -/
theorem not_reachable_refresh (w : W) (h : ¬ o.Reachable p) :
    ¬ o.Reachable (runOn o.handler Peer.refresh p w).1.2 := by
  by_cases hclose : ∀ d, p.dht = some d → ∃ u, o.veilid (.closeDhtRecord d.key) = .ok u
  · have hkey : (runOn o.handler Peer.refresh p w).1.2.dhtKey = p.dhtKey :=
      congrArg Prod.snd (within_peer_refresh _ _ _ _ (exec_traceOn o.handler _ p w)).1
    intro hreach
    exact h ⟨hclose, hkey ▸ hreach.2⟩
  · push Not at hclose
    obtain ⟨d, hd, hno⟩ := hclose
    cases hclose : o.veilid (.closeDhtRecord d.key) with
    | ok u => exact absurd hclose (hno u)
    | error e => rwa [refresh_not_closed hd hclose]

end Refresh

/-! ## Pulling -/

/-- A merge that went well. -/
def Merged : Event → Bool
  | ⟨.db (.merge _ _), .ok _⟩ => true
  | _ => false

/-- The merges among some calls. -/
def merges (tr : List Event) : List Event := tr.filter Merged

theorem merges_eq_nil {tr : List Event}
    (h : ∀ e ∈ tr, ∀ siteId changes, e.1 ≠ .db (.merge siteId changes)) : merges tr = [] := by
  refine List.filter_eq_nil_iff.2 fun e he => ?_
  have hcall := h e he
  obtain ⟨c, r⟩ := e
  unfold Merged
  split
  · exact absurd (congrArg Sigma.fst ‹_›) (hcall _ _)
  · simp

theorem merges_of_refresh {tr : List Event} (h : ∀ e ∈ tr, RefreshCall e.1) : merges tr = [] :=
  merges_eq_nil fun e he siteId changes heq => by
    have hcall := h e he
    rw [heq] at hcall
    exact hcall

theorem merges_append (tr tr' : List Event) : merges (tr ++ tr') = merges tr ++ merges tr' :=
  List.filter_append ..

theorem merges_refresh [Capnp] (o : Oracle W) (p : Peer) (w : W) :
    merges (Prog.trace o.handler (Peer.refresh p) w) = [] :=
  merges_of_refresh (within_peer_refresh.only _ _ (Prog.exec_trace _ _ _))

def DDCP.setPeer (s : DDCP) (name : String) (p : Peer) : DDCP :=
  ⟨{ s.conclave with remotes := s.conclave.remotes.replace name p }⟩

section Pull
variable [Capnp] [CryptoSystem] {σ : Type} {o : Oracle W} {s : DDCP} {name : String} {p : Peer}

omit [Capnp] [CryptoSystem] in
/-- What `peer_mut` and a method of the peer do when there is such a peer. -/
theorem onPeer_apply {α : Type} {c : Conclave} (hp : c.remotes.lookup name = some p)
    (x : Act Peer α) :
    Conclave.onPeer name x c = (x p).bind fun out =>
      .pure (out.1.map some, { c with remotes := c.remotes.replace name out.2 }) := by
  have hget : ∀ f : Conclave → Act Conclave (Option α), (get >>= f) c = f c c := fun f => rfl
  unfold Conclave.onPeer
  rw [hget]
  simp only [hp]
  have hzoom : ∀ y : Act Conclave α, (do
      let a ← y
      return some a : Act Conclave (Option α)) c = Prog.bind (y c) fun out =>
        .pure (out.1.map some, out.2) := fun y =>
    congrArg (Prog.bind (y c)) (funext fun out => by cases out with | mk r c' => cases r <;> rfl)
  exact (hzoom _).trans (Prog.bind_assoc' _ _ _)

/-- `pull` is a refresh of the peer and, when that went well, `pull_from`. -/
theorem pull_apply (hp : s.conclave.remotes.lookup name = some p) :
    DDCP.pull name s = (Peer.refresh p).bind fun out =>
      match out.1 with
      | .ok _ => DDCP.pullPeer (s.setPeer name out.2).conclave out.2 (s.setPeer name out.2)
      | .error e => .pure (.error e, s.setPeer name out.2) := by
  have hmem : name ∈ s.conclave.remotes := AList.lookup_isSome.1 (by rw [hp]; rfl)
  have hpull : DDCP.pull name s = Prog.bind
      (Prog.bind (Conclave.onPeer name Peer.refresh s.conclave) fun out =>
        .pure (out.1, DDCP.mk out.2)) fun out => (ExceptT.bindCont (fun refreshed => do
        let _ ← Act.okOr (otherErr "unknown peer") refreshed
        let s ← get
        let peer ← Act.okOr (otherErr "unknown peer") (s.conclave.peer name)
        let nodeStatus ← Act.okOr (otherErr "peer missing status") peer.nodeStatus
        DDCP.pullFrom s.conclave peer nodeStatus) out.1) out.2 := rfl
  rw [hpull, onPeer_apply hp, Prog.bind_assoc', Prog.bind_assoc']
  refine congrArg _ (funext fun out => ?_)
  obtain ⟨r, p'⟩ := out
  cases r with
  | error e => rfl
  | ok st =>
      have hlookup : (s.setPeer name p').conclave.peer name = some p' :=
        AList.lookup_replace_self hmem
      have hrest : (do
          let peer ← Act.okOr (otherErr "unknown peer") ((s.setPeer name p').conclave.peer name)
          let nodeStatus ← Act.okOr (otherErr "peer missing status") peer.nodeStatus
          DDCP.pullFrom (s.setPeer name p').conclave peer nodeStatus : Act DDCP (Bool × Int64)) =
          DDCP.pullPeer (s.setPeer name p').conclave p' := by
        rw [hlookup]
        rfl
      exact congrFun hrest (s.setPeer name p')

end Pull

end Ddcp
