import Ddcp.Lib.History
import Ddcp.Node.Server

set_option autoImplicit false

/-! # The announced route

`announce` publishes the cached route and `release_route` drops it on a RouteChange. The route is
dropped after the call that gives it back has succeeded, so a failing `release_private_route` leaves
the dead route in the cache and the next announcement publishes it again. When no such call fails,
every status written after a RouteChange has a route allocated after it. -/

namespace Ddcp

open Method Lts History

section Routes

/-- The route with this blob has been allocated since the last RouteChange. -/
def AllocatedSince (log : List ServerLog) (data : Bytes) : Prop :=
  Since (· = .routeChange)
    (fun e => ∃ id : RouteId, e = .call ⟨.veilid .newPrivateRoute, .ok (id, data)⟩) log

/-- Every value written to the DHT is a status whose route has been allocated since the last
    RouteChange before the write. -/
def NeverStale [Capnp] (log : List ServerLog) : Prop :=
  Always (fun before e => ∀ key subkey value a,
    e = .call ⟨.veilid (.setDhtValue key subkey value), a⟩ →
      ∃ st : NodeStatus, value = encode st ∧ AllocatedSince before st.route) log

/-- While a RouteChange is handled, `release_private_route` does not fail. -/
def ReleaseSucceeds : Server → ServerAction → Prop
  | _, .update .routeChange tr => ∀ id e, ⟨.veilid (.releasePrivateRoute id), .error e⟩ ∉ tr
  | _, _ => True

/-! ## What keeps it -/

theorem AllocatedSince.append {log : List ServerLog} {data : Bytes}
    (h : AllocatedSince log data) (tr : List Event) :
    AllocatedSince (log ++ tr.map .call) data := by
  refine Since.append (fun e he hm => ?_) (Or.inl h)
  obtain ⟨_, _, rfl⟩ := List.mem_map.1 he
  exact absurd hm (by simp)

/-- A stretch of calls without a write. -/
theorem NeverStale.append [Capnp] {log log' : List ServerLog} (h : NeverStale log)
    (hno : ∀ key subkey value a, .call ⟨.veilid (.setDhtValue key subkey value), a⟩ ∉ log') :
    NeverStale (log ++ log') := by
  refine always_append.2 ⟨h, always_of_forall fun e he before key subkey value a heq => ?_⟩
  exact absurd (heq ▸ he) (hno key subkey value a)

/-- A write of a status with such a route. -/
theorem NeverStale.write [Capnp] {log : List ServerLog} (h : NeverStale log) {key : TypedKey}
    {subkey : Nat} {st : NodeStatus} {a : Except VeilidAPIError Unit}
    (hst : AllocatedSince log st.route) :
    NeverStale (log ++ [.call ⟨.veilid (.setDhtValue key subkey (encode st)), a⟩]) := by
  refine always_append.2 ⟨h, always_cons.2 ⟨?_, always_nil⟩⟩
  rintro key' subkey' value a' heq
  cases heq
  exact ⟨st, rfl, by simpa using hst⟩

variable [Capnp] [CryptoSystem]

/-- The invariant: what is cached may still be announced. -/
structure RouteInv (σ : Server) : Prop where
  written : NeverStale σ.log
  cached : ∀ route, σ.ddcp.conclave.sovereign.route = some route → AllocatedSince σ.log route.data

omit [CryptoSystem] in
/-- Getting the route to announce: what is cached or allocated now. -/
theorem currentRoute_inv {s s' : Sovereign} {tr : List Event} {r : Except Abort Route}
    {log : List ServerLog} (h : Exec Sovereign.currentRoute s tr r s') (hw : NeverStale log)
    (hc : ∀ route, s.route = some route → AllocatedSince log route.data) :
    NeverStale (log ++ tr.map .call) ∧
    (∀ route, s'.route = some route → AllocatedSince (log ++ tr.map .call) route.data) ∧
    ∀ route, r = .ok route → AllocatedSince (log ++ tr.map .call) route.data := by
  rcases exec_currentRoute h with ⟨route, hroute, rfl, rfl, rfl⟩ | ⟨e, e', rfl, rfl, rfl⟩ |
    ⟨route, rfl, rfl, rfl⟩
  · refine ⟨by simpa using hw, fun _ h => (hc _ h).append _, fun route' h => ?_⟩
    obtain rfl := Except.ok.inj h
    exact (hc _ hroute).append _
  · exact ⟨hw.append (by simp), fun _ h => (hc _ h).append _, fun _ h => absurd h (by simp)⟩
  · have hnew : AllocatedSince (log ++ List.map ServerLog.call
        [⟨.veilid .newPrivateRoute, .ok (route.id, route.data)⟩]) route.data :=
      Since.append (by simp) (Or.inr ⟨_, List.mem_singleton_self _, route.id, rfl⟩)
    refine ⟨hw.append (by simp), fun route' h => ?_, fun route' h => ?_⟩
    · obtain rfl := Option.some.inj h
      exact hnew
    · obtain rfl := Except.ok.inj h
      exact hnew

theorem announce_inv {st : Status} {s s' : Sovereign} {tr : List Event} {r : Except Abort Unit}
    {log : List ServerLog} (h : Exec (Sovereign.announce st) s tr r s') (hw : NeverStale log)
    (hc : ∀ route, s.route = some route → AllocatedSince log route.data) :
    NeverStale (log ++ tr.map .call) ∧
    ∀ route, s'.route = some route → AllocatedSince (log ++ tr.map .call) route.data := by
  obtain ⟨tr₁, r₁, hroute, htr⟩ := exec_announce h
  obtain ⟨hw₁, hc₁, hr₁⟩ := currentRoute_inv hroute hw hc
  rcases htr with ⟨rfl, _⟩ | ⟨route, a, rfl, rfl⟩
  · exact ⟨hw₁, hc₁⟩
  · -- the write carries the route that `currentRoute` returned
    have hst : AllocatedSince (log ++ tr₁.map .call) (s'.nodeStatus st route).route := hr₁ route rfl
    rw [List.map_append, ← List.append_assoc]
    exact ⟨hw₁.write hst, fun route' h' => (hc₁ route' h').append [_]⟩

/-- **One step** of the server task, when giving the route back succeeds. -/
theorem RouteInv.step {σ σ' : Server} {l : ServerAction} (h : RouteInv σ)
    (hs : guarded Server.Step ReleaseSucceeds σ l σ') : RouteInv σ' := by
  obtain ⟨hcond, hs⟩ := hs
  cases hs with
  | announce hx =>
      obtain ⟨a, tr, rfl, hrest⟩ := Server.exec_announceStatus hx
      have hw : NeverStale (σ.log ++ [.call ⟨.db .status, a⟩]) := h.written.append (by simp)
      have hc : ∀ route, σ.ddcp.conclave.sovereign.route = some route →
          AllocatedSince (σ.log ++ [.call ⟨.db .status, a⟩]) route.data := fun route hroute =>
        (h.cached route hroute).append [_]
      rcases hrest with ⟨rfl, rfl⟩ | ⟨st, r', sovereign, _, hann, rfl⟩
      · exact ⟨hw, hc⟩
      · obtain ⟨hw', hc'⟩ := announce_inv hann hw hc
        rw [List.append_assoc] at hw' hc'
        exact ⟨hw', hc'⟩
  | refresh hx =>
      obtain ⟨c, hc, rfl⟩ := exec_zoom_iff.1 hx
      obtain ⟨hsov, hcalls, _⟩ := exec_onPeer_refresh hc
      refine ⟨h.written.append fun key subkey value a hmem => ?_, fun route hroute => ?_⟩
      · obtain ⟨e, he, heq⟩ := List.mem_map.1 hmem
        obtain rfl := ServerLog.call.inj heq
        exact hcalls _ he
      · exact (h.cached route (by rw [← hsov]; exact hroute)).append _
  | @update u tr r ddcp' hx =>
      rcases exec_handleUpdate hx with ⟨hu, rfl, rfl⟩ | ⟨rfl, r', sovereign, hrel, rfl⟩
      · have hlog : Server.updateLog u = [] := by
          cases u <;> first | rfl | exact absurd rfl hu
        simpa [hlog] using h
      · have hw : NeverStale (σ.log ++ [.routeChange]) := h.written.append (by simp)
        rcases exec_releaseRoute hrel with
          ⟨hnone, rfl, rfl⟩ | ⟨route, hsome, ⟨e, rfl, rfl⟩ | ⟨rfl, rfl⟩⟩
        · refine ⟨by simpa [Server.updateLog] using hw, fun route hroute => ?_⟩
          exact absurd (hnone.symm.trans hroute) (by simp)
        · -- the call that fails
          exact absurd (List.mem_singleton_self _) (hcond route.id e)
        · exact ⟨hw.append (by simp), fun route hroute => absurd hroute (by simp)⟩

/-- **No dead route is announced**, in every run of the server task in which giving a route back
    never fails while a RouteChange is handled. -/
theorem route_never_stale {ddcp : DDCP} {ls : List ServerAction} {σ : Server}
    (hr : Run (guarded Server.Step ReleaseSucceeds) (Server.start ddcp) ls σ) :
    NeverStale σ.log := by
  have h0 : RouteInv (Server.start ddcp) := ⟨always_nil, fun _ _ => since_nil⟩
  exact (hr.invariant h0 fun _ _ _ h hs => h.step hs).written

end Routes

section Example
attribute [local instance] plainCapnp plainCrypto

/-- A node without peers, and with this route. -/
def lonelyNode (route : Option Route) : DDCP where
  conclave := ⟨⟨⟨[], []⟩, ⟨[], ⟨[], []⟩⟩, none, route⟩, ∅⟩

/-- The only event of a node that reads its status, allocates a route, gives one back or writes. -/
def readEvent : Event := ⟨.db .status, .ok ([1], 1)⟩

def allocateEvent (n : UInt8) : Event := ⟨.veilid .newPrivateRoute, .ok ([n], [n])⟩

def releaseEvent (n : UInt8) (a : Except VeilidAPIError Unit) : Event :=
  ⟨.veilid (.releasePrivateRoute [n]), a⟩

def writeEvent (n : UInt8) : Event :=
  ⟨.veilid (.setDhtValue ⟨[], []⟩ DHT_SUBKEY_STATUS
    (encode (NodeStatus.mk [1] 1 (PlainCrypto.keyToString ⟨[], []⟩) [n]))), .ok ()⟩

/-- New routes are numbered; `release_private_route` has a fixed answer. -/
def numberedRoutes (n : UInt8) (released : Except VeilidAPIError Unit) : (c : Call) → Unit → Ret c × Unit
  | .veilid .newPrivateRoute, w => (.ok ([n], [n]), w)
  | .veilid (.releasePrivateRoute _), w => (released, w)
  | c, w => (CalmEnv.answer ⟨fun _ => none, id, ([1], 1), fun _ => 0, []⟩ c, w)

theorem lonely_announce (n : UInt8) :
    Exec Server.announceStatus (lonelyNode none) [readEvent, allocateEvent n, writeEvent n]
      (.ok ([1], 1)) (lonelyNode (some ⟨[n], [n]⟩)) :=
  exec_traceOn (numberedRoutes n (.ok ())) Server.announceStatus (lonelyNode none) ()

theorem routed_announce (n : UInt8) :
    Exec Server.announceStatus (lonelyNode (some ⟨[n], [n]⟩)) [readEvent, writeEvent n]
      (.ok ([1], 1)) (lonelyNode (some ⟨[n], [n]⟩)) :=
  exec_traceOn (numberedRoutes n (.ok ())) Server.announceStatus (lonelyNode (some ⟨[n], [n]⟩)) ()

theorem routed_release (n : UInt8) :
    Exec (DDCP.handleUpdate ∅ .routeChange) (lonelyNode (some ⟨[n], [n]⟩)) [releaseEvent n (.ok ())]
      (.ok none) (lonelyNode none) :=
  exec_traceOn (numberedRoutes n (.ok ())) (DDCP.handleUpdate ∅ .routeChange)
    (lonelyNode (some ⟨[n], [n]⟩)) ()

theorem routed_release_fails (n : UInt8) (e : VeilidAPIError) :
    Exec (DDCP.handleUpdate ∅ .routeChange) (lonelyNode (some ⟨[n], [n]⟩))
      [releaseEvent n (.error e)] (.error (.err (.veilidAPI e))) (lonelyNode (some ⟨[n], [n]⟩)) :=
  exec_traceOn (numberedRoutes n (.error e)) (DDCP.handleUpdate ∅ .routeChange)
    (lonelyNode (some ⟨[n], [n]⟩)) ()

/-- Announce, handle a RouteChange, announce a new route. -/
theorem route_never_stale_released : ∃ ls σ,
    Run (guarded Server.Step ReleaseSucceeds) (Server.start (lonelyNode none)) ls σ ∧
    σ.log = [readEvent, allocateEvent 0, writeEvent 0].map .call ++ [.routeChange] ++
      [releaseEvent 0 (.ok ()), readEvent, allocateEvent 1, writeEvent 1].map .call ∧
    NeverStale σ.log := by
  have hann : ∀ σ tr, ReleaseSucceeds σ (.announce tr) := fun _ _ => trivial
  have hcond : ∀ σ, ReleaseSucceeds σ (.update .routeChange [releaseEvent 0 (.ok ())]) :=
    fun σ id e h => by simp [releaseEvent] at h
  obtain ⟨ls, σ, hr, hlog⟩ : ∃ ls σ,
      Run (guarded Server.Step ReleaseSucceeds) (Server.start (lonelyNode none)) ls σ ∧
      σ.log = _ := ⟨_, _, .snoc (.snoc (.snoc .nil ⟨hann _ _, .announce (lonely_announce 0)⟩)
    ⟨hcond _, .update (routed_release 0)⟩) ⟨hann _ _, .announce (lonely_announce 1)⟩, rfl⟩
  exact ⟨ls, σ, hr, hlog, route_never_stale hr⟩

/-- The route whose release failed is announced again after the RouteChange. -/
theorem dead_route_announced : ∃ ls σ,
    Run Server.Step (Server.start (lonelyNode none)) ls σ ∧ ¬ NeverStale σ.log := by
  refine ⟨_, _, .snoc (.snoc (.snoc .nil (.announce (lonely_announce 0)))
    (.update (routed_release_fails 0 .invalidTarget))) (.announce (routed_announce 0)), ?_⟩
  intro hnever
  obtain ⟨st, hst, hsince⟩ := hnever ([readEvent, allocateEvent 0, writeEvent 0].map .call ++
    .routeChange :: [releaseEvent 0 (.error .invalidTarget), readEvent].map .call) _ [] rfl _ _ _ _ rfl
  -- between the RouteChange and the second write nothing is allocated
  obtain ⟨e, he, id, rfl⟩ := hsince ([readEvent, allocateEvent 0, writeEvent 0].map .call) _ _ rfl rfl
  simp [releaseEvent, readEvent] at he

end Example

end Ddcp
