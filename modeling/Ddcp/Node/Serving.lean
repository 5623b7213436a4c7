import Ddcp.Ident.Startup
import Ddcp.Node.RouteUse
import Ddcp.Node.Shutdown

set_option autoImplicit false

/-! # The routes of a serving node

While a node serves, three copies of its conclave are at work: the one of the main task, which pushes
before it serves and is closed in the end, and the clones of the puller and of the server. Their
calls interleave in any order. A route id that one copy gives back may still be in the fields of
another: `changes` releases the route of a peer that the main copy has imported as well, and keeps
it in its own copy; a RouteChange releases the route that the main copy announced. As long as a
route is only given back while nobody else has it, every route is released once and never used
afterwards. The responders that the server spawns use no route and are left out. -/

namespace Ddcp

open Method Lts History

section Serving
variable [Capnp] [CryptoSystem]

/-! ## The three copies -/

inductive Copy where
  | main
  | puller
  | server
  deriving DecidableEq

/-- The route ids in the fields of a copy that it may still use. The puller imports routes before it
    uses any, and the server uses only its own. -/
def Copy.holds : Copy → DDCP → Multiset RouteId
  | .main, d => d.conclave.routeIds
  | .puller, _ => 0
  | .server, d => d.conclave.sovereign.routeIds

/-- A copy between two methods, or what is left of one and the route ids that it has: those it held
    when the method was called and those it has been given, less those it has given back. -/
inductive CopyTask where
  | idle (d : DDCP)
  | busy (held : Multiset RouteId) (p : Prog Call Ret (Option DDCP))
  | ended

def CopyTask.holds (w : Copy) : CopyTask → Multiset RouteId
  | .idle d => w.holds d
  | .busy held _ => held
  | .ended => 0

/-- A method that is called on a copy. -/
def keeping {α : Type} (x : Act DDCP α) (d : DDCP) : Prog Call Ret (Option DDCP) :=
  (x d).bind fun p => .pure (some p.2)

/-- A method that consumes the copy. -/
def consuming {α : Type} (x : Act DDCP α) (d : DDCP) : Prog Call Ret (Option DDCP) :=
  (x d).bind fun _ => .pure none

/-- What each copy does: the main one pushes and is closed, the clones go through their loops. -/
inductive Copy.Calls : Copy → DDCP → Prog Call Ret (Option DDCP) → Prop
  | push (d : DDCP) : Calls .main d (keeping DDCP.push d)
  | close (d : DDCP) : Calls .main d (consuming (DDCP.onConclave Conclave.close) d)
  | pullerTick (d : DDCP) : Calls .puller d (keeping DDCP.pullerTick d)
  | serverTick (d : DDCP) : Calls .server d (keeping DDCP.serverTick d)
  | serverUpdate (peers : AList fun _ : String => Peer) (u : VeilidUpdate) (d : DDCP) :
      Calls .server d (keeping (DDCP.serverUpdate peers u) d)

/-- What each copy is doing, and what has been called, oldest first. -/
structure ServingNode where
  task : Copy → CopyTask
  log : List Event

inductive ServingAction where
  | start (w : Copy)
  | call (w : Copy) (e : Event)
  | finish (w : Copy)
  | serve
  | stop (w : Copy)

namespace ServingNode

/-- Only the main copy, as `Conclave::new` has made it. -/
def start (c : Conclave) : ServingNode where
  task
    | .main => .idle ⟨c⟩
    | _ => .ended
  log := []

/-- A copy calls a method, makes one of its calls, or has made the last one. -/
inductive Step : ServingNode → ServingAction → ServingNode → Prop
  | start {σ : ServingNode} {w : Copy} {d : DDCP} {p : Prog Call Ret (Option DDCP)}
      (h : σ.task w = .idle d) (hp : w.Calls d p) :
      Step σ (.start w) { σ with task := Function.update σ.task w (.busy (w.holds d) p) }
  | call {σ : ServingNode} {w : Copy} {held : Multiset RouteId} {p p' : Prog Call Ret (Option DDCP)}
      {e : Event} (h : σ.task w = .busy held p) (hs : Prog.Step p e p') :
      Step σ (.call w e) {
        task := Function.update σ.task w (.busy (routes.after held e) p')
        log := σ.log ++ [e] }
  | finish {σ : ServingNode} {w : Copy} {held : Multiset RouteId} {o : Option DDCP}
      (h : σ.task w = .busy held (.pure o)) :
      Step σ (.finish w) { σ with task := Function.update σ.task w (o.elim .ended .idle) }
  /-- `serve` clones the main copy for its two loops. -/
  | serve {σ : ServingNode} {d : DDCP} (h : σ.task .main = .idle d) (hp : σ.task .puller = .ended)
      (hs : σ.task .server = .ended) :
      Step σ .serve { σ with
        task := Function.update (Function.update σ.task .puller (.idle d)) .server (.idle d) }
  /-- A loop ends. -/
  | stop {σ : ServingNode} {w : Copy} {d : DDCP} (hw : w ≠ .main) (h : σ.task w = .idle d) :
      Step σ (.stop w) { σ with task := Function.update σ.task w .ended }

end ServingNode

/-! ## The property -/

/-- No route is released again, called, or announced, after it has been released and not created or
    imported since. -/
structure ReleasedOnce (log : List Event) : Prop where
  released : Always (fun before e => ∀ id, e.1 = .veilid (.releasePrivateRoute id) →
    routes.Live before id) log
  called : Always (fun before e => ∀ id message, e.1 = .veilid (.appCall id message) →
    routes.Live before id) log
  announced : Always (fun before e => ∀ key subkey value,
    e.1 = .veilid (.setDhtValue key subkey value) → ∃ (st : NodeStatus) (route : Route),
      value = encode st ∧ st.route = route.data ∧ created route ∈ before ∧
      routes.Live before route.id) log

/-- Importing the same blob gives the same id. -/
def ImportsAgree (log : List Event) : Prop := ∀ blob id id',
  ⟨.veilid (.importRemotePrivateRoute blob), .ok id⟩ ∈ log →
    ⟨.veilid (.importRemotePrivateRoute blob), .ok id'⟩ ∈ log → id = id'

/-- A route is given back by the only copy that has it, which has it once, and when a RouteChange
    gives it back, that succeeds. -/
def GivenBackAlone (σ : ServingNode) : ServingAction → Prop
  | .call w e => ∀ id, e.1 = .veilid (.releasePrivateRoute id) →
      ((σ.task w).holds w).count id ≤ 1 ∧ (∀ v, v ≠ w → id ∉ (σ.task v).holds v) ∧
      (w = .server → ∀ err, e ≠ ⟨.veilid (.releasePrivateRoute id), .error err⟩)
  | _ => True

/-! ## What is left of a method -/

/-- What the copy may use is in the hand. -/
structure Copy.Owns (w : Copy) (h : Hand) (d : DDCP) : Prop where
  held : ∀ id ∈ w.holds d, id ∈ h.held
  created : w ≠ .puller → ∀ route, d.conclave.sovereign.route = some route → h.created route

/-- The rest of a method uses only what is in the hand, and leaves in it what the copy may use
    afterwards. -/
def Copy.Finishes (w : Copy) (h : Hand) (p : Prog Call Ret (Option DDCP)) : Prop :=
  ∀ tr o, Prog.Exec p tr o → h.Spends tr ∧
    ∀ d, o = some d → (w = .server → ReleasesSucceed tr) → w.Owns (h.afters tr) d

section Finishes
variable {w : Copy} {h h' : Hand} {d : DDCP} {p p' : Prog Call Ret (Option DDCP)} {e : Event}

omit [Capnp] [CryptoSystem] in
theorem Copy.Owns.mono (ho : w.Owns h d) (hle : h.Le h') : w.Owns h' d where
  held id hid := Multiset.mem_of_le hle.held (ho.held id hid)
  created hw route hroute := hle.created route (ho.created hw route hroute)

omit [Capnp] [CryptoSystem] in
theorem Copy.Owns.covered (ho : w.Owns h d) (hw : w ≠ .puller) :
    d.conclave.sovereign.Covered h := by
  intro route hroute
  have hid : route.id ∈ d.conclave.sovereign.routeIds :=
    Sovereign.mem_routeIds_iff.2 ⟨route, hroute, rfl⟩
  refine ⟨ho.held route.id ?_, ho.created hw route hroute⟩
  cases w with
  | main => exact Conclave.mem_routeIds_iff.2 (Or.inl hid)
  | puller => exact absurd rfl hw
  | server => exact hid

omit [CryptoSystem] in
theorem Copy.Finishes.mono (hf : w.Finishes h p) (hle : h.Le h') : w.Finishes h' p := by
  intro tr o hx
  obtain ⟨hspends, hend⟩ := hf tr o hx
  exact ⟨hle.spends hspends, fun d hd hfine => (hend d hd hfine).mono (hle.afters tr)⟩

omit [CryptoSystem] in
/-- One call of it. -/
theorem Copy.Finishes.call (hf : w.Finishes h p) (hs : Prog.Step p e p')
    (hfine : w = .server → ∀ id err, e ≠ ⟨.veilid (.releasePrivateRoute id), .error err⟩) :
    h.May e.1 ∧ w.Finishes (h.after e) p' := by
  have hrest : ∀ tr o, Prog.Exec p' tr o → Prog.Exec p (e :: tr) o := by
    intro tr o hx
    cases hs with
    | call c k r => exact .call hx
  constructor
  · -- some execution goes on from here
    let env : CalmEnv := ⟨fun _ => none, id, ([], 0), fun _ => 0, []⟩
    have hx := hrest _ _ (Prog.exec_trace env.handler p' ())
    exact (Hand.spends_cons_iff.1 (hf _ _ hx).1).1
  · intro tr o hx
    obtain ⟨hspends, hend⟩ := hf _ _ (hrest tr o hx)
    refine ⟨(Hand.spends_cons_iff.1 hspends).2, fun d hd hrel => hend d hd fun hw => ?_⟩
    intro id err hmem
    rcases List.mem_cons.1 hmem with heq | hmem
    · exact hfine hw id err heq.symm
    · exact hrel hw id err hmem

omit [Capnp] [CryptoSystem] in
theorem exec_keeping {α : Type} {x : Act DDCP α} {tr : List Event} {o : Option DDCP}
    (hx : Prog.Exec (keeping x d) tr o) : ∃ r d', Exec x d tr r d' ∧ o = some d' := by
  obtain ⟨⟨r, d'⟩, hexec, rfl⟩ := Prog.exec_bind_pure_iff.1 hx
  exact ⟨r, d', hexec, rfl⟩

/-- **Each method** of a copy keeps to what the copy holds. -/
theorem Copy.Calls.finishes (hc : w.Calls d p) (ho : w.Owns h d) (hheld : w.holds d ≤ h.held) :
    w.Finishes h p := by
  intro tr o hx
  cases hc with
  | push =>
      obtain ⟨r, d', hexec, rfl⟩ := exec_keeping hx
      obtain ⟨hspends, hcovered, hids⟩ := spends_push hexec (ho.covered (by simp))
      refine ⟨hspends, fun d'' hd _ => ?_⟩
      obtain rfl := Option.some.inj hd
      exact ⟨hids ho.held, fun _ route hroute => (hcovered route hroute).2⟩
  | close =>
      obtain ⟨⟨r, d'⟩, hexec, rfl⟩ := Prog.exec_bind_pure_iff.1 hx
      obtain ⟨c', hclose, _⟩ := exec_zoom_iff.1 (show Exec (DDCP.onConclave Conclave.close) d tr r d'
        from hexec)
      exact ⟨Conclave.spends_close hclose hheld, by simp⟩
  | pullerTick =>
      obtain ⟨r, d', hexec, rfl⟩ := exec_keeping hx
      refine ⟨spends_pullerTick hexec, fun d'' _ _ => ⟨fun id hid => ?_, fun hw => absurd rfl hw⟩⟩
      exact absurd hid (Multiset.notMem_zero id)
  | serverTick =>
      obtain ⟨r, d', hexec, rfl⟩ := exec_keeping hx
      obtain ⟨hspends, hcovered⟩ := spends_serverTick hexec (ho.covered (by simp))
      refine ⟨hspends, fun d'' hd _ => ⟨fun id hid => ?_, fun _ route hroute => ?_⟩⟩ <;>
        obtain rfl := Option.some.inj hd
      · obtain ⟨route, hroute, rfl⟩ := Sovereign.mem_routeIds_iff.1 hid
        exact (hcovered route hroute).1
      · exact (hcovered route hroute).2
  | serverUpdate peers u =>
      obtain ⟨r, d', hexec, rfl⟩ := exec_keeping hx
      obtain ⟨hspends, hcovered⟩ := spends_serverUpdate hexec (ho.covered (by simp))
      refine ⟨hspends, fun d'' hd hfine => ⟨fun id hid => ?_, fun _ route hroute => ?_⟩⟩ <;>
        obtain rfl := Option.some.inj hd
      · obtain ⟨route, hroute, rfl⟩ := Sovereign.mem_routeIds_iff.1 hid
        exact (hcovered (hfine rfl) route hroute).1
      · exact (hcovered (hfine rfl) route hroute).2

end Finishes

/-! ## Every run -/

/-- The hand of a copy at some point of the history. -/
def Hand.ofLog (held : Multiset RouteId) (log : List Event) : Hand where
  held := held
  created route := Ddcp.created route ∈ log

section Run
variable {held : Multiset RouteId} {log log' : List Event} {e : Event} {w : Copy}

omit [Capnp] [CryptoSystem] in
theorem Hand.ofLog_le (hsub : ∀ e ∈ log, e ∈ log') : (ofLog held log).Le (ofLog held log') where
  held := le_refl held
  created route := hsub (Ddcp.created route)

omit [Capnp] [CryptoSystem] in
theorem Hand.ofLog_after_le :
    ((ofLog held log).after e).Le (ofLog (routes.after held e) (log ++ [e])) where
  held := le_refl (routes.after held e)
  created route := by
    rintro (hmem | rfl)
    · exact List.mem_append_left _ hmem
    · exact List.mem_append_right _ List.mem_cons_self

omit [CryptoSystem] in
/-- A call that uses only live routes. -/
theorem ReleasedOnce.concat (h : ReleasedOnce log) (hmay : (Hand.ofLog held log).May e.1)
    (hlive : ∀ id ∈ held, routes.Live log id) : ReleasedOnce (log ++ [e]) where
  released := always_concat.2 ⟨h.released, fun id he => by
    rw [he] at hmay
    exact hlive id hmay⟩
  called := always_concat.2 ⟨h.called, fun id message he => by
    rw [he] at hmay
    exact hlive id hmay⟩
  announced := always_concat.2 ⟨h.announced, fun key subkey value he => by
    rw [he] at hmay
    obtain ⟨st, route, hvalue, hroute, hcreated, hheld⟩ := hmay
    exact ⟨st, route, hvalue, hroute, hcreated, hlive route.id hheld⟩⟩

/-- A copy between two methods announces a route that has been created; what is left of a method
    finishes. -/
def CopyTask.Sound (w : Copy) (log : List Event) : CopyTask → Prop
  | .idle d => w ≠ .puller → ∀ route, d.conclave.sovereign.route = some route → created route ∈ log
  | .busy held p => w.Finishes (Hand.ofLog held log) p
  | .ended => True

omit [CryptoSystem] in
theorem CopyTask.Sound.mono {t : CopyTask} (h : t.Sound w log) (hsub : ∀ e ∈ log, e ∈ log') :
    t.Sound w log' := by
  cases t with
  | idle d => exact fun hw route hroute => hsub _ (h hw route hroute)
  | busy held p => exact Copy.Finishes.mono h (Hand.ofLog_le hsub)
  | ended => trivial

namespace ServingNode

/-- The invariant: what the copies hold is live, and each of them is sound. -/
structure Inv (σ : ServingNode) : Prop where
  live : routes.AllLive (fun w => (σ.task w).holds w) σ.log
  sound : ∀ w, (σ.task w).Sound w σ.log
  once : ReleasedOnce σ.log

variable {σ σ' : ServingNode} {l : ServingAction} {t : CopyTask}

omit [Capnp] [CryptoSystem] in
theorem holds_update (task : Copy → CopyTask) (w : Copy) (t : CopyTask) :
    (fun v => (Function.update task w t v).holds v) =
      Function.update (fun v => (task v).holds v) w (t.holds w) := by
  funext v
  by_cases hv : v = w
  · subst hv
    rw [Function.update_self, Function.update_self]
  · rw [Function.update_of_ne hv, Function.update_of_ne hv]

omit [CryptoSystem] in
theorem Inv.sound_of_eq (h : Inv σ) (ht : σ.task w = t) : t.Sound w σ.log := ht ▸ h.sound w

omit [CryptoSystem] in
theorem Inv.sound_update (h : Inv σ) (hsub : ∀ e ∈ σ.log, e ∈ log) (ht : t.Sound w log) (v : Copy) :
    (Function.update σ.task w t v).Sound v log := by
  by_cases hv : v = w
  · subst hv
    rw [Function.update_self]
    exact ht
  · rw [Function.update_of_ne hv]
    exact (h.sound v).mono hsub

omit [CryptoSystem] in
/-- A step without a call, after which a copy holds nothing that was not held. -/
theorem Inv.update (h : Inv σ) (hheld : ∀ id ∈ t.holds w, ∃ v, id ∈ (σ.task v).holds v)
    (ht : t.Sound w σ.log) : Inv { σ with task := Function.update σ.task w t } where
  live := by
    show routes.AllLive (fun v => (Function.update σ.task w t v).holds v) σ.log
    rw [holds_update]
    refine h.live.of_mem fun v id hid => ?_
    by_cases hv : v = w
    · subst hv
      rw [Function.update_self] at hid
      exact hheld id hid
    · rw [Function.update_of_ne hv] at hid
      exact ⟨v, hid⟩
  sound := h.sound_update (fun _ => id) ht
  once := h.once

/-- **One step** in which a route is given back, if at all, by the only one who has it. -/
theorem Inv.step (h : Inv σ) (hs : guarded Step GivenBackAlone σ l σ') : Inv σ' := by
  obtain ⟨hcond, hs⟩ := hs
  cases hs with
  | @start w d p hidle hcalls =>
      have hsound : w ≠ .puller → ∀ route, d.conclave.sovereign.route = some route →
          created route ∈ σ.log := h.sound_of_eq hidle
      refine h.update (fun id hid => ⟨w, by rw [hidle]; exact hid⟩) ?_
      exact hcalls.finishes ⟨fun _ => id, hsound⟩ (le_refl (w.holds d))
  | @call w held p p' e hbusy hstep =>
      have hfinishes : w.Finishes (Hand.ofLog held σ.log) p := h.sound_of_eq hbusy
      have hheld : ∀ id ∈ held, routes.Live σ.log id := by
        intro id hid
        refine h.live w id ?_
        show id ∈ (σ.task w).holds w
        rw [hbusy]
        exact hid
      obtain ⟨hmay, hrest⟩ := hfinishes.call hstep fun hw id err heq =>
        (hcond id (by rw [heq])).2.2 hw err heq
      refine ⟨?_, ?_, h.once.concat hmay hheld⟩
      · show routes.AllLive (fun v => (Function.update σ.task w _ v).holds v) (σ.log ++ [e])
        have hevent := h.live.event (e := e) w (fun id hid => ?_) fun id hid v hv => ?_
        · rw [hbusy] at hevent
          rw [holds_update]
          exact hevent
        · have hone := (hcond id (mem_returnedRoutes_iff.1 hid)).1
          exact hone.trans (Multiset.count_pos.2 hid)
        · exact (hcond id (mem_returnedRoutes_iff.1 hid)).2.1 v hv
      · exact h.sound_update (fun _ => List.mem_append_left _) (hrest.mono Hand.ofLog_after_le)
  | @finish w held o hbusy =>
      have hfinishes : w.Finishes (Hand.ofLog held σ.log) (.pure o) := h.sound_of_eq hbusy
      cases o with
      | none => exact h.update (fun id hid => absurd hid (Multiset.notMem_zero id)) trivial
      | some d =>
          have howns : w.Owns (Hand.ofLog held σ.log) d :=
            (hfinishes [] (some d) (.pure _)).2 d rfl fun _ id err => by simp
          refine h.update (fun id hid => ⟨w, ?_⟩) howns.created
          rw [hbusy]
          exact howns.held id hid
  | @serve d hidle hpuller hserver =>
      have hsound := h.sound_of_eq hidle
      have hclone : Inv { σ with task := Function.update σ.task .puller (.idle d) } :=
        h.update (fun id hid => absurd hid (Multiset.notMem_zero id)) fun hw => absurd rfl hw
      refine hclone.update (fun id hid => ⟨.main, ?_⟩) fun _ => hsound (by simp)
      -- the main copy has the route that the server's clone may announce
      show id ∈ (Function.update σ.task .puller (.idle d) .main).holds .main
      rw [Function.update_of_ne (by simp), hidle]
      exact Conclave.mem_routeIds_iff.2 (Or.inl hid)
  | @stop w d hw hidle =>
      exact h.update (fun id hid => absurd hid (Multiset.notMem_zero id)) trivial

omit [CryptoSystem] in
theorem Inv.start {c : Conclave} (hroute : c.sovereign.route = none) : Inv (start c) where
  live _ _ _ := Handles.Live.nil
  sound w := by
    cases w with
    | main => exact fun _ route hsome => absurd (hroute.symm.trans hsome) (by simp)
    | _ => trivial
  once := ⟨always_nil, always_nil, always_nil⟩

end ServingNode

/-- **Every route is released once and never used afterwards**, in every run of a serving node in
    which a route is only given back by the one copy that has it: whatever calls fail, in whatever
    order the three copies call, and wherever the run ends. -/
theorem released_once {c : Conclave} {tr₀ : List IdentEvent}
    (hnew : Exec Conclave.new () tr₀ (.ok c) ()) {ls : List ServingAction} {σ : ServingNode}
    (hr : Run (guarded ServingNode.Step GivenBackAlone) (ServingNode.start c) ls σ) :
    ReleasedOnce σ.log := by
  have h0 : ServingNode.Inv (ServingNode.start c) := .start (Conclave.exec_new_route hnew)
  exact (hr.invariant h0 fun _ _ _ h hs => h.step hs).once

end Run

/-! ## Runs of whole methods -/

namespace ServingNode
variable {cond : ServingNode → ServingAction → Prop} {σ : ServingNode} {w : Copy} {tr : List Event}
  {p : Prog Call Ret (Option DDCP)} {o : Option DDCP}

theorem run_calls {held : Multiset RouteId} (hbusy : σ.task w = .busy held p)
    (hx : Prog.Exec p tr o)
    (hcond : Always (fun before e => ∀ p', cond ⟨Function.update σ.task w
      (.busy (before.foldl routes.after held) p'), σ.log ++ before⟩ (.call w e)) tr) :
    Run (guarded Step cond) σ (tr.map (.call w)) ⟨Function.update σ.task w
      (.busy (tr.foldl routes.after held) (.pure o)), σ.log ++ tr⟩ := by
  induction hx generalizing σ held with
  | pure o =>
      rw [List.foldl_nil, ← hbusy, Function.update_eq_self, List.append_nil]
      exact .nil
  | @call c k r tr a hx ih =>
      obtain ⟨hnow, hlater⟩ := always_cons.1 hcond
      have hfirst := hnow (.call c k)
      rw [List.foldl_nil, ← hbusy, Function.update_eq_self, List.append_nil] at hfirst
      refine .cons ⟨hfirst, .call hbusy (.call c k r)⟩ ?_
      have hrest := @ih ⟨Function.update σ.task w (.busy (routes.after held ⟨c, r⟩) (k r)),
        σ.log ++ [⟨c, r⟩]⟩ (routes.after held ⟨c, r⟩) (Function.update_self _ _ _)
      simp only [Function.update_idem, List.append_assoc, List.singleton_append] at hrest
      exact hrest hlater

/-- A method that is called, makes its calls and returns. -/
theorem run_method {d : DDCP} (hidle : σ.task w = .idle d) (hp : w.Calls d p)
    (hx : Prog.Exec p tr o) (hother : ∀ σ', cond σ' (.start w) ∧ cond σ' (.finish w))
    (hcond : Always (fun before e => ∀ p', cond ⟨Function.update σ.task w
      (.busy (before.foldl routes.after (w.holds d)) p'), σ.log ++ before⟩ (.call w e)) tr) :
    Run (guarded Step cond) σ (.start w :: (tr.map (.call w) ++ [.finish w]))
      ⟨Function.update σ.task w (o.elim .ended .idle), σ.log ++ tr⟩ := by
  let σ₁ : ServingNode := { σ with task := Function.update σ.task w (.busy (w.holds d) p) }
  have hbusy : σ₁.task w = .busy (w.holds d) p := Function.update_self _ _ _
  have hcalls : Run (guarded Step cond) σ₁ (tr.map (.call w)) ⟨Function.update σ₁.task w
      (.busy (tr.foldl routes.after (w.holds d)) (.pure o)), σ₁.log ++ tr⟩ := by
    refine run_calls hbusy hx ?_
    simp only [σ₁, Function.update_idem]
    exact hcond
  have hfinish := hcalls.snoc ⟨(hother _).2, .finish (Function.update_self _ _ _)⟩
  simp only [σ₁, Function.update_idem] at hfinish
  exact .cons ⟨(hother σ).1, .start hidle hp⟩ hfinish

omit [Capnp] [CryptoSystem] in
/-- What the condition asks of the calls of a method of the main copy or of the puller. -/
theorem givenBackAlone_calls {held : Multiset RouteId} (hw : w ≠ .server)
    (h : Always (fun before e => ∀ id, e.1 = .veilid (.releasePrivateRoute id) →
      (before.foldl routes.after held).count id ≤ 1 ∧ ∀ v, v ≠ w → id ∉ (σ.task v).holds v) tr) :
    Always (fun before e => ∀ p', GivenBackAlone ⟨Function.update σ.task w
      (.busy (before.foldl routes.after held) p'), σ.log ++ before⟩ (.call w e)) tr := by
  intro before e after htr p' id hid
  obtain ⟨hone, hothers⟩ := h before e after htr id hid
  refine ⟨?_, fun v hv => ?_, fun hserver => absurd hserver hw⟩
  · show ((Function.update σ.task w _ w).holds w).count id ≤ 1
    rw [Function.update_self]
    exact hone
  · show id ∉ (Function.update σ.task w _ v).holds v
    rw [Function.update_of_ne hv]
    exact hothers v hv

/-! ### Where a route is not given back alone -/

omit [Capnp] [CryptoSystem] in
theorem givenRoutes_of_close {c : Call} (hc : CloseCall c) (r : Ret c) : givenRoutes ⟨c, r⟩ = 0 := by
  cases c with
  | veilid c => cases c <;> first | rfl | exact hc.elim
  | _ => rfl

/-- A route that the main copy has, and that is dead, is released again when that copy is closed. -/
theorem close_releases_dead {d : DDCP} {id : RouteId} (hidle : σ.task .main = .idle d)
    (hid : id ∈ d.conclave.routeIds) (hdead : ¬ routes.Live σ.log id) :
    ∃ ls σ', Run Step σ ls σ' ∧ ¬ ReleasedOnce σ'.log := by
  -- it is closed without a failing call
  let env : CalmEnv := ⟨fun _ => none, fun m => m, ([], 0), fun _ => 0, []⟩
  let tr := Prog.trace env.handler (consuming (DDCP.onConclave Conclave.close) d) ()
  have hx : Prog.Exec _ tr _ := Prog.exec_trace env.handler _ ()
  have hr : Run (guarded Step fun _ _ => True) σ _ _ :=
    run_method hidle (.close d) hx (fun _ => ⟨trivial, trivial⟩) fun _ _ _ _ _ => trivial
  have hgood : ∀ e ∈ tr, Succeeds e := by
    rintro e he c err rfl
    have hanswer : Except.error err = env.answer (.veilid c) := Prog.trace_answers he
    cases c <;> exact absurd hanswer (by simp [CalmEnv.answer])
  obtain ⟨p, hexec, _⟩ := Prog.exec_bind_pure_iff.1 hx
  obtain ⟨c', hclose, _⟩ := exec_zoom_iff.1
    (show Exec (DDCP.onConclave Conclave.close) d tr p.1 p.2 from hexec)
  obtain ⟨_, _, hreleases⟩ := Conclave.ensures_close _ _ _ _ hclose hgood
  obtain ⟨e, he, hcall⟩ := hreleases id hid
  obtain ⟨before, after, htr⟩ := List.append_of_mem he
  refine ⟨_, _, hr.of_guarded, fun honce => hdead ?_⟩
  have hlog : σ.log ++ tr = σ.log ++ before ++ e :: after := by rw [htr, List.append_assoc]
  refine Since.of_append (honce.released _ e after hlog id hcall) fun g hg hgives => ?_
  -- and the close has not imported it again
  have hmem : g ∈ tr := htr ▸ List.mem_append_left _ hg
  have hnone : routes.gives g = 0 := givenRoutes_of_close ((within_close _ _ _ _ hclose).2 g hmem) g.2
  rw [hnone] at hgives
  exact absurd hgives (Multiset.notMem_zero id)

/-- **The condition is needed**: from every state in which another copy has just released a route
    that the main copy has as well, a run goes on in which it is released once more. -/
theorem released_again {σ' : ServingNode} {e : Event} {d : DDCP} {id : RouteId}
    (hs : Step σ (.call w e) σ') (he : e.1 = .veilid (.releasePrivateRoute id)) (hw : w ≠ .main)
    (hidle : σ.task .main = .idle d) (hid : id ∈ d.conclave.routeIds) :
    ∃ ls σ'', Run Step σ' ls σ'' ∧ ¬ ReleasedOnce σ''.log := by
  cases hs with
  | call hbusy hstep =>
      refine close_releases_dead ?_ hid (Handles.not_live_of_returns (mem_returnedRoutes_iff.2 he))
      rw [← hidle]
      exact Function.update_of_ne (Ne.symm hw) _ _

end ServingNode

end Serving

section Example
attribute [local instance] plainCapnp plainCrypto

def bobKey : TypedKey := ⟨CRYPTO_KIND_VLD0, [4]⟩

/-- The status that bob's node has published. -/
def bobStatus : NodeStatus := ⟨[2], 1, PlainCrypto.keyToString ⟨[], [5]⟩, [9]⟩

/-- Bob as a startup loads it. -/
def loadedBob : Peer := ⟨"bob", bobKey, none, none, none⟩

/-- Bob after a refresh that finds no status or this one. -/
def bobWith (status : Option NodeStatus) (routeId : Option RouteId) : Peer :=
  ⟨"bob", bobKey, some ⟨bobKey⟩, status, routeId⟩

def conclaveWith (route : Option Route) (bob : Peer) : Conclave where
  sovereign := { firstConclave.sovereign with route := route }
  remotes := (∅ : AList fun _ : String => Peer).insert "bob" bob

theorem exec_new_bob : Exec Conclave.new () (loadTrace ++ [⟨.tableStore, .ok ()⟩,
    ⟨.open .conclaveRemotes 1, .ok ()⟩, ⟨.getKeys .conclaveRemotes 0, .ok [asBytes "bob"]⟩,
    ⟨.loadJson .conclaveRemotes 0 (asBytes "bob"), .ok (some (.typedKey bobKey))⟩])
    (.ok (conclaveWith none loadedBob)) () :=
  .call (.call (.call (.call (.call (.call (.call (.call (.call (.pure _)))))))))

/-- Bob's node does not answer. Its record has this value. -/
def deafBob (published : Option Bytes) (c : Call) (w : Unit) : Ret c × Unit :=
  match c with
  | .veilid .newPrivateRoute => (.ok ([1], [1]), w)
  | .veilid (.importRemotePrivateRoute _) => (.ok [2], w)
  | .veilid (.appCall _ _) => (.error .timeout, w)
  | c => (CalmEnv.answer ⟨fun _ => published, id, ([1], 1), fun _ => 0, []⟩ c, w)

/-- The first push, up to the import of bob's route. -/
def announceTrace (published : Option Bytes) : List Event :=
  [⟨.db .status, .ok ([1], 1)⟩, ⟨.veilid .newPrivateRoute, .ok ([1], [1])⟩,
    ⟨.veilid (.setDhtValue firstRecord.key DHT_SUBKEY_STATUS (encode (NodeStatus.mk [1] 1
      (PlainCrypto.keyToString ⟨CRYPTO_KIND_VLD0, [2]⟩) [1]))), .ok ()⟩,
    ⟨.veilid (.openDhtRecord bobKey none), .ok ⟨bobKey⟩⟩,
    ⟨.veilid (.getDhtValue bobKey DHT_SUBKEY_STATUS true), .ok published⟩]

def importEvent : Event := ⟨.veilid (.importRemotePrivateRoute [9]), .ok [2]⟩

theorem exec_push_status : Prog.Exec (keeping DDCP.push ⟨conclaveWith none loadedBob⟩)
    (announceTrace (some (encode bobStatus)) ++ [importEvent])
    (some ⟨conclaveWith (some ⟨[1], [1]⟩) (bobWith (some bobStatus) (some [2]))⟩) :=
  Prog.exec_trace (deafBob (some (encode bobStatus)))
    (keeping DDCP.push ⟨conclaveWith none loadedBob⟩) ()

theorem exec_push_none : Prog.Exec (keeping DDCP.push ⟨conclaveWith none loadedBob⟩)
    (announceTrace none) (some ⟨conclaveWith (some ⟨[1], [1]⟩) (bobWith none none)⟩) :=
  Prog.exec_trace (deafBob none) (keeping DDCP.push ⟨conclaveWith none loadedBob⟩) ()

/-- A tick of the puller whose `app_call` fails. -/
def tickTrace (message : Bytes) : List Event :=
  [⟨.veilid (.closeDhtRecord bobKey), .ok ()⟩, ⟨.veilid (.openDhtRecord bobKey none), .ok ⟨bobKey⟩⟩,
    ⟨.veilid (.getDhtValue bobKey DHT_SUBKEY_STATUS true), .ok (some (encode bobStatus))⟩,
    importEvent, ⟨.db (.trackedPeerVersion [2]), .ok 0⟩,
    ⟨.veilid (.crypto CRYPTO_KIND_VLD0), .ok (some ())⟩, ⟨.randomNonce, calmNonce⟩,
    ⟨.veilid (.appCall [2] message), .error .timeout⟩, ⟨.veilid (.releasePrivateRoute [2]), .ok ()⟩]

theorem exec_refreshPeers_bob (status : Option NodeStatus) (routeId : Option RouteId) :
    Exec Conclave.refreshPeers (conclaveWith (some ⟨[1], [1]⟩) (bobWith status routeId))
      ((tickTrace []).take 4) (.ok ())
      (conclaveWith (some ⟨[1], [1]⟩) (bobWith (some bobStatus) (some [2]))) :=
  Prog.exec_trace (deafBob (some (encode bobStatus)))
    (Conclave.refreshPeers (conclaveWith (some ⟨[1], [1]⟩) (bobWith status routeId))) ()

theorem exec_pullerTick_bob (status : Option NodeStatus) (routeId : Option RouteId) :
    ∃ message d, Prog.Exec (keeping DDCP.pullerTick
      ⟨conclaveWith (some ⟨[1], [1]⟩) (bobWith status routeId)⟩) (tickTrace message) (some d) := by
  let bob := bobWith (some bobStatus) (some [2])
  let s : DDCP := ⟨conclaveWith (some ⟨[1], [1]⟩) bob⟩
  let crypto : Crypto := ⟨⟨CRYPTO_KIND_VLD0, ⟨[2], [3]⟩⟩, ⟨[], [5]⟩⟩
  have hrefresh : Exec (warnErr (DDCP.onConclave Conclave.refreshPeers))
      ⟨conclaveWith (some ⟨[1], [1]⟩) (bobWith status routeId)⟩ ((tickTrace []).take 4)
      (.ok (.ok ())) s :=
    exec_attempt_iff.2 (Or.inl ⟨(), rfl,
      exec_zoom_iff.2 ⟨_, exec_refreshPeers_bob status routeId, rfl⟩⟩)
  have hcrypto : Exec (s.conclave.crypto bob) s
      [⟨.veilid (.crypto CRYPTO_KIND_VLD0), .ok (some ())⟩] (.ok crypto) s :=
    exec_traceOn (deafBob none) (s.conclave.crypto bob) s ()
  obtain ⟨contents, hencode⟩ : ∃ contents, Exec (crypto.encode (Request.changes 0)) s
      [⟨.randomNonce, calmNonce⟩] (.ok contents) s :=
    ⟨_, exec_traceOn (deafBob none) (crypto.encode (Request.changes 0)) s ()⟩
  have hcall : ∀ message, Exec (Conclave.callPeer crypto [2] message) s
      [⟨.veilid (.appCall [2] message), .error .timeout⟩,
        ⟨.veilid (.releasePrivateRoute [2]), .ok ()⟩] (.error (.err (.veilidAPI .timeout))) s :=
    fun message => exec_traceOn (deafBob none) (Conclave.callPeer crypto [2] message) s ()
  have hchanges : Exec (s.conclave.changes bob 0) s _ _ s :=
    exec_bind_of_ok hcrypto (exec_bind_of_ok hencode (hcall _))
  have hpull : Exec (DDCP.pullPeer s.conclave bob) s
      (⟨.db (.trackedPeerVersion [2]), .ok 0⟩ :: _) _ s :=
    .call (exec_bind_iff.2 (Or.inl ⟨_, rfl, hchanges⟩))
  have hwarn : Exec (warnErr (DDCP.pullPeer s.conclave bob)) s _
      (.ok (.error (.veilidAPI .timeout))) s :=
    exec_attempt_iff.2 (Or.inr (Or.inl ⟨_, _, rfl, rfl, hpull⟩))
  have hpulls : Exec (attemptEach (DDCP.pullPeer s.conclave) [bob]) s _ _ s :=
    exec_bind_of_ok hwarn (.pure _)
  have htick : Exec DDCP.pullerTick _ _ _ s := exec_bind_of_ok hrefresh hpulls
  exact ⟨_, s, Prog.exec_bind_pure_iff.2 ⟨_, htick, rfl⟩⟩

def closeTrace : List Event :=
  [⟨.veilid (.closeDhtRecord firstRecord.key), .ok ()⟩, ⟨.veilid (.releasePrivateRoute [1]), .ok ()⟩,
    ⟨.veilid (.closeDhtRecord bobKey), .ok ()⟩]

/-- The main copy releases its own route, and then bob's, if it has imported that. -/
theorem exec_close_status : Prog.Exec (consuming (DDCP.onConclave Conclave.close)
      ⟨conclaveWith (some ⟨[1], [1]⟩) (bobWith (some bobStatus) (some [2]))⟩)
    (closeTrace ++ [⟨.veilid (.releasePrivateRoute [2]), .error .invalidTarget⟩]) none :=
  .call (.call (.call (.call (.pure _))))

theorem exec_close_none : Prog.Exec (consuming (DDCP.onConclave Conclave.close)
      ⟨conclaveWith (some ⟨[1], [1]⟩) (bobWith none none)⟩) closeTrace none :=
  .call (.call (.call (.pure _)))

/-- A tick of the puller that fails to reach bob releases bob's route, and the main copy, which has
    imported that route as well, releases it again when it is closed. -/
theorem route_released_twice : ∃ (c : Conclave) (tr₀ : List IdentEvent) (ls : List ServingAction)
    (σ : ServingNode), Exec Conclave.new () tr₀ (.ok c) () ∧
    Run ServingNode.Step (ServingNode.start c) ls σ ∧ ImportsAgree σ.log ∧
    ¬ ReleasedOnce σ.log := by
  obtain ⟨message, d, htick⟩ := exec_pullerTick_bob (some bobStatus) (some [2])
  have hother : ∀ σ : ServingNode, True ∧ True := fun _ => ⟨trivial, trivial⟩
  have hpush : Run (guarded ServingNode.Step fun _ _ => True)
      (ServingNode.start (conclaveWith none loadedBob)) _ _ :=
    ServingNode.run_method rfl (.push _) exec_push_status hother fun _ _ _ _ _ => trivial
  have hserve := hpush.snoc ⟨trivial, .serve rfl rfl rfl⟩
  have htick := hserve.trans (ServingNode.run_method (w := .puller) rfl (.pullerTick _) htick hother
    fun _ _ _ _ _ => trivial)
  have hclose := htick.trans (ServingNode.run_method (w := .main) rfl (.close _) exec_close_status
    hother fun _ _ _ _ _ => trivial)
  refine ⟨_, _, _, _, exec_new_bob, hclose.of_guarded, ?_, ?_⟩
  · -- bob's route is the only one imported
    have himport : ∀ e ∈ announceTrace (some (encode bobStatus)) ++ [importEvent] ++
        tickTrace message ++ (closeTrace ++
          [⟨.veilid (.releasePrivateRoute [2]), .error .invalidTarget⟩]),
        ∀ blob, e.1 = .veilid (.importRemotePrivateRoute blob) → e = importEvent := by
      simp [announceTrace, tickTrace, closeTrace, importEvent]
    intro blob id id' hid hid'
    have hgiven : ({id} : Multiset RouteId) = {[2]} :=
      congrArg givenRoutes (himport _ hid blob rfl)
    have hgiven' : ({id'} : Multiset RouteId) = {[2]} :=
      congrArg givenRoutes (himport _ hid' blob rfl)
    exact Multiset.singleton_inj.1 (hgiven.trans hgiven'.symm)
  · intro honce
    have hlive := honce.released (announceTrace (some (encode bobStatus)) ++ [importEvent] ++
      tickTrace message ++ closeTrace) _ [] rfl [2] rfl
    -- between the two releases nothing is imported
    obtain ⟨g, hg, hgives⟩ := hlive (announceTrace (some (encode bobStatus)) ++ [importEvent] ++
      (tickTrace message).take 8) ⟨.veilid (.releasePrivateRoute [2]), .ok ()⟩ closeTrace rfl
      (Multiset.mem_singleton_self _)
    simp only [closeTrace, List.mem_cons, List.not_mem_nil, or_false] at hg
    rcases hg with rfl | rfl | rfl <;> exact absurd hgives (Multiset.notMem_zero _)

/-- The main copy has not found a status of bob when it pushes, so that a tick that fails to reach
    bob releases a route that only the puller has. The loops end before the main copy is closed. -/
theorem released_once_unreached : ∃ (ls : List ServingAction) (σ : ServingNode),
    Run (guarded ServingNode.Step GivenBackAlone)
      (ServingNode.start (conclaveWith none loadedBob)) ls σ ∧
    ⟨.veilid (.releasePrivateRoute [2]), .ok ()⟩ ∈ σ.log ∧
    ⟨.veilid (.releasePrivateRoute [1]), .ok ()⟩ ∈ σ.log ∧ ReleasedOnce σ.log := by
  let d : DDCP := ⟨conclaveWith (some ⟨[1], [1]⟩) (bobWith none none)⟩
  obtain ⟨message, d', htick⟩ := exec_pullerTick_bob none none
  have hother : ∀ w (σ : ServingNode), GivenBackAlone σ (.start w) ∧ GivenBackAlone σ (.finish w) :=
    fun _ _ => ⟨trivial, trivial⟩
  have hpush : Run (guarded ServingNode.Step GivenBackAlone)
      (ServingNode.start (conclaveWith none loadedBob)) _ _ :=
    ServingNode.run_method rfl (.push _) exec_push_none (hother _) <|
      ServingNode.givenBackAlone_calls (by simp) (by simp [announceTrace, always_cons, always_nil])
  have hserve := hpush.snoc_guarded (.serve rfl rfl rfl) trivial
  have hpull := hserve.trans <| ServingNode.run_method (w := .puller) rfl (.pullerTick _) htick
    (hother _) <| ServingNode.givenBackAlone_calls (by simp) <| by
      simp only [tickTrace, importEvent, always_cons, Call.veilid.injEq, reduceCtorEq,
        VeilidCall.releasePrivateRoute.injEq, false_imp_iff, forall_const, true_and]
      refine ⟨?_, always_nil⟩
      rintro id rfl
      -- the puller has it once, and the others have only the own route
      refine ⟨le_refl 1, fun v hv => ?_⟩
      cases v with
      | main => exact (by decide : ([2] : RouteId) ∉ Copy.main.holds d)
      | puller => exact absurd rfl hv
      | server => exact (by decide : ([2] : RouteId) ∉ Copy.server.holds d)
  have hstop := hpull.snoc_guarded (.stop (w := .puller) (by simp) rfl) trivial
  have hstop := hstop.snoc_guarded (.stop (w := .server) (by simp) rfl) trivial
  have hclose := hstop.trans <| ServingNode.run_method (w := .main) rfl (.close _) exec_close_none
    (hother _) <| ServingNode.givenBackAlone_calls (by simp) <| by
      simp only [closeTrace, always_cons, always_nil, Call.veilid.injEq, reduceCtorEq,
        VeilidCall.releasePrivateRoute.injEq, false_imp_iff, forall_const, true_and, and_true]
      rintro id rfl
      refine ⟨le_refl 1, fun v hv => ?_⟩
      cases v with
      | main => exact absurd rfl hv
      | puller => exact Multiset.notMem_zero _
      | server => exact Multiset.notMem_zero _
  refine ⟨_, _, hclose, ?_, ?_, released_once exec_new_bob hclose⟩
  · simp [ServingNode.start, tickTrace]
  · simp [ServingNode.start, closeTrace]

end Example

end Ddcp
