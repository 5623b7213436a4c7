import Ddcp.Ident.Proofs
import Ddcp.Lib.Handles

set_option autoImplicit false

/-! # The routes a method uses

A route is given by `new_private_route` or `import_remote_private_route`, returned by
`release_private_route`, and used by `app_call` and by every status announced with it. A `Hand` is
what a holder of routes has: ids, and which routes it knows to have been created. `Hand.Spends` says
that some calls in a row use only what the hand has when they are made, and each method has a lemma
that says from which hand it does so and what it leaves. -/

namespace Ddcp

open Method History

/-! ## Routes as handles -/

/-- The call that creates a route. -/
def created (route : Route) : Event :=
  ⟨.veilid .newPrivateRoute, .ok (route.id, route.data)⟩

/-- The route ids that an event gives. -/
def givenRoutes : Event → Multiset RouteId
  | ⟨.veilid .newPrivateRoute, r⟩ =>
      match (r : Except VeilidAPIError (RouteId × Bytes)) with
      | .ok (id, _) => {id}
      | .error _ => 0
  | ⟨.veilid (.importRemotePrivateRoute _), r⟩ =>
      match (r : Except VeilidAPIError RouteId) with
      | .ok id => {id}
      | .error _ => 0
  | _ => 0

/-- The route ids passed to `release_private_route`. -/
def returnedRoutes : Call → Multiset RouteId
  | .veilid (.releasePrivateRoute id) => {id}
  | _ => 0

theorem returnedRoutes_eq_zero_or (c : Call) :
    returnedRoutes c = 0 ∨ ∃ id, c = .veilid (.releasePrivateRoute id) := by
  cases c with
  | veilid c => cases c <;> first | exact Or.inl rfl | exact Or.inr ⟨_, rfl⟩
  | _ => exact Or.inl rfl

theorem mem_returnedRoutes_iff {c : Call} {id : RouteId} :
    id ∈ returnedRoutes c ↔ c = .veilid (.releasePrivateRoute id) := by
  constructor
  · intro h
    rcases returnedRoutes_eq_zero_or c with hc | ⟨id', rfl⟩
    · rw [hc] at h
      exact absurd h (Multiset.notMem_zero id)
    · rw [Multiset.mem_singleton.1 h]
  · rintro rfl
    exact Multiset.mem_singleton_self id

def routes : Handles Event RouteId where
  gives := givenRoutes
  returns e := returnedRoutes e.1
  apart := by
    intro e id hgives hreturns
    obtain ⟨c, r⟩ := e
    obtain rfl : c = .veilid (.releasePrivateRoute id) := mem_returnedRoutes_iff.1 hreturns
    exact absurd hgives (Multiset.notMem_zero id)

/-- The calls for which the caller has to have a route. -/
def UsesRoute : Call → Prop
  | .veilid (.releasePrivateRoute _) | .veilid (.appCall _ _) | .veilid (.setDhtValue _ _ _) => True
  | _ => False

theorem returnedRoutes_of_not_uses {c : Call} (h : ¬ UsesRoute c) : returnedRoutes c = 0 := by
  rcases returnedRoutes_eq_zero_or c with hc | ⟨id, rfl⟩
  · exact hc
  · exact absurd trivial h

theorem RefreshCall.not_uses {c : Call} (hc : RefreshCall c) : ¬ UsesRoute c := by
  cases c with
  | veilid c => cases c <;> first | exact id | exact hc.elim
  | _ => exact id

/-! ## Hands -/

/-- What a holder of routes has. -/
structure Hand where
  held : Multiset RouteId
  created : Route → Prop

namespace Hand

/-- What it has after an event. -/
def after (h : Hand) (e : Event) : Hand where
  held := routes.after h.held e
  created route := h.created route ∨ e = Ddcp.created route

def afters (h : Hand) (tr : List Event) : Hand := tr.foldl after h

variable [Capnp]

/-- What a call uses it has. -/
def May (h : Hand) (c : Call) : Prop :=
  match c with
  | .veilid (.releasePrivateRoute id) => id ∈ h.held
  | .veilid (.appCall id _) => id ∈ h.held
  | .veilid (.setDhtValue _ _ value) => ∃ (st : NodeStatus) (route : Route),
      value = encode st ∧ st.route = route.data ∧ h.created route ∧ route.id ∈ h.held
  | _ => True

/-- What each of the calls uses it has when the call is made. -/
def Spends (h : Hand) (tr : List Event) : Prop :=
  Always (fun before e => (h.afters before).May e.1) tr

variable {h h' : Hand} {e : Event} {tr tr' : List Event}

omit [Capnp] in
@[simp] theorem afters_nil : h.afters [] = h := rfl

omit [Capnp] in
@[simp] theorem afters_cons : h.afters (e :: tr) = (h.after e).afters tr := rfl

omit [Capnp] in
@[simp] theorem afters_append : h.afters (tr ++ tr') = (h.afters tr).afters tr' :=
  List.foldl_append

theorem spends_nil : h.Spends [] := always_nil

theorem spends_cons_iff : h.Spends (e :: tr) ↔ h.May e.1 ∧ (h.after e).Spends tr := always_cons

theorem spends_append_iff : h.Spends (tr ++ tr') ↔ h.Spends tr ∧ (h.afters tr).Spends tr' := by
  unfold Spends
  rw [always_append]
  simp only [afters_append]

theorem spends_one_iff : h.Spends [e] ↔ h.May e.1 := by
  rw [spends_cons_iff]
  exact and_iff_left spends_nil

theorem may_of_not_uses {c : Call} (hc : ¬ UsesRoute c) : h.May c := by
  cases c with
  | veilid c => cases c <;> first | exact trivial | exact absurd trivial hc
  | _ => exact trivial

theorem spends_of_not_uses (hcalls : ∀ e ∈ tr, ¬ UsesRoute e.1) : h.Spends tr :=
  always_of_forall fun e he _ => may_of_not_uses (hcalls e he)

/-! ### A hand with more in it -/

omit [Capnp] in
/-- `h'` has what `h` has. -/
structure Le (h h' : Hand) : Prop where
  held : h.held ≤ h'.held
  created : ∀ route, h.created route → h'.created route

omit [Capnp] in
theorem Le.after (hle : h.Le h') (e : Event) : (h.after e).Le (h'.after e) where
  held := Handles.after_mono hle.held
  created route := Or.imp_left (hle.created route)

omit [Capnp] in
theorem Le.afters (hle : h.Le h') (tr : List Event) : (h.afters tr).Le (h'.afters tr) := by
  induction tr generalizing h h' with
  | nil => exact hle
  | cons e tr ih => exact ih (hle.after e)

theorem Le.may (hle : h.Le h') {c : Call} (hc : h.May c) : h'.May c := by
  by_cases hu : UsesRoute c
  · cases c with
    | veilid c =>
        cases c with
        | releasePrivateRoute id => exact Multiset.mem_of_le hle.held hc
        | appCall id message => exact Multiset.mem_of_le hle.held hc
        | setDhtValue key subkey value =>
            obtain ⟨st, route, hvalue, hroute, hcreated, hheld⟩ := hc
            exact ⟨st, route, hvalue, hroute, hle.created route hcreated,
              Multiset.mem_of_le hle.held hheld⟩
        | _ => exact absurd hu id
    | _ => exact absurd hu id
  · exact may_of_not_uses hu

theorem Le.spends (hle : h.Le h') (hs : h.Spends tr) : h'.Spends tr := by
  induction tr generalizing h h' with
  | nil => exact spends_nil
  | cons e tr ih =>
      rw [spends_cons_iff] at hs ⊢
      exact ⟨hle.may hs.1, ih (hle.after e) hs.2⟩

/-! ### What is kept -/

omit [Capnp] in
theorem created_afters {route : Route} (hr : h.created route ∨ Ddcp.created route ∈ tr) :
    (h.afters tr).created route := by
  induction tr generalizing h with
  | nil => exact hr.resolve_right (by simp)
  | cons e tr ih =>
      refine ih ?_
      rcases hr with hr | hr
      · exact Or.inl (Or.inl hr)
      · exact (List.mem_cons.1 hr).imp (fun he => Or.inr he.symm) id

omit [Capnp] in
/-- Calls that return no route only add to what is held. -/
theorem held_le_afters (hno : ∀ e ∈ tr, returnedRoutes e.1 = 0) : h.held ≤ (h.afters tr).held := by
  induction tr generalizing h with
  | nil => exact le_refl h.held
  | cons e tr ih =>
      have hfirst : h.held ≤ (h.after e).held := Handles.le_after (hno e List.mem_cons_self)
      exact hfirst.trans (ih fun e' he' => hno e' (List.mem_cons_of_mem e he'))

omit [Capnp] in
/-- What they give is held in the end, besides what was held before. -/
theorem given_add_le_afters (hno : ∀ e ∈ tr, returnedRoutes e.1 = 0) (he : e ∈ tr) :
    givenRoutes e + h.held ≤ (h.afters tr).held := by
  obtain ⟨before, rest, rfl⟩ := List.append_of_mem he
  rw [afters_append, afters_cons]
  have hbefore : h.held ≤ (h.afters before).held := held_le_afters fun e' he' => hno e' (by simp [he'])
  have hgiven : givenRoutes e + (h.afters before).held ≤ ((h.afters before).after e).held := by
    show _ ≤ (h.afters before).held - returnedRoutes e.1 + givenRoutes e
    rw [hno e he, Multiset.sub_zero, Multiset.add_comm]
  have hrest : ((h.afters before).after e).held ≤ (((h.afters before).after e).afters rest).held :=
    held_le_afters fun e' he' => hno e' (by simp [he'])
  calc givenRoutes e + h.held
      ≤ givenRoutes e + (h.afters before).held := Multiset.add_le_add_left hbefore
    _ ≤ ((h.afters before).after e).held := hgiven
    _ ≤ (((h.afters before).after e).afters rest).held := hrest

end Hand

/-! ## Methods and what they take

`Trades x s need leave` is a triple: from a hand with `need` in it, `x` uses only what the hand has
and leaves `leave` in it, and whatever else is in the hand stays there. -/

/-- The method uses no route. -/
def Quiet {σ α : Type} (x : Act σ α) : Prop := Within (frame (fun _ => ()) fun c => ¬ UsesRoute c) x

section Trades
variable [Capnp] {σ α β : Type} {s : σ} {need mid leave : Multiset RouteId}

def Trades (x : Act σ α) (s : σ) (need leave : Multiset RouteId) : Prop :=
  ∀ (h : Hand) (F : Multiset RouteId) (tr : List Event) (r : Except Abort α) (s' : σ),
    Exec x s tr r s' → need + F ≤ h.held → h.Spends tr ∧ leave + F ≤ (h.afters tr).held

theorem Trades.of_quiet {x : Act σ α} (hx : Quiet x) (s : σ) (need : Multiset RouteId) :
    Trades x s need need := by
  intro h F tr r s' hexec hheld
  have hquiet := (hx s tr r s' hexec).2
  refine ⟨Hand.spends_of_not_uses hquiet, hheld.trans (Hand.held_le_afters fun e he => ?_)⟩
  exact returnedRoutes_of_not_uses (hquiet e he)

theorem trades_pure (a : α) (s : σ) (need : Multiset RouteId) :
    Trades (pure a : Act σ α) s need need :=
  .of_quiet (Within.pure (composable_frame _ _) a) s need

theorem trades_throw (e : Abort) (s : σ) (need : Multiset RouteId) :
    Trades (throw e : Act σ α) s need need :=
  .of_quiet (Within.throw (composable_frame _ _) e) s need

theorem trades_lift (x : Except Abort α) (s : σ) (need : Multiset RouteId) :
    Trades (Act.lift x : Act σ α) s need need :=
  .of_quiet (within_lift (composable_frame _ _) x) s need

theorem Trades.weaken {x : Act σ α} (hx : Trades x s need mid) (hle : leave ≤ mid) :
    Trades x s need leave := by
  intro h F tr r s' hexec hheld
  obtain ⟨hspends, hkept⟩ := hx h F tr r s' hexec hheld
  exact ⟨hspends, (add_le_add_left hle F).trans hkept⟩

theorem Trades.frame {x : Act σ α} (hx : Trades x s need leave) (more : Multiset RouteId) :
    Trades x s (need + more) (leave + more) := by
  intro h F tr r s' hexec hheld
  rw [add_assoc] at hheld ⊢
  exact hx h (more + F) tr r s' hexec hheld

/-- The second part takes what the first one leaves. -/
theorem Trades.bind {x : Act σ α} {f : α → Act σ β} (hx : Trades x s need mid)
    (hf : ∀ a s₁, Trades (f a) s₁ mid 0) : Trades (x >>= f) s need 0 := by
  intro h F tr r s' hexec hheld
  rcases exec_bind_iff.1 hexec with ⟨e, _, h₁⟩ | ⟨tr₁, tr₂, a, s₁, rfl, h₁, h₂⟩
  · exact hx.weaken (Multiset.zero_le mid) h F tr _ s' h₁ hheld
  · obtain ⟨hspends₁, hkept₁⟩ := hx h F tr₁ _ s₁ h₁ hheld
    obtain ⟨hspends₂, hkept₂⟩ := hf a s₁ (h.afters tr₁) F tr₂ r s' h₂ hkept₁
    rw [Hand.spends_append_iff, Hand.afters_append]
    exact ⟨⟨hspends₁, hspends₂⟩, hkept₂⟩

theorem Trades.attempt {x : Act σ α} (hx : Trades x s need leave) :
    Trades (warnErr x) s need leave := by
  intro h F tr r s' hexec hheld
  obtain ⟨r₁, h₁, _⟩ := exec_attempt hexec
  exact hx h F tr r₁ s' h₁ hheld

/-- An `app_call` uses the route and leaves it. -/
theorem trades_appCall (id : RouteId) (message : Bytes) :
    Trades (Act.veilid (.appCall id message)) s {id} {id} := by
  intro h F tr r s' hexec hheld
  obtain ⟨a, rfl, _, _⟩ := Act.exec_veilid_iff.1 hexec
  refine ⟨Hand.spends_one_iff.2 ?_, hheld.trans (Handles.le_after rfl)⟩
  exact Multiset.mem_of_le hheld (Multiset.mem_add.2 (Or.inl (Multiset.mem_singleton_self id)))

/-- A release takes the route, whether it fails or not. -/
theorem trades_release (id : RouteId) : Trades (Act.veilid (.releasePrivateRoute id)) s {id} 0 := by
  intro h F tr r s' hexec hheld
  obtain ⟨a, rfl, _, _⟩ := Act.exec_veilid_iff.1 hexec
  constructor
  · refine Hand.spends_one_iff.2 ?_
    exact Multiset.mem_of_le hheld (Multiset.mem_add.2 (Or.inl (Multiset.mem_singleton_self id)))
  · show 0 + F ≤ h.held - {id} + 0
    rw [Multiset.le_iff_count] at hheld ⊢
    intro i
    have hi := hheld i
    simp only [Multiset.count_add, Multiset.count_sub, Multiset.count_zero] at hi ⊢
    omega

/-- The end of both `close` methods: the record, then the route. -/
theorem trades_closing (dht : Option DHTRecordDescriptor) (g : σ → σ) (o : Option RouteId) :
    Trades (Act.closeRecord dht >>= fun _ => modify g >>= fun _ => Act.releaseRoute o) s o.toList 0 := by
  have hrecord : Quiet (Act.closeRecord dht : Act σ Unit) := by
    cases dht with
    | none => exact Within.pure (composable_frame _ _) ()
    | some dht => exact frame_veilid id
  have hmodify : Quiet (modify g : Act σ PUnit) :=
    Within.modify fun s => ⟨rfl, fun e he => absurd he (by simp)⟩
  refine (Trades.of_quiet hrecord s _).bind fun _ s₁ =>
    (Trades.of_quiet hmodify s₁ _).bind fun _ s₂ => ?_
  cases o with
  | none => exact trades_pure () s₂ 0
  | some id => exact trades_release id

end Trades

/-! ## The sovereign -/

namespace Sovereign

/-- The id of the cached route. -/
def routeIds (s : Sovereign) : Multiset RouteId := ((s.route.map Route.id).toList : Multiset RouteId)

theorem mem_routeIds_iff {s : Sovereign} {id : RouteId} :
    id ∈ s.routeIds ↔ ∃ route, s.route = some route ∧ route.id = id := by
  unfold routeIds
  rw [Multiset.mem_coe, Option.mem_toList, Option.map_eq_some_iff]

/-- The cached route is in the hand, and known to have been created. -/
def Covered (h : Hand) (s : Sovereign) : Prop :=
  ∀ route, s.route = some route → route.id ∈ h.held ∧ h.created route

variable [Capnp] {h : Hand} {s s' : Sovereign} {tr : List Event}

/-- The route to announce, cached or new, is one that the hand has by then. -/
theorem spends_currentRoute {r : Except Abort Route} (hx : Exec currentRoute s tr r s')
    (hs : s.Covered h) : h.Spends tr ∧ s'.Covered (h.afters tr) ∧
      (∀ e ∈ tr, returnedRoutes e.1 = 0) ∧ ∀ route, r = .ok route → s'.route = some route := by
  rcases exec_currentRoute hx with ⟨route, hroute, rfl, rfl, rfl⟩ | ⟨e, e', rfl, rfl, rfl⟩ |
    ⟨route, rfl, rfl, rfl⟩
  · refine ⟨Hand.spends_nil, hs, by simp, fun route' hr => ?_⟩
    rw [hroute, Except.ok.inj hr]
  · refine ⟨Hand.spends_one_iff.2 trivial, fun route hroute => ?_, by simp [returnedRoutes], by simp⟩
    obtain ⟨hheld, hcreated⟩ := hs route hroute
    exact ⟨Multiset.mem_of_le (Handles.le_after rfl) hheld, Or.inl hcreated⟩
  · refine ⟨Hand.spends_one_iff.2 trivial, fun route' hroute => ?_, by simp [returnedRoutes], ?_⟩
    · obtain rfl := Option.some.inj hroute
      exact ⟨Handles.mem_after_iff.2 (Or.inr (Multiset.mem_singleton_self route.id)), Or.inr rfl⟩
    · intro route' hr
      rw [← Except.ok.inj hr]

theorem spends_announce [CryptoSystem] {st : Status} {r : Except Abort Unit}
    (hx : Exec (announce st) s tr r s') (hs : s.Covered h) :
    h.Spends tr ∧ s'.Covered (h.afters tr) ∧ ∀ e ∈ tr, returnedRoutes e.1 = 0 := by
  obtain ⟨tr₁, r₁, hroute, htr⟩ := exec_announce hx
  obtain ⟨hspends, hcovered, hno, hcached⟩ := spends_currentRoute hroute hs
  rcases htr with ⟨rfl, _⟩ | ⟨route, a, rfl, rfl⟩
  · exact ⟨hspends, hcovered, hno⟩
  -- the write has the route that is cached now
  obtain ⟨hheld, hcreated⟩ := hcovered route (hcached route rfl)
  refine ⟨?_, fun route' hroute' => ?_, ?_⟩
  · rw [Hand.spends_append_iff, Hand.spends_one_iff]
    exact ⟨hspends, s'.nodeStatus st route, route, rfl, rfl, hcreated, hheld⟩
  · obtain ⟨hheld', hcreated'⟩ := hcovered route' hroute'
    rw [Hand.afters_append]
    exact ⟨Multiset.mem_of_le (Handles.le_after rfl) hheld', Or.inl hcreated'⟩
  · intro e he
    rcases List.mem_append.1 he with he | he
    · exact hno e he
    · rw [List.mem_singleton.1 he]
      rfl

/-- A RouteChange returns the cached route, and keeps it when that fails. -/
theorem spends_releaseRoute {r : Except Abort Unit} (hx : Exec releaseRoute s tr r s')
    (hs : s.Covered h) : h.Spends tr ∧
      ((∀ id e, ⟨.veilid (.releasePrivateRoute id), .error e⟩ ∉ tr) → s'.Covered (h.afters tr)) := by
  rcases exec_releaseRoute hx with ⟨hnone, rfl, rfl⟩ | ⟨route, hroute, ⟨e, rfl, rfl⟩ | ⟨rfl, rfl⟩⟩
  · exact ⟨Hand.spends_nil, fun _ => hs⟩
  · refine ⟨Hand.spends_one_iff.2 (hs route hroute).1, fun hfine => ?_⟩
    exact absurd List.mem_cons_self (hfine route.id e)
  · refine ⟨Hand.spends_one_iff.2 (hs route hroute).1, fun _ route' hroute' => ?_⟩
    exact absurd hroute' (by simp)

/-- `close` takes the cached route. -/
theorem trades_close (s : Sovereign) : Trades close s s.routeIds 0 :=
  fun h F tr r s' hx => trades_closing s.dht _ (s.route.map Route.id) h F tr r s'
    (exec_modify_bind_iff.1 (exec_get_bind_iff.1 hx))

end Sovereign

/-! ## A peer -/

namespace Peer

/-- The id of the imported route. -/
def routeIds (p : Peer) : Multiset RouteId := (p.routeId.toList : Multiset RouteId)

/-- The route that a pull from the peer uses. -/
def pullRoute (p : Peer) : Multiset RouteId :=
  match p.nodeStatus with
  | none => 0
  | some _ => p.routeIds

section Refresh
variable [Capnp] {p p' : Peer} {tr : List Event}

omit [Capnp] in
theorem exec_refreshRoute {r : Except Abort Unit} (hx : Exec refreshRoute p tr r p') :
    p'.nodeStatus = p.nodeStatus ∧
    ((p'.routeId = p.routeId ∧ ((∃ e, r = .error e) ∨ p.nodeStatus = none)) ∨
      ∃ blob id, p'.routeId = some id ∧ ⟨.veilid (.importRemotePrivateRoute blob), .ok id⟩ ∈ tr) := by
  have hmatch := exec_get_bind_iff.1 hx
  cases hp : p.nodeStatus with
  | none =>
      rw [hp] at hmatch
      obtain ⟨_, _, rfl⟩ := exec_pure_iff.1 hmatch
      exact ⟨hp, Or.inl ⟨rfl, Or.inr rfl⟩⟩
  | some st =>
      rw [hp] at hmatch
      rcases Act.exec_veilid_bind_iff.1 hmatch with ⟨e, rfl, rfl, rfl⟩ | ⟨id, tr', rfl, hset⟩
      · exact ⟨hp, Or.inl ⟨rfl, Or.inl ⟨_, rfl⟩⟩⟩
      · obtain ⟨_, _, rfl⟩ := exec_modify_iff.1 hset
        exact ⟨hp, Or.inr ⟨st.route, id, rfl, List.mem_cons_self⟩⟩

/-- Where the route of a refreshed peer comes from. It is the old one only when the refresh has
    failed or found no status. -/
theorem exec_refresh_route {r : Except Abort (Option NodeStatus)} (hx : Exec refresh p tr r p') :
    (p'.routeId = p.routeId ∧ ((∃ e, r = .error e) ∨ p'.nodeStatus = none)) ∨
    ∃ blob id, p'.routeId = some id ∧ ⟨.veilid (.importRemotePrivateRoute blob), .ok id⟩ ∈ tr := by
  have hdht : Within (frame (fun p : Peer => p.routeId) fun _ => True) refreshDht := by
    have hJ := @composable_frame Call Ret Peer _ (fun p : Peer => p.routeId) fun _ => True
    have hmodify : ∀ {g : Peer → Peer}, (∀ p, (g p).routeId = p.routeId) →
        Within (frame (fun p : Peer => p.routeId) fun _ => True) (modify g : Act Peer PUnit) :=
      fun hg => Within.modify fun p => ⟨hg p, fun e he => absurd he (by simp)⟩
    refine (Within.get hJ).bind hJ fun p => Within.bind hJ ?_ fun _ => ?_
    · cases p.dht with
      | some dht => exact frame_veilid trivial
      | none => exact Within.pure hJ _
    refine Within.bind hJ (frame_veilid trivial) fun dht => Within.bind hJ ?_ fun _ =>
      Within.bind hJ (frame_veilid trivial) fun value => ?_
    · exact hmodify fun _ => rfl
    cases value with
    | some data => exact (within_lift hJ _).bind hJ fun st => hmodify fun _ => rfl
    | none => exact hmodify fun _ => rfl
  rcases exec_bind_iff.1 hx with ⟨e, rfl, h₁⟩ | ⟨tr₁, tr₂, u, p₁, rfl, h₁, h₂⟩
  · exact Or.inl ⟨(hdht _ _ _ _ h₁).1, Or.inl ⟨e, rfl⟩⟩
  have hsame : p₁.routeId = p.routeId := (hdht _ _ _ _ h₁).1
  rcases exec_bind_iff.1 h₂ with ⟨e, rfl, h₃⟩ | ⟨tr₃, tr₄, u, p₂, rfl, h₃, h₄⟩
  · rcases exec_refreshRoute h₃ with ⟨_, ⟨hroute, _⟩ | ⟨blob, id, hroute, hmem⟩⟩
    · exact Or.inl ⟨hroute.trans hsame, Or.inl ⟨e, rfl⟩⟩
    · exact Or.inr ⟨blob, id, hroute, List.mem_append_right _ hmem⟩
  · have hdone := exec_get_bind_iff.1 h₄
    obtain ⟨rfl, _, rfl⟩ := exec_pure_iff.1 hdone
    rcases exec_refreshRoute h₃ with ⟨hst, ⟨hroute, he | hnone⟩ | ⟨blob, id, hroute, hmem⟩⟩
    · obtain ⟨e, he⟩ := he
      exact absurd he (by simp)
    · exact Or.inl ⟨hroute.trans hsame, Or.inr (hst.trans hnone)⟩
    · exact Or.inr ⟨blob, id, hroute, by simp [hmem]⟩

variable {h : Hand} {F : Multiset RouteId}

/-- A refresh uses no route, and when it succeeds, the hand has the route a pull would use. -/
theorem spends_refresh {r : Except Abort (Option NodeStatus)} (hx : Exec refresh p tr r p')
    (hheld : F ≤ h.held) :
    h.Spends tr ∧ ∀ st, r = .ok st → p'.pullRoute + F ≤ (h.afters tr).held := by
  have hquiet : ∀ e ∈ tr, ¬ UsesRoute e.1 := fun e he =>
    ((within_peer_refresh _ _ _ _ hx).2 e he).not_uses
  have hno : ∀ e ∈ tr, returnedRoutes e.1 = 0 := fun e he => returnedRoutes_of_not_uses (hquiet e he)
  refine ⟨Hand.spends_of_not_uses hquiet, fun st hst => ?_⟩
  rcases exec_refresh_route hx with ⟨_, ⟨e, he⟩ | hnone⟩ | ⟨blob, id, hroute, hmem⟩
  · exact absurd (hst.symm.trans he) (by simp)
  · rw [pullRoute, hnone, Multiset.zero_add]
    exact hheld.trans (Hand.held_le_afters hno)
  · have hpull : p'.pullRoute ≤ {id} := by
      rw [pullRoute]
      split
      · exact Multiset.zero_le _
      · rw [routeIds, hroute]
        exact le_refl _
    calc p'.pullRoute + F
        ≤ {id} + h.held := add_le_add hpull hheld
      _ ≤ (h.afters tr).held := Hand.given_add_le_afters hno hmem

end Refresh

/-- `close` takes the route. -/
theorem trades_close [Capnp] (p : Peer) : Trades close p p.routeIds 0 :=
  fun h F tr r p' hx => trades_closing p.dht _ p.routeId h F tr r p'
    (exec_modify_bind_iff.1 (exec_get_bind_iff.1 hx))

end Peer

/-! ## All peers in turn -/

namespace Conclave

/-- What `f` says of the peers with these names, taken together. -/
def total (f : Peer → Multiset RouteId) (c : Conclave) (names : List String) : Multiset RouteId :=
  (names.map fun name => (c.remotes.lookup name).elim 0 f).sum

/-- The ids of all routes of the conclave. -/
def routeIds (c : Conclave) : Multiset RouteId :=
  c.sovereign.routeIds + (c.peers.map Peer.routeIds).sum

theorem total_keys (f : Peer → Multiset RouteId) (c : Conclave) :
    c.total f c.remotes.keys = (c.peers.map f).sum := by
  unfold total peers AList.keys List.keys
  rw [List.map_map, List.map_map]
  congr 1
  refine List.map_congr_left fun e he => ?_
  have hlookup : c.remotes.lookup e.1 = some e.2 := AList.mem_lookup_iff.2 he
  simp [hlookup]

theorem total_congr {f : Peer → Multiset RouteId} {c c' : Conclave} {names : List String}
    (h : ∀ name ∈ names, c'.remotes.lookup name = c.remotes.lookup name) :
    c'.total f names = c.total f names := by
  unfold total
  congr 1
  exact List.map_congr_left fun name hname => by rw [h name hname]

theorem total_cons (f : Peer → Multiset RouteId) (c : Conclave) (name : String)
    (names : List String) :
    c.total f (name :: names) = (c.remotes.lookup name).elim 0 f + c.total f names := by
  unfold total
  rw [List.map_cons, List.sum_cons]

section Rounds
variable [Capnp] {α : Type} {x : Act Peer α} {f g : Peer → Multiset RouteId} {c c' : Conclave}
  {tr : List Event} {h : Hand} {F : Multiset RouteId}

/-- The method needs `f` of its peer, and when it returns, it leaves `g`. -/
def Round (x : Act Peer α) (f g : Peer → Multiset RouteId) : Prop :=
  ∀ (p p' : Peer) (tr : List Event) (r : Except Abort α) (h : Hand) (F : Multiset RouteId),
    Exec x p tr r p' → f p + F ≤ h.held →
      h.Spends tr ∧ ∀ a, r = .ok a → g p' + F ≤ (h.afters tr).held

theorem spends_onPeer (hround : Round x f g) {name : String} {r : Except Abort (Option α)}
    (hx : Exec (onPeer name x) c tr r c')
    (hheld : (c.remotes.lookup name).elim 0 f + F ≤ h.held) :
    h.Spends tr ∧ (∀ n, n ≠ name → c'.remotes.lookup n = c.remotes.lookup n) ∧
      c'.remotes.keys = c.remotes.keys ∧
      ∀ o, r = .ok o → (c'.remotes.lookup name).elim 0 g + F ≤ (h.afters tr).held := by
  rcases exec_onPeer hx with ⟨hnone, rfl, _, rfl⟩ | ⟨p, p', r', hp, hx', rfl, rfl⟩
  · rw [hnone] at hheld ⊢
    exact ⟨Hand.spends_nil, fun _ _ => rfl, rfl, fun _ _ => hheld⟩
  · rw [hp] at hheld
    obtain ⟨hspends, hget⟩ := hround p p' tr r' h F hx' hheld
    have hmem : name ∈ c.remotes := AList.lookup_isSome.1 (by rw [hp]; rfl)
    refine ⟨hspends, fun n hn => AList.lookup_replace_ne hn, AList.keys_replace _ _ _, ?_⟩
    intro o ho
    cases r' with
    | error e => exact absurd ho (by simp [Except.map])
    | ok a =>
        rw [AList.lookup_replace_self hmem]
        exact hget a rfl

/-- The loop over peers needs and leaves what its rounds do. -/
theorem spends_forPeers (hround : Round x f g) {names : List String} (hnames : names.Nodup)
    {r : Except Abort PUnit}
    (hx : Exec (names.forM fun name => do
      let _ ← Conclave.onPeer name x
      return ()) c tr r c') (hheld : c.total f names + F ≤ h.held) :
    h.Spends tr ∧ (∀ name, name ∉ names → c'.remotes.lookup name = c.remotes.lookup name) ∧
      c'.remotes.keys = c.remotes.keys ∧
      ∀ u, r = .ok u → c'.total g names + F ≤ (h.afters tr).held := by
  induction names generalizing c tr r h F with
  | nil =>
      obtain ⟨rfl, _, rfl⟩ := exec_pure_iff.1 hx
      exact ⟨Hand.spends_nil, fun _ _ => rfl, rfl, fun _ _ => hheld⟩
  | cons name names ih =>
      obtain ⟨hname, hnames⟩ := List.nodup_cons.1 hnames
      -- the frame of the first round is what the other rounds need
      rw [total_cons, add_assoc] at hheld
      rcases exec_bind_iff.1 hx with ⟨e, rfl, h₁⟩ | ⟨tr₁, tr₂, u, c₁, rfl, h₁, h₂⟩
      · rcases exec_bind_iff.1 h₁ with ⟨e', _, h₂⟩ | ⟨_, _, _, _, _, _, h₂⟩
        · obtain ⟨hspends, hlookup, hkeys, _⟩ := spends_onPeer hround h₂ hheld
          refine ⟨hspends, fun n hn => hlookup n fun heq => ?_, hkeys, by simp⟩
          exact hn (heq ▸ List.mem_cons_self)
        · exact absurd (exec_pure_iff.1 h₂).2.1 (by simp)
      · obtain ⟨tr₃, tr₄, o, c₂, rfl, h₃, h₄⟩ := exec_bind_ok_iff.1 h₁
        obtain ⟨rfl, _, rfl⟩ := exec_pure_iff.1 h₄
        rw [List.append_nil]
        obtain ⟨hspends₁, hlookup₁, hkeys₁, hget₁⟩ := spends_onPeer hround h₃ hheld
        -- the other rounds, with what this one has left in their frame
        have hothers : c₁.total f names = c.total f names :=
          total_congr fun n hn => hlookup₁ n fun heq => hname (heq ▸ hn)
        have hheld₁ : c₁.total f names + ((c₁.remotes.lookup name).elim 0 g + F) ≤
            (h.afters tr₃).held := by
          rw [hothers, add_left_comm]
          exact hget₁ o rfl
        obtain ⟨hspends₂, hlookup₂, hkeys₂, hget₂⟩ := ih hnames h₂ hheld₁
        refine ⟨Hand.spends_append_iff.2 ⟨hspends₁, hspends₂⟩, fun n hn => ?_,
          hkeys₂.trans hkeys₁, fun u' hu => ?_⟩
        · rw [List.mem_cons, not_or] at hn
          rw [hlookup₂ n hn.2, hlookup₁ n hn.1]
        · rw [Hand.afters_append, total_cons, hlookup₂ name hname, add_assoc, add_left_comm]
          exact hget₂ u' hu

end Rounds

theorem total_zero (c : Conclave) (names : List String) : c.total (fun _ => 0) names = 0 := by
  induction names with
  | nil => rfl
  | cons name names ih =>
      rw [total_cons, ih]
      cases c.remotes.lookup name <;> rfl

theorem mem_total_iff {f : Peer → Multiset RouteId} {c : Conclave} {names : List String}
    {id : RouteId} : id ∈ c.total f names ↔
      ∃ name ∈ names, ∃ p, c.remotes.lookup name = some p ∧ id ∈ f p := by
  induction names with
  | nil => simp [total]
  | cons name names ih =>
      rw [total_cons, Multiset.mem_add, ih]
      cases hp : c.remotes.lookup name <;> simp [hp]

theorem mem_routeIds_iff {c : Conclave} {id : RouteId} : id ∈ c.routeIds ↔
    id ∈ c.sovereign.routeIds ∨ ∃ name p, c.remotes.lookup name = some p ∧ id ∈ p.routeIds := by
  rw [routeIds, Multiset.mem_add, ← total_keys, mem_total_iff]
  refine or_congr_right ⟨?_, ?_⟩
  · rintro ⟨name, _, p, hp, hid⟩
    exact ⟨name, p, hp, hid⟩
  · rintro ⟨name, p, hp, hid⟩
    exact ⟨name, AList.mem_keys.2 (AList.lookup_isSome.1 (by rw [hp]; rfl)), p, hp, hid⟩

variable [Capnp] {c c' : Conclave} {tr : List Event} {h : Hand}

/-- **Closing** a conclave uses each of its routes once. -/
theorem spends_close {r : Except Abort Unit} (hx : Exec Conclave.close c tr r c')
    (hheld : c.routeIds ≤ h.held) : h.Spends tr := by
  rw [routeIds, ← total_keys] at hheld
  have hsovereign : ∀ {tr₁ : List Event} {r₁ : Except Abort Unit} {c₁ : Conclave},
      Exec (onSovereign Sovereign.close) c tr₁ r₁ c₁ → c₁.remotes = c.remotes ∧ h.Spends tr₁ ∧
        0 + c.total Peer.routeIds c.remotes.keys ≤ (h.afters tr₁).held := by
    intro tr₁ r₁ c₁ h₁
    obtain ⟨s', hs, rfl⟩ := exec_zoom_iff.1 h₁
    exact ⟨rfl, Sovereign.trades_close _ h _ tr₁ r₁ s' hs hheld⟩
  rcases exec_bind_iff.1 hx with ⟨e, _, h₁⟩ | ⟨tr₁, tr₂, u, c₁, rfl, h₁, h₂⟩
  · exact (hsovereign h₁).2.1
  · obtain ⟨hremotes, hspends, hkept⟩ := hsovereign h₁
    have hloop := exec_get_bind_iff.1 h₂
    have hpeers : c₁.total Peer.routeIds c₁.remotes.keys + 0 ≤ (h.afters tr₁).held := by
      rw [add_comm, total_congr (c := c) fun name _ => by rw [hremotes], hremotes]
      exact hkept
    have hround : Round Peer.close Peer.routeIds fun _ => 0 := by
      intro p p' tr r h F hx hheld
      obtain ⟨hspends, hkept⟩ := Peer.trades_close p h F tr r p' hx hheld
      exact ⟨hspends, fun _ _ => hkept⟩
    have hclosed := spends_forPeers hround (AList.keys_nodup _) hloop hpeers
    exact Hand.spends_append_iff.2 ⟨hspends, hclosed.1⟩

/-- A refresh of all peers uses no route, and when it succeeds, the hand has what pulls from the
    peers would use. -/
theorem spends_refreshPeers {r : Except Abort Unit} (hx : Exec refreshPeers c tr r c') :
    h.Spends tr ∧ ∀ u, r = .ok u → (c'.peers.map Peer.pullRoute).sum ≤ (h.afters tr).held := by
  have hloop := exec_get_bind_iff.1 hx
  have hround : Round Peer.refresh (fun _ => 0) Peer.pullRoute := fun p p' tr r h F hx hheld =>
    Peer.spends_refresh hx (by rwa [zero_add] at hheld)
  have hnothing : c.total (fun _ => 0) c.remotes.keys + 0 ≤ h.held := by
    rw [total_zero]
    exact Multiset.zero_le _
  obtain ⟨hspends, _, hkeys, hget⟩ := spends_forPeers hround (AList.keys_nodup _) hloop hnothing
  refine ⟨hspends, fun u hu => ?_⟩
  rw [← total_keys, hkeys, ← add_zero (c'.total _ _)]
  exact hget u hu

/-- The routes of refreshed peers are those from before and those imported now. -/
theorem exec_refreshPeers_routes {r : Except Abort Unit} (hx : Exec refreshPeers c tr r c') :
    c'.sovereign = c.sovereign ∧ (∀ e ∈ tr, RefreshCall e.1) ∧
      ∀ id ∈ c'.routeIds, id ∈ c.routeIds ∨ ∃ e ∈ tr, id ∈ givenRoutes e := by
  have hJ : Composable fun (c : Conclave) (tr : List Event) (c' : Conclave) =>
      c'.sovereign = c.sovereign ∧ (∀ e ∈ tr, RefreshCall e.1) ∧
        ∀ id ∈ c'.routeIds, id ∈ c.routeIds ∨ ∃ e ∈ tr, id ∈ givenRoutes e := {
    nil := fun c => ⟨rfl, by simp, fun id => Or.inl⟩
    append := by
      rintro c c₁ c₂ tr₁ tr₂ ⟨hsov₁, hcalls₁, hids₁⟩ ⟨hsov₂, hcalls₂, hids₂⟩
      refine ⟨hsov₂.trans hsov₁, fun e he => ?_, fun id hid => ?_⟩
      · exact (List.mem_append.1 he).elim (hcalls₁ e) (hcalls₂ e)
      · rcases hids₂ id hid with hid | ⟨e, he, hgives⟩
        · rcases hids₁ id hid with hid | ⟨e, he, hgives⟩
          · exact Or.inl hid
          · exact Or.inr ⟨e, List.mem_append_left _ he, hgives⟩
        · exact Or.inr ⟨e, List.mem_append_right _ he, hgives⟩ }
  refine Within.bind hJ (Within.get hJ) (fun c => Within.forM hJ fun name => Within.bind hJ ?_
    fun _ => Within.pure hJ _) _ _ _ _ hx
  intro c tr r c' hx
  obtain ⟨hsov, hcalls, _⟩ := exec_onPeer_refresh hx
  refine ⟨hsov, hcalls, fun id hid => ?_⟩
  rcases exec_onPeer hx with ⟨_, rfl, _, rfl⟩ | ⟨p, p', r', hp, hx', _, rfl⟩
  · exact Or.inl hid
  rw [mem_routeIds_iff] at hid ⊢
  rcases hid with hid | ⟨n, q, hq, hid⟩
  · exact Or.inl (Or.inl hid)
  by_cases hn : n = name
  · subst hn
    have hmem : n ∈ c.remotes := AList.lookup_isSome.1 (by rw [hp]; rfl)
    obtain rfl := Option.some.inj ((AList.lookup_replace_self hmem).symm.trans hq)
    rcases Peer.exec_refresh_route hx' with ⟨hroute, _⟩ | ⟨blob, id', hroute, hmem⟩
    · rw [Peer.routeIds, hroute] at hid
      exact Or.inl (Or.inr ⟨n, p, hp, hid⟩)
    · rw [Peer.routeIds, hroute] at hid
      exact Or.inr ⟨_, hmem, hid⟩
  · exact Or.inl (Or.inr ⟨n, q, (AList.lookup_replace_ne hn).symm.trans hq, hid⟩)

end Conclave

end Ddcp
