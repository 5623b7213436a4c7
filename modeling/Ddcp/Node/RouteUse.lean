import Ddcp.Ident.Spending
import Ddcp.Node.Server

set_option autoImplicit false

/-! # The routes the loops use

What the loops of a serving node do with routes, one method at a time: a pull uses the route of its
peer and gives it back when the `app_call` fails, and a tick of the puller has imported every route
that its pulls use; a push uses the cached route or the one it creates; a RouteChange gives back the
cached route. -/

namespace Ddcp

open Method Lts History

/-! ## Pulls -/

section Loops
variable [Capnp] [CryptoSystem] {σ α ι : Type}

/-- A pull uses the route of the peer, and gives it back when the `app_call` fails. -/
theorem trades_callPeer (crypto : Crypto) (id : RouteId) (reqBytes : Bytes) (s : σ) :
    Trades (Conclave.callPeer crypto id reqBytes) s {id} 0 := by
  refine (trades_appCall id reqBytes).attempt.bind fun reply s₁ => ?_
  cases reply with
  | ok respBytes =>
      exact (trades_lift _ s₁ {id}).weaken (Multiset.zero_le _)
  | error e =>
      exact (trades_release id).attempt.bind fun _ s₂ => trades_throw (.err e) s₂ 0

theorem trades_changes (c : Conclave) (peer : Peer) (since : Int64) (s : σ) :
    Trades (c.changes peer since) s peer.routeIds 0 := by
  have hcrypto : Quiet (c.crypto peer : Act σ Crypto) :=
    Within.bind (composable_frame _ _) (frame_veilid id) fun vld0 =>
      within_lift (composable_frame _ _) (c.cryptoWith peer vld0)
  refine (Trades.of_quiet hcrypto s _).bind fun crypto s₁ =>
    (Trades.of_quiet (Crypto.frame_encode id crypto _) s₁ _).bind fun contents s₂ => ?_
  rw [Peer.routeIds]
  cases peer.routeId with
  | none => exact trades_throw (.err (otherErr "no route to peer")) s₂ 0
  | some id => exact trades_callPeer crypto id _ s₂

theorem trades_pullPeer (c : Conclave) (peer : Peer) (s : σ) :
    Trades (DDCP.pullPeer c peer) s peer.pullRoute 0 := by
  rw [Peer.pullRoute]
  cases hst : peer.nodeStatus with
  | none =>
      unfold DDCP.pullPeer
      rw [hst]
      exact trades_throw (.err (otherErr "peer missing status")) s 0
  | some st =>
      have hpull : Trades (DDCP.pullFrom c peer st) s peer.routeIds 0 := by
        refine (Trades.of_quiet (frame_db id) s _).bind fun tracked s₁ => ?_
        split
        · exact (trades_pure _ s₁ _).weaken (Multiset.zero_le _)
        refine (trades_changes c peer tracked s₁).bind fun resp s₂ => ?_
        split
        · exact trades_throw _ s₂ 0
        · exact (Trades.of_quiet (frame_db id) s₂ 0).bind fun v s₃ => trades_pure _ s₃ 0
      unfold DDCP.pullPeer
      rw [hst]
      exact hpull

omit [CryptoSystem] in
/-- Trying a list takes what each of its items takes. -/
theorem trades_attemptEach {f : ι → Act σ α} {need : ι → Multiset RouteId}
    (hf : ∀ i s, Trades (f i) s (need i) 0) (l : List ι) (s : σ) :
    Trades (attemptEach f l) s (l.map need).sum 0 := by
  induction l generalizing s with
  | nil => exact trades_pure [] s 0
  | cons i l ih =>
      rw [List.map_cons, List.sum_cons]
      -- the other items are what stays in the hand
      have hone := (hf i s).attempt.frame (l.map need).sum
      rw [zero_add] at hone
      exact hone.bind fun r s₁ => (ih s₁).bind fun rs s₂ => trades_pure ((i, r) :: rs) s₂ 0

end Loops

/-! ## Ticks and updates -/

section Rounds
variable [Capnp] [CryptoSystem] {h : Hand} {s s' : DDCP} {tr : List Event}

/-- **A tick of the puller** needs nothing in the hand: it uses the routes it has imported before. -/
theorem spends_pullerTick {r : Except Abort (List (Peer × Except Error (Bool × Int64)))}
    (hx : Exec DDCP.pullerTick s tr r s') : h.Spends tr := by
  have hrefresh : ∀ {tr₁ : List Event} {a : Except Abort (Except Error Unit)} {s₁ : DDCP},
      Exec (warnErr (DDCP.onConclave Conclave.refreshPeers)) s tr₁ a s₁ →
      h.Spends tr₁ ∧ ∀ u, a = .ok (.ok u) →
        (s₁.conclave.peers.map Peer.pullRoute).sum ≤ (h.afters tr₁).held := by
    intro tr₁ a s₁ h₁
    obtain ⟨r₁, hx, hreturned⟩ := exec_attempt h₁
    obtain ⟨c, hc, rfl⟩ := exec_zoom_iff.1 hx
    obtain ⟨hspends, hget⟩ := Conclave.spends_refreshPeers (h := h) hc
    exact ⟨hspends, fun u hu => hget u (hreturned u hu)⟩
  rcases exec_bind_iff.1 hx with ⟨e, _, h₁⟩ | ⟨tr₁, tr₂, a, s₁, rfl, h₁, h₂⟩
  · exact (hrefresh h₁).1
  obtain ⟨hspends, hget⟩ := hrefresh h₁
  rw [Hand.spends_append_iff]
  cases a with
  | error e =>
      obtain ⟨rfl, _, _⟩ := exec_pure_iff.1 h₂
      exact ⟨hspends, Hand.spends_nil⟩
  | ok u =>
      have hloop : Exec (get >>= fun s : DDCP => attemptEach (DDCP.pullPeer s.conclave)
        s.conclave.peers) s₁ tr₂ r s' := h₂
      have hpulls := exec_get_bind_iff.1 hloop
      have hneed : (s₁.conclave.peers.map Peer.pullRoute).sum + 0 ≤ (h.afters tr₁).held := by
        rw [add_zero]
        exact hget u rfl
      exact ⟨hspends, (trades_attemptEach (trades_pullPeer _) _ s₁ _ 0 tr₂ r s' hpulls hneed).1⟩

/-- A push uses the cached route, or the one it creates. It returns nothing, so that the hand has in
    the end what it had and what has been imported. -/
theorem spends_push {r : Except Abort (String × Bytes × Int64)} (hx : Exec DDCP.push s tr r s')
    (hs : s.conclave.sovereign.Covered h) :
    h.Spends tr ∧ s'.conclave.sovereign.Covered (h.afters tr) ∧
      ((∀ id ∈ s.conclave.routeIds, id ∈ h.held) →
        ∀ id ∈ s'.conclave.routeIds, id ∈ (h.afters tr).held) := by
  obtain ⟨tr₁, tr₂, r₁, c₁, rfl, hann, hrest⟩ := Server.exec_push hx
  -- the announcement
  have hann : c₁.remotes = s.conclave.remotes ∧ h.Spends tr₁ ∧ c₁.sovereign.Covered (h.afters tr₁) ∧
      h.held ≤ (h.afters tr₁).held := by
    obtain ⟨a, tr', rfl, ⟨rfl, heq⟩ | ⟨st, r', sovereign, rfl, ha, heq⟩⟩ :=
      Server.exec_announceStatus hann
    · obtain rfl := congrArg DDCP.conclave heq
      refine ⟨rfl, Hand.spends_one_iff.2 trivial, fun route hroute => ?_, Handles.le_after rfl⟩
      exact ⟨Multiset.mem_of_le (Handles.le_after rfl) (hs route hroute).1,
        Or.inl (hs route hroute).2⟩
    · obtain rfl := congrArg DDCP.conclave heq
      have hs₀ : s.conclave.sovereign.Covered (h.after ⟨.db .status, .ok st⟩) := fun route hroute =>
        ⟨Multiset.mem_of_le (Handles.le_after rfl) (hs route hroute).1, Or.inl (hs route hroute).2⟩
      obtain ⟨hspends, hcovered, hno⟩ := Sovereign.spends_announce ha hs₀
      refine ⟨rfl, Hand.spends_cons_iff.2 ⟨trivial, hspends⟩, hcovered, ?_⟩
      exact (Handles.le_after rfl).trans (Hand.held_le_afters hno)
  obtain ⟨hremotes, hspends, hcovered, hkept⟩ := hann
  have hids₁ : (∀ id ∈ s.conclave.routeIds, id ∈ h.held) →
      ∀ id ∈ c₁.routeIds, id ∈ (h.afters tr₁).held := by
    intro hids id hid
    rcases Conclave.mem_routeIds_iff.1 hid with hid | ⟨name, p, hp, hid⟩
    · obtain ⟨route, hroute, rfl⟩ := Sovereign.mem_routeIds_iff.1 hid
      exact (hcovered route hroute).1
    · rw [hremotes] at hp
      exact Multiset.mem_of_le hkept
        (hids id (Conclave.mem_routeIds_iff.2 (Or.inr ⟨name, p, hp, hid⟩)))
  rcases hrest with ⟨rfl, rfl⟩ | ⟨r₂, c', hrefresh, rfl⟩
  · rw [List.append_nil]
    exact ⟨hspends, hcovered, hids₁⟩
  -- the refresh of the peers
  obtain ⟨hsov, hcalls, hroutes⟩ := Conclave.exec_refreshPeers_routes hrefresh
  have hno : ∀ e ∈ tr₂, returnedRoutes e.1 = 0 := fun e he =>
    returnedRoutes_of_not_uses (hcalls e he).not_uses
  have hkept₂ : (h.afters tr₁).held ≤ ((h.afters tr₁).afters tr₂).held := Hand.held_le_afters hno
  rw [Hand.spends_append_iff, Hand.afters_append]
  refine ⟨⟨hspends, (Conclave.spends_refreshPeers hrefresh).1⟩, fun route hroute => ?_,
    fun hids id hid => ?_⟩
  · obtain ⟨hheld, hcreated⟩ := hcovered route (by rw [← hsov]; exact hroute)
    exact ⟨Multiset.mem_of_le hkept₂ hheld, Hand.created_afters (Or.inl hcreated)⟩
  · rcases hroutes id hid with hid | ⟨e, he, hgives⟩
    · exact Multiset.mem_of_le hkept₂ (hids₁ hids id hid)
    · exact Multiset.mem_of_le (Hand.given_add_le_afters hno he)
        (Multiset.mem_add.2 (Or.inl hgives))

theorem spends_serverTick {r : Except Abort (Option Responder)}
    (hx : Exec DDCP.serverTick s tr r s') (hs : s.conclave.sovereign.Covered h) :
    h.Spends tr ∧ s'.conclave.sovereign.Covered (h.afters tr) := by
  have hpush : ∀ {tr₁ : List Event} {a : Except Abort (Except Error (String × Bytes × Int64))}
      {s₁ : DDCP}, Exec (warnErr DDCP.push) s tr₁ a s₁ →
      h.Spends tr₁ ∧ s₁.conclave.sovereign.Covered (h.afters tr₁) := by
    intro tr₁ a s₁ h₁
    obtain ⟨r₁, hx, _⟩ := exec_attempt h₁
    obtain ⟨hspends, hcovered, _⟩ := spends_push hx hs
    exact ⟨hspends, hcovered⟩
  rcases exec_bind_iff.1 hx with ⟨e, _, h₁⟩ | ⟨tr₁, tr₂, a, s₁, rfl, h₁, h₂⟩
  · exact hpush h₁
  · obtain ⟨rfl, _, rfl⟩ := exec_pure_iff.1 h₂
    rw [List.append_nil]
    exact hpush h₁

/-- No call to release a route has failed. -/
def ReleasesSucceed (tr : List Event) : Prop :=
  ∀ id e, ⟨.veilid (.releasePrivateRoute id), .error e⟩ ∉ tr

theorem spends_serverUpdate {peers : AList fun _ : String => Peer} {u : VeilidUpdate}
    {r : Except Abort (Option Responder)} (hx : Exec (DDCP.serverUpdate peers u) s tr r s')
    (hs : s.conclave.sovereign.Covered h) :
    h.Spends tr ∧ (ReleasesSucceed tr → s'.conclave.sovereign.Covered (h.afters tr)) := by
  have hupdate : ∀ {tr₁ : List Event} {a : Except Abort (Except Error (Option Responder))}
      {s₁ : DDCP}, Exec (warnErr (DDCP.handleUpdate peers u)) s tr₁ a s₁ →
      h.Spends tr₁ ∧ (ReleasesSucceed tr₁ → s₁.conclave.sovereign.Covered (h.afters tr₁)) := by
    intro tr₁ a s₁ h₁
    obtain ⟨r₁, hx, _⟩ := exec_attempt h₁
    rcases exec_handleUpdate hx with ⟨_, rfl, rfl⟩ | ⟨_, r', sovereign, hrel, rfl⟩
    · exact ⟨Hand.spends_nil, fun _ => hs⟩
    · exact Sovereign.spends_releaseRoute hrel hs
  rcases exec_bind_iff.1 hx with ⟨e, _, h₁⟩ | ⟨tr₁, tr₂, a, s₁, rfl, h₁, h₂⟩
  · exact hupdate h₁
  · obtain ⟨rfl, rfl⟩ : tr₂ = [] ∧ s' = s₁ := by
      cases a with
      | ok o =>
          obtain ⟨htr, _, hs'⟩ := exec_pure_iff.1 h₂
          exact ⟨htr, hs'⟩
      | error e =>
          obtain ⟨htr, _, hs'⟩ := exec_pure_iff.1 h₂
          exact ⟨htr, hs'⟩
    rw [List.append_nil]
    exact hupdate h₁

end Rounds

/-! ## What a close gives back -/

/-- Not a call to Veilid that has failed. -/
def Succeeds (e : Event) : Prop := ∀ c err, e ≠ ⟨.veilid c, .error err⟩

/-- A call to release the route has been made. -/
def Releases (tr : List Event) (id : RouteId) : Prop :=
  ∃ e ∈ tr, e.1 = .veilid (.releasePrivateRoute id)

section Close
variable {σ : Type} {tr tr' : List Event} {id : RouteId}

theorem Releases.append_left (h : Releases tr id) : Releases (tr ++ tr') id := by
  obtain ⟨e, he, hid⟩ := h
  exact ⟨e, List.mem_append_left _ he, hid⟩

theorem Releases.append_right (h : Releases tr' id) : Releases (tr ++ tr') id := by
  obtain ⟨e, he, hid⟩ := h
  exact ⟨e, List.mem_append_right _ he, hid⟩

theorem ensures_succeeds {c : VeilidCall} {Q : List Event → c.Val → σ → Prop} {s : σ}
    (h : ∀ v, Q [⟨.veilid c, .ok v⟩] v s) : Ensures Succeeds (Act.veilid c) s Q :=
  ensures_veilid fun a ha => by
    cases a with
    | ok v => exact ⟨v, rfl, h v⟩
    | error e => exact absurd rfl (ha c e)

theorem ensures_closing (dht : Option DHTRecordDescriptor) (g : σ → σ) (o : Option RouteId) (s : σ) :
    Ensures Succeeds (Act.closeRecord dht >>= fun _ => modify g >>= fun _ => Act.releaseRoute o) s
      fun tr _ s' => s' = g s ∧ ∀ id ∈ o, Releases tr id := by
  have hrecord : Ensures Succeeds (Act.closeRecord dht) s fun _ _ s₁ => s₁ = s := by
    cases dht with
    | none => exact Ensures.pure rfl
    | some dht => exact ensures_succeeds fun _ => rfl
  refine hrecord.bind fun tr₁ _ s₁ hs₁ => ?_
  subst hs₁
  have hmodify : Ensures Succeeds (modify g : Act σ PUnit) s₁ fun _ _ s₂ => s₂ = g s₁ :=
    Ensures.modify rfl
  refine hmodify.bind fun tr₂ _ s₂ hs₂ => ?_
  subst hs₂
  cases o with
  | none => exact Ensures.pure ⟨rfl, by simp⟩
  | some id =>
      refine ensures_succeeds fun v => ⟨rfl, fun id' hid => ?_⟩
      obtain rfl := Option.some.inj hid
      exact ⟨⟨.veilid (.releasePrivateRoute id), .ok v⟩, by simp, rfl⟩

namespace Conclave

theorem ensures_closePeer (name : String) (c : Conclave) :
    Ensures Succeeds (onPeer name Peer.close) c fun tr _ c' =>
      (∀ p, c.remotes.lookup name = some p → ∀ id ∈ p.routeId, Releases tr id) ∧
      ∀ n, n ≠ name → c'.remotes.lookup n = c.remotes.lookup n := by
  intro tr r c' hx hgood
  rcases exec_onPeer hx with ⟨hnone, rfl, rfl, rfl⟩ | ⟨p, p', r', hp, hx', rfl, rfl⟩
  · exact ⟨none, rfl, fun p hp => absurd (hnone.symm.trans hp) (by simp), fun _ _ => rfl⟩
  · obtain ⟨u, rfl, _, hreleases⟩ := ensures_closing p.dht _ p.routeId _ tr r' p'
      (exec_modify_bind_iff.1 (exec_get_bind_iff.1 hx')) hgood
    refine ⟨some u, rfl, fun q hq => ?_, fun n hn => AList.lookup_replace_ne hn⟩
    obtain rfl := Option.some.inj (hp.symm.trans hq)
    exact hreleases

theorem ensures_closePeers {names : List String} (hnames : names.Nodup) (c : Conclave) :
    Ensures Succeeds (names.forM fun name => do
      let _ ← onPeer name Peer.close
      return ()) c fun tr _ _ =>
        ∀ name ∈ names, ∀ p, c.remotes.lookup name = some p → ∀ id ∈ p.routeId, Releases tr id := by
  induction names generalizing c with
  | nil => exact Ensures.pure (by simp)
  | cons name names ih =>
      obtain ⟨hname, hnames⟩ := List.nodup_cons.1 hnames
      have hround : Ensures Succeeds (onPeer name Peer.close >>= fun _ => pure ()) c fun tr _ c₁ =>
          (∀ p, c.remotes.lookup name = some p → ∀ id ∈ p.routeId, Releases tr id) ∧
          ∀ n, n ≠ name → c₁.remotes.lookup n = c.remotes.lookup n :=
        (ensures_closePeer name c).bind fun tr _ c₁ h => Ensures.pure (by rwa [List.append_nil])
      refine hround.bind fun tr₁ _ c₁ h₁ => (ih hnames c₁).mono fun tr₂ _ _ h₂ => ?_
      obtain ⟨hfirst, hothers⟩ := h₁
      intro n hn p hp id hid
      rcases List.mem_cons.1 hn with rfl | hn
      · exact (hfirst p hp id hid).append_left
      · have hne : n ≠ name := fun heq => hname (heq ▸ hn)
        exact (h₂ n hn p ((hothers n hne).trans hp) id hid).append_right

/-- **A close** in which no call fails releases every route. -/
theorem ensures_close (c : Conclave) :
    Ensures Succeeds close c fun tr _ _ => ∀ id ∈ c.routeIds, Releases tr id := by
  have hsovereign : Ensures Succeeds (onSovereign Sovereign.close) c fun tr _ c₁ =>
      c₁.remotes = c.remotes ∧ ∀ id ∈ c.sovereign.routeIds, Releases tr id := by
    refine Ensures.zoom fun tr r s' hx hgood => ?_
    obtain ⟨u, rfl, _, hreleases⟩ := ensures_closing c.sovereign.dht _
      (c.sovereign.route.map Route.id) _ tr r s'
      (exec_modify_bind_iff.1 (exec_get_bind_iff.1 hx)) hgood
    refine ⟨u, rfl, rfl, fun id hid => hreleases id ?_⟩
    rwa [Sovereign.mem_routeIds_iff, ← Option.map_eq_some_iff] at hid
  refine hsovereign.bind fun tr₁ _ c₁ h₁ => ?_
  obtain ⟨hremotes, hown⟩ := h₁
  have hpeers := (ensures_closePeers (AList.keys_nodup c₁.remotes) c₁).mono
    (Q := fun tr₂ _ _ => ∀ id ∈ c.routeIds, Releases (tr₁ ++ tr₂) id) fun tr₂ _ _ h₂ id hid => by
      rcases mem_routeIds_iff.1 hid with hid | ⟨name, p, hp, hid⟩
      · exact (hown id hid).append_left
      · rw [← hremotes] at hp
        have hname := AList.mem_keys.2 (AList.lookup_isSome.1 (Option.isSome_of_eq_some hp))
        refine (h₂ name hname p hp id ?_).append_right
        rwa [Peer.routeIds, Multiset.mem_coe, Option.mem_toList] at hid
  exact fun tr r c' hx => hpeers tr r c' (exec_get_bind_iff.1 hx)

end Conclave

end Close

end Ddcp
