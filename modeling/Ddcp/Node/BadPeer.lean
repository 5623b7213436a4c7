import Ddcp.Lib.Replace
import Ddcp.Node.Server
import Ddcp.Node.Turn

set_option autoImplicit false

/-! # One bad peer

Three loops go over the peers: `refresh_peers`, the pulls of a puller's tick, and the pulls of
`ddcp pull`. The last two log an error and go on with the next peer; the first passes it on with
`?`, to the tick and to `push`, and from there to `wait_for_network`.

What each peer is owed is its turn (`Oracle.turn`), which is read off the answers alone. -/

namespace Ddcp

open Method

variable {W : Type}

/-! ## One after another -/

/-- The merges owed in some turns. -/
def owed (turns : List Turn) : List Event := turns.flatMap Turn.merge

/-- The merges of those that are got to: a short reply ends it. -/
def served : List Turn → List Event
  | [] => []
  | .shortReply :: _ => []
  | t :: turns => t.merge ++ served turns

theorem served_next {t : Turn} (turns : List Turn) (h : t ≠ .shortReply) :
    served (t :: turns) = t.merge ++ served turns := by
  cases t with
  | shortReply => exact absurd rfl h
  | nothing => rfl
  | merged siteId changes version => rfl

theorem served_sublist (turns : List Turn) : (served turns).Sublist (owed turns) := by
  induction turns with
  | nil => exact List.Sublist.refl _
  | cons t turns ih =>
      have howed : owed (t :: turns) = t.merge ++ owed turns := List.flatMap_cons
      rw [howed]
      by_cases hshort : t = .shortReply
      · subst hshort
        exact List.nil_sublist _
      · rw [served_next turns hshort]
        exact (List.append_sublist_append_left _).2 ih

/-- Everything owed is served exactly when nothing is owed after a short reply. -/
theorem owed_sublist_served_iff (turns : List Turn) :
    (owed turns).Sublist (served turns) ↔
      turns.Pairwise fun a b => a = .shortReply → b.merge = [] := by
  have hiff : (owed turns).Sublist (served turns) ↔ served turns = owed turns :=
    ⟨fun h => (served_sublist turns).antisymm h, fun h => h ▸ List.Sublist.refl _⟩
  rw [hiff]
  clear hiff
  induction turns with
  | nil => exact iff_of_true rfl List.Pairwise.nil
  | cons t turns ih =>
      have howed : owed (t :: turns) = t.merge ++ owed turns := List.flatMap_cons
      rw [howed, List.pairwise_cons]
      by_cases hshort : t = .shortReply
      · subst hshort
        have hnil : owed turns = [] ↔ ∀ b ∈ turns, b.merge = [] := List.flatMap_eq_nil_iff
        show [] = owed turns ↔ _
        rw [eq_comm, hnil]
        constructor
        · intro h
          exact ⟨fun b hb _ => h b hb, List.pairwise_of_forall_mem_list fun a _ b hb _ => h b hb⟩
        · intro h b hb
          exact h.1 b hb rfl
      · rw [served_next turns hshort, List.append_cancel_left_eq]
        refine ih.trans ?_
        exact ⟨fun h => ⟨fun b _ hc => absurd hc hshort, h⟩, And.right⟩

/-- What is merged when some items, each of a peer, are pulled from one after another, by an
    invariant of what is left. -/
theorem merges_attemptEach [Capnp] [CryptoSystem] {ι : Type} {o : Oracle W} {sov : Sovereign}
    {f : ι → Act DDCP (Bool × Int64)} {I : List (ι × Peer) → DDCP → Prop}
    (hstep : ∀ item items s w, I (item :: items) s →
      o.ComesTo (f item.1) s w (o.turn sov item.2 w) ∧
        I items (runOn o.handler (f item.1) s w).1.2)
    {items : List (ι × Peer)} {s : DDCP} (hI : I items s) (w : W) :
    merges (traceOn o.handler (attemptEach f (items.map Prod.fst)) s w) =
      served (o.turns sov (items.map Prod.snd) w) := by
  induction items generalizing s w with
  | nil => rfl
  | cons item items ih =>
      obtain ⟨hcomes, hnext⟩ := hstep item items s w hI
      have hturns : o.turns sov ((item :: items).map Prod.snd) w =
          (o.turn sov item.2 w).1 ::
            o.turns sov (items.map Prod.snd) (o.turn sov item.2 w).2 := rfl
      rw [hturns, List.map_cons, attemptEach, traceOn_bind, merges_append, warnErr,
        traceOn_attempt, runOn_attempt, hcomes.merges, hcomes.world]
      by_cases hshort : (o.turn sov item.2 w).1 = .shortReply
      · rw [hcomes.panics.2 hshort, hshort]
        rfl
      · rw [served_next _ hshort]
        have hpanic := mt hcomes.panics.1 hshort
        cases hres : (runOn o.handler (f item.1) s w).1.1 with
        | ok v => exact congrArg _ ((congrArg merges (traceOn_bind_pure _ _)).trans (ih hnext _))
        | error a =>
            cases a with
            | err e =>
                exact congrArg _ ((congrArg merges (traceOn_bind_pure _ _)).trans (ih hnext _))
            | panic => exact absurd hres hpanic

/-! ## All peers -/

section Peers
variable [Capnp] {o : Oracle W} {c : Conclave} {w : W}

/-- The peer after its own refresh. -/
def Oracle.refreshed (o : Oracle W) (w : W) (p : Peer) : Peer :=
  (runOn o.handler Peer.refresh p w).1.2

theorem refreshes_refreshed {p : Peer} (h : o.Reachable p) (w : W) :
    o.Refreshes p (o.refreshed w p) w := by
  rcases refresh_cases o p w with ⟨_, p', hr⟩ | ⟨hno, _⟩
  · unfold Oracle.refreshed
    rwa [hr.run]
  · exact absurd h hno

theorem runOn_onPeer_refresh {name : String} {p : Peer} (hp : c.remotes.lookup name = some p) :
    runOn o.handler (Conclave.onPeer name Peer.refresh) c w =
      (((runOn o.handler Peer.refresh p w).1.1.map some,
        { c with remotes := c.remotes.replace name (o.refreshed w p) }), w) := by
  have hworld : (Prog.run o.handler (Peer.refresh p) w).2 = w := (refresh_world p w w).2
  unfold runOn
  rw [onPeer_apply hp, Prog.run_bind, hworld]
  rfl

/-- Refreshing the peers in turn refreshes all of them when all of them are reachable. -/
theorem runOn_refreshAll (pre : List (Σ _ : String, Peer)) {post : List (Σ _ : String, Peer)}
    (hc : c.remotes.entries = pre ++ post) (hall : ∀ e ∈ post, o.Reachable e.2) :
    ∃ c', runOn o.handler (post.keys.forM fun name => do
        let _ ← Conclave.onPeer name Peer.refresh
        return ()) c w = ((.ok ⟨⟩, c'), w) ∧ c'.sovereign = c.sovereign ∧
      c'.remotes.entries = pre ++ post.map fun e => ⟨e.1, o.refreshed w e.2⟩ := by
  induction post generalizing pre c with
  | nil => exact ⟨c, rfl, rfl, hc⟩
  | cons e post ih =>
      obtain ⟨name, p⟩ := e
      obtain ⟨st, hst⟩ := (refresh_ok_iff w).2 (hall _ List.mem_cons_self)
      have hp : c.remotes.lookup name = some p := AList.mem_lookup_iff.2 (by rw [hc]; simp)
      have hentries := AList.entries_replace hc (o.refreshed w p)
      obtain ⟨c', hrun, hsov, hc'⟩ := ih (pre ++ [⟨name, o.refreshed w p⟩])
        (c := { c with remotes := c.remotes.replace name (o.refreshed w p) })
        (by simpa using hentries) fun e he => hall e (List.mem_cons_of_mem _ he)
      refine ⟨c', ?_, hsov, by simpa using hc'⟩
      rw [List.keys_cons, List.forM, runOn_bind, runOn_bind, runOn_onPeer_refresh hp, hst]
      exact hrun

/-- One that is not reachable ends it, and stays so. -/
theorem runOn_refreshAll_error (pre : List (Σ _ : String, Peer))
    {post : List (Σ _ : String, Peer)}
    (hc : c.remotes.entries = pre ++ post) (hall : ¬ ∀ e ∈ post, o.Reachable e.2) :
    ∃ e c', runOn o.handler (post.keys.forM fun name => do
        let _ ← Conclave.onPeer name Peer.refresh
        return ()) c w = ((.error e, c'), w) ∧ ¬ ∀ p ∈ c'.peers, o.Reachable p := by
  induction post generalizing pre c with
  | nil => exact absurd (by simp) hall
  | cons e post ih =>
      obtain ⟨name, p⟩ := e
      have hp : c.remotes.lookup name = some p := AList.mem_lookup_iff.2 (by rw [hc]; simp)
      have hentries := AList.entries_replace hc (o.refreshed w p)
      rw [List.keys_cons, List.forM, runOn_bind, runOn_bind, runOn_onPeer_refresh hp]
      cases hr : (runOn o.handler Peer.refresh p w).1.1 with
      | error e =>
          refine ⟨e, _, rfl, fun hreach => ?_⟩
          have hp : ¬ o.Reachable p := fun h => by
            obtain ⟨st, hst⟩ := (refresh_ok_iff w).2 h
            exact absurd (hr.symm.trans hst) (by simp)
          refine not_reachable_refresh w hp (hreach _ ?_)
          unfold Conclave.peers
          rw [hentries]
          simp [Oracle.refreshed]
      | ok st =>
          have hreach : o.Reachable p := (refresh_ok_iff w).1 ⟨st, hr⟩
          exact ih (pre ++ [⟨name, o.refreshed w p⟩]) (by simpa using hentries) fun h =>
            hall (List.forall_mem_cons.2 ⟨hreach, h⟩)

omit [Capnp] in
theorem forall_peers_iff {P : Peer → Prop} :
    (∀ p ∈ c.peers, P p) ↔ ∀ e ∈ c.remotes.entries, P e.2 := List.forall_mem_map

theorem runOn_refreshPeers (hall : ∀ p ∈ c.peers, o.Reachable p) :
    ∃ c', runOn o.handler Conclave.refreshPeers c w = ((.ok ⟨⟩, c'), w) ∧
      c'.sovereign = c.sovereign ∧
      c'.peers = c.remotes.entries.map fun e => o.refreshed w e.2 := by
  obtain ⟨c', hrun, hsov, hc'⟩ := runOn_refreshAll [] (w := w) rfl
    (forall_peers_iff.1 hall)
  refine ⟨c', hrun, hsov, ?_⟩
  unfold Conclave.peers
  rw [hc', List.nil_append, List.map_map]
  rfl

theorem runOn_refreshPeers_error (hall : ¬ ∀ p ∈ c.peers, o.Reachable p) :
    ∃ e c', runOn o.handler Conclave.refreshPeers c w = ((.error e, c'), w) ∧
      ¬ ∀ p ∈ c'.peers, o.Reachable p :=
  runOn_refreshAll_error [] rfl (forall_peers_iff.not.1 hall)

end Peers

/-! ## The loops -/

section Loops
variable [Capnp] [CryptoSystem] {o : Oracle W} {s : DDCP} {w : W}

/-- The turns of the peers of a node. -/
def Oracle.turnsOf (o : Oracle W) (s : DDCP) (w : W) : List Turn :=
  o.turns s.conclave.sovereign s.conclave.peers w

/-- The loop of `ddcp pull` serves the peers up to a short reply. -/
theorem merges_pullRemotes :
    merges (traceOn o.handler DDCP.pullRemotes s w) = served (o.turnsOf s w) := by
  have hkeys : s.conclave.remotes.keys =
      (s.conclave.remotes.entries.map fun e => (e.1, e.2)).map Prod.fst := by
    rw [List.map_map]
    rfl
  have hpeers : s.conclave.peers =
      (s.conclave.remotes.entries.map fun e => (e.1, e.2)).map Prod.snd := by
    rw [List.map_map]
    rfl
  have hloop : traceOn o.handler DDCP.pullRemotes s w =
      traceOn o.handler (attemptEach DDCP.pull s.conclave.remotes.keys) s w := rfl
  unfold Oracle.turnsOf
  rw [hloop, hpeers, hkeys]
  refine merges_attemptEach (I := fun items s₁ => s₁.conclave.sovereign = s.conclave.sovereign ∧
    (items.map Prod.fst).Nodup ∧
    ∀ item ∈ items, s₁.conclave.remotes.lookup item.1 = some item.2) ?_ ⟨rfl, ?_, ?_⟩ w
  · rintro ⟨name, p⟩ items s₁ w ⟨hsov, hnodup, hall⟩
    obtain ⟨hcomes, p', hs'⟩ := comesTo_pull (o := o) (hall _ List.mem_cons_self) w
    rw [hsov] at hcomes
    refine ⟨hcomes, ?_⟩
    rw [hs']
    obtain ⟨hname, hnames⟩ := List.nodup_cons.1 hnodup
    refine ⟨hsov, hnames, fun item hitem => ?_⟩
    -- the pull has replaced this peer and left the others
    have hne : item.1 ≠ name := fun h => hname (h ▸ List.mem_map.2 ⟨item, hitem, rfl⟩)
    exact (AList.lookup_replace_ne hne).trans (hall item (List.mem_cons_of_mem _ hitem))
  · rw [← hkeys]
    exact s.conclave.remotes.nodupKeys
  · intro item hitem
    obtain ⟨e, he, rfl⟩ := List.mem_map.1 hitem
    exact AList.mem_lookup_iff.2 he

omit [CryptoSystem] in
theorem merges_refreshPeers (c : Conclave) :
    merges (traceOn o.handler Conclave.refreshPeers c w) = [] :=
  merges_of_refresh (within_refreshPeers.only _ _ (Prog.exec_trace _ _ _))

/-- A tick whose refresh goes well goes on with the pulls. -/
theorem traceOn_pullerTick {c' : Conclave}
    (h : runOn o.handler Conclave.refreshPeers s.conclave w = ((.ok ⟨⟩, c'), w)) :
    traceOn o.handler DDCP.pullerTick s w =
      traceOn o.handler Conclave.refreshPeers s.conclave w ++
        traceOn o.handler (attemptEach (DDCP.pullPeer c') c'.peers) (DDCP.mk c') w := by
  have hzoom : runOn o.handler (DDCP.onConclave Conclave.refreshPeers) s w =
      ((.ok ⟨⟩, DDCP.mk c'), w) := by
    rw [DDCP.onConclave, runOn_zoom, h]
  have hget := traceOn_get_bind (h := o.handler) (s := DDCP.mk c') (w := w)
    fun s : DDCP => attemptEach (DDCP.pullPeer s.conclave) s.conclave.peers
  refine (traceOn_attempt_bind _ hzoom).trans ?_
  rw [DDCP.onConclave, traceOn_zoom]
  exact congrArg _ hget

/-- When all peers are reachable, a tick of the puller serves them in the same way. -/
theorem merges_pullerTick (hall : ∀ p ∈ s.conclave.peers, o.Reachable p) :
    merges (traceOn o.handler DDCP.pullerTick s w) = served (o.turnsOf s w) := by
  obtain ⟨c', hrun, hsov, hpeers'⟩ := runOn_refreshPeers (w := w) hall
  have hrefreshed : c'.peers =
      (s.conclave.remotes.entries.map fun e => (o.refreshed w e.2, e.2)).map Prod.fst := by
    rw [hpeers', List.map_map]
    rfl
  have hpeers : s.conclave.peers =
      (s.conclave.remotes.entries.map fun e => (o.refreshed w e.2, e.2)).map Prod.snd := by
    rw [List.map_map]
    rfl
  unfold Oracle.turnsOf
  rw [traceOn_pullerTick hrun, merges_append, merges_refreshPeers, List.nil_append, hrefreshed,
    hpeers, ← hsov]
  refine merges_attemptEach (I := fun items _ => ∀ item ∈ items, o.Refreshes item.2 item.1 w)
    ?_ ?_ w
  · intro item items s₁ w₁ hitems
    exact ⟨comesTo_refreshed (hitems item List.mem_cons_self),
      fun item' hitem => hitems item' (List.mem_cons_of_mem _ hitem)⟩
  · intro item hitem
    obtain ⟨e, he, rfl⟩ := List.mem_map.1 hitem
    exact refreshes_refreshed (forall_peers_iff.1 hall e he) w

/-- When some peer is not, a tick merges nothing. -/
theorem merges_pullerTick_error (hall : ¬ ∀ p ∈ s.conclave.peers, o.Reachable p) :
    merges (traceOn o.handler DDCP.pullerTick s w) = [] := by
  obtain ⟨e, c', hrun, _⟩ := runOn_refreshPeers_error (w := w) hall
  unfold DDCP.pullerTick
  rw [traceOn_bind, merges_append, warnErr, traceOn_attempt, runOn_attempt, DDCP.onConclave,
    traceOn_zoom, runOn_zoom, hrun, merges_refreshPeers]
  cases e <;> rfl

/-- The route the node announces: the cached one, or a new one. -/
def Oracle.routeOf (o : Oracle W) (sov : Sovereign) : Option Route :=
  match sov.route with
  | some route => some route
  | none => (o.veilid .newPrivateRoute).toOption.map fun r => ⟨r.1, r.2⟩

/-- The local status can be read, and written into the node's own record with a route. -/
def Oracle.Announced (o : Oracle W) (s : DDCP) (w : W) : Prop :=
  ∃ siteId dbVersion, (o.db .status w).1 = .ok (siteId, dbVersion) ∧
    ∃ route, o.routeOf s.conclave.sovereign = some route ∧
      ∃ u, o.veilid (.setDhtValue s.conclave.sovereign.dhtKey DHT_SUBKEY_STATUS
        (encode (s.conclave.sovereign.nodeStatus ⟨siteId, dbVersion⟩ route))) = .ok u

omit [Capnp] [CryptoSystem] in
theorem runOn_currentRoute (sov : Sovereign) (w : W) :
    (∃ route, o.routeOf sov = some route ∧ ∃ cached,
      runOn o.handler Sovereign.currentRoute sov w =
        ((.ok route, { sov with route := cached }), w)) ∨
    (o.routeOf sov = none ∧ ∃ e,
      runOn o.handler Sovereign.currentRoute sov w = ((.error e, sov), w)) := by
  unfold Sovereign.currentRoute Oracle.routeOf
  simp only [runOn_get_bind]
  cases hroute : sov.route with
  | some route => exact Or.inl ⟨route, rfl, some route, by simp [← hroute]⟩
  | none =>
      cases hnew : o.veilid .newPrivateRoute with
      | error e =>
          rw [runOn_veilid_error hnew]
          exact Or.inr ⟨rfl, _, rfl⟩
      | ok new =>
          rw [runOn_veilid_ok hnew]
          exact Or.inl ⟨⟨new.1, new.2⟩, rfl, some ⟨new.1, new.2⟩, rfl⟩

/-- An announcement writes the status with the route, or fails. -/
theorem runOn_announce (sov : Sovereign) (status : Status) (w : W) :
    ∃ r sov', runOn o.handler (Sovereign.announce status) sov w = ((r, sov'), w) ∧
      ((∃ u, r = .ok u) ↔ ∃ route, o.routeOf sov = some route ∧
        ∃ u, o.veilid (.setDhtValue sov.dhtKey DHT_SUBKEY_STATUS
          (encode (sov.nodeStatus status route))) = .ok u) := by
  unfold Sovereign.announce
  rw [runOn_bind]
  rcases runOn_currentRoute (o := o) sov w with ⟨route, hroute, cached, hrun⟩ | ⟨hroute, e, hrun⟩
  · rw [hrun, hroute]
    obtain ⟨r, hr, hset⟩ := (finds_veilid (o := o) (s := { sov with route := cached }) (w := w)
      (.setDhtValue sov.dhtKey DHT_SUBKEY_STATUS (encode (sov.nodeStatus status route)))).run
    refine ⟨r, _, hset, ?_⟩
    simp only [Option.some.injEq, exists_eq_left']
    cases hcall : o.veilid (.setDhtValue sov.dhtKey DHT_SUBKEY_STATUS
      (encode (sov.nodeStatus status route))) with
    | ok u =>
        rw [hcall] at hr
        cases hr
        exact iff_of_true ⟨u, rfl⟩ ⟨u, rfl⟩
    | error e =>
        rw [hcall] at hr
        cases hr
        exact iff_of_false (by simp) (by simp)
  · rw [hrun, hroute]
    exact ⟨_, _, rfl, by simp⟩

/-- A `push` is an announcement and, when that went well, a refresh of the peers. -/
theorem runOn_push (s : DDCP) (w : W) :
    (∃ e sovereign w', ¬ o.Announced s w ∧ runOn o.handler DDCP.push s w =
      ((.error e, ⟨{ s.conclave with sovereign := sovereign }⟩), w')) ∨
    ∃ siteId dbVersion sovereign w', o.Announced s w ∧ runOn o.handler DDCP.push s w =
      match runOn o.handler Conclave.refreshPeers { s.conclave with sovereign := sovereign } w' with
      | ((.ok _, c'), w'') =>
          ((.ok (CryptoSystem.keyToString c'.sovereign.dhtKey, siteId, dbVersion), ⟨c'⟩), w'')
      | ((.error e, c'), w'') => ((.error e, ⟨c'⟩), w'') := by
  unfold Oracle.Announced DDCP.push
  obtain ⟨r, w₁, hstatus⟩ : ∃ r w₁, o.db .status w = (r, w₁) := ⟨_, _, rfl⟩
  rw [runOn_bind]
  cases r with
  | error e =>
      rw [runOn_db_error hstatus, hstatus]
      exact Or.inl ⟨_, s.conclave.sovereign, w₁, by simp, rfl⟩
  | ok st =>
      obtain ⟨siteId, dbVersion⟩ := st
      rw [runOn_db_ok hstatus, hstatus]
      simp only [DDCP.onConclave, Conclave.refresh, Conclave.onSovereign, runOn_bind, runOn_zoom]
      obtain ⟨r, sovereign, hrun, hann⟩ :=
        runOn_announce (o := o) s.conclave.sovereign ⟨siteId, dbVersion⟩ w₁
      rw [hrun]
      cases r with
      | error e =>
          refine Or.inl ⟨e, sovereign, w₁, ?_, rfl⟩
          rintro ⟨siteId', dbVersion', hst, hannounced⟩
          obtain ⟨rfl, rfl⟩ := Prod.mk.inj (Except.ok.inj hst)
          exact absurd (hann.2 hannounced) (by simp)
      | ok u =>
          refine Or.inr ⟨siteId, dbVersion, sovereign, w₁,
            ⟨siteId, dbVersion, rfl, hann.1 ⟨u, rfl⟩⟩, ?_⟩
          dsimp only
          obtain ⟨⟨r, c'⟩, w₃⟩ := runOn o.handler Conclave.refreshPeers
            { s.conclave with sovereign := sovereign } w₁
          cases r <;> rfl

/-- It needs the announcement to go well and every peer to be reachable. -/
theorem push_ok_iff : (∃ v, (runOn o.handler DDCP.push s w).1.1 = .ok v) ↔
    o.Announced s w ∧ ∀ p ∈ s.conclave.peers, o.Reachable p := by
  rcases runOn_push s w with ⟨e, _, _, hann, hrun⟩ | ⟨siteId, dbVersion, sovereign, w', hann, hrun⟩
  · exact iff_of_false (by simp [hrun]) fun h => hann h.1
  rw [hrun, and_iff_right hann]
  by_cases hall : ∀ p ∈ s.conclave.peers, o.Reachable p
  · obtain ⟨c', hok, _⟩ := runOn_refreshPeers (c := { s.conclave with sovereign := sovereign })
      (w := w') hall
    exact iff_of_true (by simp [hok]) hall
  · obtain ⟨e, c', herr, _⟩ := runOn_refreshPeers_error
      (c := { s.conclave with sovereign := sovereign }) (w := w') hall
    exact iff_of_false (by simp [herr]) hall

/-- A peer that is not reachable makes a `push` fail, and the node stays with such a peer. -/
theorem push_error (hall : ¬ ∀ p ∈ s.conclave.peers, o.Reachable p) :
    ∃ e s' w', runOn o.handler DDCP.push s w = ((.error e, s'), w') ∧
      ¬ ∀ p ∈ s'.conclave.peers, o.Reachable p := by
  rcases runOn_push s w with ⟨e, _, _, _, hrun⟩ | ⟨_, _, sovereign, w', _, hrun⟩
  · exact ⟨e, _, _, hrun, hall⟩
  · obtain ⟨e, c', herr, hstill⟩ := runOn_refreshPeers_error
      (c := { s.conclave with sovereign := sovereign }) (w := w') hall
    exact ⟨e, ⟨c'⟩, w', by rw [hrun, herr], hstill⟩

/-- Then `wait_for_network` goes on pushing for ever. -/
theorem pushUntilOk_never (hall : ¬ ∀ p ∈ s.conclave.peers, o.Reachable p) (n : Nat) :
    (runOn o.handler (DDCP.pushUntilOk n) s w).1.1 ≠ .ok true := by
  induction n generalizing s w with
  | zero => exact fun h => absurd h (by simp [DDCP.pushUntilOk])
  | succ n ih =>
      obtain ⟨e, s', w', hrun, hstill⟩ := push_error (w := w) hall
      unfold DDCP.pushUntilOk
      rw [runOn_bind, warnErr, runOn_attempt, hrun]
      cases e with
      | err e => exact ih hstill
      | panic => exact fun h => absurd h (by simp [settle, Abort.err?])

/-! ## Who is served -/

/-- What the peers of a node are owed. -/
def Oracle.owed (o : Oracle W) (s : DDCP) (w : W) : List Event := Ddcp.owed (o.turnsOf s w)

/-- A tick of the puller merges what is owed to each peer. -/
def Oracle.TickServes (o : Oracle W) (s : DDCP) (w : W) : Prop :=
  (o.owed s w).Sublist (traceOn o.handler DDCP.pullerTick s w)

/-- A `push` succeeds when the announcement does. -/
def Oracle.PushServes (o : Oracle W) (s : DDCP) (w : W) : Prop :=
  o.Announced s w → ∃ v, (runOn o.handler DDCP.push s w).1.1 = .ok v

/-- `ddcp pull` merges what is owed to each peer. -/
def Oracle.PullServes (o : Oracle W) (s : DDCP) (w : W) : Prop :=
  (o.owed s w).Sublist (traceOn o.handler DDCP.pullRemotes s w)

/-- No merge is owed to a peer that comes after one whose reply is too short for a nonce. -/
def Oracle.NothingAfterShortReply (o : Oracle W) (s : DDCP) (w : W) : Prop :=
  (o.turnsOf s w).Pairwise fun a b => a = .shortReply → b.merge = []

omit [Capnp] [CryptoSystem] in
theorem merges_owed (turns : List Turn) : merges (Ddcp.owed turns) = Ddcp.owed turns := by
  refine List.filter_eq_self.2 fun e he => ?_
  obtain ⟨t, _, het⟩ := List.mem_flatMap.1 he
  cases t with
  | merged siteId changes version =>
      obtain rfl := List.mem_singleton.1 het
      rfl
  | nothing => exact absurd het (List.not_mem_nil)
  | shortReply => exact absurd het (List.not_mem_nil)

omit [Capnp] [CryptoSystem] in
/-- What is owed is among some calls when it is among their merges. -/
theorem owed_sublist_iff {turns : List Turn} {tr : List Event} :
    (Ddcp.owed turns).Sublist tr ↔ (Ddcp.owed turns).Sublist (merges tr) := by
  constructor
  · intro h
    have hmerges := h.filter Merged
    rwa [← merges, ← merges, merges_owed] at hmerges
  · intro h
    exact h.trans List.filter_sublist

/-- **One bad peer**: what the peers are owed is served exactly when all peers are reachable, or
    nothing is owed and the announcement fails, and when no merge is owed after a short reply. -/
theorem healthy_served_iff (o : Oracle W) (s : DDCP) (w : W) :
    (o.TickServes s w ∧ o.PushServes s w ∧ o.PullServes s w) ↔
      ((∀ p ∈ s.conclave.peers, o.Reachable p) ∨ (o.owed s w = [] ∧ ¬ o.Announced s w)) ∧
        o.NothingAfterShortReply s w := by
  have hpull : o.PullServes s w ↔ o.NothingAfterShortReply s w := by
    unfold Oracle.PullServes Oracle.owed Oracle.NothingAfterShortReply
    rw [owed_sublist_iff, merges_pullRemotes, owed_sublist_served_iff]
  unfold Oracle.PushServes
  rw [hpull, push_ok_iff]
  by_cases hall : ∀ p ∈ s.conclave.peers, o.Reachable p
  · have htick : o.TickServes s w ↔ o.NothingAfterShortReply s w := by
      unfold Oracle.TickServes Oracle.owed Oracle.NothingAfterShortReply
      rw [owed_sublist_iff, merges_pullerTick hall, owed_sublist_served_iff]
    rw [htick]
    exact ⟨fun h => ⟨Or.inl hall, h.1⟩, fun h => ⟨h.2, fun ha => ⟨ha, hall⟩, h.2⟩⟩
  · have htick : o.TickServes s w ↔ o.owed s w = [] := by
      unfold Oracle.TickServes Oracle.owed
      rw [owed_sublist_iff, merges_pullerTick_error hall, List.sublist_nil]
    rw [htick]
    constructor
    · rintro ⟨hnil, hpush, hafter⟩
      exact ⟨Or.inr ⟨hnil, fun ha => hall (hpush ha).2⟩, hafter⟩
    · rintro ⟨hor, hafter⟩
      obtain ⟨hnil, hann⟩ := hor.resolve_left hall
      exact ⟨hnil, fun ha => absurd ha hann, hafter⟩

end Loops

section Example
attribute [local instance] plainCapnp plainCrypto

def goodStatus : NodeStatus := ⟨[2], 1, PlainCrypto.keyToString ⟨[], [5]⟩, []⟩

def goodPeer : Peer := ⟨"good", ⟨[], [2]⟩, none, none, none⟩

/-- A node with two peers that it has not refreshed yet. -/
def nodeWithTwoPeers : DDCP where
  conclave := {
    sovereign := ⟨⟨[], []⟩, ⟨[], ⟨[7], [7]⟩⟩, none, none⟩
    remotes := ((∅ : AList fun _ : String => Peer).insert "good" goodPeer).insert "bad"
      ⟨"bad", ⟨[], [1]⟩, none, none, none⟩ }

/-- What the good peer replies: its site id and no changes, sealed. -/
def goodReply : Bytes :=
  encode (Envelope.mk "" (calmNonce.bytes ++ ([12] ++ calmNonce.bytes ++
    encode (Response.changes ⟨[2], []⟩))))

/-- The good peer has published its status; the record of the other cannot be opened. -/
def badRecord : Oracle Unit where
  veilid
    | .openDhtRecord key _ => if key = ⟨[], [1]⟩ then .error .keyNotFound else .ok ⟨key⟩
    | .getDhtValue _ _ _ => .ok (some (encode goodStatus))
    | .appCall _ _ => .ok goodReply
    | .crypto _ => .ok (some ())
    | .closeDhtRecord _ => .ok ()
    | .setDhtValue _ _ _ => .ok ()
    | .newPrivateRoute => .ok ([], [])
    | .importRemotePrivateRoute blob => .ok blob
    | .releasePrivateRoute _ => .ok ()
    | .appCallReply _ _ => .ok ()
  db
    | .status, w => (.ok ([7], 0), w)
    | .select _, w => (.ok [], w)
    | .trackedPeerVersion _, w => (.ok 0, w)
    | .merge _ _, w => (.ok 1, w)
    | .finalize, w => (.ok (), w)
  nonce w := (calmNonce, w)

/-- With one record that cannot be opened, the changes of the good peer are not merged, and a `push`
    fails after its announcement went well. -/
theorem bad_record_stops_others :
    badRecord.owed nodeWithTwoPeers () = [⟨.db (.merge [2] []), .ok 1⟩] ∧
    badRecord.Announced nodeWithTwoPeers () ∧
    ¬ badRecord.TickServes nodeWithTwoPeers () ∧ ¬ badRecord.PushServes nodeWithTwoPeers () := by
  have hbad : ¬ ∀ p ∈ nodeWithTwoPeers.conclave.peers, badRecord.Reachable p := fun h => by
    obtain ⟨_, ⟨dht, hopen⟩, _⟩ := h ⟨"bad", ⟨[], [1]⟩, none, none, none⟩ List.mem_cons_self
    exact absurd hopen (by simp [badRecord])
  have hturns : badRecord.turnsOf nodeWithTwoPeers () = [.nothing, .merged [2] [] 1] := by
    decide +kernel
  have howed : badRecord.owed nodeWithTwoPeers () = [⟨.db (.merge [2] []), .ok 1⟩] := by
    rw [Oracle.owed, hturns]
    rfl
  have hann : badRecord.Announced nodeWithTwoPeers () :=
    ⟨[7], 0, rfl, ⟨[], []⟩, rfl, (), rfl⟩
  refine ⟨howed, hann, fun htick => ?_, fun hpush => hbad (push_ok_iff.1 (hpush hann)).2⟩
  unfold Oracle.TickServes at htick
  rw [Oracle.owed, owed_sublist_iff, merges_pullerTick_error hbad, List.sublist_nil] at htick
  exact absurd (howed.symm.trans htick) (by simp)

end Example

end Ddcp
