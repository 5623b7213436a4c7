import Ddcp.Replication.Relation

set_option autoImplicit false

/-! # The programs refine the protocol

Every run of the programs is a run of `Net` with the same databases, in which the transactions and
the merges come in the same order. What is true of every run of `Net` is then true of the
programs. -/

namespace Ddcp

open Method Lts

/-! ## The simulation -/

section Simulation
variable [Capnp] [CryptoSystem] {IsKeyPair : KeyPair → Prop} {N : Type} {S : Setup N} {n : N}
  {known : TypedKey → NodeStatus → Prop}

omit [Capnp] in
theorem DDCP.peersInformed {d : DDCP} (h : d.conclave.Informed S n known) :
    PeersInformed S known d.peerByKey := by
  intro sender p hp
  obtain ⟨hmem, hkey⟩ := (DDCP.lookup_foldl_insert.1 p hp).resolve_right (by simp)
  obtain ⟨name, hname⟩ := Conclave.mem_peers_iff.1 hmem
  exact ⟨h.remotes name p hname, hkey.symm⟩

omit [Capnp] [CryptoSystem] in
/-- The same node with other entries, of which nothing is known. -/
theorem Conclave.Informed.edit {c c' : Conclave} (h : c.Informed S n known)
    (hsov : c'.sovereign = c.sovereign) (hremotes : ∀ name p, c'.remotes.lookup name = some p →
      p.Fresh ∨ c.remotes.lookup name = some p) : c'.Informed S n known where
  sovereign := hsov ▸ h.sovereign
  remotes name p hp := by
    rcases hremotes name p hp with ⟨hstatus, hroute⟩ | hold
    · exact Peer.informed_fresh hstatus hroute
    · exact h.remotes name p hold

variable [DecidableEq N] [LinearOrder CellData] {K : Cluster N} {σ : Net N}

theorem Refines.init : Refines S (Cluster.init S) (Net.init S.site) where
  reached := ⟨[], .nil⟩
  db := rfl
  dht v hv := absurd hv (by simp [Cluster.init])
  task _ := .none

/-- A step that only sets a task. -/
theorem Refines.setTask (h : Refines S K σ) (t : Nat) {task : Option (Task N)}
    (ht : Task.Is S σ task (σ.pulls t)) : Refines S (K.setTask t task) σ :=
  h.later t (.refl σ) (fun _ _ => rfl) ht

/-- A step that sets a task, and gives up its pull. -/
theorem Refines.giveUp (h : Refines S K σ) (t : Nat) {task : Option (Task N)}
    (ht : Task.Is S (σ.setPull t none) task none) :
    Net.Quietly σ (σ.setPull t none) ∧ Refines S (K.setTask t task) (σ.setPull t none) := by
  have hlater := (Net.Later.refl σ).giveUp t
  refine ⟨hlater.quiet, h.later t hlater (fun t' ht' => Net.setPull_pulls_of_ne ht' none) ?_⟩
  rwa [Net.setPull_pulls]

/-- What is known of an idle task. -/
theorem Refines.idle (h : Refines S K σ) {t : Nat} {peerByKey : AList fun _ : String => Peer}
    {ddcp : DDCP} (ht : K.task t = some (.idle n peerByKey ddcp)) :
    σ.pulls t = none ∧ PeersInformed S (σ.Announced S) peerByKey ∧
      ddcp.conclave.Informed S n (σ.Announced S) := by
  have htask := h.task t
  rw [ht] at htask
  generalize hpull : σ.pulls t = pull at htask
  cases htask with
  | idle hpeers hinformed => exact ⟨rfl, hpeers, hinformed⟩

theorem Refines.free (h : Refines S K σ) {t : Nat} (ht : K.task t = none) : σ.pulls t = none := by
  have htask := h.task t
  rw [ht] at htask
  generalize hpull : σ.pulls t = pull at htask
  cases htask with
  | none => rfl

/-! ### Step by step -/

section Steps
variable {t u : Nat} {peerByKey peerByKey' : AList fun _ : String => Peer} {ddcp ddcp' : DDCP}
  {p : Prog Call Ret (Option DDCP)}

/-- A transaction is a transaction. -/
theorem Refines.localTx {db' : Database} (h : Refines S K σ) (htx : LocalTx (K.db n) db') :
    Net.Step (fun _ => True) σ (.localTx n) (σ.setDb n db') ∧
      Refines S (K.setDb n db') (σ.setDb n db') := by
  rw [← h.db] at htx
  obtain ⟨ks, hr⟩ := h.reached
  have hs : Net.Step (fun _ => True) σ (.localTx n) (σ.setDb n db') := .localTx n htx
  have hpub : ∀ m st, st ∈ σ.published m → st ∈ (σ.setDb n db').published m := fun _ _ hst => hst
  refine ⟨hs, ⟨_, .snoc hr hs⟩, ?_, h.dht, fun t => (h.task t).mono hpub⟩
  show Function.update σ.db n db' = Function.update K.db n db'
  rw [h.db]

theorem Refines.spawn (h : Refines S K σ) {c : Conclave} {tr : List IdentEvent}
    (hfree : K.task t = none) (hnew : Exec Conclave.new () tr (.ok c) ())
    (hkey : c.sovereign.dhtKey = S.dhtKey n) (hkeys : c.sovereign.dhtOwnerKeypair = S.keys n) :
    Refines S (K.setTask t (some (.idle n ∅ ⟨c⟩))) σ := by
  refine h.setTask t ?_
  rw [h.free hfree]
  refine .idle (fun _ _ hp => absurd hp (by simp)) ⟨⟨hkey, hkeys, fun route hroute => ?_⟩,
    fun name p hp => ?_⟩
  · rw [Conclave.exec_new_route hnew] at hroute
    exact absurd hroute (by simp)
  · obtain ⟨hstatus, hroute⟩ := Conclave.fresh_of_new hnew name p hp
    exact Peer.informed_fresh hstatus hroute

theorem Refines.clone (h : Refines S K σ) (ht : K.task t = some (.idle n peerByKey ddcp))
    (hfree : K.task u = none) : Refines S (K.setTask u (some (.idle n ddcp.peerByKey ddcp))) σ := by
  obtain ⟨-, -, hinformed⟩ := h.idle ht
  refine h.setTask u ?_
  rw [h.free hfree]
  exact .idle (DDCP.peersInformed hinformed) hinformed

/-- A remote is added or removed. -/
theorem Refines.edit (h : Refines S K σ) (ht : K.task t = some (.idle n peerByKey ddcp))
    {c : Conclave} (hsov : c.sovereign = ddcp.conclave.sovereign)
    (hremotes : ∀ name p, c.remotes.lookup name = some p →
      p.Fresh ∨ ddcp.conclave.remotes.lookup name = some p) :
    Refines S (K.setTask t (some (.idle n peerByKey ⟨c⟩))) σ := by
  obtain ⟨hpull, hpeers, hinformed⟩ := h.idle ht
  refine h.setTask t ?_
  rw [hpull]
  exact .idle hpeers (hinformed.edit hsov hremotes)

theorem Refines.start (h : Refines S K σ) (ht : K.task t = some (.idle n peerByKey ddcp))
    (hp : DDCP.Calls peerByKey ddcp p) :
    Refines S (K.setTask t (some (.busy n peerByKey p .none))) σ := by
  obtain ⟨hpull, hpeers, hinformed⟩ := h.idle ht
  let q : Talk := ⟨σ.Announced S, fun st => st ∈ σ.published n, .idle⟩
  refine h.setTask t ?_
  rw [hpull]
  exact .busy (q := q) hpeers ⟨fun _ _ h => h, fun _ h => h⟩ (hp.follows hinformed) (Or.inl rfl)
    (.idle rfl)

theorem Refines.send (h : Refines S K σ) {target : RouteId} {message : Bytes}
    (ht : K.task t = some (.busy n peerByKey p .none))
    (hp : p.next = some (.veilid (.appCall target message))) :
    Refines S (K.setTask t (some (.busy n peerByKey p (.sent target message)))) σ := by
  obtain ⟨q, hpeers, hsound, hfollows, -, hstage⟩ := h.busy ht
  refine h.setTask t (.busy hpeers hsound hfollows (Or.inr ⟨target, message, hp, ?_⟩) ?_)
  · intro target' message' he
    obtain ⟨rfl, rfl⟩ := Rpc.sent.inj he
    exact ⟨rfl, rfl⟩
  · -- only a pull that has read its cursor calls
    have hmay : q.May S n (.veilid (.appCall target message)) := hfollows.may hp
    obtain ⟨key, ns, since, _, _, _, hasked, _⟩ := hmay
    generalize σ.pulls t = pull at hstage ⊢
    rw [hasked] at hstage ⊢
    cases hstage with
    | asked hkey hrpc =>
        cases hrpc with
        | none => exact .asked hkey (.sent target message)

theorem Refines.deliver (hl : CryptoSystem.Lawful IsKeyPair) (hc : Capnp.Lawful)
    (hkeys : ∀ n, IsKeyPair (S.keys n).value) (hdht : Function.Injective S.dhtKey)
    (h : Refines S K σ) {target : RouteId} {message : Bytes} {callId : UInt64} {r : Responder}
    (ht : K.task t = some (.busy n peerByKey p (.sent target message)))
    (hu : K.task u = some (.idle (S.owner target) peerByKey' ddcp))
    (hupdate : Exec (DDCP.handleUpdate peerByKey' (.appCall callId message)) ddcp []
      (.ok (some r)) ddcp') :
    Refines S (K.setTask t (some (.busy n peerByKey p
      (.serving (S.owner target) ((r.run : Act Unit Unit) ()))))) σ := by
  obtain ⟨q, hpeers, hsound, hfollows, hawaited, hstage⟩ := h.busy ht
  obtain ⟨-, hpeers', hinformed'⟩ := h.idle hu
  obtain ⟨-, hr, -⟩ := exec_handleAppCall_iff.1 hupdate
  obtain ⟨target', message', hnext, hsent⟩ := hawaited.resolve_left (by simp)
  obtain ⟨rfl, rfl⟩ := hsent target message rfl
  exact h.setTask t (.busy hpeers hsound hfollows (Or.inr ⟨_, _, hnext, by simp⟩)
    (hstage.deliver hl hc hkeys hdht hsound (hfollows.may hnext) hpeers' hinformed'.sovereign.keys
      hr.symm))

theorem Refines.respond (hl : CryptoSystem.Lawful IsKeyPair) (hc : Capnp.Lawful)
    (hkeys : ∀ n, IsKeyPair (S.keys n).value) (h : Refines S K σ) {server : N}
    {q q' : Prog Call Ret (Except Abort Unit × Unit)} {e : Event} {db' : Database}
    (ht : K.task t = some (.busy n peerByKey p (.serving server q))) (hq : q.Step e q')
    (hdb : (K.db server).Answers e db') :
    ∃ σ', Net.Quietly σ σ' ∧ Refines S ((K.setDb server db').setTask t
      (some (.busy n peerByKey p (Rpc.afterReply server q' e)))) σ' := by
  obtain ⟨talk, hpeers, hsound, hfollows, hawaited, hstage⟩ := h.busy ht
  obtain ⟨target, message, hnext, -⟩ := hawaited.resolve_left (by simp)
  generalize hpull : σ.pulls t = pull at hstage
  generalize hst : talk.stage = stage at hstage
  cases hstage with
  | idle hrpc => exact absurd hrpc (by simp)
  | replied _ hrpc _ => exact absurd hrpc (by simp)
  | @asked m ns since phase hkey hrpc =>
  cases hrpc with
  | @serving _ a hanswer =>
  rw [← h.db] at hdb
  obtain ⟨rfl, phase', hlater, hafter⟩ := Rpc.Is.respond hl hc hkeys hanswer hq hdb hpull
  have hsame : K.setDb server (σ.db server) = K := by
    unfold Cluster.setDb
    rw [h.db, Function.update_eq_self]
  rw [hsame]
  refine ⟨_, hlater.quiet, h.later t hlater (fun t' ht' => Net.setPull_pulls_of_ne ht' _) ?_⟩
  rw [Net.setPull_pulls]
  have hstage' : talk.stage.Is S n (Rpc.afterReply server q' e)
      (some ⟨n, server, ns.status, since, phase'⟩) := by
    rw [hst]
    exact .asked hkey hafter
  refine .busy hpeers ⟨hsound.known, hsound.read⟩ hfollows
    (Or.inr ⟨target, message, hnext, fun _ _ he => ?_⟩) hstage'
  unfold Rpc.afterReply at he
  split at he <;> exact absurd he (by simp)

/-- A method has returned. -/
theorem Refines.finish {rpc : Rpc N} (h : Refines S K σ)
    (ht : K.task t = some (.busy n peerByKey (.pure (some ddcp)) rpc)) :
    Net.Quietly σ (σ.setPull t none) ∧
      Refines S (K.setTask t (some (.idle n peerByKey ddcp))) (σ.setPull t none) := by
  obtain ⟨q, hpeers, hsound, hfollows, -, -⟩ := h.busy ht
  have hinformed : ddcp.conclave.Informed S n q.known := hfollows ddcp rfl
  exact h.giveUp t (.idle hpeers (hinformed.mono hsound.known))

end Steps

/-! ### The whole -/

/-- What can be observed of a step of the protocol. -/
def Action.deeds (S : Setup N) (l : Action N) : List (Deed N) := l.traffic.map (Traffic.deed S.site)

omit [Capnp] [CryptoSystem] [DecidableEq N] [LinearOrder CellData] in
theorem flatMap_deeds (ks : List (Action N)) :
    ks.flatMap (Action.deeds S) = (ks.flatMap Action.traffic).map (Traffic.deed S.site) := by
  rw [List.map_flatMap]
  rfl

/-- **The programs do what the protocol does.** -/
theorem cluster_simulates (hl : CryptoSystem.Lawful IsKeyPair) (hc : Capnp.Lawful)
    (hkeys : ∀ n, IsKeyPair (S.keys n).value) (hdht : Function.Injective S.dhtKey)
    (hsite : Function.Injective S.site) :
    Simulates (Cluster.Step S) (Net.Step fun _ => True) Option.toList (Action.deeds S)
      (Refines S) := by
  intro K σ l K' h hs
  -- a step that is not observed
  have hquiet : ∀ {σ'}, Net.Quietly σ σ' → Refines S K' σ' → l = none →
      ∃ ks σ', Run (Net.Step fun _ => True) σ ks σ' ∧
        ks.flatMap (Action.deeds S) = l.toList ∧ Refines S K' σ' := by
    rintro σ' ⟨ks, hr, hks⟩ h' rfl
    exact ⟨ks, σ', hr, by rw [flatMap_deeds, hks]; rfl, h'⟩
  cases hs with
  | @localTx n db' htx =>
      obtain ⟨hstep, h'⟩ := h.localTx htx
      exact ⟨[.localTx n], _, .snoc .nil hstep, rfl, h'⟩
  | spawn t n hfree hnew hkey hkeys => exact hquiet (.refl σ) (h.spawn hfree hnew hkey hkeys) rfl
  | clone t t' ht hfree => exact hquiet (.refl σ) (h.clone ht hfree) rfl
  | remoteAdd t ht hadd =>
      obtain ⟨hsov, hremotes⟩ := Conclave.remotes_of_remoteAdd hadd
      exact hquiet (.refl σ) (h.edit ht hsov hremotes) rfl
  | remoteRemove t ht hremove =>
      obtain ⟨hsov, hremotes⟩ := Conclave.remotes_of_remoteRemove hremove
      exact hquiet (.refl σ) (h.edit ht hsov fun name p hp => Or.inr (hremotes name p hp)) rfl
  | start t ht hp => exact hquiet (.refl σ) (h.start ht hp) rfl
  | @call t n peerByKey p p' rpc e db' dht' ht hp hpromised hdb hdhtA hrpc =>
      cases hdeed : e.deed n with
      | none =>
          obtain ⟨σ', ⟨ks, hr, hks⟩, h'⟩ := h.call hc ht hp hpromised hdb hdhtA hrpc hdeed
          exact ⟨ks, σ', hr, by rw [flatMap_deeds, hks]; rfl, h'⟩
      | some d =>
          obtain ⟨siteId, changes, a, rfl, rfl⟩ := Event.deed_eq_some hdeed
          obtain rfl : dht' = K.dht := hdhtA
          obtain ⟨m, σ', rfl, hstep, h'⟩ := h.merge hl hsite ht hp hdb
          exact ⟨[.finish n m], σ', .snoc .nil hstep, rfl, h'⟩
  | send t ht hp => exact hquiet (.refl σ) (h.send ht hp) rfl
  | deliver t u ht hu hupdate =>
      exact hquiet (.refl σ) (h.deliver hl hc hkeys hdht ht hu hupdate) rfl
  | respond t ht hq hdb =>
      obtain ⟨σ', hσ', h'⟩ := h.respond hl hc hkeys ht hq hdb
      exact hquiet hσ' h' rfl
  | finish t ht => exact hquiet (h.finish ht).1 (h.finish ht).2 rfl
  | drop t => exact hquiet (h.giveUp t .none).1 (h.giveUp t .none).2 rfl

variable {ls : List (Option (Deed N))}

/-- **The programs refine the protocol.** Take any number of nodes with keys and site ids of their
    own, each with any number of processes and tasks that call the methods of a node in any order,
    the calls of all of them and of their responders interleaved in any way, with any failures and
    crashes. Whatever the databases have come to hold, and the order in which transactions and
    merges changed them, is the outcome of a run of `Net`, in which every merge ends a pull from
    the node whose site id it names, with an answer that this node gave to this pull. -/
theorem cluster_refines (hl : CryptoSystem.Lawful IsKeyPair) (hc : Capnp.Lawful)
    (hkeys : ∀ n, IsKeyPair (S.keys n).value) (hdht : Function.Injective S.dhtKey)
    (hsite : Function.Injective S.site) (hr : Run (Cluster.Step S) (Cluster.init S) ls K) :
    ∃ ks σ, Run (Net.Step fun _ => True) (Net.init S.site) ks σ ∧
      ks.flatMap (Action.deeds S) = ls.flatMap Option.toList ∧ σ.db = K.db := by
  obtain ⟨ks, σ, hks, hdeeds, h⟩ := (cluster_simulates hl hc hkeys hdht hsite).run Refines.init hr
  exact ⟨ks, σ, hks, hdeeds, h.db⟩

/-- **What the programs do together.** Through routes, records, seals and bytes, writes get from
    their author to other nodes: every run of the programs is a run of `WriteLog`, with a write for
    each transaction and a delivery for each merge, in the same order; each database holds, cell by
    cell, the greatest of the writes its node has seen, each row under the name of its author: no
    row is under any other name. -/
theorem cluster_delivers (hl : CryptoSystem.Lawful IsKeyPair) (hc : Capnp.Lawful)
    (hkeys : ∀ n, IsKeyPair (S.keys n).value) (hdht : Function.Injective S.dhtKey)
    (hsite : Function.Injective S.site) (hr : Run (Cluster.Step S) (Cluster.init S) ls K) :
    ∃ ks τ, Run (WriteLog.Step WriteLog.Newer) WriteLog.empty ks τ ∧
      (ks.flatMap WriteAction.traffic).map (Traffic.deed S.site) = ls.flatMap Option.toList ∧
      (∀ n, (K.db n).view = τ.held n) ∧
      (∀ n k cell, (K.db n).cells.lookup k = some cell →
        cell.siteId = none ∨ ∃ m, cell.siteId = some (S.site m)) ∧
      ∀ n m k cell, (K.db n).cells.lookup k = some cell →
        (cell.siteId = some (S.site m) ∨ (n = m ∧ cell.siteId = none)) →
        (m, (k, cell.data)) ∈ τ.seen n ∧ (k, cell.data) ∈ τ.wrote m := by
  obtain ⟨ks, σ, hks, hdeeds, h⟩ := (cluster_simulates hl hc hkeys hdht hsite).run Refines.init hr
  obtain ⟨ks', τ, hks', htraffic, hτ⟩ := (net_simulates hsite).run Delivered.init hks
  refine ⟨ks', τ, hks', ?_, fun n => ?_, h.db ▸ hτ.author, fun n m k cell hlookup hfrom => ?_⟩
  · rw [htraffic, ← hdeeds, flatMap_deeds]
  · rw [← h.db, hτ.view]
  · rw [← h.db] at hlookup
    rcases hfrom with hs | ⟨rfl, hs⟩
    · exact (hτ.attributed m).stored n k cell hlookup hs
    · exact (hτ.attributed n).own k cell ⟨hlookup, hs⟩

/-- **No program skips an update.** Whatever the programs have done, a node holds every row that its
    peer still has of its own up to the cursor it has for it, or something greater; and when no node
    finds anything to pull from any other, they all hold the same. -/
theorem cluster_agrees (hl : CryptoSystem.Lawful IsKeyPair) (hc : Capnp.Lawful)
    (hkeys : ∀ n, IsKeyPair (S.keys n).value) (hdht : Function.Injective S.dhtKey)
    (hsite : Function.Injective S.site) (hr : Run (Cluster.Step S) (Cluster.init S) ls K) :
    (∀ b a k cell, (K.db a).LocalRow k cell →
      cell.dbVersion ≤ (K.db b).trackedPeerVersion (K.db a).siteId →
      (cell.data : WithBot CellData) ≤ (K.db b).view k) ∧
    ((∀ b a, b ≠ a → ∃ v, beginPull (K.db b) ⟨(K.db a).status.1, (K.db a).status.2⟩ =
        .upToDate v) → ∀ a b, (K.db a).view = (K.db b).view) := by
  obtain ⟨ks, σ, hks, -, h⟩ := (cluster_simulates hl hc hkeys hdht hsite).run Refines.init hr
  rw [← h.db]
  refine ⟨fun b a k cell hrow hle => ?_, fun hquiet => ?_⟩
  · have hcursor := CursorInv.run_honest hsite hks a
    rw [hcursor.siteId a] at hle
    exact hcursor.taken b k cell hrow hle
  · exact Net.agree_of_current hsite hks fun b a hne => Net.current_iff.2 (hquiet b a hne)

end Simulation

section Example
attribute [local instance] plainCapnp plainCrypto cellDataOrder

/-- The key of a node. -/
def twoKey (n : Bool) : Bytes := if n then [5] else [7]

/-- Two nodes, each with its site id as its route. -/
def twoNodes : Setup Bool where
  site n := if n then [1] else [2]
  dhtKey n := ⟨CRYPTO_KIND_VLD0, twoKey n⟩
  keys n := ⟨CRYPTO_KIND_VLD0, twoKey n, twoKey n⟩
  home blob := blob == [1]
  owner id := id == [1]

/-- The state of a process of `n` when it starts up. -/
def twoConclave (n : Bool) : Conclave := loneConclave (twoKey n)

def twoRoute (n : Bool) : Route := ⟨twoNodes.site n, twoNodes.site n⟩

/-- What `n` announces. -/
def twoStatus (n : Bool) (dbVersion : Int64) : NodeStatus :=
  (twoConclave n).sovereign.nodeStatus ⟨twoNodes.site n, dbVersion⟩ (twoRoute n)

/-- The entry of `n` for the other node, when it has been added. -/
def twoPeer (n : Bool) : Peer := ⟨"peer", twoNodes.dhtKey (!n), none, none, none⟩

/-- What `n` knows of the other, once it has read its status. -/
def twoRefreshed (n : Bool) (dbVersion : Int64) : Peer :=
  ⟨"peer", twoNodes.dhtKey (!n), some ⟨twoNodes.dhtKey (!n)⟩, some (twoStatus (!n) dbVersion),
    some (twoNodes.site (!n))⟩

/-- How it reads it. -/
def twoRefresh (n : Bool) (dbVersion : Int64) : List Event :=
  [⟨.veilid (.openDhtRecord (twoNodes.dhtKey (!n)) none), .ok ⟨twoNodes.dhtKey (!n)⟩⟩,
    ⟨.veilid (.getDhtValue (twoNodes.dhtKey (!n)) DHT_SUBKEY_STATUS true),
      .ok (some (encode (twoStatus (!n) dbVersion)))⟩,
    ⟨.veilid (.importRemotePrivateRoute (twoNodes.site (!n))), .ok (twoNodes.site (!n))⟩]

theorem exec_twoRefresh (n : Bool) (dbVersion : Int64) :
    Exec Peer.refresh (twoPeer n) (twoRefresh n dbVersion) (.ok (some (twoStatus (!n) dbVersion)))
      (twoRefreshed n dbVersion) := by
  rw [Peer.refresh_eq]
  refine exec_get_bind_iff.2 (.call ?_)
  refine Act.exec_veilid_bind_iff.2 (Or.inr ⟨some _, _, rfl, ?_⟩)
  rw [Peer.cacheStatus, plainCapnp_decode_encode (NodeStatus.ofObj_toObj _)]
  exact .call (.pure _)

def twoRouted (n : Bool) (route : Option Route) : Conclave :=
  { twoConclave n with sovereign := { (twoConclave n).sovereign with route := route } }

/-- `n` with the other added. -/
def twoAdded (n : Bool) (route : Option Route) : Conclave :=
  { twoRouted n route with remotes := AList.insert "peer" (twoPeer n) ∅ }

/-- `n` when it has read the status of the other. -/
def twoInformed (n : Bool) (route : Option Route) (dbVersion : Int64) : Conclave :=
  { twoAdded n route with
    remotes := (twoAdded n route).remotes.replace "peer" (twoRefreshed n dbVersion) }

theorem exec_twoInformed (n : Bool) (route : Option Route) (dbVersion : Int64) :
    Exec (Conclave.onPeer "peer" Peer.refresh) (twoAdded n route) (twoRefresh n dbVersion)
      (.ok (some (some (twoStatus (!n) dbVersion)))) (twoInformed n route dbVersion) :=
  exec_onPeer_of_lookup (AList.lookup_insert _) (exec_twoRefresh n dbVersion)

/-- How `n` announces itself. -/
def twoAnnounce (n : Bool) (dbVersion : Int64) : List Event :=
  [⟨.db .status, .ok (twoNodes.site n, dbVersion)⟩,
    ⟨.veilid .newPrivateRoute, .ok (twoNodes.site n, twoNodes.site n)⟩,
    ⟨.veilid (.setDhtValue (twoNodes.dhtKey n) DHT_SUBKEY_STATUS
      (encode (twoStatus n dbVersion))), .ok ()⟩]

/-- A first `push`, before there are remotes. -/
theorem exec_push_alone (n : Bool) (dbVersion : Int64) : ∃ r,
    Exec DDCP.push ⟨twoConclave n⟩ (twoAnnounce n dbVersion) r
      ⟨twoRouted n (some (twoRoute n))⟩ :=
  ⟨_, .call (.call (.call (.pure _)))⟩

theorem exec_push_informed (n : Bool) (v w : Int64) :
    Exec DDCP.push ⟨twoAdded n none⟩ (twoAnnounce n v ++ (twoRefresh n w ++ []))
      (.ok (CryptoSystem.keyToString (twoNodes.dhtKey n), twoNodes.site n, v))
      ⟨twoInformed n (some (twoRoute n)) w⟩ := by
  have hone := exec_twoInformed n (some (twoRoute n)) w
  have hann : Exec (Sovereign.announce ⟨twoNodes.site n, v⟩) (twoAdded n none).sovereign
      [⟨.veilid .newPrivateRoute, .ok (twoNodes.site n, twoNodes.site n)⟩,
        ⟨.veilid (.setDhtValue (twoNodes.dhtKey n) DHT_SUBKEY_STATUS (encode (twoStatus n v))),
          .ok ()⟩] (.ok ()) (twoAdded n (some (twoRoute n))).sovereign := .call (.call (.pure _))
  have hpeers : Exec Conclave.refreshPeers (twoAdded n (some (twoRoute n))) (twoRefresh n w ++ [])
      (.ok ()) (twoInformed n (some (twoRoute n)) w) := by
    refine exec_get_bind_iff.2 (exec_bind_of_ok (a := ()) ?_ (.pure _))
    have hx := exec_bind_of_ok hone (f := fun _ => (pure () : Act Conclave Unit)) (.pure _)
    rwa [List.append_nil] at hx
  have hrefresh : Exec (Conclave.refresh ⟨twoNodes.site n, v⟩) (twoAdded n none) _ _
      (twoInformed n (some (twoRoute n)) w) :=
    exec_bind_of_ok (exec_zoom_iff.2 ⟨_, hann, rfl⟩) hpeers
  have hzoom : Exec (DDCP.onConclave (Conclave.refresh ⟨twoNodes.site n, v⟩))
      ⟨twoAdded n none⟩ _ (.ok ()) ⟨twoInformed n (some (twoRoute n)) w⟩ :=
    exec_zoom_iff.2 ⟨_, hrefresh, rfl⟩
  refine Act.exec_db_bind_iff.2 (Or.inr ⟨_, _, rfl, ?_⟩)
  have hrest := exec_bind_of_ok hzoom (f := fun _ => get >>= fun s : DDCP =>
      (pure (CryptoSystem.keyToString s.conclave.sovereign.dhtKey, twoNodes.site n, v) :
        Act DDCP (String × Bytes × Int64))) (exec_get_bind_iff.2 (.pure _))
  rwa [List.append_nil] at hrest

def twoSealed (plain : Bytes) : Bytes := calmNonce.bytes ++ ([12] ++ calmNonce.bytes ++ plain)

def twoEnvelope (n : Bool) (plain : Bytes) : Envelope :=
  ⟨CryptoSystem.keyToString (twoNodes.dhtKey n), twoSealed plain⟩

/-- The request of `false`. -/
def twoRequest : Bytes := encode (twoEnvelope false (encode (Request.changes 0)))

/-- What `false` does before it calls `true`. -/
def twoBefore : List Event :=
  [⟨.db (.trackedPeerVersion (twoNodes.site true)), .ok 0⟩,
    ⟨.veilid (.crypto CRYPTO_KIND_VLD0), .ok (some ())⟩, ⟨.randomNonce, calmNonce⟩]

theorem two_crypto {σ : Type} {s : σ} (n : Bool) (c : Conclave) (peer : Peer) (v : Int64)
    (hc : c.sovereign.dhtOwnerKeypair = twoNodes.keys n)
    (hp : peer.nodeStatus = some (twoStatus (!n) v)) :
    Exec (c.crypto peer) s [⟨.veilid (.crypto CRYPTO_KIND_VLD0), .ok (some ())⟩]
      (.ok (twoNodes.crypto n (!n))) s := by
  refine exec_crypto_iff.2 ⟨.ok (some ()), rfl, rfl, ?_⟩
  have hauth : peer.authKey = .ok (some (twoNodes.authKey (!n))) :=
    authKey_of_nodeStatus hp (PlainCrypto.keyFromStr_keyToString _)
  have hwith : c.cryptoWith peer (some ()) = .ok (twoNodes.crypto n (!n)) :=
    cryptoWith_ok_iff.2 ⟨rfl, _, hauth, by rw [hc]; rfl⟩
  exact hwith.symm

/-- The pull of `false`, when the reply opens. -/
theorem exec_pull_two {route : Option Route} {reply : Bytes} {resp : ChangesResponse}
    {v : Int64} (hsite : resp.siteId = twoNodes.site true)
    (hreply : Conclave.decodeReply (twoNodes.crypto false true) reply = .ok resp) :
    Exec (DDCP.pull "peer") ⟨twoAdded false route⟩
      ((twoRefresh false 1 ++ twoBefore) ++
        ⟨.veilid (.appCall (twoNodes.site true) twoRequest), .ok reply⟩ ::
          [⟨.db (.merge resp.siteId resp.changes), .ok v⟩]) (.ok (true, v))
      ⟨twoInformed false route 1⟩ := by
  let c := twoInformed false route 1
  let peer := twoRefreshed false 1
  have hchanges : Exec (c.changes peer 0 : Act DDCP ChangesResponse) ⟨c⟩
      ([⟨.veilid (.crypto CRYPTO_KIND_VLD0), .ok (some ())⟩] ++
        ([⟨.randomNonce, calmNonce⟩] ++
          [⟨.veilid (.appCall (twoNodes.site true) twoRequest), .ok reply⟩])) (.ok resp) ⟨c⟩ := by
    refine exec_bind_of_ok (two_crypto false c peer 1 rfl rfl) ?_
    refine exec_bind_of_ok (a := twoSealed (encode (Request.changes 0))) (.call (.pure _)) ?_
    have hcall : Exec (Act.lift (Conclave.decodeReply (twoNodes.crypto false true) reply) :
        Act DDCP ChangesResponse) ⟨c⟩ [] (.ok resp) ⟨c⟩ :=
      Act.exec_lift_iff.2 ⟨rfl, hreply.symm, rfl⟩
    exact .call hcall
  have hpull : Exec (DDCP.pullFrom c peer (twoStatus true 1) : Act DDCP (Bool × Int64)) ⟨c⟩
      (twoBefore ++
        ⟨.veilid (.appCall (twoNodes.site true) twoRequest), .ok reply⟩ ::
          [⟨.db (.merge resp.siteId resp.changes), .ok v⟩]) (.ok (true, v)) ⟨c⟩ := by
    unfold DDCP.pullFrom
    refine Act.exec_db_bind_iff.2 (Or.inr ⟨_, _, rfl, ?_⟩)
    have hlt : ¬ (twoStatus true 1).dbVersion ≤ 0 := by decide
    rw [if_neg hlt]
    have hmerge : Exec (if resp.siteId ≠ (twoStatus true 1).siteId then
          throw (.err (otherErr "mismatched site_id"))
        else do
          let mergeVersion ← Act.db (.merge resp.siteId resp.changes)
          return (true, mergeVersion) : Act DDCP (Bool × Int64)) ⟨c⟩
        [⟨.db (.merge resp.siteId resp.changes), .ok v⟩] (.ok (true, v)) ⟨c⟩ := by
      have hsite' : ¬ resp.siteId ≠ (twoStatus true 1).siteId := not_not.2 hsite
      rw [if_neg hsite']
      exact .call (.pure _)
    refine exec_bind_iff.2 (Or.inr ⟨_, _, _, _, ?_, hchanges, hmerge⟩)
    rfl
  have hrefresh : Exec (DDCP.onConclave (Conclave.onPeer "peer" Peer.refresh))
      ⟨twoAdded false route⟩ (twoRefresh false 1) _ ⟨c⟩ :=
    exec_zoom_iff.2 ⟨_, exec_twoInformed false route 1, rfl⟩
  have hpeer : c.peer "peer" = some peer := by
    refine AList.lookup_replace_self (AList.lookup_isSome.1 (Option.isSome_iff_exists.2
      ⟨twoPeer false, ?_⟩))
    exact AList.lookup_insert ∅
  rw [List.append_assoc]
  refine exec_bind_of_ok hrefresh ?_
  have hfound : Exec (Act.okOr (otherErr "unknown peer") (some (some (twoStatus true 1))) :
    Act DDCP (Option NodeStatus)) ⟨c⟩ [] (.ok (some (twoStatus true 1))) ⟨c⟩ := .pure _
  refine exec_bind_iff.2 (Or.inr ⟨[], _, _, _, rfl, hfound, exec_get_bind_iff.2 ?_⟩)
  rw [hpeer]
  exact hpull

/-- The answer of `true`. -/
def twoReply (resp : ChangesResponse) : Bytes :=
  encode (twoEnvelope true (encode (Response.changes resp)))

theorem two_seals (n : Bool) (plain : Bytes) :
    (twoNodes.crypto n (!n)).Seals plain (twoSealed plain) := by
  refine ⟨[12], calmNonce, [12] ++ calmNonce.bytes ++ plain, ?_, rfl, rfl⟩
  cases n <;> rfl

theorem two_lawful (n : Bool) : (twoNodes.keys n).value.key = (twoNodes.keys n).value.secret := rfl

theorem two_decode {α : Type} [Decodable α] [Encodable α] (n : Bool) {x : α}
    (h : Decodable.ofObj (Encodable.toObj x) = .ok x) :
    (twoNodes.crypto (!n) n).decode α (twoSealed (encode x)) = .ok x := by
  have hopen : (twoNodes.crypto (!n) n).decode α (twoSealed (encode x)) =
      (decode α (encode x)).mapError fun e => .err (.crypto (.proto e)) :=
    Crypto.decode_of_seals plainCrypto_lawful (two_lawful n) (two_lawful (!n)) (two_seals n _)
  rw [hopen, plainCapnp_decode_encode h]
  rfl

theorem two_decodeReply (resp : ChangesResponse) :
    Conclave.decodeReply (twoNodes.crypto false true) (twoReply resp) = .ok resp :=
  (decodeReply_ok_iff (plainCapnp_decode_encode (Envelope.ofObj_toObj _))).2
    (two_decode true (Response.ofObj_toObj _))

/-- The server task of `true`. -/
def twoServer : DDCP := ⟨twoInformed true (some (twoRoute true)) 0⟩

/-- The responder that it spawns. -/
def twoResponder : Responder where
  conclave := twoServer.conclave
  peer := twoRefreshed true 0
  envelope := twoEnvelope false (encode (Request.changes 0))
  callId := 0
  sender := CryptoSystem.keyToString (twoNodes.dhtKey true)

theorem two_responderFor : twoServer.responderFor twoServer.peerByKey 0 twoRequest =
    .ok (some twoResponder) := by
  unfold DDCP.responderFor twoRequest
  rw [plainCapnp_decode_encode (Envelope.ofObj_toObj _)]
  rfl

def twoServing (dbVersion : Int64) (rows : List Change) : List Event :=
  [⟨.veilid (.crypto CRYPTO_KIND_VLD0), .ok (some ())⟩,
    ⟨.db .status, .ok (twoNodes.site true, dbVersion)⟩, ⟨.db (.select 0), .ok rows⟩,
    ⟨.randomNonce, calmNonce⟩]

/-- It answers with what it has selected. -/
theorem exec_respond_two {dbVersion : Int64} {rows : List Change} (hlt : 0 < dbVersion) :
    Exec (twoResponder.run : Act Unit Unit) ()
      (twoServing dbVersion rows ++
        [⟨.veilid (.appCallReply 0 (twoReply ⟨twoNodes.site true, rows⟩)), .ok ()⟩])
      (.ok ()) () := by
  have hrequest : Exec (Act.lift ((twoNodes.crypto true false).decode Request
      twoResponder.envelope.contents) : Act Unit Request) () [] (.ok (.changes 0)) () :=
    Act.exec_lift_iff.2 ⟨rfl, (two_decode false (Request.ofObj_toObj (.changes 0))).symm, rfl⟩
  have hchanges : Exec (dbChanges 0 : Act Unit (Bytes × List Change)) ()
      [⟨.db .status, .ok (twoNodes.site true, dbVersion)⟩, ⟨.db (.select 0), .ok rows⟩]
      (.ok (twoNodes.site true, rows)) () := by
    refine Act.exec_db_bind_iff.2 (Or.inr ⟨_, _, rfl, ?_⟩)
    have hlt' : ¬ (0 : Int64) ≥ dbVersion := not_le.2 hlt
    simp only [if_neg hlt']
    exact .call (.pure _)
  have hanswer : Exec (answerRequest (twoNodes.crypto true false) (.changes 0) : Act Unit Bytes) ()
      ([⟨.db .status, .ok (twoNodes.site true, dbVersion)⟩, ⟨.db (.select 0), .ok rows⟩] ++
        [⟨.randomNonce, calmNonce⟩])
      (.ok (twoSealed (encode (Response.changes ⟨twoNodes.site true, rows⟩)))) () :=
    exec_bind_of_ok hchanges (.call (.pure _))
  have hreply : Exec (Act.veilid (.appCallReply 0 (twoReply ⟨twoNodes.site true, rows⟩)) :
      Act Unit Unit) ()
      [⟨.veilid (.appCallReply 0 (twoReply ⟨twoNodes.site true, rows⟩)), .ok ()⟩] (.ok ()) () :=
    Act.exec_veilid_ok_iff.2 ⟨rfl, rfl⟩
  have hrespond : Exec (twoResponder.respond (twoNodes.crypto true false) : Act Unit Unit) () _
      (.ok ()) () := exec_bind_of_ok hrequest (exec_bind_of_ok hanswer hreply)
  refine exec_bind_iff.2 (Or.inr ⟨_, _, _, _, ?_,
    two_crypto true twoServer.conclave (twoRefreshed true 0) 0 rfl rfl, hrespond⟩)
  rfl

/-- A cell that `true` writes. -/
def twoWritten : Database :=
  (Database.new [1]).writeCell 1 ⟨"t", [], "x"⟩ ⟨1, 1, .null⟩ 0

theorem two_refresh_ok (n : Bool) (v : Int64) : ∀ e ∈ twoRefresh n v,
    Promised twoNodes n e ∧ (Rpc.none : Rpc Bool).Answers e := by
  intro e he
  simp only [twoRefresh, List.mem_cons, List.not_mem_nil, or_false] at he
  rcases he with rfl | rfl | rfl <;> cases n <;>
    exact ⟨⟨by simp, by simp [twoNodes]⟩, fun _ _ _ h => by cases h⟩

theorem two_announce_ok (n : Bool) (v : Int64) : ∀ e ∈ twoAnnounce n v,
    Promised twoNodes n e ∧ (Rpc.none : Rpc Bool).Answers e := by
  intro e he
  simp only [twoAnnounce, List.mem_cons, List.not_mem_nil, or_false] at he
  rcases he with rfl | rfl | rfl <;> cases n <;>
    exact ⟨⟨by simp [twoNodes], by simp⟩, fun _ _ _ h => by cases h⟩

theorem two_served_refresh (n : Bool) (v : Int64) {db : Database} {dht : List DhtValue}
    (hmem : ⟨twoNodes.dhtKey (!n), DHT_SUBKEY_STATUS, encode (twoStatus (!n) v)⟩ ∈ dht) :
    Prog.Served TaskAnswers Prog.alone (db, dht) (twoRefresh n v) (db, dht) := by
  refine .cons .refl ⟨rfl, rfl⟩ (.cons .refl ⟨rfl, fun data h => ?_, rfl⟩
    (.cons .refl ⟨rfl, rfl⟩ (.nil .refl)))
  obtain rfl := Option.some.inj (Except.ok.inj h)
  exact hmem

theorem two_served_announce (n : Bool) {v : Int64} {db : Database} {dht : List DhtValue}
    (hstatus : db.status = (twoNodes.site n, v)) :
    Prog.Served TaskAnswers Prog.alone (db, dht) (twoAnnounce n v)
      (db, ⟨twoNodes.dhtKey n, DHT_SUBKEY_STATUS, encode (twoStatus n v)⟩ :: dht) := by
  have hread : TaskAnswers (db, dht) ⟨.db .status, .ok (twoNodes.site n, v)⟩ (db, dht) :=
    ⟨⟨Or.inl (by rw [hstatus]), rfl⟩, rfl⟩
  have hset : TaskAnswers (db, dht) ⟨.veilid (.setDhtValue (twoNodes.dhtKey n) DHT_SUBKEY_STATUS
      (encode (twoStatus n v))), .ok ()⟩
      (db, ⟨twoNodes.dhtKey n, DHT_SUBKEY_STATUS, encode (twoStatus n v)⟩ :: dht) :=
    ⟨rfl, Or.inl rfl⟩
  exact .cons .refl hread (.cons .refl ⟨rfl, rfl⟩ (.cons .refl hset (.nil .refl)))

theorem two_spawn {K : Cluster Bool} (t : Nat) (n : Bool) (hfree : K.task t = none) :
    Cluster.Step twoNodes K none (K.setTask t (some (.idle n ∅ ⟨twoConclave n⟩))) := by
  obtain ⟨tr, hnew, -⟩ := runs_new (twoKey n)
  exact .spawn t n hfree hnew rfl rfl

theorem two_add {K : Cluster Bool} {t : Nat} {n : Bool} {m : AList fun _ : String => Peer}
    {route : Option Route} (ht : K.task t = some (.idle n m ⟨twoRouted n route⟩)) :
    Cluster.Step twoNodes K none (K.setTask t (some (.idle n m ⟨twoAdded n route⟩))) := by
  have hadd : StoreWorld.empty.Runs
      (remoteAdd "peer" (CryptoSystem.keyToString (twoNodes.dhtKey (!n)))) (twoRouted n route)
      (.ok ()) (twoAdded n route) _ := runs_remoteAdd (PlainCrypto.keyFromStr_keyToString _)
  obtain ⟨tr, hadd, -⟩ := hadd
  exact .remoteAdd t ht hadd

/-- What `false` has when it has pulled. -/
def twoMerged : Database := ((Database.new [2]).merge (calmTx 1) [1] (twoWritten.select 0)).2

theorem two_merge : (Database.new [2]).merge (calmTx 1) [1] (twoWritten.select 0) =
    (.ok 1, twoMerged) := rfl

theorem two_view :
    twoMerged.view ⟨"t", [], "x"⟩ = ((⟨1, 1, .null⟩ : CellData) : WithBot CellData) := by decide

def twoMergeEvent : Event := ⟨.db (.merge [1] (twoWritten.select 0)), .ok 1⟩

theorem two_before_ok : ∀ e ∈ twoBefore,
    Promised twoNodes false e ∧ (Rpc.none : Rpc Bool).Answers e := by
  intro e he
  simp only [twoBefore, List.mem_cons, List.not_mem_nil, or_false] at he
  rcases he with rfl | rfl | rfl <;> exact ⟨⟨by simp, by simp⟩, fun _ _ _ h => by cases h⟩

theorem two_pull_ok : ∀ e ∈ twoRefresh false 1 ++ twoBefore ++ [twoMergeEvent],
    Promised twoNodes false e ∧ (Rpc.none : Rpc Bool).Answers e := by
  refine List.forall_mem_append.2 ⟨List.forall_mem_append.2
    ⟨two_refresh_ok false 1, two_before_ok⟩, fun e he => ?_⟩
  obtain rfl := List.mem_singleton.1 he
  exact ⟨⟨by simp [twoMergeEvent], by simp [twoMergeEvent]⟩,
    fun _ _ _ h => by simp [twoMergeEvent] at h⟩

theorem two_served_before (dht : List DhtValue) :
    Prog.Served TaskAnswers Prog.alone (Database.new [2], dht) twoBefore
      (Database.new [2], dht) := by
  have hcursor : TaskAnswers (Database.new [2], dht)
      ⟨.db (.trackedPeerVersion (twoNodes.site true)), .ok 0⟩ (Database.new [2], dht) :=
    ⟨⟨Or.inl rfl, rfl⟩, rfl⟩
  exact .cons .refl hcursor (.cons .refl ⟨rfl, rfl⟩ (.cons .refl ⟨rfl, rfl⟩ (.nil .refl)))

theorem two_served_merge (dht : List DhtValue) :
    Prog.Served TaskAnswers Prog.alone (Database.new [2], dht) [twoMergeEvent]
      (twoMerged, dht) := by
  have hnew : (Database.new [2]).clock < (calmTx 1).version := by decide
  have hmerge : TaskAnswers (Database.new [2], dht) twoMergeEvent (twoMerged, dht) :=
    ⟨⟨calmTx 1, hnew, two_merge.symm⟩, rfl⟩
  exact .cons .refl hmerge (.nil .refl)

theorem two_serving_ok : ∀ e ∈ twoServing 1 (twoWritten.select 0),
    twoWritten.Answers e twoWritten ∧ ∀ q, Rpc.afterReply true q e = .serving true q := by
  intro e he
  simp only [twoServing, List.mem_cons, List.not_mem_nil, or_false] at he
  rcases he with rfl | rfl | rfl | rfl
  · exact ⟨rfl, fun _ => rfl⟩
  · exact ⟨⟨Or.inl rfl, rfl⟩, fun _ => rfl⟩
  · exact ⟨⟨Or.inl rfl, rfl⟩, fun _ => rfl⟩
  · exact ⟨rfl, fun _ => rfl⟩

/-- `true` writes a cell, both announce themselves and add each other, and `false` pulls. -/
theorem two_run : ∃ ls K, Run (Cluster.Step twoNodes) (Cluster.init twoNodes) ls K ∧
    ls.flatMap Option.toList = [.write true, .merge false [1]] ∧
    K.db true = twoWritten ∧ K.db false = twoMerged := by
  let K₁ := (Cluster.init twoNodes).setDb true twoWritten
  let K₂ := K₁.setTask 1 (some (.idle false ∅ ⟨twoConclave false⟩))
  let dht₁ : List DhtValue :=
    [⟨twoNodes.dhtKey false, DHT_SUBKEY_STATUS, encode (twoStatus false 0)⟩]
  let K₃ := K₂.afterCalls false (Database.new [2], dht₁) 1
    (.idle false ∅ ⟨twoRouted false (some (twoRoute false))⟩)
  let K₄ := K₃.setTask 0 (some (.idle true ∅ ⟨twoConclave true⟩))
  let K₅ := K₄.setTask 0 (some (.idle true ∅ ⟨twoAdded true none⟩))
  let dht₂ : List DhtValue :=
    ⟨twoNodes.dhtKey true, DHT_SUBKEY_STATUS, encode (twoStatus true 1)⟩ :: dht₁
  let K₆ := K₅.afterCalls true (twoWritten, dht₂) 0 (.idle true ∅ twoServer)
  let K₇ := K₆.setTask 2 (some (.idle true twoServer.peerByKey twoServer))
  let K₈ := K₇.setTask 1 (some (.idle false ∅ ⟨twoAdded false (some (twoRoute false))⟩))
  let K₉ := K₈.afterCalls false (twoMerged, dht₂) 1
    (.idle false ∅ ⟨twoInformed false (some (twoRoute false)) 1⟩)
  -- `true` writes, and `false` announces itself
  have h₁ : Cluster.Step twoNodes (Cluster.init twoNodes) (some (.write true)) K₁ :=
    .localTx true (LocalTx.writeCell 1 _ _ 0 (by decide) (WithBot.bot_lt_coe _))
  have h₂ : Cluster.Step twoNodes K₁ none K₂ := two_spawn 1 false rfl
  obtain ⟨r, hpush⟩ := exec_push_alone false 0
  have h₃ : Run (Cluster.Step twoNodes) K₂ _ K₃ := Cluster.run_method .push rfl hpush
    (two_served_announce false rfl) (fun e he => (two_announce_ok false 0 e he).1)
    fun e he => (two_announce_ok false 0 e he).2
  -- `true` adds it, announces itself, reads its status, and serves
  have h₄ : Cluster.Step twoNodes K₃ none K₄ := two_spawn 0 true rfl
  have h₅ : Cluster.Step twoNodes K₄ none K₅ := by
    have ht : K₄.task 0 = some (.idle true ∅ ⟨twoRouted true none⟩) := rfl
    exact two_add ht
  have hok : ∀ e ∈ twoAnnounce true 1 ++ (twoRefresh true 0 ++ []), Promised twoNodes true e ∧
      (Rpc.none : Rpc Bool).Answers e := by
    rw [List.append_nil]
    exact List.forall_mem_append.2 ⟨two_announce_ok true 1, two_refresh_ok true 0⟩
  have hserved : Prog.Served TaskAnswers Prog.alone (twoWritten, dht₁)
      (twoAnnounce true 1 ++ (twoRefresh true 0 ++ [])) (twoWritten, dht₂) := by
    rw [List.append_nil]
    exact Prog.served_append_iff.2 ⟨_, two_served_announce true rfl,
      two_served_refresh true 0 (List.mem_cons_of_mem _ List.mem_cons_self)⟩
  have h₆ : Run (Cluster.Step twoNodes) K₅ _ K₆ := Cluster.run_method .push rfl
    (exec_push_informed true 1 0) hserved (fun e he => (hok e he).1) fun e he => (hok e he).2
  have h₇ : Cluster.Step twoNodes K₆ none K₇ := .clone 0 2 rfl rfl
  -- `false` adds `true`, and pulls
  have h₈ : Cluster.Step twoNodes K₇ none K₈ := two_add rfl
  obtain ⟨ls, h₉, hls⟩ : ∃ ls, Run (Cluster.Step twoNodes) K₈ ls K₉ ∧
      ls.flatMap Option.toList = [.merge false [1]] :=
    Cluster.run_method_appCall (.pull "peer") rfl
      (exec_pull_two rfl (two_decodeReply ⟨[1], twoWritten.select 0⟩))
      (Prog.served_append_iff.2 ⟨_, two_served_refresh false 1 List.mem_cons_self,
        two_served_before dht₂⟩) (two_served_merge dht₂)
      (fun e he => (two_pull_ok e he).1) (fun e he => (two_pull_ok e he).2)
      (u := 2) rfl (by decide) two_responderFor (exec_respond_two (by decide)) (by decide)
      (fun e he => (two_serving_ok e he).1) fun e he => (two_serving_ok e he).2
  refine ⟨_, K₉, (Run.snoc .nil h₁).snoc h₂ |>.trans h₃ |>.snoc h₄ |>.snoc h₅ |>.trans h₆
    |>.snoc h₇ |>.snoc h₈ |>.trans h₉, ?_, rfl, rfl⟩
  simp only [List.flatMap_append, hls]
  rfl

theorem two_injective : Function.Injective twoNodes.dhtKey ∧ Function.Injective twoNodes.site :=
  ⟨fun a b h => by cases a <;> cases b <;> simp_all [twoNodes, twoKey],
    fun a b h => by cases a <;> cases b <;> simp_all [twoNodes]⟩

theorem cluster_refines_one_pull : ∃ ls K ks σ,
    Run (Cluster.Step twoNodes) (Cluster.init twoNodes) ls K ∧
      Run (Net.Step fun _ => True) (Net.init twoNodes.site) ks σ ∧
      ls.flatMap Option.toList = [.write true, .merge false [1]] ∧
      ks.flatMap (Action.deeds twoNodes) = [.write true, .merge false [1]] ∧ σ.db = K.db ∧
      (σ.db false).view ⟨"t", [], "x"⟩ = ((⟨1, 1, .null⟩ : CellData) : WithBot CellData) := by
  obtain ⟨ls, K, hr, hls, -, hdb⟩ := two_run
  obtain ⟨ks, σ, hks, hdeeds, hσ⟩ := cluster_refines plainCrypto_lawful plainCapnp_lawful
    two_lawful two_injective.1 two_injective.2 hr
  exact ⟨ls, K, ks, σ, hr, hks, hls, hdeeds.trans hls, hσ, by rw [hσ, hdb, two_view]⟩

theorem cluster_delivers_one_pull : ∃ ls K ks τ,
    Run (Cluster.Step twoNodes) (Cluster.init twoNodes) ls K ∧
      Run (WriteLog.Step WriteLog.Newer) WriteLog.empty ks τ ∧
      ls.flatMap Option.toList = [.write true, .merge false [1]] ∧
      (ks.flatMap WriteAction.traffic).map (Traffic.deed twoNodes.site) =
        [.write true, .merge false [1]] ∧
      (K.db false).view = τ.held false ∧ K.db false = twoMerged := by
  obtain ⟨ls, K, hr, hls, -, hdb⟩ := two_run
  obtain ⟨ks, τ, hks, hdeeds, hview, -⟩ := cluster_delivers plainCrypto_lawful
    plainCapnp_lawful two_lawful two_injective.1 two_injective.2 hr
  exact ⟨ls, K, ks, τ, hr, hks, hls, hdeeds.trans hls, hview false, hdb⟩

theorem cluster_agrees_one_pull : ∃ ls K,
    Run (Cluster.Step twoNodes) (Cluster.init twoNodes) ls K ∧
      ls.flatMap Option.toList = [.write true, .merge false [1]] ∧
      (K.db true).LocalRow ⟨"t", [], "x"⟩ ⟨⟨1, 1, .null⟩, 1, 0, none⟩ ∧
      (K.db false).trackedPeerVersion (K.db true).siteId = 1 ∧
      ((⟨1, 1, .null⟩ : CellData) : WithBot CellData) ≤ (K.db false).view ⟨"t", [], "x"⟩ := by
  obtain ⟨ls, K, hr, hls, hwritten, hmerged⟩ := two_run
  have hrow : (K.db true).LocalRow ⟨"t", [], "x"⟩ ⟨⟨1, 1, .null⟩, 1, 0, none⟩ := by
    rw [hwritten]
    exact ⟨rfl, rfl⟩
  have hcursor : (K.db false).trackedPeerVersion (K.db true).siteId = 1 := by
    rw [hwritten, hmerged]
    decide
  refine ⟨ls, K, hr, hls, hrow, hcursor, (cluster_agrees plainCrypto_lawful plainCapnp_lawful
    two_lawful two_injective.1 two_injective.2 hr).1 false true _ _ hrow ?_⟩
  rw [hcursor]

end Example

end Ddcp
