import Ddcp.Ident.Recovery
import Ddcp.Ident.Remotes
import Ddcp.Proto.Builder

set_option autoImplicit false

/-! # How two nodes come to know each other

A user gives a node the address of another (`remote_add`), the other announces a status with its
public key, and a refresh reads that status into the node's entry for it. Between these the node
does anything else: other commands, announcements, refreshes that fail, restarts. What is needed
later, an entry with the key of the other (`HasRemote`) that knows a status it has announced
(`Knows`), comes from the last `remote_add` and the last refresh that tell. -/

namespace Ddcp

open Method Lts

/-! ## What a refresh tells -/

section Refresh
variable [Capnp]

/-- How a refresh can end: with what was known before, without a status, or with one that it has
    read, and then with a route unless it fails. -/
def Peer.Told (p : Peer) (tr : List Event) (r : Except Abort (Option NodeStatus)) (p' : Peer) :
    Prop :=
  ((∃ e, r = .error e) ∧ p'.nodeStatus = p.nodeStatus ∧ p'.routeId = p.routeId) ∨ r = .ok none ∨
  ∃ data status, ⟨.veilid (.getDhtValue p.dhtKey DHT_SUBKEY_STATUS true), .ok (some data)⟩ ∈ tr ∧
    decode NodeStatus data = .ok status ∧ p'.nodeStatus = some status ∧
    ((∃ e, r = .error e) ∧ p'.routeId = p.routeId ∨ r = .ok (some status) ∧ p'.routeId.isSome)

theorem Peer.exec_readStatus {p p' : Peer} {tr : List Event}
    {r : Except Abort (Option NodeStatus)} (h : Exec (Peer.readStatus p.dhtKey) p tr r p') :
    p.Told tr r p' := by
  rcases Act.exec_veilid_bind_iff.1 h with ⟨e, rfl, rfl, rfl⟩ | ⟨value, tr₁, rfl, h₁⟩
  · exact Or.inl ⟨⟨_, rfl⟩, rfl, rfl⟩
  cases value with
  | none =>
      have h₂ := exec_modify_bind_iff.1 h₁
      obtain ⟨_, hr, _⟩ := exec_pure_iff.1 h₂
      exact Or.inr (Or.inl hr)
  | some data =>
      rw [Peer.cacheStatus] at h₁
      cases hdecode : decode NodeStatus data with
      | error e =>
          rw [hdecode] at h₁
          obtain ⟨rfl, rfl, rfl⟩ := exec_throw_iff.1 h₁
          exact Or.inl ⟨⟨_, rfl⟩, rfl, rfl⟩
      | ok status =>
          rw [hdecode] at h₁
          have h₂ : Exec ((Act.veilid (.importRemotePrivateRoute status.route) >>= fun routeId =>
              modify fun p => { p with routeId := some routeId }) >>= fun _ =>
              get >>= fun p => pure p.nodeStatus : Act Peer (Option NodeStatus))
              { p with nodeStatus := some status } tr₁ r p' := h₁
          rw [bind_assoc] at h₂
          refine Or.inr (Or.inr ⟨data, status, List.mem_cons_self, hdecode, ?_⟩)
          rcases Act.exec_veilid_bind_iff.1 h₂ with ⟨e, rfl, rfl, rfl⟩ | ⟨routeId, tr₂, rfl, h₃⟩
          · exact ⟨rfl, Or.inl ⟨⟨_, rfl⟩, rfl⟩⟩
          · have h₄ := exec_get_bind_iff.1 (exec_modify_bind_iff.1 h₃)
            obtain ⟨_, rfl, rfl⟩ := exec_pure_iff.1 h₄
            exact ⟨rfl, Or.inr ⟨rfl, rfl⟩⟩

theorem Peer.exec_refresh_told {p p' : Peer} {tr : List Event}
    {r : Except Abort (Option NodeStatus)} (h : Exec Peer.refresh p tr r p') : p.Told tr r p' := by
  have hreopen : ∀ {tr}, Exec (Peer.reopen p.dhtKey) p tr r p' → p.Told tr r p' := by
    intro tr h
    rcases Act.exec_veilid_bind_iff.1 h with ⟨e, rfl, rfl, rfl⟩ | ⟨dht, tr', rfl, h₁⟩
    · exact Or.inl ⟨⟨_, rfl⟩, rfl, rfl⟩
    have hread : Peer.Told { p with dht := some dht } tr' r p' :=
      Peer.exec_readStatus (exec_modify_bind_iff.1 h₁)
    exact hread.imp_right (Or.imp_right fun ⟨data, status, hmem, hrest⟩ =>
      ⟨data, status, List.mem_cons_of_mem _ hmem, hrest⟩)
  rw [Peer.refresh_eq] at h
  have hclose := exec_get_bind_iff.1 h
  cases hp : p.dht with
  | none =>
      rw [hp] at hclose
      exact hreopen hclose
  | some dht =>
      rw [hp] at hclose
      rcases Act.exec_veilid_bind_iff.1 hclose with ⟨e, rfl, rfl, rfl⟩ | ⟨⟨⟩, tr', rfl, hrest⟩
      · exact Or.inl ⟨⟨_, rfl⟩, rfl, rfl⟩
      · exact (hreopen hrest).imp_right (Or.imp_right fun ⟨data, status, hmem, hrest⟩ =>
          ⟨data, status, List.mem_cons_of_mem _ hmem, hrest⟩)

end Refresh

/-! ## Names -/

/-- Every entry of the map is under its own name. -/
def Peer.OwnNames (remotes : AList fun _ : String => Peer) : Prop :=
  ∀ name p, remotes.lookup name = some p → p.name = name

namespace Peer.OwnNames
variable {remotes : AList fun _ : String => Peer}

theorem insert (h : OwnNames remotes) (p : Peer) : OwnNames (remotes.insert p.name p) := by
  intro name q hq
  by_cases hn : name = p.name
  · subst hn
    rw [AList.lookup_insert] at hq
    obtain rfl := Option.some.inj hq
    rfl
  · rw [AList.lookup_insert_ne hn] at hq
    exact h name q hq

theorem erase (h : OwnNames remotes) (name : String) : OwnNames (remotes.erase name) := by
  intro other p hp
  by_cases hn : other = name
  · subst hn
    rw [AList.lookup_erase] at hp
    exact absurd hp (by simp)
  · rw [AList.lookup_erase_ne hn] at hp
    exact h other p hp

theorem replace (h : OwnNames remotes) {name : String} {p p' : Peer}
    (hp : remotes.lookup name = some p) (hname : p'.name = p.name) :
    OwnNames (remotes.replace name p') := by
  intro other q hq
  by_cases hn : other = name
  · subst hn
    rw [AList.lookup_replace_self (AList.lookup_isSome.1 (by rw [hp]; rfl))] at hq
    obtain rfl := Option.some.inj hq
    rw [hname, h other p hp]
  · rw [AList.lookup_replace_ne hn] at hq
    exact h other q hq

end Peer.OwnNames

/-! ## A node and the other -/

section Members
variable [Capnp] [CryptoSystem] (InLimits : Obj → Prop)

/-- What an announcement of the other writes (`exec_announce`), when it can be read back. -/
def Sovereign.Announced (other : Sovereign) (data : Bytes) : Prop :=
  ∃ status route, data = encode (other.nodeStatus status route) ∧
    InLimits (other.nodeStatus status route).toObj

/-- What is read from the record of the other has been announced by it. -/
def ReadsAnnounced (other : Sovereign) (e : Event) : Prop :=
  ∀ data, e = ⟨.veilid (.getDhtValue other.dhtKey DHT_SUBKEY_STATUS true), .ok (some data)⟩ →
    other.Announced InLimits data

/-- What is stored at a node, and its process, if one has started. -/
structure Member where
  world : StoreWorld
  conclave : Option Conclave

inductive MemberAction where
  | restart (r : Except Error Conclave)
  | add (name addr : String) (r : Except Error Unit)
  | remove (name : String) (r : Except Error Bool)
  | announce (status : Status)
  | routeChange
  | refresh (name : String) (r : Except Abort (Option (Option NodeStatus)))

/-- What a node does; only the record of the other reads as it should, anything may fail. -/
inductive Member.Step (other : Sovereign) : Member → MemberAction → Member → Prop
  | restart {m : Member} {faults : StoreWorld.Faults} {tr : List IdentEvent}
      {r : Except Error Conclave} {world' : StoreWorld} (hx : Exec Conclave.new () tr r ())
      (hw : Prog.Served (StoreWorld.Answers faults) Prog.alone m.world tr world') :
      Step other m (.restart r) ⟨world', r.toOption⟩
  | add {m : Member} {faults : StoreWorld.Faults} {c c' : Conclave} {name addr : String}
      {tr : List IdentEvent} {r : Except Error Unit} {world' : StoreWorld}
      (hm : m.conclave = some c) (hx : Exec (remoteAdd name addr) c tr r c')
      (hw : Prog.Served (StoreWorld.Answers faults) Prog.alone m.world tr world') :
      Step other m (.add name addr r) ⟨world', some c'⟩
  | remove {m : Member} {faults : StoreWorld.Faults} {c c' : Conclave} {name : String}
      {tr : List IdentEvent} {r : Except Error Bool} {world' : StoreWorld}
      (hm : m.conclave = some c) (hx : Exec (remoteRemove name) c tr r c')
      (hw : Prog.Served (StoreWorld.Answers faults) Prog.alone m.world tr world') :
      Step other m (.remove name r) ⟨world', some c'⟩
  | announce {m : Member} {c c' : Conclave} {status : Status} {tr : List Event}
      {r : Except Abort Unit} (hm : m.conclave = some c)
      (hx : Exec (Conclave.onSovereign (Sovereign.announce status)) c tr r c') :
      Step other m (.announce status) ⟨m.world, some c'⟩
  | routeChange {m : Member} {c c' : Conclave} {tr : List Event} {r : Except Abort Unit}
      (hm : m.conclave = some c)
      (hx : Exec (Conclave.onSovereign Sovereign.releaseRoute) c tr r c') :
      Step other m .routeChange ⟨m.world, some c'⟩
  | refresh {m : Member} {c c' : Conclave} {name : String} {tr : List Event}
      {r : Except Abort (Option (Option NodeStatus))} (hm : m.conclave = some c)
      (hx : Exec (Conclave.onPeer name Peer.refresh) c tr r c')
      (hreads : ∀ e ∈ tr, ReadsAnnounced InLimits other e) :
      Step other m (.refresh name r) ⟨m.world, some c'⟩

/-- The action is about the entry of a name. -/
def MemberAction.Touches (name : String) : MemberAction → Prop
  | .add other _ _ => other = name
  | .remove other _ => other = name
  | _ => False

/-- After the action, the entry of a name need not know a status any more. -/
def MemberAction.Forgets (name : String) : MemberAction → Prop
  | .restart _ => True
  | .refresh other r => other = name ∧ r = .ok (some none)
  | l => l.Touches name

/-- The last command about a name has added it, with the given address. -/
def Added (ls : List MemberAction) (name addr : String) : Prop :=
  ∃ ls₁ ls₂, ls = ls₁ ++ .add name addr (.ok ()) :: ls₂ ∧ ∀ l ∈ ls₂, ¬ l.Touches name

/-- A refresh has read a status of the peer, and nothing since has lost it. -/
def Refreshed (ls : List MemberAction) (name : String) : Prop :=
  ∃ ls₁ status ls₂, ls = ls₁ ++ .refresh name (.ok (some (some status))) :: ls₂ ∧
    ∀ l ∈ ls₂, ¬ l.Forgets name

/-- The entry for a name has the key, in the table and in the process. -/
structure Member.HasRemote (name : String) (key : TypedKey) (m : Member) : Prop where
  world : m.world.remote (asBytes name) = some (.typedKey key)
  conclave : ∀ c, m.conclave = some c → (c.remotes.lookup name).map Peer.dhtKey = some key

/-- The entry has a route and a status, one that the other has announced if it is the other's. -/
def Conclave.Knows (other : Sovereign) (name : String) (c : Conclave) : Prop :=
  ∃ p status, c.remotes.lookup name = some p ∧ p.nodeStatus = some status ∧ p.routeId.isSome ∧
    (p.dhtKey = other.dhtKey → status.key = CryptoSystem.keyToString other.authKey)

variable {InLimits} {other : Sovereign} {m m' : Member} {l : MemberAction} {name : String}
  {key : TypedKey}

/-- What the other has announced decodes to a status with its public key. -/
theorem Sovereign.Announced.key_eq (hc : Capnp.ReadsBack InLimits) {data : Bytes}
    (h : other.Announced InLimits data) {status : NodeStatus}
    (hdecode : decode NodeStatus data = .ok status) :
    status.key = CryptoSystem.keyToString other.authKey := by
  obtain ⟨st, route, rfl, hin⟩ := h
  have hback := hc.decode_of_tree (x := other.nodeStatus st route) (NodeStatus.ofObj_toObj _) hin
  obtain rfl := Except.ok.inj (hdecode.symm.trans hback)
  rfl

omit [Capnp] [CryptoSystem] in
theorem Member.HasRemote.of_put {other : String} {w : StoreWorld} {c c' : Conclave}
    (h : Member.HasRemote name key ⟨w, some c⟩) (hne : name ≠ other) (value : Option TypedKey)
    (hc' : c'.remotes.lookup name = c.remotes.lookup name) :
    Member.HasRemote name key ⟨w.putRemote other value, some c'⟩ where
  world := (StoreWorld.remote_putRemote_of_ne (fun he => hne (asBytes_injective he)) _).trans h.world
  conclave d hd := by
    obtain rfl := Option.some.inj hd
    rw [hc']
    exact h.conclave c rfl

/-- What an action does to the names of the map, and to the entry of a name it does not touch. -/
theorem Member.Step.remotes (hs : m.Step InLimits other l m')
    (hown : ∀ c, m.conclave = some c → Peer.OwnNames c.remotes) :
    (∀ c, m'.conclave = some c → Peer.OwnNames c.remotes) ∧
    ∀ name key, m.HasRemote name key → ¬ l.Touches name → m'.HasRemote name key := by
  cases hs with
  | @restart faults tr r world' hx hw =>
      obtain ⟨hsame, hnew⟩ := Conclave.keeps_new_remotes.exec hx hw
      have hr : ∀ c, r.toOption = some c → r = .ok c := fun c hc => by
        cases r with
        | ok c' => exact congrArg _ (Option.some.inj hc)
        | error e => exact absurd hc (by simp [Except.toOption])
      refine ⟨fun c hc name p hp => ((hnew c (hr c hc)).within name p hp).1,
        fun name key h _ => ⟨?_, fun c hc => ?_⟩⟩
      · exact (congrFun (congrFun hsame _) _).trans h.world
      · exact (hnew c (hr c hc)).lookup h.world
  | @add faults c c' name' addr tr r world' hm hx hw =>
      obtain ⟨world, _⟩ := m
      obtain rfl := hm
      rcases ((keeps_remoteAdd name' addr c).exec hx hw).2 with
        ⟨key', _, _, rfl, rfl⟩ | ⟨_, _, _, rfl, rfl⟩ | ⟨_, _, rfl, hworld⟩
      · refine ⟨fun d hd => ?_, fun name key h hne => ?_⟩
        · obtain rfl := Option.some.inj hd
          exact (hown c rfl).insert ⟨name', key', none, none, none⟩
        · exact h.of_put (fun he => hne he.symm) _ (AList.lookup_insert_ne fun he => hne he.symm)
      · exact ⟨hown, fun name key h _ => h⟩
      · refine ⟨hown, fun name key h hne => ?_⟩
        rcases hworld with rfl | ⟨key', rfl⟩
        · exact h
        · exact h.of_put (fun he => hne he.symm) _ rfl
  | @remove faults c c' name' tr r world' hm hx hw =>
      obtain ⟨world, _⟩ := m
      obtain rfl := hm
      -- the entry leaves the map whether or not it leaves the table
      have hremove : (c' = c ∧ world' = world) ∨ ∃ p, c.remotes.lookup name' = some p ∧
          c'.remotes = c.remotes.erase name' ∧
          (world' = world ∨ world' = world.putRemote p.name none) := by
        rcases ((keeps_remoteRemove name' c).exec hx hw).2 with
          ⟨p, hp, _, rfl, hworld⟩ | ⟨_, _, rfl, rfl⟩ | ⟨_, _, p, hp, rfl, hworld⟩
        · exact Or.inr ⟨p, hp, rfl, Or.inr hworld⟩
        · exact Or.inl ⟨rfl, rfl⟩
        · exact Or.inr ⟨p, hp, rfl, hworld⟩
      rcases hremove with ⟨rfl, rfl⟩ | ⟨p, hp, hremotes, hworld⟩
      · exact ⟨hown, fun name key h _ => h⟩
      · have hname : p.name = name' := hown c rfl name' p hp
        refine ⟨fun d hd => ?_, fun name key h hne => ?_⟩
        · obtain rfl := Option.some.inj hd
          exact hremotes ▸ (hown c rfl).erase name'
        · have hlookup : c'.remotes.lookup name = c.remotes.lookup name := by
            rw [hremotes]
            exact AList.lookup_erase_ne fun he => hne he.symm
          rcases hworld with rfl | rfl
          · exact ⟨h.world, fun d hd => by
              obtain rfl := Option.some.inj hd
              exact hlookup ▸ h.conclave c rfl⟩
          · exact h.of_put (fun he => hne (hname ▸ he.symm)) _ hlookup
  | @announce c c' status tr r hm hx =>
      obtain ⟨world, _⟩ := m
      obtain rfl := hm
      obtain ⟨sovereign, _, rfl⟩ := exec_zoom_iff.1 hx
      exact ⟨fun d hd => Option.some.inj hd ▸ hown c rfl, fun name key h _ => ⟨h.world, fun d hd =>
        Option.some.inj hd ▸ h.conclave c rfl⟩⟩
  | @routeChange c c' tr r hm hx =>
      obtain ⟨world, _⟩ := m
      obtain rfl := hm
      obtain ⟨sovereign, _, rfl⟩ := exec_zoom_iff.1 hx
      exact ⟨fun d hd => Option.some.inj hd ▸ hown c rfl, fun name key h _ => ⟨h.world, fun d hd =>
        Option.some.inj hd ▸ h.conclave c rfl⟩⟩
  | @refresh c c' name' tr r hm hx hreads =>
      obtain ⟨world, _⟩ := m
      obtain rfl := hm
      refine ⟨fun d hd => ?_, fun name key h _ => ⟨h.world, fun d hd => ?_⟩⟩
      · obtain rfl := Option.some.inj hd
        rcases exec_onPeer hx with ⟨_, _, _, rfl⟩ | ⟨p, p', r', hp, hrefresh, _, rfl⟩
        · exact hown _ rfl
        · obtain ⟨hkeep, _⟩ := within_peer_refresh _ _ _ _ hrefresh
          exact (hown c rfl).replace hp (congrArg Prod.fst hkeep)
      · obtain rfl := Option.some.inj hd
        rw [(exec_onPeer_refresh hx).2.2 name]
        exact h.conclave c rfl

/-- What an action that forgets nothing does to an entry that knows a status. -/
theorem Member.Step.knows (hc : Capnp.ReadsBack InLimits) (hs : m.Step InLimits other l m')
    (hkeep : ¬ l.Forgets name) (h : ∀ c, m.conclave = some c → c.Knows other name) :
    ∀ c, m'.conclave = some c → c.Knows other name := by
  cases hs with
  | restart hx hw => exact absurd trivial hkeep
  | @add faults c c' name' addr tr r world' hm hx hw =>
      intro d hd
      obtain rfl := Option.some.inj hd
      obtain ⟨p, status, hp, hrest⟩ := h c hm
      have hne : name ≠ name' := fun he => hkeep he.symm
      rcases ((keeps_remoteAdd name' addr c).exec hx hw).2 with
        ⟨key', _, _, rfl, _⟩ | ⟨_, _, _, rfl, _⟩ | ⟨_, _, rfl, _⟩
      · exact ⟨p, status, (AList.lookup_insert_ne hne).trans hp, hrest⟩
      · exact ⟨p, status, hp, hrest⟩
      · exact ⟨p, status, hp, hrest⟩
  | @remove faults c c' name' tr r world' hm hx hw =>
      intro d hd
      obtain rfl := Option.some.inj hd
      obtain ⟨p, status, hp, hrest⟩ := h c hm
      have hne : name ≠ name' := fun he => hkeep he.symm
      rcases ((keeps_remoteRemove name' c).exec hx hw).2 with
        ⟨_, _, _, rfl, _⟩ | ⟨_, _, rfl, _⟩ | ⟨_, _, _, _, rfl, _⟩
      · exact ⟨p, status, (AList.lookup_erase_ne hne).trans hp, hrest⟩
      · exact ⟨p, status, hp, hrest⟩
      · exact ⟨p, status, (AList.lookup_erase_ne hne).trans hp, hrest⟩
  | announce hm hx =>
      intro d hd
      obtain rfl := Option.some.inj hd
      obtain ⟨sovereign, _, rfl⟩ := exec_zoom_iff.1 hx
      have hknows := h _ hm
      exact hknows
  | routeChange hm hx =>
      intro d hd
      obtain rfl := Option.some.inj hd
      obtain ⟨sovereign, _, rfl⟩ := exec_zoom_iff.1 hx
      have hknows := h _ hm
      exact hknows
  | @refresh c c' name' tr r hm hx hreads =>
      intro d hd
      obtain rfl := Option.some.inj hd
      obtain ⟨p, status, hp, hstatus, hroute, hkey⟩ := h c hm
      rcases exec_onPeer hx with ⟨_, _, _, rfl⟩ | ⟨q, q', r', hq, hrefresh, rfl, rfl⟩
      · exact ⟨p, status, hp, hstatus, hroute, hkey⟩
      by_cases hn : name = name'
      swap
      · exact ⟨p, status, (AList.lookup_replace_ne hn).trans hp, hstatus, hroute, hkey⟩
      -- a refresh of the entry itself, which does not end without a status
      subst hn
      obtain rfl : p = q := Option.some.inj (hp.symm.trans hq)
      have hlookup : (c.remotes.replace name q').lookup name = some q' :=
        AList.lookup_replace_self (AList.lookup_isSome.1 (by rw [hp]; rfl))
      obtain ⟨hsame, _⟩ := within_peer_refresh _ _ _ _ hrefresh
      have hdht : q'.dhtKey = p.dhtKey := congrArg Prod.snd hsame
      rcases Peer.exec_refresh_told hrefresh with
        ⟨_, hstatus', hroute'⟩ | rfl | ⟨data, status', hmem, hdecode, hstatus', hend⟩
      · exact ⟨q', status, hlookup, hstatus'.trans hstatus, hroute' ▸ hroute, hdht ▸ hkey⟩
      · exact absurd ⟨rfl, rfl⟩ hkeep
      · refine ⟨q', status', hlookup, hstatus', ?_, fun he => ?_⟩
        · exact hend.elim (fun h => h.2 ▸ hroute) fun h => h.2
        · rw [hdht] at he
          rw [he] at hmem
          exact (hreads _ hmem data rfl).key_eq hc hdecode

/-- A refresh that has read a status. -/
theorem Member.Step.knows_of_refresh (hc : Capnp.ReadsBack InLimits) {status : NodeStatus}
    (hs : m.Step InLimits other (.refresh name (.ok (some (some status)))) m') :
    ∀ c, m'.conclave = some c → c.Knows other name := by
  cases hs with
  | @refresh c c' _ tr _ hm hx hreads =>
      intro d hd
      obtain rfl := Option.some.inj hd
      rcases exec_onPeer hx with ⟨_, _, hr, _⟩ | ⟨p, p', r', hp, hrefresh, hr, rfl⟩
      · exact absurd hr (by simp)
      obtain rfl : r' = .ok (some status) := by
        cases r' with
        | ok o => exact congrArg _ (Option.some.inj (Except.ok.inj hr)).symm
        | error e => exact absurd hr (by simp [Except.map])
      have hlookup : (c.remotes.replace name p').lookup name = some p' :=
        AList.lookup_replace_self (AList.lookup_isSome.1 (by rw [hp]; rfl))
      obtain ⟨hsame, _⟩ := within_peer_refresh _ _ _ _ hrefresh
      have hdht : p'.dhtKey = p.dhtKey := congrArg Prod.snd hsame
      rcases Peer.exec_refresh_told hrefresh with
        ⟨⟨_, he⟩, _⟩ | hr' | ⟨data, status', hmem, hdecode, hstatus', ⟨⟨_, he⟩, _⟩ | ⟨hr', hroute⟩⟩
      · exact absurd he (by simp)
      · exact absurd hr' (by simp)
      · exact absurd he (by simp)
      · refine ⟨p', status', hlookup, hstatus', hroute, fun he => ?_⟩
        rw [hdht] at he
        rw [he] at hmem
        exact (hreads _ hmem data rfl).key_eq hc hdecode

section Runs
variable {world₀ : StoreWorld} {ls : List MemberAction}

/-- **What `remote_add` leaves**: the key of the address, until the next command about the name. -/
theorem Added.hasRemote {addr : String} (h : Added ls name addr)
    (haddr : CryptoSystem.keyFromStr addr = .ok key)
    (hr : Run (Member.Step InLimits other) ⟨world₀, none⟩ ls m) : m.HasRemote name key := by
  obtain ⟨ls₁, ls₂, rfl, hlast⟩ := h
  obtain ⟨m₁, m₂, hr₁, hs, hr₂⟩ := hr.split_at
  have hown : ∀ c, m₁.conclave = some c → Peer.OwnNames c.remotes :=
    hr₁.invariant (I := fun m => ∀ c, m.conclave = some c → Peer.OwnNames c.remotes)
      (fun c hc => absurd hc (by simp)) fun m l m' h hs => (hs.remotes h).1
  have hown₂ := (hs.remotes hown).1
  have hadded : m₂.HasRemote name key := by
    cases hs with
    | add hm hx hw =>
        rcases ((keeps_remoteAdd name addr _).exec hx hw).2 with
          ⟨key', haddr', _, rfl, rfl⟩ | ⟨_, _, he, _⟩ | ⟨_, ⟨_, he⟩, _⟩
        · obtain rfl := Except.ok.inj (haddr.symm.trans haddr')
          refine ⟨StoreWorld.remote_putRemote_self name _, fun d hd => ?_⟩
          obtain rfl := Option.some.inj hd
          rw [AList.lookup_insert]
          rfl
        · exact absurd he (by simp)
        · exact absurd he (by simp)
  have hinv := hr₂.invariant_of_mem (I := fun m => (∀ c, m.conclave = some c →
    Peer.OwnNames c.remotes) ∧ m.HasRemote name key) ⟨hown₂, hadded⟩ fun m l m' hl h hs => by
      obtain ⟨hown', hstays⟩ := hs.remotes h.1
      exact ⟨hown', hstays name key h.2 (hlast l hl)⟩
  exact hinv.2

/-- **What a refresh leaves**: a status that the peer has announced, and a route. -/
theorem Refreshed.knows (hc : Capnp.ReadsBack InLimits) (h : Refreshed ls name)
    (hr : Run (Member.Step InLimits other) ⟨world₀, none⟩ ls m) :
    ∀ c, m.conclave = some c → c.Knows other name := by
  obtain ⟨ls₁, status, ls₂, rfl, hlast⟩ := h
  obtain ⟨m₁, m₂, _, hs, hr₂⟩ := hr.split_at
  exact hr₂.invariant_of_mem (I := fun m => ∀ c, m.conclave = some c → c.Knows other name)
    (hs.knows_of_refresh hc) fun m l m' hl h hs => hs.knows hc (hlast l hl) h

end Runs

end Members

end Ddcp
