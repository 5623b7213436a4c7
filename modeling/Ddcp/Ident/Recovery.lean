import Ddcp.Ident.Proofs
import Ddcp.Lib.Crash
import Ddcp.Lib.Lts
import Mathlib.Data.Finset.Basic

set_option autoImplicit false

/-! # The handle of a peer and its open record

`refresh_dht` closes the record, opens it and only then replaces the handle; `close` takes the
handle and only then closes the record. So a refresh whose open fails after its close has a handle
of a closed record, which the next refresh fails to close, and the one after that as well; and a
`close` that fails has no handle of a record that is still open. Away from these two the handle is
there exactly when the record is open, and a peer recovers from any number of failed refreshes. -/

namespace Ddcp

open Method Lts

/-! ## What a refresh and a close do -/

namespace Peer
section Programs
variable [Capnp]

/-- The calls that come after the open. -/
def ReadCall : Call → Prop
  | .veilid (.getDhtValue _ _ _) | .veilid (.importRemotePrivateRoute _) => True
  | _ => False

/-- The status that a peer caches. -/
def cacheStatus : Option Bytes → Act Peer Unit
  | some data => do
      let status ← Act.lift ((decode NodeStatus data).mapError fun e => .err (.protocol e))
      modify fun p => { p with nodeStatus := some status }
  | none => modify fun p => { p with nodeStatus := none }

/-- What a refresh does once it has the new handle. -/
def readStatus (key : TypedKey) : Act Peer (Option NodeStatus) := do
  let value ← Act.veilid (.getDhtValue key DHT_SUBKEY_STATUS true)
  cacheStatus value
  refreshRoute
  return (← get).nodeStatus

/-- What it does once it has closed the old one. -/
def reopen (key : TypedKey) : Act Peer (Option NodeStatus) := do
  let dht ← Act.veilid (.openDhtRecord key none)
  modify fun p => { p with dht := some dht }
  readStatus key

theorem refresh_eq :
    refresh = get >>= fun p => Act.closeRecord p.dht >>= fun _ => reopen p.dhtKey := by
  unfold refresh refreshDht reopen readStatus
  simp only [bind_assoc]
  refine bind_congr fun p => bind_congr fun _ => bind_congr fun dht => bind_congr fun _ =>
    bind_congr fun value => ?_
  cases value <;> rfl

/-- Past the open, the handle stays. -/
theorem within_readStatus (key : TypedKey) :
    Within (frame (fun p : Peer => (p.dht, p.dhtKey)) ReadCall) (readStatus key) := by
  have hJ := @composable_frame Call Ret Peer _ (fun p : Peer => (p.dht, p.dhtKey)) ReadCall
  have hmodify : ∀ {g : Peer → Peer}, (∀ p, ((g p).dht, (g p).dhtKey) = (p.dht, p.dhtKey)) →
      Within (frame (fun p : Peer => (p.dht, p.dhtKey)) ReadCall) (modify g : Act Peer PUnit) :=
    fun hg => Within.modify fun p => ⟨hg p, fun e he => absurd he (by simp)⟩
  refine Within.bind hJ (frame_veilid trivial) fun value => Within.bind hJ ?_ fun _ =>
    Within.bind hJ ?_ fun _ => (Within.get hJ).bind hJ fun p => Within.pure hJ _
  · cases value with
    | some data => exact (within_lift hJ _).bind hJ fun status => hmodify fun _ => rfl
    | none => exact hmodify fun _ => rfl
  · refine (Within.get hJ).bind hJ fun p => ?_
    split
    · exact Within.bind hJ (frame_veilid trivial) fun routeId => hmodify fun _ => rfl
    · exact Within.pure hJ _

/-- The close that comes first, when there is a handle, and goes well. -/
def closing (p : Peer) : List Event :=
  match p.dht with
  | some dht => [⟨.veilid (.closeDhtRecord dht.key), .ok ()⟩]
  | none => []

omit [Capnp] in
theorem mem_closing {p : Peer} {e : Event} (h : e ∈ p.closing) :
    ∃ key, e = ⟨.veilid (.closeDhtRecord key), .ok ()⟩ := by
  unfold closing at h
  cases hp : p.dht with
  | none => simp [hp] at h
  | some dht => exact ⟨dht.key, by simpa [hp] using h⟩

/-- Where a refresh can end: at the close, at the open, or with the new handle. -/
theorem exec_refresh_cases {p p' : Peer} {tr : List Event} {r : Except Abort (Option NodeStatus)}
    (h : Exec refresh p tr r p') :
    (∃ dht e, p.dht = some dht ∧ p' = p ∧ (∃ err, r = .error err) ∧
      tr = [⟨.veilid (.closeDhtRecord dht.key), .error e⟩]) ∨
    (∃ e, p' = p ∧ (∃ err, r = .error err) ∧
      tr = p.closing ++ [⟨.veilid (.openDhtRecord p.dhtKey none), .error e⟩]) ∨
    ∃ dht rest, p'.dht = some dht ∧ p'.dhtKey = p.dhtKey ∧ (∀ e ∈ rest, ReadCall e.1) ∧
      tr = p.closing ++ ⟨.veilid (.openDhtRecord p.dhtKey none), .ok dht⟩ :: rest := by
  have hreopen : ∀ {tr}, Exec (reopen p.dhtKey) p tr r p' →
      (∃ e, p' = p ∧ (∃ err, r = .error err) ∧
        tr = [⟨.veilid (.openDhtRecord p.dhtKey none), .error e⟩]) ∨
      ∃ dht rest, p'.dht = some dht ∧ p'.dhtKey = p.dhtKey ∧ (∀ e ∈ rest, ReadCall e.1) ∧
        tr = ⟨.veilid (.openDhtRecord p.dhtKey none), .ok dht⟩ :: rest := by
    intro tr h
    rcases Act.exec_veilid_bind_iff.1 h with ⟨e, rfl, rfl, rfl⟩ | ⟨dht, rest, rfl, hread⟩
    · exact Or.inl ⟨e, rfl, ⟨_, rfl⟩, rfl⟩
    · obtain ⟨hkeep, hcalls⟩ := within_readStatus _ _ _ _ _ (exec_modify_bind_iff.1 hread)
      obtain ⟨hdht, hkey⟩ := Prod.mk.inj hkeep
      exact Or.inr ⟨dht, rest, hdht, hkey, hcalls, rfl⟩
  rw [refresh_eq] at h
  have hclose := exec_get_bind_iff.1 h
  unfold closing
  cases hp : p.dht with
  | none =>
      rw [hp] at hclose
      exact Or.inr (hreopen hclose)
  | some dht =>
      rw [hp] at hclose
      rcases Act.exec_veilid_bind_iff.1 hclose with ⟨e, rfl, rfl, rfl⟩ | ⟨⟨⟩, tr', rfl, hrest⟩
      · exact Or.inl ⟨dht, e, rfl, rfl, ⟨_, rfl⟩, rfl⟩
      · rcases hreopen hrest with ⟨e, hpe, hr, rfl⟩ | ⟨dht', rest, hdht, hkey, hcalls, rfl⟩
        · exact Or.inr (Or.inl ⟨e, hpe, hr, rfl⟩)
        · exact Or.inr (Or.inr ⟨dht', rest, hdht, hkey, hcalls, rfl⟩)

end Programs

/-- The handle goes, whatever becomes of the record. -/
theorem exec_close_cases {p p' : Peer} {tr : List Event} {r : Except Abort Unit}
    (h : Exec close p tr r p') :
    p'.dht = none ∧ p'.dhtKey = p.dhtKey ∧
    ((∃ dht e, p.dht = some dht ∧ tr = [⟨.veilid (.closeDhtRecord dht.key), .error e⟩]) ∨
      ∃ rest, tr = p.closing ++ rest ∧
        ∀ e ∈ rest, ∃ routeId, e.1 = .veilid (.releasePrivateRoute routeId)) := by
  -- what follows the close
  have hrelease : ∀ {tr}, Exec (modify (fun p => { p with routeId := none }) >>= fun _ =>
      Act.releaseRoute p.routeId : Act Peer Unit) { p with dht := none } tr r p' →
      p'.dht = none ∧ p'.dhtKey = p.dhtKey ∧
        ∀ e ∈ tr, ∃ routeId, e.1 = .veilid (.releasePrivateRoute routeId) := by
    intro tr h
    have hx := exec_modify_bind_iff.1 h
    cases hroute : p.routeId with
    | none =>
        rw [hroute] at hx
        obtain ⟨rfl, _, rfl⟩ := exec_pure_iff.1 hx
        exact ⟨rfl, rfl, by simp⟩
    | some routeId =>
        rw [hroute] at hx
        obtain ⟨a, rfl, _, rfl⟩ := Act.exec_veilid_iff.1 hx
        exact ⟨rfl, rfl, by simp⟩
  have hclose := exec_modify_bind_iff.1 (exec_get_bind_iff.1 h)
  unfold closing
  cases hp : p.dht with
  | none =>
      rw [hp] at hclose
      obtain ⟨hdht, hkey, hcalls⟩ := hrelease hclose
      exact ⟨hdht, hkey, Or.inr ⟨tr, rfl, hcalls⟩⟩
  | some dht =>
      rw [hp] at hclose
      rcases Act.exec_veilid_bind_iff.1 hclose with ⟨e, rfl, rfl, rfl⟩ | ⟨⟨⟩, tr', rfl, hrest⟩
      · exact ⟨rfl, rfl, Or.inl ⟨dht, e, rfl, rfl⟩⟩
      · obtain ⟨hdht, hkey, hcalls⟩ := hrelease hrest
        exact ⟨hdht, hkey, Or.inr ⟨tr', rfl, hcalls⟩⟩

end Peer

/-! ## The record at the node -/

/-- The records open at the node. Closing one that is not open is an error; a close that fails
    leaves it open, and an open that fails leaves it closed. -/
def RecordAnswers (opened : Finset TypedKey) (e : Event) (opened' : Finset TypedKey) : Prop :=
  match e with
  | ⟨.veilid (.closeDhtRecord key), r⟩ =>
      match (r : Except VeilidAPIError Unit) with
      | .ok () => key ∈ opened ∧ opened' = opened.erase key
      | .error _ => opened' = opened
  | ⟨.veilid (.openDhtRecord key _), r⟩ =>
      match (r : Except VeilidAPIError DHTRecordDescriptor) with
      | .ok dht => dht.key = key ∧ opened' = insert key opened
      | .error _ => opened' = opened.erase key
  | _ => opened' = opened

/-- A peer, and the records of the node it is used at. -/
structure PeerAtNode where
  peer : Peer
  opened : Finset TypedKey

/-- A refresh or a close, with the calls made in it. -/
inductive PeerAction where
  | refresh (tr : List Event)
  | close (tr : List Event)

namespace PeerAtNode

inductive Step [Capnp] : PeerAtNode → PeerAction → PeerAtNode → Prop
  | refresh {σ : PeerAtNode} {tr : List Event} {r : Except Abort (Option NodeStatus)} {p' : Peer}
      {opened' : Finset TypedKey} (hx : Exec Peer.refresh σ.peer tr r p')
      (hw : Prog.Served RecordAnswers Prog.alone σ.opened tr opened') :
      Step σ (.refresh tr) ⟨p', opened'⟩
  | close {σ : PeerAtNode} {tr : List Event} {r : Except Abort Unit} {p' : Peer}
      {opened' : Finset TypedKey} (hx : Exec Peer.close σ.peer tr r p')
      (hw : Prog.Served RecordAnswers Prog.alone σ.opened tr opened') :
      Step σ (.close tr) ⟨p', opened'⟩

/-- The peer has a handle exactly when its record is open. -/
def Synced (σ : PeerAtNode) : Prop := σ.peer.dht.isSome ↔ σ.peer.dhtKey ∈ σ.opened

/-- The handle is one of the peer's record. -/
def OwnHandle (p : Peer) : Prop := ∀ dht, p.dht = some dht → dht.key = p.dhtKey

/-- The steps that keep the two together: a refresh whose open does not fail after the close of a
    handle it had, and a close whose close of the record does not fail. -/
def Keeping (σ : PeerAtNode) : PeerAction → Prop
  | .refresh tr => σ.peer.dht.isSome → ∀ key writer (e : VeilidAPIError),
      (⟨.veilid (.openDhtRecord key writer), .error e⟩ : Event) ∉ tr
  | .close tr => ∀ key (e : VeilidAPIError),
      (⟨.veilid (.closeDhtRecord key), .error e⟩ : Event) ∉ tr

section Step
variable {σ σ' : PeerAtNode} {l : PeerAction} {p : Peer} {opened opened' : Finset TypedKey}
  {tr : List Event}

/-- After the close, if any, the record is not open. -/
theorem served_closing (hown : OwnHandle p) (hsynced : Synced ⟨p, opened⟩)
    (h : Prog.Served RecordAnswers Prog.alone opened p.closing opened') :
    opened' = opened.erase p.dhtKey := by
  unfold Peer.closing at h
  cases hp : p.dht with
  | none =>
      rw [hp] at h
      obtain rfl := Prog.served_alone_nil_iff.1 h
      have hclosed : p.dhtKey ∉ opened' := fun hmem => by simpa [hp] using hsynced.2 hmem
      exact (Finset.erase_eq_of_notMem hclosed).symm
  | some dht =>
      rw [hp] at h
      obtain ⟨_, rfl⟩ := Prog.served_alone_one_iff.1 h
      rw [hown dht hp]

theorem records_of_readCall {e : Event} (he : Peer.ReadCall e.1)
    (h : RecordAnswers opened e opened') : opened' = opened := by
  obtain ⟨c, a⟩ := e
  cases c with
  | veilid c => cases c <;> first | exact he.elim | exact h
  | db c => exact he.elim
  | randomNonce => exact he.elim
  | shutdown => exact he.elim

theorem records_of_releaseRoute {e : Event} (he : ∃ id, e.1 = .veilid (.releasePrivateRoute id))
    (h : RecordAnswers opened e opened') : opened' = opened := by
  obtain ⟨c, a⟩ := e
  obtain ⟨id, rfl⟩ := he
  exact h

/-- What a step does to the two: only one that is not `Keeping` takes them apart. -/
theorem Step.synced_iff [Capnp] (hown : OwnHandle σ.peer) (hsynced : σ.Synced) (h : σ.Step l σ') :
    OwnHandle σ'.peer ∧ (σ'.Synced ↔ σ.Keeping l) := by
  cases h with
  | refresh hx hw =>
      rcases Peer.exec_refresh_cases hx with
        ⟨dht, e, hp, rfl, _, rfl⟩ | ⟨e, rfl, _, rfl⟩ | ⟨dht, rest, hdht, hkey, hcalls, rfl⟩
      · -- the close failed: the record is still open, and the handle there
        obtain rfl := Prog.served_alone_one_iff.1 hw
        exact ⟨hown, fun _ _ => by simp, fun _ => hsynced⟩
      · -- the open failed: the record is closed, and the handle is the old one
        obtain ⟨w₁, hw₁, hw₂⟩ := Prog.served_append_iff.1 hw
        obtain rfl := served_closing hown hsynced hw₁
        obtain rfl := Prog.served_alone_one_iff.1 hw₂
        refine ⟨hown, fun hs hsome => ?_, fun hkeeping => ?_⟩
        · exact absurd (hs.1 hsome) (by simp)
        · refine ⟨fun hsome => ?_, fun hmem => absurd hmem (by simp)⟩
          exact absurd (List.mem_append_right _ List.mem_cons_self) (hkeeping hsome _ _ _)
      · obtain ⟨w₁, hw₁, hw₂⟩ := Prog.served_append_iff.1 hw
        obtain ⟨w₂, ⟨howner, rfl⟩, hw₃⟩ := Prog.served_alone_cons_iff.1 hw₂
        obtain rfl := Prog.alone_iff.1 (hw₃.idle fun e he _ _ => records_of_readCall (hcalls e he))
        refine ⟨fun d hd => ?_, fun _ _ key writer e hmem => ?_, fun _ => ?_⟩
        · obtain rfl := Option.some.inj (hdht.symm.trans hd)
          rw [howner, hkey]
        · -- the one open of the refresh has gone well
          rcases List.mem_append.1 hmem with hmem | hmem
          · obtain ⟨_, he⟩ := Peer.mem_closing hmem
            exact absurd (congrArg Sigma.fst he) (by simp)
          rcases List.mem_cons.1 hmem with he | hmem
          · obtain ⟨hc, he⟩ := Sigma.mk.inj he
            obtain ⟨rfl, rfl⟩ := VeilidCall.openDhtRecord.inj (Call.veilid.inj hc)
            exact absurd (eq_of_heq he) (by simp)
          · exact (hcalls _ hmem).elim
        · exact ⟨fun _ => hkey ▸ Finset.mem_insert_self _ _, fun _ => hdht ▸ rfl⟩
  | close hx hw =>
      obtain ⟨hdht, hkey, hcases⟩ := Peer.exec_close_cases hx
      refine ⟨fun d hd => absurd (hdht.symm.trans hd) (by simp), ?_⟩
      rcases hcases with ⟨dht, e, hp, rfl⟩ | ⟨rest, rfl, hcalls⟩
      · -- the close failed: the record is still open, and the handle gone
        obtain rfl := Prog.served_alone_one_iff.1 hw
        refine ⟨fun hs => ?_, fun hkeeping => absurd List.mem_cons_self (hkeeping _ _)⟩
        have hopen : (PeerAtNode.mk _ _).peer.dht.isSome := hs.2 (hkey ▸ hsynced.1 (hp ▸ rfl))
        exact absurd hopen (by simp [hdht])
      · obtain ⟨w₁, hw₁, hw₂⟩ := Prog.served_append_iff.1 hw
        obtain rfl := served_closing hown hsynced hw₁
        obtain rfl := Prog.alone_iff.1
          (hw₂.idle fun e he _ _ => records_of_releaseRoute (hcalls e he))
        refine ⟨fun _ key e hmem => ?_, fun _ => ?_⟩
        · rcases List.mem_append.1 hmem with hmem | hmem
          · obtain ⟨_, he⟩ := Peer.mem_closing hmem
            obtain ⟨hc, he⟩ := Sigma.mk.inj he
            obtain rfl := VeilidCall.closeDhtRecord.inj (Call.veilid.inj hc)
            exact absurd (eq_of_heq he) (by simp)
          · obtain ⟨_, hc⟩ := hcalls _ hmem
            exact absurd hc (by simp)
        · show _ ↔ _
          rw [hdht, hkey]
          simp

end Step

end PeerAtNode

/-! ## A refresh while the network works -/

/-- The network works and `value` is what is published: open records can be closed and read, any
    record can be opened, and any route imported. -/
def WorkingNetwork (value : TypedKey → Option Bytes) (opened : Finset TypedKey) (e : Event)
    (opened' : Finset TypedKey) : Prop :=
  RecordAnswers opened e opened' ∧
  match e with
  | ⟨.veilid (.closeDhtRecord key), r⟩ => key ∈ opened → r = .ok ()
  | ⟨.veilid (.openDhtRecord _ _), r⟩ => ∃ dht : DHTRecordDescriptor, r = .ok dht
  | ⟨.veilid (.getDhtValue key _ _), r⟩ => key ∈ opened → r = .ok (value key)
  | ⟨.veilid (.importRemotePrivateRoute _), r⟩ => ∃ routeId : RouteId, r = .ok routeId
  | _ => True

/-- The status that a value is, when there is one. -/
def Publishes [Capnp] : Option Bytes → Option NodeStatus → Prop
  | some data, status => ∃ st, decode NodeStatus data = .ok st ∧ status = some st
  | none, status => status = none

section Working
variable {σ α : Type} {s : σ} {value : TypedKey → Option Bytes} {opened : Finset TypedKey}
  {p : Peer} {status : Option NodeStatus}

/-- Any call gets an answer. -/
theorem exists_workingNetwork (opened : Finset TypedKey) (c : Call) :
    ∃ a opened', WorkingNetwork value opened ⟨c, a⟩ opened' := by
  cases c with
  | veilid c =>
      cases c with
      | closeDhtRecord key =>
          by_cases hkey : key ∈ opened
          · exact ⟨.ok (), opened.erase key, ⟨hkey, rfl⟩, fun _ => rfl⟩
          · exact ⟨.error (.generic ""), opened, rfl, fun h => absurd h hkey⟩
      | openDhtRecord key writer => exact ⟨.ok ⟨key⟩, insert key opened, ⟨rfl, rfl⟩, ⟨key⟩, rfl⟩
      | getDhtValue key subkey forceRefresh => exact ⟨.ok (value key), opened, rfl, fun _ => rfl⟩
      | importRemotePrivateRoute blob => exact ⟨.ok blob, opened, rfl, blob, rfl⟩
      | crypto kind => exact ⟨.ok none, opened, rfl, trivial⟩
      | setDhtValue key subkey data => exact ⟨.ok (), opened, rfl, trivial⟩
      | newPrivateRoute => exact ⟨.ok ([], []), opened, rfl, trivial⟩
      | releasePrivateRoute routeId => exact ⟨.ok (), opened, rfl, trivial⟩
      | appCall target message => exact ⟨.ok [], opened, rfl, trivial⟩
      | appCallReply callId message => exact ⟨.ok (), opened, rfl, trivial⟩
  | db c => exact ⟨.error ⟨""⟩, opened, rfl, trivial⟩
  | randomNonce => exact ⟨calmNonce, opened, rfl, trivial⟩
  | shutdown => exact ⟨(), opened, rfl, trivial⟩

/-- A call that does not fail. -/
theorem keeps_veilid_bind {c : VeilidCall} {f : c.Val → Act σ α}
    {Q : Except Abort α → σ → Finset TypedKey → Prop}
    (herr : ∀ (e : VeilidAPIError) opened',
      ¬ WorkingNetwork value opened ⟨.veilid c, .error e⟩ opened')
    (hok : ∀ (v : c.Val) opened', WorkingNetwork value opened ⟨.veilid c, .ok v⟩ opened' →
      Keeps (WorkingNetwork value) (fun _ => True) (f v) s opened' Q) :
    Keeps (WorkingNetwork value) (fun _ => True) (Act.veilid c >>= f) s opened Q := by
  refine ⟨trivial, fun a opened' ha => ?_⟩
  cases a with
  | error e => exact absurd ha (herr e opened')
  | ok v => exact hok v opened' ha

variable [Capnp]

/-- Once the record is open, its status is read, and its route imported. -/
theorem Peer.keeps_readStatus (hopen : p.dhtKey ∈ opened)
    (hpub : Publishes (value p.dhtKey) status) :
    Keeps (WorkingNetwork value) (fun _ => True) (Peer.readStatus p.dhtKey) p opened
      fun r _ _ => r = .ok status := by
  have hcache : Keeps (WorkingNetwork value) (fun _ => True)
      (Peer.cacheStatus (value p.dhtKey)) p opened
      fun r p' _ => r = .ok () ∧ p'.nodeStatus = status := by
    cases hvalue : value p.dhtKey with
    | none =>
        rw [hvalue] at hpub
        obtain rfl : status = none := hpub
        exact Keeps.modify trivial ⟨rfl, rfl⟩
    | some data =>
        rw [hvalue] at hpub
        obtain ⟨st, hdecode, rfl⟩ := hpub
        rw [Peer.cacheStatus, hdecode]
        exact Keeps.modify trivial ⟨rfl, rfl⟩
  have hroute : ∀ (p' : Peer) opened', p'.nodeStatus = status → Keeps (WorkingNetwork value)
      (fun _ => True) Peer.refreshRoute p' opened'
      fun r p'' _ => r = .ok () ∧ p''.nodeStatus = status := by
    intro p' opened' hstatus
    refine Keeps.get_bind ?_
    cases hp : p'.nodeStatus with
    | none => exact Keeps.pure trivial ⟨rfl, hstatus⟩
    | some st =>
        refine keeps_veilid_bind (fun e _ h => absurd h.2 (by simp)) fun routeId _ _ => ?_
        exact Keeps.modify trivial ⟨rfl, hstatus⟩
  refine keeps_veilid_bind (fun e _ h => absurd (h.2 hopen) (by simp)) fun v opened' h => ?_
  obtain rfl : v = value p.dhtKey := Except.ok.inj (h.2 hopen)
  obtain rfl : opened' = opened := h.1
  refine hcache.bind (fun _ p' opened₁ _ h => ?_) fun e _ _ _ h => absurd h.1 (by simp)
  refine (hroute p' opened₁ h.2).bind (fun _ p'' _ _ h => ?_) fun e _ _ _ h => absurd h.1 (by simp)
  exact Keeps.get_bind (Keeps.pure trivial (congrArg _ h.2))

/-- From a state in which handle and record are together, a refresh gets the published status. -/
theorem Peer.keeps_refresh (hown : PeerAtNode.OwnHandle p)
    (hsynced : PeerAtNode.Synced ⟨p, opened⟩) (hpub : Publishes (value p.dhtKey) status) :
    Keeps (WorkingNetwork value) (fun _ => True) Peer.refresh p opened
      fun r _ _ => r = .ok status := by
  have hreopen : ∀ opened, Keeps (WorkingNetwork value) (fun _ => True) (Peer.reopen p.dhtKey) p
      opened fun r _ _ => r = .ok status := by
    intro opened
    refine keeps_veilid_bind (fun e _ h => absurd h.2 (by simp)) fun dht opened' h => ?_
    obtain ⟨⟨_, rfl⟩, _⟩ := h
    exact Keeps.modify_bind (Peer.keeps_readStatus (p := { p with dht := some dht })
      (Finset.mem_insert_self _ _) hpub)
  rw [Peer.refresh_eq]
  refine Keeps.get_bind ?_
  cases hp : p.dht with
  | none => exact hreopen opened
  | some dht =>
      have hopen : dht.key ∈ opened := hown dht hp ▸ hsynced.1 (hp ▸ rfl)
      exact keeps_veilid_bind (fun e _ h => absurd (h.2 hopen) (by simp)) fun _ opened' _ =>
        hreopen opened'

omit [Capnp] in
/-- With a handle of a record that is closed, every refresh fails and changes nothing. -/
theorem PeerAtNode.refresh_stuck [Capnp] {dht : DHTRecordDescriptor} {tr : List Event}
    {r : Except Abort (Option NodeStatus)} {p' : Peer} {opened' : Finset TypedKey}
    (hp : p.dht = some dht) (hclosed : dht.key ∉ opened) (hx : Exec Peer.refresh p tr r p')
    (hw : Prog.Served RecordAnswers Prog.alone opened tr opened') :
    (∃ e, r = .error e) ∧ p' = p ∧ opened' = opened := by
  rw [Peer.refresh_eq] at hx
  have hclose := exec_get_bind_iff.1 hx
  rw [hp] at hclose
  rcases Act.exec_veilid_bind_iff.1 hclose with ⟨e, rfl, rfl, rfl⟩ | ⟨⟨⟩, tr', rfl, hrest⟩
  · exact ⟨⟨_, rfl⟩, rfl, Prog.served_alone_one_iff.1 hw⟩
  · obtain ⟨w₁, ⟨hopen, _⟩, _⟩ := Prog.served_alone_cons_iff.1 hw
    exact absurd hopen hclosed

end Working

/-! ## Runs -/

section Runs
variable [Capnp]

/-- **When a peer recovers.** In every run of refreshes and closes, from a peer that has just been
    loaded, in which no open fails after the close of a handle and no `close` fails to close: the
    peer has a handle exactly when its record is open; that is so after a next step exactly when
    that step keeps the condition; and a refresh during which the network works returns the
    published status, however many have failed before. -/
theorem peer_recovers {p : Peer} {opened : Finset TypedKey} (hp : p.dht = none)
    (hclosed : p.dhtKey ∉ opened) {ls : List PeerAction} {σ : PeerAtNode}
    (hr : Run (guarded PeerAtNode.Step PeerAtNode.Keeping) ⟨p, opened⟩ ls σ) :
    σ.Synced ∧ (∀ l σ', σ.Step l σ' → (σ'.Synced ↔ σ.Keeping l)) ∧
    ∀ value status, Publishes (value σ.peer.dhtKey) status →
      (∃ tr r p' opened', Exec Peer.refresh σ.peer tr r p' ∧
        Prog.Served (WorkingNetwork value) Prog.alone σ.opened tr opened') ∧
      ∀ tr r p' opened', Exec Peer.refresh σ.peer tr r p' →
        Prog.Served (WorkingNetwork value) Prog.alone σ.opened tr opened' → r = .ok status := by
  have hinv : PeerAtNode.OwnHandle σ.peer ∧ σ.Synced := by
    refine hr.invariant (I := fun σ => PeerAtNode.OwnHandle σ.peer ∧ σ.Synced) ⟨?_, ?_⟩ ?_
    · intro dht hdht
      exact absurd (hp.symm.trans hdht) (by simp)
    · exact ⟨fun hsome => absurd hsome (by simp [hp]), fun hmem => absurd hmem hclosed⟩
    · rintro σ l σ' ⟨hown, hsynced⟩ ⟨hkeeping, hs⟩
      obtain ⟨hown', hiff⟩ := hs.synced_iff hown hsynced
      exact ⟨hown', hiff.2 hkeeping⟩
  refine ⟨hinv.2, fun l σ' hs => (hs.synced_iff hinv.1 hinv.2).2, fun value status hpub => ?_⟩
  have hrefresh := Peer.keeps_refresh hinv.1 hinv.2 hpub
  constructor
  · obtain ⟨tr, r, p', opened', hx, hw, _⟩ :=
      hrefresh.exists_exec fun opened c _ => exists_workingNetwork opened c
    exact ⟨tr, r, p', opened', hx, hw⟩
  · intro tr r p' opened' hx hw
    exact (hrefresh.exec hx hw).2

end Runs

section Example
attribute [local instance] plainCapnp

/-- An open that fails after its close: the peer keeps the handle of a closed record, and never gets
    a status again. -/
theorem failed_open_sticks : ∃ (p : Peer) (ls : List PeerAction) (σ : PeerAtNode),
    p.dht = none ∧ Run PeerAtNode.Step ⟨p, ∅⟩ ls σ ∧ ¬ σ.Synced ∧
    ∀ value tr r p' opened', Exec Peer.refresh σ.peer tr r p' →
      Prog.Served (WorkingNetwork value) Prog.alone σ.opened tr opened' → ∃ e, r = .error e := by
  let key : TypedKey := ⟨CRYPTO_KIND_VLD0, [7]⟩
  let p : Peer := ⟨"a", key, none, none, none⟩
  let p₁ : Peer := { p with dht := some ⟨key⟩ }
  have h₁ : PeerAtNode.Step ⟨p, ∅⟩ (.refresh [⟨.veilid (.openDhtRecord key none), .ok ⟨key⟩⟩,
      ⟨.veilid (.getDhtValue key DHT_SUBKEY_STATUS true), .ok none⟩]) ⟨p₁, {key}⟩ :=
    .refresh (.call (.call (.pure _))) (.cons .refl ⟨rfl, rfl⟩ (.cons .refl rfl (.nil .refl)))
  have h₂ : PeerAtNode.Step ⟨p₁, {key}⟩ (.refresh [⟨.veilid (.closeDhtRecord key), .ok ()⟩,
      ⟨.veilid (.openDhtRecord key none), .error .timeout⟩])
      ⟨p₁, (({key} : Finset TypedKey).erase key).erase key⟩ :=
    .refresh (.call (.call (.pure _)))
      (.cons .refl ⟨Finset.mem_singleton_self key, rfl⟩ (.cons .refl rfl (.nil .refl)))
  refine ⟨p, _, _, rfl, .snoc (.snoc .nil h₁) h₂, fun h => absurd (h.1 rfl) (by simp), ?_⟩
  intro value tr r p' opened' hx hw
  exact (PeerAtNode.refresh_stuck rfl (by simp) hx (hw.mono fun _ _ _ h => h.1)).1

/-- The status of a peer whose first refresh has failed when it read the record. -/
theorem peer_recovers_read : ∃ (p : Peer) (ls : List PeerAction) (σ : PeerAtNode)
    (status : NodeStatus) (tr : List Event) (p' : Peer), p.dht = none ∧
    Run PeerAtNode.Step ⟨p, ∅⟩ ls σ ∧ Exec Peer.refresh σ.peer tr (.ok (some status)) p' := by
  let key : TypedKey := ⟨CRYPTO_KIND_VLD0, [7]⟩
  let p : Peer := ⟨"a", key, none, none, none⟩
  let status : NodeStatus := ⟨[1], 1, "key", [9]⟩
  have h₁ : PeerAtNode.Step ⟨p, ∅⟩ (.refresh [⟨.veilid (.openDhtRecord key none), .ok ⟨key⟩⟩,
      ⟨.veilid (.getDhtValue key DHT_SUBKEY_STATUS true), .error .timeout⟩])
      ⟨{ p with dht := some ⟨key⟩ }, {key}⟩ :=
    .refresh (.call (.call (.pure _))) (.cons .refl ⟨rfl, rfl⟩ (.cons .refl rfl (.nil .refl)))
  have hkeeping : PeerAtNode.Keeping ⟨p, ∅⟩ (.refresh
      [⟨.veilid (.openDhtRecord key none), .ok ⟨key⟩⟩,
        ⟨.veilid (.getDhtValue key DHT_SUBKEY_STATUS true), .error .timeout⟩]) := fun hsome =>
    absurd hsome Bool.false_ne_true
  have hr := Run.snoc_guarded .nil h₁ hkeeping
  obtain ⟨⟨tr, r, p', opened', hx, hw⟩, hall⟩ :=
    (peer_recovers (p := p) rfl (by simp) hr).2.2 (fun _ => some (encode status)) (some status)
      ⟨status, plainCapnp_decode_encode status.ofObj_toObj, rfl⟩
  obtain rfl := hall tr r p' opened' hx hw
  exact ⟨p, _, _, status, tr, p', rfl, hr.of_guarded, hx⟩

end Example

end Ddcp
