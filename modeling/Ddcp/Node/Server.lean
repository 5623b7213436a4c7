import Ddcp.Lib.Lts
import Ddcp.Node.Proofs
import Mathlib.Logic.Function.Basic

set_option autoImplicit false

/-! # The server task

The task of `spawn_server` takes its map of peers once, when it starts, and then handles ticks and
updates one after another. `Server.Step` is one of the things it does: announce its status, refresh
one peer, handle an update. A tick (`push`) is an announcement followed by refreshes
(`exec_push_run`); the answers of the environment are arbitrary in every step.

Two fields are there to talk about a run: the log of RouteChanges and calls, and for each peer the
status read by the task's last successful refresh of it. -/

namespace Ddcp

open Method Lts

inductive ServerLog where
  | routeChange
  | call (e : Event)

structure Server where
  ddcp : DDCP
  peerByKey : AList fun _ : String => Peer
  lastRead : String → Option NodeStatus
  log : List ServerLog

inductive ServerAction where
  | announce (tr : List Event)
  | refresh (name : String) (tr : List Event) (r : Except Abort (Option (Option NodeStatus)))
  | update (u : VeilidUpdate) (tr : List Event)

namespace Server

/-- What an update leaves in the log before it is handled. -/
def updateLog : VeilidUpdate → List ServerLog
  | .routeChange => [.routeChange]
  | _ => []

/-- A successful refresh of a known peer sets what was last read of it. -/
def readBy (name : String) (r : Except Abort (Option (Option NodeStatus)))
    (lastRead : String → Option NodeStatus) : String → Option NodeStatus :=
  match r with
  | .ok (some status) => Function.update lastRead name status
  | _ => lastRead

variable [Capnp] [CryptoSystem]

omit [Capnp] in
/-- The task when it starts. -/
def start (ddcp : DDCP) : Server where
  ddcp := ddcp
  peerByKey := ddcp.peerByKey
  lastRead _ := none
  log := []

/-- The first half of `push`. -/
def announceStatus : Act DDCP (Bytes × Int64) := do
  let (siteId, dbVersion) ← Act.db .status
  DDCP.onConclave (Conclave.onSovereign (Sovereign.announce ⟨siteId, dbVersion⟩))
  return (siteId, dbVersion)

inductive Step : Server → ServerAction → Server → Prop
  | announce {σ : Server} {tr : List Event} {r : Except Abort (Bytes × Int64)} {ddcp' : DDCP}
      (h : Exec announceStatus σ.ddcp tr r ddcp') :
      Step σ (.announce tr) { σ with ddcp := ddcp', log := σ.log ++ tr.map .call }
  | refresh {σ : Server} {name : String} {tr : List Event}
      {r : Except Abort (Option (Option NodeStatus))} {ddcp' : DDCP}
      (h : Exec (DDCP.onConclave (Conclave.onPeer name Peer.refresh)) σ.ddcp tr r ddcp') :
      Step σ (.refresh name tr r) { σ with
        ddcp := ddcp'
        lastRead := readBy name r σ.lastRead
        log := σ.log ++ tr.map .call }
  | update {σ : Server} {u : VeilidUpdate} {tr : List Event}
      {r : Except Abort (Option Responder)} {ddcp' : DDCP}
      (h : Exec (DDCP.handleUpdate σ.peerByKey u) σ.ddcp tr r ddcp') :
      Step σ (.update u tr) { σ with
        ddcp := ddcp'
        log := σ.log ++ updateLog u ++ tr.map .call }

/-! ## The parts of a step -/

/-- An announcement reads the local status and, when it got one, announces it. -/
theorem exec_announceStatus {s s' : DDCP} {tr : List Event} {r : Except Abort (Bytes × Int64)}
    (h : Exec announceStatus s tr r s') :
    ∃ (a : Except DbError (Bytes × Int64)) (tr' : List Event), tr = ⟨.db .status, a⟩ :: tr' ∧
      ((tr' = [] ∧ s' = s) ∨ ∃ st r' sovereign, a = .ok st ∧
        Exec (Sovereign.announce ⟨st.1, st.2⟩) s.conclave.sovereign tr' r' sovereign ∧
        s' = ⟨{ s.conclave with sovereign := sovereign }⟩) := by
  rcases Act.exec_db_bind_iff.1 h with ⟨e, rfl, _, rfl⟩ | ⟨st, tr', rfl, h₁⟩
  · exact ⟨.error e, [], rfl, Or.inl ⟨rfl, rfl⟩⟩
  refine ⟨.ok st, tr', rfl, Or.inr ?_⟩
  rcases exec_bind_iff.1 h₁ with ⟨e, _, h₂⟩ | ⟨tr₂, tr₃, u, s₂, rfl, h₂, h₃⟩
  · obtain ⟨c, hc, rfl⟩ := exec_zoom_iff.1 h₂
    obtain ⟨sovereign, hx, rfl⟩ := exec_zoom_iff.1 hc
    exact ⟨st, _, sovereign, rfl, hx, rfl⟩
  · obtain ⟨c, hc, rfl⟩ := exec_zoom_iff.1 h₂
    obtain ⟨sovereign, hx, rfl⟩ := exec_zoom_iff.1 hc
    obtain ⟨rfl, _, rfl⟩ := exec_pure_iff.1 h₃
    exact ⟨st, _, sovereign, rfl, by simpa using hx, rfl⟩

/-- No step changes the node's own keys, the keys of its peers, or the map made at the start. -/
theorem Step.keeps {σ σ' : Server} {l : ServerAction} (hs : Step σ l σ') :
    σ'.ddcp.conclave.sovereign.dhtOwnerKeypair = σ.ddcp.conclave.sovereign.dhtOwnerKeypair ∧
    (∀ n, (σ'.ddcp.conclave.remotes.lookup n).map Peer.dhtKey =
      (σ.ddcp.conclave.remotes.lookup n).map Peer.dhtKey) ∧
    σ'.peerByKey = σ.peerByKey := by
  cases hs with
  | announce hx =>
      obtain ⟨_, _, _, ⟨_, rfl⟩ | ⟨_, _, _, _, hann, rfl⟩⟩ := exec_announceStatus hx
      · exact ⟨rfl, fun _ => rfl, rfl⟩
      · exact ⟨by rw [announce_keeps hann], fun _ => rfl, rfl⟩
  | refresh hx =>
      obtain ⟨c, hc, rfl⟩ := exec_zoom_iff.1 hx
      obtain ⟨hsov, _, hkeys⟩ := exec_onPeer_refresh hc
      exact ⟨congrArg Sovereign.dhtOwnerKeypair hsov, hkeys, rfl⟩
  | update hx =>
      rcases exec_handleUpdate hx with ⟨_, _, rfl⟩ | ⟨_, _, _, hrel, rfl⟩
      · exact ⟨rfl, fun _ => rfl, rfl⟩
      · exact ⟨by rw [releaseRoute_keeps hrel], fun _ => rfl, rfl⟩

/-! ## A tick is a run of steps -/

theorem exec_refresh_run {names : List String} {σ : Server} {tr : List Event}
    {r : Except Abort PUnit} {c' : Conclave}
    (h : Exec (names.forM fun name => do
      let _ ← Conclave.onPeer name Peer.refresh
      return ()) σ.ddcp.conclave tr r c') :
    ∃ ls σ', Run Step σ ls σ' ∧ σ'.ddcp = ⟨c'⟩ ∧ σ'.peerByKey = σ.peerByKey ∧
      σ'.log = σ.log ++ tr.map .call := by
  induction names generalizing σ tr r with
  | nil =>
      obtain ⟨rfl, _, rfl⟩ := exec_pure_iff.1 h
      exact ⟨[], σ, .nil, rfl, rfl, by simp⟩
  | cons name names ih =>
      -- one refresh, as a step of the task
      have hone : ∀ {tr₁ : List Event} {r₁ : Except Abort (Option (Option NodeStatus))}
          {c₁ : Conclave}, Exec (Conclave.onPeer name Peer.refresh) σ.ddcp.conclave tr₁ r₁ c₁ →
          Step σ (.refresh name tr₁ r₁) { σ with
            ddcp := ⟨c₁⟩
            lastRead := readBy name r₁ σ.lastRead
            log := σ.log ++ tr₁.map .call } := fun h₁ =>
        .refresh (exec_zoom_iff.2 ⟨_, h₁, rfl⟩)
      rcases exec_bind_iff.1 h with ⟨e, rfl, h₁⟩ | ⟨tr₁, tr₂, u, c₁, rfl, h₁, h₂⟩
      · rcases exec_bind_iff.1 h₁ with ⟨e', _, h₂⟩ | ⟨_, _, _, _, _, _, h₂⟩
        · exact ⟨_, _, .snoc .nil (hone h₂), rfl, rfl, rfl⟩
        · exact absurd (exec_pure_iff.1 h₂).2.1 (by simp)
      · rcases exec_bind_iff.1 h₁ with ⟨e', he, _⟩ | ⟨tr₃, tr₄, o, c₂, rfl, h₃, h₄⟩
        · exact absurd he (by simp)
        · obtain ⟨rfl, _, rfl⟩ := exec_pure_iff.1 h₄
          obtain ⟨ls, σ', hr, hddcp, hmap, hlog⟩ := ih (σ := { σ with
            ddcp := ⟨c₁⟩
            lastRead := readBy name (.ok o) σ.lastRead
            log := σ.log ++ tr₃.map .call }) h₂
          refine ⟨_, σ', Run.cons (hone h₃) hr, hddcp, hmap, ?_⟩
          rw [hlog]
          simp

/-- A `push` is an announcement and, when that succeeded, a refresh of the peers. -/
theorem exec_push {s s' : DDCP} {tr : List Event} {r : Except Abort (String × Bytes × Int64)}
    (h : Exec DDCP.push s tr r s') :
    ∃ tr₁ tr₂ r₁ c₁, tr = tr₁ ++ tr₂ ∧ Exec announceStatus s tr₁ r₁ ⟨c₁⟩ ∧
      ((tr₂ = [] ∧ s' = ⟨c₁⟩) ∨ ∃ r₂ c', Exec Conclave.refreshPeers c₁ tr₂ r₂ c' ∧ s' = ⟨c'⟩) := by
  rcases exec_bind_iff.1 h with ⟨e, _, h₁⟩ | ⟨tr₀, tr', st, s₀, rfl, h₀, h₁⟩
  · -- the status could not be read
    exact ⟨tr, [], _, s'.conclave, by simp, exec_bind_iff.2 (Or.inl ⟨e, rfl, h₁⟩), Or.inl ⟨rfl, rfl⟩⟩
  obtain ⟨_, _, _, rfl⟩ := Act.exec_db_iff.1 h₀
  -- what follows the refresh makes no calls
  obtain ⟨r₁, c', hrefresh, rfl⟩ : ∃ r₁ c',
      Exec (Conclave.refresh ⟨st.1, st.2⟩) s₀.conclave tr' r₁ c' ∧ s' = ⟨c'⟩ := by
    rcases exec_bind_iff.1 h₁ with ⟨e, _, h₂⟩ | ⟨tr₁, tr₂, u, s₁, rfl, h₂, h₃⟩
    · obtain ⟨c', hc, rfl⟩ := exec_zoom_iff.1 h₂
      exact ⟨_, c', hc, rfl⟩
    · obtain ⟨c', hc, rfl⟩ := exec_zoom_iff.1 h₂
      have hdone := exec_get_bind_iff.1 h₃
      obtain ⟨rfl, _, rfl⟩ := exec_pure_iff.1 hdone
      exact ⟨_, c', by simpa using hc, rfl⟩
  rcases exec_bind_iff.1 hrefresh with ⟨e, _, h₂⟩ | ⟨tr₁, tr₂, u, c₁, rfl, h₂, h₃⟩
  · have hann : Exec announceStatus s₀ (tr₀ ++ tr') (.error e) ⟨c'⟩ :=
      exec_bind_of_ok h₀ (exec_bind_iff.2 (Or.inl ⟨e, rfl, exec_zoom_iff.2 ⟨c', h₂, rfl⟩⟩))
    exact ⟨tr₀ ++ tr', [], .error e, c', by simp, hann, Or.inl ⟨rfl, rfl⟩⟩
  · have hann : Exec announceStatus s₀ (tr₀ ++ (tr₁ ++ [])) (.ok st) ⟨c₁⟩ :=
      exec_bind_of_ok h₀ (exec_bind_of_ok (exec_zoom_iff.2 ⟨c₁, h₂, rfl⟩)
        (exec_pure_iff.2 ⟨rfl, rfl, rfl⟩))
    rw [List.append_nil] at hann
    exact ⟨tr₀ ++ tr₁, tr₂, .ok st, c₁, by simp, hann, Or.inr ⟨_, c', h₃, rfl⟩⟩

/-- The calls an announcement makes. -/
def AnnounceCall : Call → Prop
  | .db .status | .veilid .newPrivateRoute | .veilid (.setDhtValue _ _ _) => True
  | _ => False

omit [Capnp] [CryptoSystem] in
theorem AnnounceCall.not_refreshCall {c : Call} (h : AnnounceCall c) : ¬ RefreshCall c := by
  cases c with
  | veilid c => cases c <;> simp_all [AnnounceCall, RefreshCall]
  | _ => exact id

/-- An announcement makes only these calls and keeps the remotes. -/
theorem announceStatus_keeps {s s' : DDCP} {tr : List Event} {r : Except Abort (Bytes × Int64)}
    (h : Exec announceStatus s tr r s') :
    s'.conclave.remotes = s.conclave.remotes ∧ ∀ e ∈ tr, AnnounceCall e.1 := by
  obtain ⟨a, tr', rfl, ⟨rfl, rfl⟩ | ⟨st, r', sovereign, rfl, hann, rfl⟩⟩ := exec_announceStatus h
  · exact ⟨rfl, by simp [AnnounceCall]⟩
  refine ⟨rfl, ?_⟩
  obtain ⟨tr₁, r₁, hroute, htr⟩ := exec_announce hann
  have hcalls : ∀ e ∈ tr₁, AnnounceCall e.1 := by
    rcases exec_currentRoute hroute with ⟨_, _, _, rfl, _⟩ | ⟨_, _, _, rfl, _⟩ | ⟨_, _, rfl, _⟩ <;>
      simp [AnnounceCall]
  intro e he
  rcases List.mem_cons.1 he with rfl | he
  · exact trivial
  rcases htr with ⟨rfl, _⟩ | ⟨_, _, _, rfl⟩
  · exact hcalls e he
  · rcases List.mem_append.1 he with he | he
    · exact hcalls e he
    · rw [List.mem_singleton.1 he]
      exact trivial

/-- Whatever a `push` does is a run of the task. -/
theorem exec_push_run {σ : Server} {tr : List Event} {r : Except Abort (String × Bytes × Int64)}
    {ddcp' : DDCP} (h : Exec DDCP.push σ.ddcp tr r ddcp') :
    ∃ ls σ', Run Step σ ls σ' ∧ σ'.ddcp = ddcp' ∧ σ'.peerByKey = σ.peerByKey ∧
      σ'.log = σ.log ++ tr.map .call := by
  obtain ⟨tr₁, tr₂, r₁, c₁, rfl, hann, ⟨rfl, rfl⟩ | ⟨r₂, c', hrefresh, rfl⟩⟩ := exec_push h
  · exact ⟨_, _, .snoc .nil (.announce hann), rfl, rfl, by simp⟩
  obtain ⟨ls, σ', hr, hddcp, hmap, hlog⟩ := exec_refresh_run (σ := { σ with
    ddcp := ⟨c₁⟩
    log := σ.log ++ tr₁.map .call }) (exec_get_bind_iff.1 hrefresh)
  exact ⟨_, σ', Run.cons (.announce hann) hr, hddcp, hmap, by rw [hlog]; simp⟩

end Server

end Ddcp
