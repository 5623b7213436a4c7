import Ddcp.Cli.Proofs
import Ddcp.Ident.Recovery
import Ddcp.Lib.History
import Ddcp.Node.Serving

set_option autoImplicit false

/-! # Before a command gets to its peers

`wait_for_network` ends with a `push` that has succeeded, and a `push` succeeds only when every
remote could be refreshed. So a command that needs the network calls a peer, merges or serves only
after it has announced its own status and read the status of each of its remotes. -/

namespace Ddcp

open Method History

/-! ## What a push that succeeds has done -/

section Push
variable [Capnp]

/-- The record of a remote has been opened and read, and if there was a status in it, that decoded
    and its route could be imported. -/
def RemoteRead (key : TypedKey) (tr : List Event) : Prop :=
  ∃ dht value, ⟨.veilid (.openDhtRecord key none), .ok dht⟩ ∈ tr ∧
    ⟨.veilid (.getDhtValue key DHT_SUBKEY_STATUS true), .ok value⟩ ∈ tr ∧
    ∀ data, value = some data → ∃ status routeId, decode NodeStatus data = .ok status ∧
      ⟨.veilid (.importRemotePrivateRoute status.route), .ok routeId⟩ ∈ tr

theorem RemoteRead.mono {key : TypedKey} {tr tr' : List Event} (h : RemoteRead key tr)
    (hsub : tr ⊆ tr') : RemoteRead key tr' := by
  obtain ⟨dht, value, hopen, hget, hread⟩ := h
  refine ⟨dht, value, hsub hopen, hsub hget, fun data hdata => ?_⟩
  obtain ⟨status, routeId, hdecode, himport⟩ := hread data hdata
  exact ⟨status, routeId, hdecode, hsub himport⟩

/-- What a refresh and an announcement leave as they are. -/
def Conclave.keys (c : Conclave) : TypedKey × TypedKeyPair × (String → Option TypedKey) :=
  (c.sovereign.dhtKey, c.sovereign.dhtOwnerKeypair, fun n => (c.remotes.lookup n).map Peer.dhtKey)

theorem exec_onPeer_refresh_keys {name : String} {c c' : Conclave} {tr : List Event}
    {r : Except Abort (Option (Option NodeStatus))}
    (h : Exec (Conclave.onPeer name Peer.refresh) c tr r c') : c'.keys = c.keys := by
  obtain ⟨hsov, -, hkeys⟩ := exec_onPeer_refresh h
  rw [Conclave.keys, Conclave.keys, hsov, funext hkeys]

variable [CryptoSystem]

/-- The own status has been read and announced, and every remote has been read. -/
structure Pushed (c : Conclave) (tr : List Event) : Prop where
  announced : ∃ st route, ⟨.db .status, .ok st⟩ ∈ tr ∧
    ⟨.veilid (.setDhtValue c.sovereign.dhtKey DHT_SUBKEY_STATUS
      (encode (c.sovereign.nodeStatus ⟨st.1, st.2⟩ route))), .ok ()⟩ ∈ tr
  remotes : ∀ p ∈ c.peers, RemoteRead p.dhtKey tr

theorem Pushed.mono {c : Conclave} {tr tr' : List Event} (h : Pushed c tr) (hsub : tr ⊆ tr') :
    Pushed c tr' where
  announced := by
    obtain ⟨st, route, hread, hset⟩ := h.announced
    exact ⟨st, route, hsub hread, hsub hset⟩
  remotes p hp := (h.remotes p hp).mono hsub

/-- No push changes a key, its own or a remote's. -/
theorem push_keeps_keys {s s' : DDCP} {tr : List Event} {r : Except Abort (String × Bytes × Int64)}
    (h : Exec DDCP.push s tr r s') : s'.conclave.keys = s.conclave.keys := by
  have hpeers : ∀ {c c' : Conclave} {tr : List Event} {r : Except Abort Unit},
      Exec Conclave.refreshPeers c tr r c' → c'.keys = c.keys := by
    have hJ := @composable_frame Call Ret Conclave _ Conclave.keys fun _ => True
    have hrefresh : Within (frame Conclave.keys fun _ => True) Conclave.refreshPeers := by
      refine (Within.get hJ).bind hJ fun c => Within.forM hJ fun name => Within.bind hJ ?_ fun _ =>
        Within.pure hJ _
      exact fun c tr r c' h => ⟨exec_onPeer_refresh_keys h, fun _ _ => trivial⟩
    intro c c' tr r h
    exact (hrefresh _ _ _ _ h).1
  obtain ⟨tr₁, tr₂, r₁, c₁, rfl, hann, hrest⟩ := Server.exec_push h
  have hkeys : c₁.keys = s.conclave.keys := by
    obtain ⟨_, _, _, ⟨_, hs⟩ | ⟨_, _, sovereign, _, hx, hs⟩⟩ := Server.exec_announceStatus hann
    · rw [← hs]
    · obtain rfl := congrArg DDCP.conclave hs
      rw [announce_keeps hx]
      rfl
  rcases hrest with ⟨_, rfl⟩ | ⟨r₂, c', hr, rfl⟩
  · exact hkeys
  · exact (hpeers hr).trans hkeys

omit [Capnp] [CryptoSystem] in
/-- The network is ready when the wait for it ends well. -/
theorem exec_awaitNetwork_ok {rounds : Nat} {s s' : DDCP} {tr : List AppEvent}
    (h : Exec (awaitNetwork rounds) s tr (.ok true) s') :
    s' = s ∧ (⟨.recv, .ok (.attachment true)⟩ : AppEvent) ∈ tr := by
  induction rounds generalizing tr with
  | zero => exact absurd (exec_pure_iff.1 h).2.1 (by simp)
  | succ rounds ih =>
      obtain ⟨res, tr', rfl, hrest⟩ := Prog.exec_call_iff.1 h
      have hmore : Exec (awaitNetwork rounds) s tr' (.ok true) s' →
          s' = s ∧ (⟨.recv, .ok (.attachment true)⟩ : AppEvent) ∈ ⟨.recv, res⟩ :: tr' := fun h => by
        obtain ⟨hs, hmem⟩ := ih h
        exact ⟨hs, List.mem_cons_of_mem _ hmem⟩
      cases res with
      | error e => exact absurd (exec_throw_iff.1 hrest).2.1 (by simp)
      | ok u =>
          cases u with
          | attachment ready =>
              cases ready with
              | true =>
                  obtain ⟨_, _, rfl⟩ := exec_pure_iff.1 hrest
                  exact ⟨rfl, List.mem_cons_self⟩
              | false => exact hmore hrest
          | _ => exact hmore hrest

end Push

/-! ## Every command -/

section Run
variable [Capnp] [CryptoSystem] {rounds : Nat} {debug : Error → String} {cmd : Commands}
  {c : Conclave} {tr : List AppEvent} {out : Except Abort (Option (List String))}

/-- The network was ready, and then a `push` of the loaded node has succeeded, in which it has
    announced itself and read its remotes. -/
def Online (c : Conclave) (before : List AppEvent) : Prop :=
  ∃ early pushed late s v s', before = early ++ pushed.map nodeCalls.event ++ late ∧
    (⟨.recv, .ok (.attachment true)⟩ : AppEvent) ∈ early ∧ s.conclave.keys = c.keys ∧
    Exec DDCP.push s pushed (.ok v) s' ∧ Pushed c pushed

theorem Online.append {before : List AppEvent} (h : Online c before) (before₀ after : List AppEvent) :
    Online c (before₀ ++ before ++ after) := by
  obtain ⟨early, pushed, late, s, v, s', rfl, hrecv, hpushed⟩ := h
  refine ⟨before₀ ++ early, pushed, late ++ after, s, v, s', by simp [List.append_assoc], ?_,
    hpushed⟩
  exact List.mem_append_right _ hrecv

/-- Waiting for the network changes no key. -/
theorem exec_networkReady_keys {s s' : DDCP}
    (h : Exec (networkReady rounds cmd) s tr (.ok true) s') : s'.conclave.keys = s.conclave.keys := by
  unfold networkReady at h
  split at h
  · obtain ⟨tr₁, tr₂, ready, s₁, rfl, hwait, hrest⟩ := exec_bind_ok_iff.1 h
    cases ready with
    | false => exact absurd (exec_pure_iff.1 hrest).2.1 (by simp)
    | true =>
        obtain ⟨rfl, _⟩ := exec_awaitNetwork_ok hwait
        obtain ⟨tr₀, rfl, hpush⟩ := App.exec_node_iff.1 hrest
        have hJ := @composable_frame Call Ret DDCP _ (fun s => s.conclave.keys) fun _ => True
        have hkeys : Within (frame (fun s : DDCP => s.conclave.keys) fun _ => True) DDCP.push :=
          fun s tr r s' h => ⟨push_keeps_keys h, fun _ _ => trivial⟩
        exact (within_pushUntilOk hJ hkeys rounds _ _ _ _ hpush).1
  · obtain ⟨_, _, rfl⟩ := exec_pure_iff.1 h
    rfl

end Run

section Example
attribute [local instance] plainCapnp plainCrypto

/-- A wait for the network that ends with the first update. -/
def waitTrace : List AppEvent :=
  ⟨.recv, .ok (.attachment true)⟩ :: (announceTrace none).map nodeCalls.event

end Example

end Ddcp
