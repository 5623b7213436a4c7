import Ddcp.Ident.Basic
import Ddcp.Lib.Replace

set_option autoImplicit false

/-! # What the methods of the identities do, call by call -/

namespace Ddcp

open Method

variable {σ α : Type}

/-! ## The shared key -/

section Crypto
variable [CryptoSystem]

theorem cryptoWith_ne_panic (c : Conclave) (peer : Peer) (vld0 : Option Unit) :
    c.cryptoWith peer vld0 ≠ .error .panic := by
  cases vld0 with
  | none => simp [Conclave.cryptoWith]
  | some u =>
      cases h : peer.authKey with
      | error e => simp [Conclave.cryptoWith, h]
      | ok key => cases key <;> simp [Conclave.cryptoWith, h]

/-- There is a crypto exactly when the crypto system is there and the peer's key is known. -/
theorem cryptoWith_ok_iff {c : Conclave} {peer : Peer} {vld0 : Option Unit} {crypto : Crypto} :
    c.cryptoWith peer vld0 = .ok crypto ↔ vld0 = some () ∧
      ∃ key, peer.authKey = .ok (some key) ∧ crypto = ⟨c.sovereign.dhtOwnerKeypair, key⟩ := by
  cases vld0 with
  | none => simp [Conclave.cryptoWith]
  | some u =>
      cases h : peer.authKey with
      | error e => simp [Conclave.cryptoWith, h]
      | ok key => cases key <;> simp [Conclave.cryptoWith, h, eq_comm]

theorem authKey_of_nodeStatus {p : Peer} {st : NodeStatus} {key : TypedKey}
    (hst : p.nodeStatus = some st) (hkey : CryptoSystem.keyFromStr st.key = .ok key) :
    p.authKey = .ok (some key) := by
  simp [Peer.authKey, hst, hkey, Except.map]

/-- One call, and what follows from its answer. -/
theorem exec_crypto_iff {c : Conclave} {peer : Peer} {s s' : σ} {tr : List Event}
    {r : Except Abort Crypto} :
    Exec (c.crypto peer) s tr r s' ↔ ∃ a : Except VeilidAPIError (Option Unit),
      tr = [⟨.veilid (.crypto CRYPTO_KIND_VLD0), a⟩] ∧ s' = s ∧
      r = (a.mapError fun e => Abort.err (.veilidAPI e)) >>= c.cryptoWith peer := by
  unfold Conclave.crypto
  rw [exec_bind_iff]
  constructor
  · rintro (⟨e, rfl, h⟩ | ⟨tr₁, tr₂, vld0, s₁, rfl, h₁, h₂⟩)
    · obtain ⟨a, rfl, hr, rfl⟩ := Act.exec_veilid_iff.1 h
      refine ⟨a, rfl, rfl, ?_⟩
      rw [← hr]
      rfl
    · obtain ⟨a, rfl, hr, rfl⟩ := Act.exec_veilid_iff.1 h₁
      obtain ⟨rfl, rfl, rfl⟩ := Act.exec_lift_iff.1 h₂
      refine ⟨a, rfl, rfl, ?_⟩
      rw [← hr]
      rfl
  · rintro ⟨a, rfl, rfl, rfl⟩
    cases a with
    | error e => exact Or.inl ⟨_, rfl, Act.exec_veilid_iff.2 ⟨_, rfl, rfl, rfl⟩⟩
    | ok vld0 =>
        exact Or.inr ⟨_, [], vld0, s', rfl, Act.exec_veilid_iff.2 ⟨_, rfl, rfl, rfl⟩,
          Act.exec_lift_iff.2 ⟨rfl, rfl, rfl⟩⟩

/-- Past the envelope, a reply decodes when its contents open to a list of changes. -/
theorem decodeReply_ok_iff [Capnp] {crypto : Crypto} {message : Bytes} {envelope : Envelope}
    {resp : ChangesResponse} (henv : decode Envelope message = .ok envelope) :
    Conclave.decodeReply crypto message = .ok resp ↔
      crypto.decode Response envelope.contents = .ok (.changes resp) := by
  unfold Conclave.decodeReply
  rw [henv]
  cases hd : crypto.decode Response envelope.contents with
  | error e => simp [bind, Except.bind, hd]
  | ok r => cases r <;> simp [bind, Except.bind, hd]

theorem decodeReply_error [Capnp] {crypto : Crypto} {message : Bytes} {envelope : Envelope}
    {a : Abort} (henv : decode Envelope message = .ok envelope)
    (h : crypto.decode Response envelope.contents = .error a) :
    Conclave.decodeReply crypto message = .error a := by
  unfold Conclave.decodeReply
  rw [henv]
  simp [bind, Except.bind, h]

/-- A status is no answer to a request for changes. -/
theorem decodeReply_status [Capnp] {crypto : Crypto} {message : Bytes} {envelope : Envelope}
    {status : StatusResponse} (henv : decode Envelope message = .ok envelope)
    (h : crypto.decode Response envelope.contents = .ok (.status status)) :
    Conclave.decodeReply crypto message =
      .error (.err (otherErr ("invalid response: " ++ Conclave.debugStatus status))) := by
  unfold Conclave.decodeReply
  rw [henv]
  simp [bind, Except.bind, h]

end Crypto

/-! ## The route of the sovereign -/

/-- What a RouteChange does: the route goes when giving it back succeeds, and stays otherwise. -/
theorem exec_releaseRoute {s s' : Sovereign} {tr : List Event} {r : Except Abort Unit}
    (h : Exec Sovereign.releaseRoute s tr r s') :
    (s.route = none ∧ tr = [] ∧ s' = s) ∨
    ∃ route, s.route = some route ∧
      ((∃ e, tr = [⟨.veilid (.releasePrivateRoute route.id), .error e⟩] ∧ s' = s) ∨
        (tr = [⟨.veilid (.releasePrivateRoute route.id), .ok ()⟩] ∧
          s' = { s with route := none })) := by
  have hmatch := exec_get_bind_iff.1 h
  cases hroute : s.route with
  | none =>
      rw [hroute] at hmatch
      obtain ⟨rfl, _, rfl⟩ := exec_pure_iff.1 hmatch
      exact Or.inl ⟨rfl, rfl, rfl⟩
  | some route =>
      rw [hroute] at hmatch
      refine Or.inr ⟨route, rfl, ?_⟩
      rcases Act.exec_veilid_bind_iff.1 hmatch with ⟨e, rfl, _, rfl⟩ | ⟨u, tr', rfl, hdrop⟩
      · exact Or.inl ⟨e, rfl, rfl⟩
      · obtain ⟨rfl, _, rfl⟩ := exec_modify_iff.1 hdrop
        exact Or.inr ⟨rfl, rfl⟩

/-- Where the announced route comes from: it is cached, or allocated and cached now. -/
theorem exec_currentRoute {s s' : Sovereign} {tr : List Event} {r : Except Abort Route}
    (h : Exec Sovereign.currentRoute s tr r s') :
    (∃ route, s.route = some route ∧ r = .ok route ∧ tr = [] ∧ s' = s) ∨
    (∃ e e', r = .error e ∧ tr = [⟨.veilid .newPrivateRoute, .error e'⟩] ∧ s' = s) ∨
    ∃ route : Route, r = .ok route ∧
      tr = [⟨.veilid .newPrivateRoute, .ok (route.id, route.data)⟩] ∧
      s' = { s with route := some route } := by
  have hmatch := exec_get_bind_iff.1 h
  cases hroute : s.route with
  | some route =>
      rw [hroute] at hmatch
      obtain ⟨rfl, rfl, rfl⟩ := exec_pure_iff.1 hmatch
      exact Or.inl ⟨route, rfl, rfl, rfl, rfl⟩
  | none =>
      rw [hroute] at hmatch
      rcases Act.exec_veilid_bind_iff.1 hmatch with
        ⟨e, rfl, rfl, rfl⟩ | ⟨⟨id, data⟩, tr', rfl, hcache⟩
      · exact Or.inr (Or.inl ⟨_, e, rfl, rfl, rfl⟩)
      · have hdone : Exec (pure ⟨id, data⟩ : Act Sovereign Route)
            { s with route := some ⟨id, data⟩ } tr' r s' := hcache
        obtain ⟨rfl, rfl, rfl⟩ := exec_pure_iff.1 hdone
        exact Or.inr (Or.inr ⟨⟨id, data⟩, rfl, rfl, rfl⟩)

/-- An announcement writes a status with the route it has, and only that. -/
theorem exec_announce [Capnp] [CryptoSystem] {st : Status} {s s' : Sovereign} {tr : List Event}
    {r : Except Abort Unit} (h : Exec (Sovereign.announce st) s tr r s') :
    ∃ tr₁ r₁, Exec Sovereign.currentRoute s tr₁ r₁ s' ∧
      ((tr = tr₁ ∧ ∃ e, r₁ = .error e) ∨
        ∃ route a, r₁ = .ok route ∧ tr = tr₁ ++ [⟨.veilid (.setDhtValue s'.dhtKey DHT_SUBKEY_STATUS
          (encode (s'.nodeStatus st route))), a⟩]) := by
  rcases exec_bind_iff.1 h with ⟨e, _, h₁⟩ | ⟨tr₁, tr₂, route, s₁, rfl, h₁, h₂⟩
  · exact ⟨tr, _, h₁, Or.inl ⟨rfl, e, rfl⟩⟩
  obtain ⟨a, rfl, _, rfl⟩ := Act.exec_veilid_iff.1 (exec_get_bind_iff.1 h₂)
  exact ⟨tr₁, _, h₁, Or.inr ⟨route, a, rfl, rfl⟩⟩

/-- The route apart, an announcement leaves the sovereign as it is. -/
theorem announce_keeps [Capnp] [CryptoSystem] {st : Status} {s s' : Sovereign} {tr : List Event}
    {r : Except Abort Unit} (h : Exec (Sovereign.announce st) s tr r s') :
    s' = { s with route := s'.route } := by
  obtain ⟨tr₁, r₁, hroute, _⟩ := exec_announce h
  rcases exec_currentRoute hroute with ⟨_, _, _, _, rfl⟩ | ⟨_, _, _, _, rfl⟩ | ⟨_, _, _, rfl⟩ <;> rfl

theorem releaseRoute_keeps {s s' : Sovereign} {tr : List Event} {r : Except Abort Unit}
    (h : Exec Sovereign.releaseRoute s tr r s') : s' = { s with route := s'.route } := by
  rcases exec_releaseRoute h with ⟨_, _, rfl⟩ | ⟨_, _, ⟨_, _, rfl⟩ | ⟨_, rfl⟩⟩ <;> rfl

/-! ## Refreshing -/

/-- The calls a refresh makes. -/
def RefreshCall : Call → Prop
  | .veilid (.closeDhtRecord _) | .veilid (.openDhtRecord _ _) | .veilid (.getDhtValue _ _ _)
  | .veilid (.importRemotePrivateRoute _) => True
  | _ => False

/-- A refresh makes only these calls and keeps the peer's name and key. -/
theorem within_peer_refresh [Capnp] :
    Within (frame (fun p : Peer => (p.name, p.dhtKey)) RefreshCall) Peer.refresh := by
  have hJ := @composable_frame Call Ret Peer _ (fun p : Peer => (p.name, p.dhtKey)) RefreshCall
  have hmodify : ∀ {g : Peer → Peer}, (∀ p, ((g p).name, (g p).dhtKey) = (p.name, p.dhtKey)) →
      Within (frame (fun p : Peer => (p.name, p.dhtKey)) RefreshCall)
        (modify g : Act Peer PUnit) := fun hg =>
    Within.modify fun p => ⟨hg p, fun e he => absurd he (by simp)⟩
  refine Within.bind hJ ?_ fun _ => Within.bind hJ ?_ fun _ => ?_
  · -- `refresh_dht`
    refine (Within.get hJ).bind hJ fun p => Within.bind hJ ?_ fun _ => ?_
    · cases p.dht with
      | some dht => exact frame_veilid trivial
      | none => exact Within.pure hJ _
    refine Within.bind hJ ?_ fun dht => Within.bind hJ ?_ fun _ => Within.bind hJ ?_ fun value => ?_
    · exact frame_veilid trivial
    · exact hmodify fun _ => rfl
    · exact frame_veilid trivial
    cases value with
    | some data => exact (within_lift hJ _).bind hJ fun st => hmodify fun _ => rfl
    | none => exact hmodify fun _ => rfl
  · -- `refresh_route`
    refine (Within.get hJ).bind hJ fun p => ?_
    split
    · exact Within.bind hJ (frame_veilid trivial) fun routeId => hmodify fun _ => rfl
    · exact Within.pure hJ _
  · exact (Within.get hJ).bind hJ fun p => Within.pure hJ _

theorem Conclave.mem_peers_iff {c : Conclave} {p : Peer} :
    p ∈ c.peers ↔ ∃ name, c.remotes.lookup name = some p := by
  unfold Conclave.peers
  rw [List.mem_map]
  constructor
  · rintro ⟨⟨name, q⟩, hmem, rfl⟩
    exact ⟨name, AList.mem_lookup_iff.2 hmem⟩
  · rintro ⟨name, hname⟩
    exact ⟨⟨name, p⟩, AList.mem_lookup_iff.1 hname, rfl⟩

/-- A method of a peer, as a method of the conclave. -/
theorem exec_onPeer {name : String} {x : Act Peer α} {c c' : Conclave} {tr : List Event}
    {r : Except Abort (Option α)} (h : Exec (Conclave.onPeer name x) c tr r c') :
    (c.remotes.lookup name = none ∧ tr = [] ∧ r = .ok none ∧ c' = c) ∨
    ∃ p p' r', c.remotes.lookup name = some p ∧ Exec x p tr r' p' ∧ r = r'.map some ∧
      c' = { c with remotes := c.remotes.replace name p' } := by
  have hmatch := exec_get_bind_iff.1 h
  cases hp : c.remotes.lookup name with
  | none =>
      rw [hp] at hmatch
      obtain ⟨rfl, rfl, rfl⟩ := exec_pure_iff.1 hmatch
      exact Or.inl ⟨rfl, rfl, rfl, rfl⟩
  | some p =>
      rw [hp] at hmatch
      refine Or.inr ⟨p, ?_⟩
      rcases exec_bind_iff.1 hmatch with ⟨e, rfl, h₁⟩ | ⟨tr₁, tr₂, a, c₁, rfl, h₁, h₂⟩
      · obtain ⟨p', hx, rfl⟩ := exec_zoom_iff.1 h₁
        exact ⟨p', .error e, rfl, hx, rfl, rfl⟩
      · obtain ⟨p', hx, rfl⟩ := exec_zoom_iff.1 h₁
        obtain ⟨rfl, rfl, rfl⟩ := exec_pure_iff.1 h₂
        exact ⟨p', .ok a, rfl, by simpa using hx, rfl, rfl⟩

theorem exec_onPeer_of_lookup {name : String} {x : Act Peer α} {c : Conclave} {p p' : Peer}
    {tr : List Event} {a : α} (hp : c.remotes.lookup name = some p) (h : Exec x p tr (.ok a) p') :
    Exec (Conclave.onPeer name x) c tr (.ok (some a))
      { c with remotes := c.remotes.replace name p' } := by
  unfold Conclave.onPeer
  refine exec_get_bind_iff.2 ?_
  simp only [hp]
  refine exec_bind_ok_iff.2 ⟨tr, [], a, _, by simp, exec_zoom_iff.2 ⟨p', h, rfl⟩, ?_⟩
  exact exec_pure_iff.2 ⟨rfl, rfl, rfl⟩

/-- A refresh of a peer makes only a refresh's calls, and keeps the sovereign and the keys. -/
theorem exec_onPeer_refresh [Capnp] {name : String} {c c' : Conclave} {tr : List Event}
    {r : Except Abort (Option (Option NodeStatus))}
    (h : Exec (Conclave.onPeer name Peer.refresh) c tr r c') :
    c'.sovereign = c.sovereign ∧ (∀ e ∈ tr, RefreshCall e.1) ∧
      ∀ n, (c'.remotes.lookup n).map Peer.dhtKey = (c.remotes.lookup n).map Peer.dhtKey := by
  rcases exec_onPeer h with ⟨_, rfl, _, rfl⟩ | ⟨p, p', r', hp, hx, _, rfl⟩
  · exact ⟨rfl, by simp, fun n => rfl⟩
  obtain ⟨hkeep, hcalls⟩ := within_peer_refresh _ _ _ _ hx
  refine ⟨rfl, hcalls, fun n => ?_⟩
  by_cases hn : n = name
  · subst hn
    have hmem : n ∈ c.remotes := AList.lookup_isSome.1 (by rw [hp]; rfl)
    rw [AList.lookup_replace_self hmem, hp]
    exact congrArg some (congrArg Prod.snd hkeep)
  · rw [AList.lookup_replace_ne hn]

theorem within_refreshPeers [Capnp] :
    Within (frame (fun _ : Conclave => ()) RefreshCall) Conclave.refreshPeers := by
  have hJ := @composable_frame Call Ret Conclave _ (fun _ => ()) RefreshCall
  refine (Within.get hJ).bind hJ fun c => Within.forM hJ fun name => Within.bind hJ ?_ fun _ =>
    Within.pure hJ _
  intro s tr r s' h
  exact ⟨rfl, (exec_onPeer_refresh h).2.1⟩

end Ddcp
