import Ddcp.Ident.Proofs
import Ddcp.Node.Basic

set_option autoImplicit false

/-! # What the methods of the node do, call by call -/

namespace Ddcp

open Method

variable [Capnp] [CryptoSystem] {σ α ι : Type}

/-! ## Trying a list -/

omit [Capnp] [CryptoSystem] in
/-- An error is noted; only a panic is passed on. -/
theorem exec_warnErr_iff {x : Act σ α} {s s' : σ} {tr : List Event}
    {r : Except Abort (Except Error α)} :
    Exec (warnErr x) s tr r s' ↔ (r = .error .panic ∧ Exec x s tr (.error .panic) s') ∨
      ∃ r₀, r = .ok r₀ ∧ Exec x s tr (r₀.mapError Abort.err) s' := by
  constructor
  · intro h
    rcases exec_attempt_iff.1 h with ⟨a, rfl, hx⟩ | ⟨e, e', hc, rfl, hx⟩ | ⟨e, hc, rfl, hx⟩
    · exact Or.inr ⟨.ok a, rfl, hx⟩
    · cases e with
      | err e =>
          obtain rfl := Option.some.inj hc
          exact Or.inr ⟨.error e, rfl, hx⟩
      | panic => exact absurd hc (by simp [Abort.err?])
    · cases e with
      | err e => exact absurd hc (by simp [Abort.err?])
      | panic => exact Or.inl ⟨rfl, hx⟩
  · rintro (⟨rfl, hx⟩ | ⟨r₀, rfl, hx⟩)
    · exact exec_attempt_iff.2 (Or.inr (Or.inr ⟨_, rfl, rfl, hx⟩))
    · cases r₀ with
      | ok a => exact exec_attempt_iff.2 (Or.inl ⟨a, rfl, hx⟩)
      | error e => exact exec_attempt_iff.2 (Or.inr (Or.inl ⟨_, e, rfl, rfl, hx⟩))

omit [Capnp] [CryptoSystem] in
theorem exec_warnErr_ok {x : Act σ α} {s s' : σ} {tr : List Event} {r : Except Error α}
    (h : Exec (warnErr x) s tr (.ok r) s') : Exec x s tr (r.mapError Abort.err) s' := by
  rcases exec_warnErr_iff.1 h with ⟨hr, _⟩ | ⟨r₀, hr, hx⟩
  · exact absurd hr (by simp)
  · obtain rfl := Except.ok.inj hr
    exact hx

omit [Capnp] [CryptoSystem] in
theorem exec_warnErr_error {x : Act σ α} {s s' : σ} {tr : List Event} {e : Abort}
    (h : Exec (warnErr x) s tr (.error e) s') :
    e = .panic ∧ Exec x s tr (.error .panic) s' := by
  rcases exec_warnErr_iff.1 h with ⟨hr, hx⟩ | ⟨r₀, hr, _⟩
  · exact ⟨Except.error.inj hr, hx⟩
  · exact absurd hr (by simp)

omit [Capnp] [CryptoSystem] in
/-- A tried list is tried to its end: only a panic ends it before. -/
theorem exec_attemptEach_error {f : ι → Act σ α} {l : List ι} {s s' : σ} {tr : List Event}
    {e : Abort} (h : Exec (attemptEach f l) s tr (.error e) s') : e = .panic := by
  induction l generalizing s tr with
  | nil => exact absurd (exec_pure_iff.1 h).2.1 (by simp)
  | cons i l ih =>
      rcases exec_bind_iff.1 h with ⟨e₁, he, h₁⟩ | ⟨tr₁, tr₂, a, s₁, rfl, _, h₂⟩
      · obtain rfl := Except.error.inj he
        exact (exec_warnErr_error h₁).1
      · rcases exec_bind_iff.1 h₂ with ⟨e₁, he, h₃⟩ | ⟨tr₃, tr₄, rs, s₂, rfl, _, h₄⟩
        · obtain rfl := Except.error.inj he
          exact ih h₃
        · exact absurd (exec_pure_iff.1 h₄).2.1 (by simp)

omit [Capnp] [CryptoSystem] in
/-- Each item in turn, with its result; `I` is what every item keeps. -/
theorem exec_attemptEach_ok {f : ι → Act σ α} {I : σ → Prop}
    (hI : ∀ {i s tr r s'}, Exec (f i) s tr r s' → I s → I s') {l : List ι} {s s' : σ}
    {tr : List Event} {rs : List (ι × Except Error α)}
    (h : Exec (attemptEach f l) s tr (.ok rs) s') (hs : I s) :
    rs.map Prod.fst = l ∧ ∀ i r, (i, r) ∈ rs → ∃ s₁ tr₁ s₂, I s₁ ∧ tr₁ <:+: tr ∧
      Exec (f i) s₁ tr₁ (r.mapError Abort.err) s₂ := by
  induction l generalizing s tr rs with
  | nil =>
      obtain ⟨_, hrs, _⟩ := exec_pure_iff.1 h
      obtain rfl := Except.ok.inj hrs
      exact ⟨rfl, by simp⟩
  | cons i l ih =>
      obtain ⟨tr₁, tr₂, r, s₁, rfl, hone, h₁⟩ := exec_bind_ok_iff.1 h
      obtain ⟨tr₃, tr₄, rs', s₂, rfl, hmore, h₂⟩ := exec_bind_ok_iff.1 h₁
      obtain ⟨rfl, hrs, rfl⟩ := exec_pure_iff.1 h₂
      obtain rfl := Except.ok.inj hrs
      have hx := exec_warnErr_ok hone
      obtain ⟨hnames, heach⟩ := ih hmore (hI hx hs)
      refine ⟨by rw [List.map_cons, hnames], fun j r' hj => ?_⟩
      rcases List.mem_cons.1 hj with hj | hj
      · obtain ⟨rfl, rfl⟩ := Prod.mk.inj hj
        exact ⟨s, tr₁, s₁, hs, (List.prefix_append _ _).isInfix, hx⟩
      · obtain ⟨s₃, tr₅, s₄, hs₃, hpart, hx₅⟩ := heach j r' hj
        refine ⟨s₃, tr₅, s₄, hs₃, hpart.trans ?_, hx₅⟩
        rw [List.append_nil]
        exact (List.suffix_append _ _).isInfix

omit [Capnp] [CryptoSystem] in
theorem within_attemptEach {J : σ → List Event → σ → Prop} (hJ : Composable J) {f : ι → Act σ α}
    (hf : ∀ i, Within J (f i)) (l : List ι) : Within J (attemptEach f l) := by
  induction l with
  | nil => exact Within.pure hJ _
  | cons i l ih => exact (hf i).attempt.bind hJ fun r => ih.bind hJ fun rs => Within.pure hJ _

/-! ## Pulling -/

/-- The calls a pull makes. -/
def PullCall : Call → Prop
  | .db (.trackedPeerVersion _) | .db (.merge _ _) | .randomNonce | .veilid (.crypto _)
  | .veilid (.appCall _ _) | .veilid (.releasePrivateRoute _) => True
  | _ => False

/-- The calls `changes` makes. -/
def ChangesCall : Call → Prop
  | .randomNonce | .veilid (.crypto _) | .veilid (.appCall _ _)
  | .veilid (.releasePrivateRoute _) => True
  | _ => False

theorem within_changes {calls : Call → Prop} (hcalls : ∀ c, ChangesCall c → calls c) (c : Conclave)
    (peer : Peer) (since : Int64) :
    Within (frame id calls) (c.changes peer since : Act σ ChangesResponse) := by
  have hJ : @Composable Call Ret σ (frame id calls) := composable_frame _ _
  refine Within.bind hJ ?_ fun crypto => Within.bind hJ ?_ fun contents =>
    (within_okOr hJ _ _).bind hJ fun target => ?_
  · refine Within.bind hJ ?_ fun vld0 => within_lift hJ _
    exact frame_veilid (hcalls _ trivial)
  · exact Crypto.frame_encode (hcalls .randomNonce trivial) crypto _
  refine Within.bind hJ ?_ fun reply => ?_
  · exact Within.attempt (frame_veilid (hcalls _ trivial))
  cases reply with
  | ok b => exact within_lift hJ _
  | error e =>
      refine Within.bind hJ ?_ fun _ => Within.throw hJ _
      exact Within.attempt (frame_veilid (hcalls _ trivial))

omit [Capnp] [CryptoSystem] in
theorem ChangesCall.pullCall {c : Call} (h : ChangesCall c) : PullCall c := by
  cases c with
  | veilid c => cases c <;> exact h
  | db c => exact absurd h id
  | randomNonce => trivial
  | shutdown => exact h

/-- A pull makes only these calls and does not touch the state of the node. -/
theorem within_pullPeer (c : Conclave) (peer : Peer) :
    Within (frame id PullCall) (DDCP.pullPeer c peer : Act σ (Bool × Int64)) := by
  have hJ : @Composable Call Ret σ (frame id PullCall) := composable_frame _ _
  refine (within_okOr hJ _ _).bind hJ fun st => Within.bind hJ (frame_db trivial) fun tracked => ?_
  split
  · exact Within.pure hJ _
  refine (within_changes (fun _ => ChangesCall.pullCall) c peer tracked).bind hJ fun resp => ?_
  split
  · exact Within.throw hJ _
  · exact Within.bind hJ (frame_db trivial) fun v => Within.pure hJ _

/-- A tick refreshes the peers; what follows are pulls. -/
theorem pullerTick_refreshes {s s' : DDCP} {tr : List Event}
    {r : Except Abort (List (Peer × Except Error (Bool × Int64)))}
    (h : Exec DDCP.pullerTick s tr r s') :
    ∃ tr₁ tr₂ r₁, tr = tr₁ ++ tr₂ ∧ Exec Conclave.refreshPeers s.conclave tr₁ r₁ s'.conclave ∧
      ∀ e ∈ tr₂, PullCall e.1 := by
  have hrefresh : ∀ {tr r s'}, Exec (warnErr (DDCP.onConclave Conclave.refreshPeers)) s tr r s' →
      ∃ r₁, Exec Conclave.refreshPeers s.conclave tr r₁ s'.conclave := by
    intro tr r s' h
    obtain ⟨r₁, hx, _⟩ := exec_attempt h
    obtain ⟨c, hc, rfl⟩ := exec_zoom_iff.1 hx
    exact ⟨r₁, hc⟩
  rcases exec_bind_iff.1 h with ⟨e, _, h₁⟩ | ⟨tr₁, tr₂, a, s₁, rfl, h₁, h₂⟩
  · obtain ⟨r₁, hr⟩ := hrefresh h₁
    exact ⟨tr, [], r₁, by simp, hr, by simp⟩
  obtain ⟨r₁, hr⟩ := hrefresh h₁
  cases a with
  | error e =>
      obtain ⟨rfl, _, rfl⟩ := exec_pure_iff.1 h₂
      exact ⟨tr₁, [], r₁, rfl, hr, by simp⟩
  | ok u =>
      have hget : Exec (get >>= fun s : DDCP => attemptEach (DDCP.pullPeer s.conclave)
        s.conclave.peers) s₁ tr₂ r s' := h₂
      have hpulls := exec_get_bind_iff.1 hget
      obtain ⟨hstate, hcalls⟩ := within_attemptEach (composable_frame _ _)
        (fun peer => within_pullPeer _ peer) _ _ _ _ _ hpulls
      obtain rfl : s' = s₁ := hstate
      exact ⟨tr₁, tr₂, r₁, rfl, hr, hcalls⟩

/-! ## Updates -/

theorem exec_handleAppCall_iff {peerBySender : AList fun _ : String => Peer} {callId : UInt64}
    {message : Bytes} {s s' : DDCP} {tr : List Event} {r : Except Abort (Option Responder)} :
    Exec (DDCP.handleUpdate peerBySender (.appCall callId message)) s tr r s' ↔
      tr = [] ∧ r = s.responderFor peerBySender callId message ∧ s' = s := by
  unfold DDCP.handleUpdate
  rw [exec_get_bind_iff]
  exact Act.exec_lift_iff

/-- A RouteChange is `release_route`; the other updates make no calls and change nothing. -/
theorem exec_handleUpdate {peers : AList fun _ : String => Peer} {u : VeilidUpdate} {s s' : DDCP}
    {tr : List Event} {r : Except Abort (Option Responder)}
    (h : Exec (DDCP.handleUpdate peers u) s tr r s') :
    (u ≠ .routeChange ∧ tr = [] ∧ s' = s) ∨
    (u = .routeChange ∧ ∃ r' sovereign,
      Exec Sovereign.releaseRoute s.conclave.sovereign tr r' sovereign ∧
      s' = ⟨{ s.conclave with sovereign := sovereign }⟩) := by
  cases u with
  | appCall callId message =>
      obtain ⟨rfl, _, rfl⟩ := exec_handleAppCall_iff.1 h
      exact Or.inl ⟨by simp, rfl, rfl⟩
  | shutdown =>
      obtain ⟨rfl, _, rfl⟩ := exec_throw_iff.1 h
      exact Or.inl ⟨by simp, rfl, rfl⟩
  | routeChange =>
      refine Or.inr ⟨rfl, ?_⟩
      rcases exec_bind_iff.1 h with ⟨e, _, h₁⟩ | ⟨tr₁, tr₂, u, s₁, rfl, h₁, h₂⟩
      · obtain ⟨c, hc, rfl⟩ := exec_zoom_iff.1 h₁
        obtain ⟨sovereign, hx, rfl⟩ := exec_zoom_iff.1 hc
        exact ⟨_, sovereign, hx, rfl⟩
      · obtain ⟨c, hc, rfl⟩ := exec_zoom_iff.1 h₁
        obtain ⟨sovereign, hx, rfl⟩ := exec_zoom_iff.1 hc
        obtain ⟨rfl, _, rfl⟩ := exec_pure_iff.1 h₂
        exact ⟨_, sovereign, by simpa using hx, rfl⟩
  | attachment ready =>
      obtain ⟨rfl, _, rfl⟩ := exec_pure_iff.1 h
      exact Or.inl ⟨by simp, rfl, rfl⟩
  | other =>
      obtain ⟨rfl, _, rfl⟩ := exec_pure_iff.1 h
      exact Or.inl ⟨by simp, rfl, rfl⟩

/-! ## Responders -/

/-- The calls a responder makes. -/
def RespondCall : Call → Prop
  | .veilid (.crypto _) | .db .status | .db (.select _) | .randomNonce
  | .veilid (.appCallReply _ _) => True
  | _ => False

/-- The calls made between opening a request and replying to it. -/
def AnswerCall : Call → Prop
  | .db .status | .db (.select _) | .randomNonce => True
  | _ => False

theorem within_answerRequest {calls : Call → Prop} (hcalls : ∀ c, AnswerCall c → calls c)
    (crypto : Crypto) (request : Request) :
    Within (frame id calls) (answerRequest crypto request : Act σ Bytes) := by
  have hJ : @Composable Call Ret σ (frame id calls) := composable_frame _ _
  have hdb : ∀ {c : DbCall}, AnswerCall (.db c) → Within (frame id calls) (Act.db c : Act σ c.Val) :=
    fun hc => frame_db (hcalls _ hc)
  have hencode : ∀ response : Response,
      Within (frame id calls) (crypto.encode response : Act σ Bytes) :=
    Crypto.frame_encode (hcalls .randomNonce trivial) crypto
  cases request with
  | status => exact Within.bind hJ (hdb trivial) fun st => hencode _
  | changes since =>
      refine Within.bind hJ (Within.bind hJ (hdb trivial) fun st => ?_) fun res => hencode _
      obtain ⟨siteId, dbVersion⟩ := st
      by_cases hle : since ≥ dbVersion
      · simp only [hle, if_true]
        exact Within.pure hJ _
      · simp only [hle, if_false]
        exact Within.bind hJ (hdb trivial) fun cs => Within.pure hJ _

omit [Capnp] [CryptoSystem] in
theorem AnswerCall.respondCall {c : Call} (h : AnswerCall c) : RespondCall c := by
  cases c with
  | db c => cases c <;> exact h
  | randomNonce => trivial
  | veilid c => exact h.elim
  | shutdown => exact h

theorem within_responder (r : Responder) :
    Within (frame id RespondCall) (r.run : Act σ Unit) := by
  have hJ : @Composable Call Ret σ (frame id RespondCall) := composable_frame _ _
  refine Within.bind hJ ?_ fun crypto => (within_lift hJ _).bind hJ fun request =>
    (within_answerRequest (fun _ => AnswerCall.respondCall) crypto request).bind hJ fun resp =>
      frame_veilid trivial
  exact Within.bind hJ (frame_veilid trivial) fun vld0 => within_lift hJ _

end Ddcp
