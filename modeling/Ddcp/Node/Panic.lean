import Ddcp.Node.Proofs

set_option autoImplicit false

/-! # Bytes from the network and panics

The only step of the program that can panic on what the network sends is the slice of the nonce in
`Crypto::decode`. `ShortMessage` says of a message that it is an envelope with fewer bytes than a
nonce; the results are that a pull, a tick of the puller and the processing of an `app_call` panic
exactly when they get to such a message. -/

namespace Ddcp

open Method

section Panics

variable [Capnp] {σ α ι : Type}

/-- An envelope whose contents are shorter than a nonce. -/
def ShortMessage (message : Bytes) : Prop :=
  ∃ envelope, decode Envelope message = .ok envelope ∧ envelope.contents.length < NONCE_LENGTH

/-- A reply to an `app_call` that is such a message. -/
def ShortReply : Event → Prop
  | ⟨.veilid (.appCall _ _), r⟩ => ∃ reply : Bytes, r = .ok reply ∧ ShortMessage reply
  | _ => False

/-- `x` panics exactly on a short reply. -/
abbrev PanicsOnShortReply (x : Act σ α) : Prop := x.EndsIff .panic ShortReply

/-! ## Steps that do not panic -/

section Quiet
variable {bad : Event → Prop}

omit [Capnp]

theorem endsIff_veilid {c : VeilidCall}
    (hc : ∀ a : Except VeilidAPIError c.Val, ¬ bad ⟨.veilid c, a⟩) :
    (Act.veilid c : Act σ c.Val).EndsIff .panic bad := by
  intro s tr r s' h
  obtain ⟨a, rfl, rfl, rfl⟩ := Act.exec_veilid_iff.1 h
  have hno : ¬ ∃ e ∈ [(⟨.veilid c, a⟩ : Event)], bad e := by simpa using hc a
  refine iff_of_false ?_ hno
  cases a <;> simp

theorem endsIff_db {c : DbCall} (hc : ∀ a : Except DbError c.Val, ¬ bad ⟨.db c, a⟩) :
    (Act.db c : Act σ c.Val).EndsIff .panic bad := by
  intro s tr r s' h
  obtain ⟨a, rfl, rfl, rfl⟩ := Act.exec_db_iff.1 h
  have hno : ¬ ∃ e ∈ [(⟨.db c, a⟩ : Event)], bad e := by simpa using hc a
  refine iff_of_false ?_ hno
  cases a <;> simp

theorem endsIff_lift {x : Except Abort α} (hx : x ≠ .error .panic) :
    (Act.lift x : Act σ α).EndsIff .panic bad := by
  intro s tr r s' h
  obtain ⟨rfl, rfl, rfl⟩ := Act.exec_lift_iff.1 h
  exact iff_of_false hx (by simp)

theorem endsIff_okOr (e : Error) (o : Option α) :
    (Act.okOr e o : Act σ α).EndsIff .panic bad := by
  cases o with
  | some a => exact EndsIff.pure a
  | none => exact EndsIff.throw (by simp)

theorem endsIff_warnErr {x : Act σ α} (hx : x.EndsIff .panic bad) :
    (warnErr x).EndsIff .panic bad := EndsIff.attempt hx rfl

theorem mapError_err_ne_panic {ε : Type} (x : Except ε α) (f : ε → Error) :
    (x.mapError fun e => Abort.err (f e)) ≠ .error .panic := by
  cases x <;> simp

theorem endsIff_encode [Capnp] [CryptoSystem] [Encodable α] (c : Crypto) (item : α)
    (hnonce : ∀ nonce : Nonce, ¬ bad ⟨.randomNonce, nonce⟩) :
    (c.encode item : Act σ Bytes).EndsIff .panic bad := by
  refine (endsIff_lift (mapError_err_ne_panic _ _)).bind fun key => ?_
  refine EndsIff.bind (EndsIff.perform hnonce) fun nonce => ?_
  exact (endsIff_lift (mapError_err_ne_panic _ _)).bind fun m => EndsIff.pure _

end Quiet

variable [CryptoSystem]

/-! ## Pulling -/

theorem decodeReply_panic_iff (crypto : Crypto) (reply : Bytes) :
    Conclave.decodeReply crypto reply = .error .panic ↔ ShortMessage reply := by
  unfold Conclave.decodeReply ShortMessage
  cases he : decode Envelope reply with
  | error e => simp [bind, Except.bind]
  | ok envelope =>
      rw [show (∃ e, Except.ok envelope = (.ok e : Except CodecError Envelope) ∧
          e.contents.length < NONCE_LENGTH) ↔ envelope.contents.length < NONCE_LENGTH by simp]
      rw [← Crypto.decode_panic_iff (α := Response) crypto envelope.contents]
      show (crypto.decode Response envelope.contents >>= _) = _ ↔ _
      cases crypto.decode Response envelope.contents with
      | error a => simp [bind, Except.bind]
      | ok resp => cases resp <;> simp [bind, Except.bind]

/-- The call itself: it panics on a short reply, and on an error it gives the route back. -/
theorem panicsOnShortReply_callPeer (crypto : Crypto) (target : RouteId) (message : Bytes) :
    PanicsOnShortReply (Conclave.callPeer crypto target message : Act σ ChangesResponse) := by
  intro s tr r s' h
  rcases exec_bind_iff.1 h with ⟨e, rfl, h₁⟩ | ⟨tr₁, tr₂, a, s₁, rfl, h₁, h₂⟩
  · rcases exec_attempt_iff.1 h₁ with ⟨a, ha, _⟩ | ⟨e₁, e₂, _, he, _⟩ | ⟨e₁, hc, he, hx⟩
    · exact absurd ha (by simp)
    · exact absurd he (by simp)
    · -- a Veilid call ends in no panic
      obtain ⟨v, _, hr, _⟩ := Act.exec_veilid_iff.1 hx
      cases v <;> cases hr
      exact absurd hc (by simp [Abort.err?])
  · rcases exec_attempt_iff.1 h₁ with ⟨b, rfl', hx⟩ | ⟨e₁, e₂, _, he, hx⟩ | ⟨e₁, _, he, _⟩
    · obtain ⟨rfl, rfl⟩ := Act.exec_veilid_ok_iff.1 hx
      obtain rfl := Except.ok.inj rfl'
      obtain ⟨rfl, rfl, rfl⟩ := Act.exec_lift_iff.1 h₂
      rw [decodeReply_panic_iff]
      simp [ShortReply]
    · obtain ⟨v, rfl, hr, rfl⟩ := Act.exec_veilid_iff.1 hx
      obtain rfl := Except.ok.inj he
      have hrest : PanicsOnShortReply (σ := σ) (α := ChangesResponse) (do
          let _ ← warnErr (Act.veilid (.releasePrivateRoute target))
          throw (.err e₂)) :=
        (endsIff_warnErr (endsIff_veilid fun a => by simp [ShortReply])).bind fun _ =>
          EndsIff.throw (by simp)
      rw [hrest _ _ _ _ h₂]
      cases v with
      | ok reply => exact absurd hr (by simp)
      | error e => simp [ShortReply]
    · exact absurd he (by simp)

theorem panicsOnShortReply_changes (c : Conclave) (peer : Peer) (since : Int64) :
    PanicsOnShortReply (c.changes peer since : Act σ ChangesResponse) := by
  refine EndsIff.bind ?_ fun crypto => ?_
  · exact (endsIff_veilid fun a => by simp [ShortReply]).bind fun vld0 =>
      endsIff_lift (cryptoWith_ne_panic c peer vld0)
  refine (endsIff_encode crypto _ fun nonce => by simp [ShortReply]).bind fun contents => ?_
  exact (endsIff_okOr _ _).bind fun target => panicsOnShortReply_callPeer _ _ _

theorem panicsOnShortReply_pullFrom (c : Conclave) (peer : Peer) (st : NodeStatus) :
    PanicsOnShortReply (DDCP.pullFrom c peer st : Act σ (Bool × Int64)) := by
  refine (endsIff_db fun a => by simp [ShortReply]).bind fun tracked => ?_
  split
  · exact EndsIff.pure _
  · refine (panicsOnShortReply_changes c peer tracked).bind fun resp => ?_
    split
    · exact EndsIff.throw (by simp)
    · exact (endsIff_db fun a => by simp [ShortReply]).bind fun v => EndsIff.pure _

omit [CryptoSystem] in
theorem panicsOnShortReply_attemptEach {f : ι → Act σ α} (hf : ∀ i, PanicsOnShortReply (f i))
    (l : List ι) : PanicsOnShortReply (attemptEach f l) := by
  induction l with
  | nil => exact EndsIff.pure _
  | cons i l ih => exact (endsIff_warnErr (hf i)).bind fun r => ih.bind fun rs => EndsIff.pure _

/-! ## Refreshing -/

omit [CryptoSystem] in
theorem panicsOnShortReply_closeRecord (dht : Option DHTRecordDescriptor) :
    PanicsOnShortReply (Act.closeRecord dht : Act σ Unit) := by
  cases dht with
  | some dht => exact endsIff_veilid fun a => by simp [ShortReply]
  | none => exact EndsIff.pure _

omit [CryptoSystem] in
theorem panicsOnShortReply_refreshDht : PanicsOnShortReply Peer.refreshDht := by
  refine EndsIff.get.bind fun p => ?_
  refine (panicsOnShortReply_closeRecord p.dht).bind fun _ => ?_
  refine (endsIff_veilid fun a => by simp [ShortReply]).bind fun dht => ?_
  refine (EndsIff.modify _).bind fun _ => ?_
  refine (endsIff_veilid fun a => by simp [ShortReply]).bind fun value => ?_
  cases value with
  | some data =>
      exact (endsIff_lift (mapError_err_ne_panic _ _)).bind fun st => EndsIff.modify _
  | none => exact EndsIff.modify _

omit [CryptoSystem] in
theorem panicsOnShortReply_onPeer_refresh (name : String) :
    PanicsOnShortReply (Conclave.onPeer name Peer.refresh) := by
  have hrefresh : PanicsOnShortReply Peer.refresh := by
    refine panicsOnShortReply_refreshDht.bind fun _ => EndsIff.bind ?_ fun _ => ?_
    · refine EndsIff.get.bind fun p => ?_
      split
      · refine (endsIff_veilid fun a => by simp [ShortReply]).bind fun routeId => ?_
        exact EndsIff.modify _
      · exact EndsIff.pure _
    · exact EndsIff.get.bind fun p => EndsIff.pure _
  refine EndsIff.get.bind fun c => ?_
  split
  · exact EndsIff.pure _
  · exact (EndsIff.zoom hrefresh).bind fun a => EndsIff.pure _

omit [CryptoSystem] in
theorem panicsOnShortReply_refreshPeers : PanicsOnShortReply Conclave.refreshPeers :=
  EndsIff.get.bind fun _ => EndsIff.forM fun name =>
    (panicsOnShortReply_onPeer_refresh name).bind fun _ => EndsIff.pure _

theorem panicsOnShortReply_pullerTick : PanicsOnShortReply DDCP.pullerTick := by
  refine (endsIff_warnErr (EndsIff.zoom panicsOnShortReply_refreshPeers)).bind
    fun r => ?_
  cases r with
  | error e => exact EndsIff.pure _
  | ok u =>
      refine EndsIff.get.bind fun s => panicsOnShortReply_attemptEach (fun peer => ?_) _
      exact (endsIff_okOr _ _).bind fun st => panicsOnShortReply_pullFrom _ _ _

/-! ## The puller's loop -/

/-- The tick came to its end: the refresh failed, or every peer was tried in turn, and what is noted
    of each is how its pull ended. -/
def TickCompletes (s : DDCP) (tr : List Event)
    (r : Except Abort (List (Peer × Except Error (Bool × Int64)))) (s' : DDCP) : Prop :=
  (r = .ok [] ∧ ∃ e, Exec Conclave.refreshPeers s.conclave tr (.error (.err e)) s'.conclave) ∨
  ∃ tr₁ tr₂ rs, tr = tr₁ ++ tr₂ ∧ Exec Conclave.refreshPeers s.conclave tr₁ (.ok ()) s'.conclave ∧
    r = .ok rs ∧ rs.map Prod.fst = s'.conclave.peers ∧ ∀ peer res, (peer, res) ∈ rs →
      ∃ tr₃, tr₃ <:+: tr₂ ∧ Exec (DDCP.pullPeer s'.conclave peer) s' tr₃
        (res.mapError Abort.err) s'

theorem TickCompletes.not_panic {s s' : DDCP} {tr : List Event}
    {r : Except Abort (List (Peer × Except Error (Bool × Int64)))} (h : TickCompletes s tr r s') :
    r ≠ .error .panic := by
  rcases h with ⟨rfl, _⟩ | ⟨_, _, rs, _, _, rfl, _⟩ <;> simp

theorem exec_pullerTick {s s' : DDCP} {tr : List Event}
    {r : Except Abort (List (Peer × Except Error (Bool × Int64)))}
    (h : Exec DDCP.pullerTick s tr r s') : r = .error .panic ∨ TickCompletes s tr r s' := by
  rcases exec_bind_iff.1 h with ⟨e, rfl, h₁⟩ | ⟨tr₁, tr₂, a, s₁, rfl, h₁, h₂⟩
  · obtain ⟨rfl, _⟩ := exec_warnErr_error h₁
    exact Or.inl rfl
  obtain ⟨c₁, hrefresh, rfl⟩ := exec_zoom_iff.1 (exec_warnErr_ok h₁)
  cases a with
  | error e =>
      obtain ⟨rfl, rfl, rfl⟩ := exec_pure_iff.1 h₂
      exact Or.inr (Or.inl ⟨rfl, e, by rwa [List.append_nil]⟩)
  | ok u =>
      have hget : Exec (get >>= fun s : DDCP => attemptEach (DDCP.pullPeer s.conclave)
        s.conclave.peers) ⟨c₁⟩ tr₂ r s' := h₂
      have hpulls := exec_get_bind_iff.1 hget
      obtain rfl : s' = ⟨c₁⟩ := (within_attemptEach (composable_frame _ _)
        (fun peer => within_pullPeer _ peer) _ _ _ _ _ hpulls).1
      cases r with
      | error e =>
          obtain rfl := exec_attemptEach_error hpulls
          exact Or.inl rfl
      | ok rs =>
          -- a pull leaves the conclave as it is
          have hsame : ∀ {peer : Peer} {s₂ s₃ : DDCP} {tr : List Event}
              {r : Except Abort (Bool × Int64)},
              Exec (DDCP.pullPeer c₁ peer) s₂ tr r s₃ → s₂ = ⟨c₁⟩ → s₃ = ⟨c₁⟩ :=
            fun hx heq => (within_pullPeer _ _ _ _ _ _ hx).1.trans heq
          obtain ⟨hpeers, heach⟩ := exec_attemptEach_ok (I := fun s₂ => s₂ = ⟨c₁⟩) hsame hpulls rfl
          refine Or.inr (Or.inr ⟨tr₁, tr₂, rs, rfl, hrefresh, rfl, hpeers, fun peer res hmem => ?_⟩)
          obtain ⟨s₂, tr₃, s₃, rfl, hpart, hx⟩ := heach peer res hmem
          obtain rfl := hsame hx rfl
          exact ⟨tr₃, hpart, hx⟩

/-! ## Answering -/

/-- What becomes of an `app_call`, with the responder it spawns. -/
def onAppCall (peerBySender : AList fun _ : String => Peer) (callId : UInt64) (message : Bytes) :
    Act DDCP Unit := do
  let responder ← DDCP.handleUpdate peerBySender (.appCall callId message)
  match responder with
  | some r => r.run
  | none => pure ()

/-- The crypto system was there to open contents shorter than a nonce from a peer whose key is
    known. -/
def OpensShort (peer : Peer) (contents : Bytes) : Event → Prop
  | ⟨.veilid (.crypto _), a⟩ => (∃ vld0 : Unit, a = .ok (some vld0)) ∧
      (∃ key, peer.authKey = .ok (some key)) ∧ contents.length < NONCE_LENGTH
  | _ => False

omit [Capnp] in
theorem OpensShort.short {peer : Peer} {contents : Bytes} {e : Event}
    (h : OpensShort peer contents e) : contents.length < NONCE_LENGTH := by
  unfold OpensShort at h
  split at h
  · exact h.2.2
  · exact h.elim

/-- With its crypto and contents as long as a nonce, a responder does not panic. -/
theorem respond_endsIff (r : Responder) (crypto : Crypto)
    (hlen : ¬ r.envelope.contents.length < NONCE_LENGTH) :
    (r.respond crypto : Act σ Unit).EndsIff .panic fun _ => False := by
  refine (endsIff_lift fun hp => hlen ((Crypto.decode_panic_iff crypto _).1 hp)).bind
    fun request => EndsIff.bind ?_ fun resp => endsIff_veilid fun a => id
  cases request with
  | status => exact (endsIff_db fun a => id).bind fun st => endsIff_encode _ _ fun nonce => id
  | changes since =>
      refine EndsIff.bind ((endsIff_db fun a => id).bind fun st => ?_) fun res =>
        endsIff_encode _ _ fun nonce => id
      obtain ⟨siteId, dbVersion⟩ := st
      by_cases hle : since ≥ dbVersion
      · simp only [hle, if_true]
        exact EndsIff.pure _
      simp only [hle, if_false]
      exact (endsIff_db fun a => id).bind fun cs => EndsIff.pure _

/-- A responder panics exactly when it opens contents shorter than a nonce. -/
theorem responder_endsIff (r : Responder) :
    (r.run : Act σ Unit).EndsIff .panic (OpensShort r.peer r.envelope.contents) := by
  intro s tr res s' h
  rcases exec_bind_iff.1 h with ⟨e, rfl, h₁⟩ | ⟨tr₁, tr₂, crypto, s₁, rfl, h₁, h₂⟩
  · obtain ⟨a, rfl, _, hr⟩ := exec_crypto_iff.1 h₁
    -- without a crypto nothing is opened
    have hno : ¬ OpensShort r.peer r.envelope.contents
        ⟨.veilid (.crypto CRYPTO_KIND_VLD0), a⟩ := by
      rintro ⟨⟨vld0, rfl⟩, ⟨key, hkey⟩, _⟩
      have hok : r.conclave.cryptoWith r.peer (some vld0) = .ok ⟨_, key⟩ :=
        cryptoWith_ok_iff.2 ⟨rfl, key, hkey, rfl⟩
      exact absurd (hr.trans hok) (by simp)
    refine iff_of_false (fun hp => ?_) (by simpa using hno)
    rw [Except.error.inj hp] at hr
    cases a with
    | error e => exact absurd hr (by simp [bind, Except.bind])
    | ok vld0 => exact cryptoWith_ne_panic _ _ _ hr.symm
  · obtain ⟨a, rfl, _, hr⟩ := exec_crypto_iff.1 h₁
    cases a with
    | error e => exact absurd hr (by simp [bind, Except.bind])
    | ok vld0 =>
    obtain ⟨rfl, key, hkey, _⟩ := cryptoWith_ok_iff.1 hr.symm
    by_cases hshort : r.envelope.contents.length < NONCE_LENGTH
    · have hpanic := (Crypto.decode_panic_iff (α := Request) crypto r.envelope.contents).2 hshort
      refine iff_of_true ?_ ⟨_, List.mem_cons_self, ⟨(), rfl⟩, ⟨key, hkey⟩, hshort⟩
      rcases exec_bind_iff.1 h₂ with ⟨e, rfl, h₃⟩ | ⟨_, _, request, _, _, h₃, _⟩
      · have he := (Act.exec_lift_iff.1 h₃).2.1
        rw [hpanic] at he
        rw [Except.error.inj he]
      · have he := (Act.exec_lift_iff.1 h₃).2.1
        exact absurd (he.trans hpanic) (by simp)
    · -- nothing after the crypto panics
      have hquiet := respond_endsIff r crypto hshort s₁ tr₂ res s' h₂
      refine iff_of_false (fun hp => by simpa using hquiet.1 hp) ?_
      rintro ⟨e, _, hb⟩
      exact hshort hb.short

/-- An `app_call` panics exactly when its message is an envelope from a known peer whose key is
    known and whose contents are shorter than a nonce, and the crypto system is there. -/
def OpensShortCall (peerBySender : AList fun _ : String => Peer) (message : Bytes)
    (tr : List Event) : Prop :=
  ∃ envelope peer, decode Envelope message = .ok envelope ∧
    peerBySender.lookup envelope.sender = some peer ∧
    ∃ e ∈ tr, OpensShort peer envelope.contents e

theorem exec_onAppCall {peerBySender : AList fun _ : String => Peer} {callId : UInt64}
    {message : Bytes} {s s' : DDCP} {tr : List Event} {r : Except Abort Unit}
    (h : Exec (onAppCall peerBySender callId message) s tr r s') :
    r = .error .panic ↔ OpensShortCall peerBySender message tr := by
  unfold OpensShortCall
  rcases exec_bind_iff.1 h with ⟨e, rfl, h₁⟩ | ⟨tr₁, tr₂, o, s₁, rfl, h₁, h₂⟩
  · -- the message is no envelope
    obtain ⟨_, hr, _⟩ := exec_handleAppCall_iff.1 h₁
    unfold DDCP.responderFor at hr
    cases hd : decode Envelope message with
    | error e' =>
        simp only [hd, Except.error.injEq] at hr
        simp [hr]
    | ok envelope => simp [hd] at hr
  · obtain ⟨rfl, hr, rfl⟩ := exec_handleAppCall_iff.1 h₁
    unfold DDCP.responderFor at hr
    cases hd : decode Envelope message with
    | error e' => simp [hd] at hr
    | ok envelope =>
        simp only [hd, Except.ok.injEq] at hr
        cases hl : peerBySender.lookup envelope.sender with
        | none =>
            rw [hl] at hr
            subst hr
            obtain ⟨_, rfl, _⟩ := exec_pure_iff.1 h₂
            simp [hl]
        | some peer =>
            rw [hl] at hr
            subst hr
            rw [responder_endsIff _ _ _ _ _ h₂]
            simp [hl]

/-- **Where bytes from the network panic.** An `app_call` panics exactly on contents shorter than a
    nonce from a peer whose key is known; a pull, and with it the tick of the puller, exactly on
    such a reply. On anything else the tick comes to its end: unless its refresh fails, it has tried
    every peer. -/
theorem network_panic_iff :
    (∀ (peerBySender : AList fun _ : String => Peer) callId message (s s' : DDCP) tr r,
      Exec (onAppCall peerBySender callId message) s tr r s' →
      (r ≠ .error .panic ↔ ¬ OpensShortCall peerBySender message tr)) ∧
    (∀ (c : Conclave) peer st (s s' : DDCP) tr r,
      Exec (DDCP.pullFrom c peer st) s tr r s' →
      (r ≠ .error .panic ↔ ∀ e ∈ tr, ¬ ShortReply e)) ∧
    ∀ (s s' : DDCP) tr r, Exec DDCP.pullerTick s tr r s' →
      (TickCompletes s tr r s' ↔ ∀ e ∈ tr, ¬ ShortReply e) := by
  have hneg : ∀ tr : List Event, (∀ e ∈ tr, ¬ ShortReply e) ↔ ¬ ∃ e ∈ tr, ShortReply e := by
    intro tr
    push Not
    rfl
  refine ⟨fun peers callId message s s' tr r h => not_congr (exec_onAppCall h),
    fun c peer st s s' tr r h => ?_, fun s s' tr r h => ?_⟩
  · rw [hneg]
    exact not_congr (panicsOnShortReply_pullFrom c peer st s tr r s' h)
  · rw [hneg, ← panicsOnShortReply_pullerTick s tr r s' h]
    rcases exec_pullerTick h with rfl | hc
    · exact iff_of_false (fun hc => hc.not_panic rfl) (by simp)
    · exact iff_of_true hc hc.not_panic

end Panics

section Example
attribute [local instance] plainCapnp plainCrypto

/-- A peer that has published a status of version 5 and answers with an envelope without contents. -/
def emptyReplies : CalmEnv where
  value _ := some (encode (NodeStatus.mk [1] 5 (PlainCrypto.keyToString ⟨[], []⟩) []))
  reply _ := encode (Envelope.mk "" [])
  dbStatus := ([], 0)
  tracked _ := 0
  rows := []

/-- A node with one peer, whose key it knows already. -/
def nodeWithPeer : DDCP where
  conclave := {
    sovereign := ⟨⟨[], []⟩, ⟨[], ⟨[], []⟩⟩, none, none⟩
    remotes := (∅ : AList fun _ : String => Peer).insert "p" {
      name := "p"
      dhtKey := ⟨[], [1]⟩
      dht := none
      nodeStatus := some ⟨[1], 5, PlainCrypto.keyToString ⟨[], []⟩, []⟩
      routeId := none } }

theorem network_panic_iff_empty_reply : ∃ s' tr,
    Exec DDCP.pullerTick nodeWithPeer tr (.error .panic) s' ∧ ∃ e ∈ tr, ShortReply e := by
  have h := exec_traceOn emptyReplies.handler DDCP.pullerTick nodeWithPeer ()
  have hr : (runOn emptyReplies.handler DDCP.pullerTick nodeWithPeer ()).1.1 = .error .panic := rfl
  rw [hr] at h
  refine ⟨_, _, h, ?_⟩
  have hiff := network_panic_iff.2.2 _ _ _ _ h
  by_contra hno
  push Not at hno
  exact (hiff.2 hno).not_panic rfl

/-- An envelope without contents, as the reply to a pull or as the message of an `app_call`. -/
theorem network_panics : ∃ (s s' s'' : DDCP) (peerBySender : AList fun _ : String => Peer)
    (callId : UInt64) (message : Bytes) (tr tr' : List Event),
    Exec DDCP.pullerTick s tr (.error .panic) s' ∧
    Exec (onAppCall peerBySender callId message) s tr' (.error .panic) s'' := by
  have h := exec_traceOn emptyReplies.handler DDCP.pullerTick nodeWithPeer ()
  have hr : (runOn emptyReplies.handler DDCP.pullerTick nodeWithPeer ()).1.1 = .error .panic := rfl
  rw [hr] at h
  let message : Bytes := encode (Envelope.mk (PlainCrypto.keyToString ⟨[], [1]⟩) [])
  have h' := exec_traceOn emptyReplies.handler
    (onAppCall nodeWithPeer.peerByKey 0 message) nodeWithPeer ()
  have hr' : (runOn emptyReplies.handler (onAppCall nodeWithPeer.peerByKey 0 message)
      nodeWithPeer ()).1.1 = .error .panic := rfl
  rw [hr'] at h'
  exact ⟨nodeWithPeer, _, _, nodeWithPeer.peerByKey, 0, message, _, _, h, h'⟩

end Example

end Ddcp
