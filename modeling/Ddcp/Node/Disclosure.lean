import Ddcp.Node.Replies
import Ddcp.Replication.Conversation

set_option autoImplicit false

/-! # What a serving node lets out

Bytes leave a node in three ways: with `set_dht_value`, where everybody can read them, with
`app_call` and with `app_call_reply`. Its loops keep the protocol of `nodeProtocol`, each on its
own, and so what they let out is told by what they have been told: a status of the database that the
loop has read, and requests sealed for a key that it has found in the DHT. Rows of the database are
read only by responders, and nobody else replies. -/

namespace Ddcp

open Method Lts History

/-! ## In the light of what a task has been told -/

section Told
variable [Capnp]

/-- The task `a` has found the status under the key, before the history or in it. -/
def Found (known : TypedKey → NodeStatus → Prop) (a : Actor) (h : List (Actor × Event))
    (key : TypedKey) (ns : NodeStatus) : Prop :=
  known key ns ∨ ∃ subkey force data,
    (a, ⟨.veilid (.getDhtValue key subkey force), .ok (some data)⟩) ∈ h ∧
    decode NodeStatus data = .ok ns

/-- The task may ask for the changes since a version: it is the cursor for a status it has found,
    and below it. -/
structure AsksSince (known : TypedKey → NodeStatus → Prop) (a : Actor) (h : List (Actor × Event))
    (key : TypedKey) (ns : NodeStatus) (since : Int64) : Prop where
  found : Found known a h key ns
  cursor : (a, ⟨.db (.trackedPeerVersion ns.siteId), .ok since⟩) ∈ h
  below : since < ns.dbVersion

variable {known : TypedKey → NodeStatus → Prop} {a : Actor} {h h' : List (Actor × Event)}
  {key : TypedKey} {ns : NodeStatus} {since : Int64}

theorem Found.mono (hf : Found known a h key ns) (hsub : h ⊆ h') : Found known a h' key ns :=
  hf.imp_right fun ⟨subkey, force, data, hmem, hns⟩ => ⟨subkey, force, data, hsub hmem, hns⟩

theorem AsksSince.mono (ha : AsksSince known a h key ns since) (hsub : h ⊆ h') :
    AsksSince known a h' key ns since :=
  ⟨ha.found.mono hsub, hsub ha.cursor, ha.below⟩

variable [CryptoSystem]

/-- What a call says, after the history `h` of a node that started as `ddcp`: the own status, which
    has been read; a request for changes, sealed for the key in a status that has been found. What
    is merged is what the reply to a call decodes to. Only responders read rows, and reply. -/
def Told (ddcp : DDCP) (known : TypedKey → NodeStatus → Prop) (h : List (Actor × Event)) (a : Actor) :
    Call → Prop
  | .veilid (.setDhtValue key _ data) => key = ddcp.conclave.sovereign.dhtKey ∧ ∃ ns : NodeStatus,
      data = encode ns ∧ (a, ⟨.db .status, .ok (ns.siteId, ns.dbVersion)⟩) ∈ h ∧
      ns.key = CryptoSystem.keyToString ⟨ddcp.conclave.sovereign.dhtOwnerKeypair.kind,
        ddcp.conclave.sovereign.dhtOwnerKeypair.value.key⟩
  | .veilid (.appCall _ message) => ∃ key ns since recipient contents,
      AsksSince known a h key ns since ∧ CryptoSystem.keyFromStr ns.key = .ok recipient ∧
      message = encode (Envelope.mk ddcp.addr contents) ∧
      Crypto.Seals ⟨ddcp.conclave.sovereign.dhtOwnerKeypair, recipient⟩
        (encode (Request.changes since)) contents
  | .db (.merge siteId changes) => ∃ key ns since target message reply recipient,
      AsksSince known a h key ns since ∧
      (a, ⟨.veilid (.appCall target message), .ok reply⟩) ∈ h ∧ siteId = ns.siteId ∧
      CryptoSystem.keyFromStr ns.key = .ok recipient ∧
      Conclave.decodeReply ⟨ddcp.conclave.sovereign.dhtOwnerKeypair, recipient⟩ reply =
        .ok ⟨siteId, changes⟩
  | .veilid (.appCallReply _ _) => a = .responder
  | .db (.select _) => a = .responder
  | _ => True

theorem Told.mono {ddcp : DDCP} {c : Call} (ht : Told ddcp known h a c) (hsub : h ⊆ h') :
    Told ddcp known h' a c := by
  cases c with
  | veilid c =>
      cases c with
      | setDhtValue key subkey data =>
          obtain ⟨hkey, ns, hdata, hread, hns⟩ := ht
          exact ⟨hkey, ns, hdata, hsub hread, hns⟩
      | appCall target message =>
          obtain ⟨key, ns, since, recipient, contents, hask, hrest⟩ := ht
          exact ⟨key, ns, since, recipient, contents, hask.mono hsub, hrest⟩
      | _ => exact ht
  | db c =>
      cases c with
      | merge siteId changes =>
          obtain ⟨key, ns, since, target, message, reply, recipient, hask, hmem, hrest⟩ := ht
          exact ⟨key, ns, since, target, message, reply, recipient, hask.mono hsub, hsub hmem, hrest⟩
      | _ => exact ht
  | _ => exact ht

/-- Calls that say nothing to anybody. -/
def Silent : Call → Prop
  | .veilid (.setDhtValue _ _ _) | .veilid (.appCall _ _) | .veilid (.appCallReply _ _)
  | .db (.merge _ _) | .db (.select _) => False
  | _ => True

omit [Capnp] [CryptoSystem] in
theorem CloseCall.silent {c : Call} (hc : CloseCall c) : Silent c := by
  cases c with
  | veilid c =>
      cases c with
      | setDhtValue => exact hc
      | appCall => exact hc
      | appCallReply => exact hc
      | _ => trivial
  | db c => exact hc.elim
  | _ => trivial

theorem Silent.told {ddcp : DDCP} {c : Call} (hc : Silent c) : Told ddcp known h a c := by
  cases c with
  | veilid c =>
      cases c with
      | setDhtValue => exact hc.elim
      | appCall => exact hc.elim
      | appCallReply => exact hc.elim
      | _ => trivial
  | db c =>
      cases c with
      | merge => exact hc.elim
      | select => exact hc.elim
      | _ => trivial
  | _ => trivial

theorem RespondCall.told {ddcp : DDCP} {c : Call} (hc : RespondCall c) :
    Told ddcp known h .responder c := by
  cases c with
  | veilid c =>
      cases c with
      | crypto => trivial
      | appCallReply => exact rfl
      | _ => exact hc.elim
  | db c =>
      cases c with
      | status => trivial
      | select => exact rfl
      | _ => exact hc.elim
  | _ => trivial

end Told

/-! ## A task and the protocol -/

section Task
variable [Capnp] [CryptoSystem]

omit [Capnp] [CryptoSystem] in
/-- The node by itself: what is promised about the routes of others means nothing here. -/
def DDCP.setup (ddcp : DDCP) : Setup Unit where
  site _ := []
  dhtKey _ := ddcp.conclave.sovereign.dhtKey
  keys _ := ddcp.conclave.sovereign.dhtOwnerKeypair
  home _ := ()
  owner _ := ()

/-- The protocol stands where the history of the task has brought it. -/
structure Grounded (known : TypedKey → NodeStatus → Prop) (a : Actor) (h : List (Actor × Event))
    (q : Talk) : Prop where
  found : ∀ key ns, q.known key ns → Found known a h key ns
  read : ∀ st, q.read st → (a, ⟨.db .status, .ok (st.siteId, st.dbVersion)⟩) ∈ h
  asked : ∀ key ns since, q.stage = .asked key ns since → AsksSince known a h key ns since
  replied : ∀ key ns since reply, q.stage = .replied key ns since reply →
    AsksSince known a h key ns since ∧
    ∃ target message, (a, ⟨.veilid (.appCall target message), .ok reply⟩) ∈ h

variable {ddcp : DDCP} {known : TypedKey → NodeStatus → Prop} {a : Actor}
  {h h' : List (Actor × Event)} {q q' : Talk} {e : Event}

omit [CryptoSystem] in
theorem Grounded.mono (hq : Grounded known a h q) (hsub : h ⊆ h') : Grounded known a h' q where
  found key ns hk := (hq.found key ns hk).mono hsub
  read st hs := hsub (hq.read st hs)
  asked key ns since hs := (hq.asked key ns since hs).mono hsub
  replied key ns since reply hs := by
    obtain ⟨hask, target, message, hmem⟩ := hq.replied key ns since reply hs
    exact ⟨hask.mono hsub, target, message, hsub hmem⟩

/-- A call and its answer are in the history afterwards. -/
theorem Grounded.next (hq : Grounded known a h q)
    (hn : (nodeProtocol ddcp.setup ()).next q e q') : Grounded known a (h ++ [(a, e)]) q' := by
  obtain ⟨stage, hmoves, rfl⟩ := hn
  have hold := hq.mono (List.subset_append_left h [(a, e)])
  have hlast : (a, e) ∈ h ++ [(a, e)] := by simp
  refine ⟨fun key ns hk => ?_, fun st hs => ?_, fun key ns since hs => ?_,
    fun key ns since reply hs => ?_⟩
  · rcases hk with hk | ⟨subkey, force, data, rfl, hns⟩
    · exact hold.found key ns hk
    · exact Or.inr ⟨subkey, force, data, hlast, hns⟩
  · rcases hs with hs | rfl
    · exact hold.read st hs
    · exact hlast
  · change stage = _ at hs
    cases hmoves with
    | idle => exact absurd hs (by simp)
    | stay => exact hold.asked key ns since hs
    | ask hknown hlt =>
        obtain ⟨rfl, rfl, rfl⟩ := Stage.asked.inj hs
        exact ⟨hold.found _ _ hknown, hlast, hlt⟩
    | reply => exact absurd hs (by simp)
  · change stage = _ at hs
    cases hmoves with
    | idle => exact absurd hs (by simp)
    | stay => exact hold.replied key ns since reply hs
    | ask => exact absurd hs (by simp)
    | reply hasked =>
        obtain ⟨rfl, rfl, rfl, rfl⟩ := Stage.replied.inj hs
        exact ⟨hold.asked _ _ _ hasked, _, _, hlast⟩

/-- What the protocol allows has been told. -/
theorem Grounded.told (hq : Grounded known a h q) {c : Call} (hc : Talk.May ddcp.setup () q c) :
    Told ddcp known h a c := by
  cases c with
  | veilid c =>
      cases c with
      | setDhtValue key subkey data =>
          obtain ⟨hkey, ns, hdata, hread, hns, _⟩ := hc
          exact ⟨hkey, ns, hdata, hq.read _ hread, hns⟩
      | appCall target message =>
          obtain ⟨key, ns, since, _, recipient, contents, hstage, _, _, hkey, hm, hseals⟩ := hc
          exact ⟨key, ns, since, recipient, contents, hq.asked _ _ _ hstage, hkey, hm, hseals⟩
      | appCallReply => exact hc.elim
      | _ => trivial
  | db c =>
      cases c with
      | merge siteId changes =>
          obtain ⟨key, ns, since, reply, recipient, hstage, hsite, hkey, hdecode⟩ := hc
          obtain ⟨hask, target, message, hmem⟩ := hq.replied _ _ _ _ hstage
          exact ⟨key, ns, since, target, message, reply, recipient, hask, hmem, hsite, hkey, hdecode⟩
      | select => exact hc.elim
      | _ => trivial
  | _ => trivial

/-- A loop of the node, between its rounds or in one. -/
def Loop.Talks {β : Type} (ddcp : DDCP) (known : TypedKey → NodeStatus → Prop) (a : Actor)
    (h : List (Actor × Event)) (l : Loop β) : Prop :=
  ∃ q, Grounded known a h q ∧ (∀ s, l = .idle s → s.conclave.Informed ddcp.setup () q.known) ∧
    ∀ p, l = .busy p → Prog.Follows (nodeProtocol ddcp.setup ())
      (fun q r => r.2.conclave.Informed ddcp.setup () q.known) p q

theorem Loop.Talks.mono {β : Type} {l : Loop β} (hl : l.Talks ddcp known a h) (hsub : h ⊆ h') :
    l.Talks ddcp known a h' := by
  obtain ⟨q, hq, hidle, hbusy⟩ := hl
  exact ⟨q, hq.mono hsub, hidle, hbusy⟩

/-- **The step lemma** for a loop whose rounds keep the protocol. -/
theorem Loop.Talks.step {β : Type} {l l' : Loop β} {es : List Event} {rs : List β}
    {rounds : DDCP → Prog Call Ret (Except Abort β × DDCP) → Prop} {stops : Prop}
    (hl : l.Talks ddcp known a h) (hs : Loop.Step rounds stops l es rs l')
    (hrounds : ∀ s p q, rounds s p → s.conclave.Informed ddcp.setup () q.known →
      Prog.Follows (nodeProtocol ddcp.setup ())
        (fun q r => r.2.conclave.Informed ddcp.setup () q.known) p q) :
    l'.Talks ddcp known a (h ++ es.map (a, ·)) ∧ ∀ e ∈ es, Told ddcp known h a e.1 := by
  obtain ⟨q, hq, hidle, hbusy⟩ := hl
  have hq' := hq.mono (List.subset_append_left h (List.map (a, ·) []))
  cases hs with
  | @start s p hp =>
      refine ⟨⟨q, hq', fun s hs => absurd hs (by simp), fun p' hp' => ?_⟩, by simp⟩
      obtain rfl := Loop.busy.inj hp'
      exact hrounds s p q hp (hidle s rfl)
  | @call p p' e hstep =>
      have hfollows := hbusy p rfl
      have hmay : Talk.May ddcp.setup () q e.1 := by
        cases hstep with
        | call c k r => exact hfollows.1
      obtain ⟨q₁, hnext, hrest⟩ := hfollows.step hstep ⟨fun _ _ _ => rfl, fun _ _ _ => rfl⟩
      refine ⟨⟨q₁, hq.next hnext, fun s hs => absurd hs (by simp), fun p'' hp'' => ?_⟩, ?_⟩
      · exact Loop.busy.inj hp'' ▸ hrest
      · intro e' he'
        rw [List.mem_singleton.1 he']
        exact hq.told hmay
  | done =>
      refine ⟨⟨q, hq', fun s' hs' => ?_, fun p hp => absurd hp (by simp)⟩, by simp⟩
      exact Loop.idle.inj hs' ▸ hbusy _ rfl
  | failed =>
      refine ⟨⟨q, hq', fun s' hs' => ?_, fun p hp => absurd hp (by simp)⟩, by simp⟩
      exact Loop.idle.inj hs' ▸ hbusy _ rfl
  | panicked =>
      exact ⟨⟨q, hq', fun s' hs' => absurd hs' (by simp), fun p hp => absurd hp (by simp)⟩, by simp⟩
  | stop =>
      exact ⟨⟨q, hq', fun s' hs' => absurd hs' (by simp), fun p hp => absurd hp (by simp)⟩, by simp⟩

end Task

/-! ## Every run -/

section Run
variable [Capnp] [CryptoSystem] {ddcp : DDCP} {known : TypedKey → NodeStatus → Prop}

/-- Both loops keep the protocol, and the other tasks keep to their own calls. -/
structure DisclosureInv (ddcp : DDCP) (known : TypedKey → NodeStatus → Prop) (σ : Process) :
    Prop where
  puller : σ.puller.Talks ddcp known .puller σ.log
  server : σ.server.Talks ddcp known .server σ.log
  responders : ∀ p ∈ σ.responders, p.Only RespondCall
  main : ∀ p, σ.main = .cleaning p → p.Only Silent
  told : Always (fun h e => Told ddcp known h e.1 e.2.1) σ.log

omit [Capnp] [CryptoSystem] in
theorem only_cleanup_silent (s : DDCP) : (DDCP.cleanup s).Only Silent := by
  have hJ : ∀ {σ : Type}, @Composable Call Ret σ (frame (fun _ => ()) Silent) := fun {σ} =>
    @composable_frame Call Ret σ _ _ _
  have hclose : Within (frame (fun _ : Conclave => ()) Silent) Conclave.close :=
    fun c tr r c' h => ⟨rfl, fun e he => ((within_close _ _ _ _ h).2 e he).silent⟩
  refine (Within.bind hJ (Within.zoom (fun _ _ _ h => ⟨rfl, h.2⟩) hclose).attempt fun _ =>
    Within.bind hJ ?_ fun _ => frame_db (by trivial)).only
  exact Within.perform fun _ _ => ⟨rfl, by simp [Silent]⟩

theorem only_spawned_respond {rs : List (Option Responder)} :
    ∀ p ∈ Process.spawned rs, p.Only RespondCall := by
  intro p hp
  obtain ⟨o, _, ho⟩ := List.mem_filterMap.1 hp
  obtain ⟨r, rfl, rfl⟩ := Option.map_eq_some_iff.1 ho
  exact (within_responder r).only

/-- The log goes on with calls of one task. -/
theorem always_told {h : List (Actor × Event)} {a : Actor} {es : List Event}
    (hold : Always (fun h e => Told ddcp known h e.1 e.2.1) h)
    (hes : ∀ e ∈ es, Told ddcp known h a e.1) :
    Always (fun h e => Told ddcp known h e.1 e.2.1) (h ++ es.map (a, ·)) := by
  refine always_append.2 ⟨hold, always_of_forall fun x hx h' => ?_⟩
  obtain ⟨e, he, rfl⟩ := List.mem_map.1 hx
  exact (hes e he).mono (List.subset_append_left h h')

theorem DisclosureInv.step {σ σ' : Process} {l : ProcessAction} (hi : DisclosureInv ddcp known σ)
    (hs : Process.Step σ l σ') : DisclosureInv ddcp known σ' := by
  have hgrow : ∀ es : List (Actor × Event), σ.log ⊆ σ.log ++ es := fun es =>
    List.subset_append_left _ _
  cases hs with
  | @puller es rs l hl =>
      obtain ⟨hpuller, htold⟩ := hi.puller.step hl fun s p q hp hq => by
        subst hp
        exact (follows_pullerTick hq).mono fun _ _ _ h => h.1
      exact ⟨hpuller, hi.server.mono (hgrow _), hi.responders, hi.main, always_told hi.told htold⟩
  | @server es rs l hl =>
      obtain ⟨hserver, htold⟩ := hi.server.step hl fun s p q hp hq => by
        rcases hp with rfl | ⟨u, rfl⟩
        · exact (follows_serverTick hq).mono fun _ _ _ h => h.1
        · exact (follows_serverUpdate σ.peerByKey u hq).mono fun _ _ _ h => h.1
      refine ⟨hi.puller.mono (hgrow _), hserver, fun p hp => ?_, hi.main, always_told hi.told htold⟩
      exact (List.mem_append.1 hp).elim (hi.responders p) (only_spawned_respond p)
  | @responder ps ps' p p' e hps hstep =>
      have hall := hi.responders
      rw [hps] at hall
      obtain ⟨hcall, honly⟩ := (hall p (by simp)).step hstep
      have htold : Always (fun h e => Told ddcp known h e.1 e.2.1)
          (σ.log ++ [e].map (Actor.responder, ·)) := always_told hi.told fun e' he' => by
        rw [List.mem_singleton.1 he']
        exact hcall.told
      refine ⟨hi.puller.mono (hgrow _), hi.server.mono (hgrow _), fun p₁ hp₁ => ?_, hi.main, htold⟩
      rcases List.mem_append.1 hp₁ with h₁ | h₁
      · exact hall p₁ (List.mem_append_left _ h₁)
      · rcases List.mem_cons.1 h₁ with rfl | h₁
        · exact honly
        · exact hall p₁ (List.mem_append_right _ (List.mem_cons_of_mem _ h₁))
  | interrupt => exact ⟨hi.puller, hi.server, hi.responders, hi.main, hi.told⟩
  | signalError => exact ⟨hi.puller, hi.server, hi.responders, hi.main, hi.told⟩
  | serveReturns hm hint =>
      exact ⟨hi.puller, hi.server, hi.responders,
        fun p hp => MainTask.cleaning.inj hp ▸ only_cleanup_silent σ.self, hi.told⟩
  | @main p p' e hm hstep =>
      obtain ⟨hcall, honly⟩ := (hi.main p hm).step hstep
      have htold : Always (fun h e => Told ddcp known h e.1 e.2.1)
          (σ.log ++ [e].map (Actor.main, ·)) := always_told hi.told fun e' he' => by
        rw [List.mem_singleton.1 he']
        exact hcall.told
      exact ⟨hi.puller.mono (hgrow _), hi.server.mono (hgrow _), hi.responders,
        fun p₁ hp₁ => MainTask.cleaning.inj hp₁ ▸ honly, htold⟩
  | exit hm =>
      have hended : ∀ {β : Type} (l : Loop β) {a : Actor}, l.Talks ddcp known a σ.log →
          (.ended : Loop β).Talks ddcp known a σ.log := fun l a hl => by
        obtain ⟨q, hq, _⟩ := hl
        exact ⟨q, hq, fun s hs => absurd hs (by simp), fun p hp => absurd hp (by simp)⟩
      exact ⟨hended _ hi.puller, hended _ hi.server, fun p hp => absurd hp List.not_mem_nil,
        fun p hp => absurd hp (by simp), hi.told⟩

/-- What a node has of its peers when it starts to serve it has found under their DHT keys. -/
theorem DisclosureInv.init (hstart : ddcp.conclave.Informed ddcp.setup () known) :
    DisclosureInv ddcp known (Process.start ddcp) := by
  have htalks : ∀ {β : Type} (a : Actor), (.idle ddcp : Loop β).Talks ddcp known a [] := fun a =>
    ⟨⟨known, fun _ => False, .idle⟩,
      ⟨fun _ _ hk => Or.inl hk, fun _ hs => hs.elim, fun _ _ _ hs => absurd hs (by simp),
        fun _ _ _ _ hs => absurd hs (by simp)⟩,
      fun s hs => Loop.idle.inj hs ▸ hstart, fun p hp => absurd hp (by simp)⟩
  exact ⟨htalks .puller, htalks .server, fun p hp => absurd hp List.not_mem_nil,
    fun p hp => absurd hp (by simp [Process.start]), always_nil⟩

/-- **What a serving node lets out.** In every run of a node that serves, also while it shuts down,
    with whatever answers, updates and interleavings: what it writes into the DHT is its own status,
    under its own key, as the task has read it from the database; what it sends to a peer is a
    request for the changes since the cursor it has read, sealed for the key in a status that it has
    found; what it merges is what the reply to such a call decodes to, under the site id of that
    status; and rows of the database are read, and calls replied to, by responders alone. -/
theorem serving_discloses (hstart : ddcp.conclave.Informed ddcp.setup () known)
    {ls : List ProcessAction} {σ : Process} (hr : Run Process.Step (Process.start ddcp) ls σ) :
    Always (fun h e => Told ddcp known h e.1 e.2.1) σ.log :=
  (hr.invariant (I := DisclosureInv ddcp known) (.init hstart) fun _ _ _ hi hs => hi.step hs).told

/-- The calls of the server's loop, with nothing between them. -/
theorem Process.run_server {σ : Process} {tr : List Event}
    {p p' : Prog Call Ret (Except Abort (Option Responder) × DDCP)} (hr : Run Prog.Step p tr p')
    (hp : σ.server = .busy p) : ∃ ls σ', Run Process.Step σ ls σ' ∧ σ'.server = .busy p' ∧
      σ'.log = σ.log ++ tr.map (.server, ·) := by
  induction hr with
  | nil => exact ⟨[], σ, .nil, hp, by simp⟩
  | @snoc tr p₁ p₂ e hr hs ih =>
      obtain ⟨ls, σ₁, hls, hp₁, hlog⟩ := ih
      have hcall : Loop.Step (Process.serverRounds σ₁.peerByKey) True σ₁.server [e] [] (.busy p₂) := by
        rw [hp₁]
        exact .call hs
      refine ⟨_, _, .snoc hls (.server hcall), rfl, ?_⟩
      rw [hlog]
      simp

end Run

section Example
attribute [local instance] plainCapnp plainCrypto

/-- The server's first tick announces the status. -/
theorem serving_discloses_status : ∃ ls σ ns,
    Run Process.Step (Process.start (nodeKnowing (some peerStatus))) ls σ ∧
    ns = NodeStatus.mk [7] 0 (PlainCrypto.keyToString ⟨[], [7]⟩) [] ∧
    (.server, ⟨.veilid (.setDhtValue ⟨[], []⟩ DHT_SUBKEY_STATUS (encode ns)), .ok ()⟩) ∈ σ.log ∧
    Always (fun h e => Told (nodeKnowing (some peerStatus))
      (fun key ns => key = ⟨[], [1]⟩ ∧ ns = peerStatus) h e.1 e.2.1) σ.log := by
  let tr : List Event :=
    traceOn publishedStatus.handler DDCP.serverTick (nodeKnowing (some peerStatus)) ()
  let σ₀ : Process := { Process.start (nodeKnowing (some peerStatus)) with
    server := .busy (DDCP.serverTick (nodeKnowing (some peerStatus)))
    responders := [] ++ Process.spawned []
    log := [] ++ ([] : List Event).map (.server, ·) }
  have hstart : Process.Step (Process.start (nodeKnowing (some peerStatus))) (.task .server) σ₀ :=
    .server (.start (Or.inl rfl))
  have hexec := exec_traceOn publishedStatus.handler DDCP.serverTick (nodeKnowing (some peerStatus)) ()
  have hbusy : σ₀.server = .busy (DDCP.serverTick (nodeKnowing (some peerStatus))) := rfl
  obtain ⟨ls, σ, hls, -, hlog⟩ := Process.run_server (Prog.Exec.run hexec) hbusy
  have hrun := Run.cons hstart hls
  refine ⟨_, σ, _, hrun, rfl, ?_, serving_discloses ⟨⟨rfl, rfl, fun _ _ => rfl⟩, ?_⟩ hrun⟩
  · rw [hlog]
    have hmem : (⟨.veilid (.setDhtValue ⟨[], []⟩ DHT_SUBKEY_STATUS
        (encode (NodeStatus.mk [7] 0 (PlainCrypto.keyToString ⟨[], [7]⟩) []))), .ok ()⟩ : Event) ∈ tr :=
      .tail _ (.tail _ (.head _))
    exact List.mem_append_right _ (List.mem_map_of_mem hmem)
  · intro name p hp
    by_cases hname : name = "p"
    · subst hname
      obtain rfl := Option.some.inj ((AList.lookup_insert _).symm.trans hp)
      exact ⟨fun ns hns => ⟨rfl, (Option.some.inj hns).symm⟩, fun id hid => absurd hid (by simp)⟩
    · exact absurd ((AList.lookup_insert_ne hname).symm.trans hp) (by simp)

end Example

end Ddcp
