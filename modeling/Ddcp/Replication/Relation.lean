import Ddcp.Replication.Cluster
import Ddcp.Replication.Progress
import Ddcp.Replication.RemoteCall

set_option autoImplicit false

/-! # What the programs stand for

A task in the middle of a `pull_from` is a pull in flight; how far it has come is read off the
program that is left of it (`nodeProtocol`), and how far its `app_call` has come off what is left of
the responder (`answerProtocol`). The bytes on the way are forgotten: a status is what decodes from
the DHT, a request and an answer are what their seals open to, and a name for a node is its DHT key,
its public key, its site id or its route (`Refines`). -/

namespace Ddcp

open Method Lts

/-! ## Steps that are not observed -/

section Quietly
variable {N : Type} [DecidableEq N] [LinearOrder CellData] {σ σ' σ₁ : Net N}

/-- Steps that neither write nor end a pull. -/
def Net.Quietly (σ σ' : Net N) : Prop :=
  ∃ ks, Run (Net.Step fun _ => True) σ ks σ' ∧ ks.flatMap Action.traffic = []

theorem Net.Quietly.refl (σ : Net N) : Net.Quietly σ σ := ⟨[], .nil, rfl⟩

theorem Net.Quietly.step {l : Action N} (h : Net.Quietly σ σ₁)
    (hs : Net.Step (fun _ => True) σ₁ l σ') (hl : l.traffic = []) : Net.Quietly σ σ' := by
  obtain ⟨ks, hr, hks⟩ := h
  refine ⟨ks ++ [l], .snoc hr hs, ?_⟩
  simp [hks, hl]

/-- The databases are the same, and what was published still is. -/
structure Net.Later (σ σ' : Net N) : Prop where
  quiet : Net.Quietly σ σ'
  db : σ'.db = σ.db
  published : ∀ n st, st ∈ σ.published n → st ∈ σ'.published n

theorem Net.Later.refl (σ : Net N) : Net.Later σ σ := ⟨.refl σ, rfl, fun _ _ h => h⟩

theorem Net.Later.publish (σ : Net N) (n : N) :
    Net.Later σ (σ.publish n ⟨(σ.db n).status.1, (σ.db n).status.2⟩) where
  quiet := (Net.Quietly.refl σ).step (.announce n trivial) rfl
  db := rfl
  published m st hst := by
    show st ∈ Function.update σ.published n _ m
    by_cases hm : m = n
    · subst hm
      rw [Function.update_self]
      exact List.mem_cons_of_mem _ hst
    · rwa [Function.update_of_ne hm]

/-- Steps of one pull. -/
theorem Net.Later.setPull {t : Nat} {p : Option (Pull N)} (h : Net.Later σ σ₁)
    (hs : ∃ l, Net.Step (fun _ => True) σ₁ l (σ₁.setPull t p) ∧ l.traffic = []) :
    Net.Later σ (σ₁.setPull t p) where
  quiet := by
    obtain ⟨l, hs, hl⟩ := hs
    exact h.quiet.step hs hl
  db := h.db
  published := h.published

omit [DecidableEq N] [LinearOrder CellData] in
theorem Net.setPull_self {t : Nat} {p : Option (Pull N)} (hp : σ.pulls t = p) :
    σ.setPull t p = σ := by
  unfold Net.setPull
  rw [← hp, Function.update_eq_self]

/-- A pull is given up, if there is one. -/
theorem Net.Later.giveUp (h : Net.Later σ σ₁) (t : Nat) : Net.Later σ (σ₁.setPull t none) := by
  cases hp : σ₁.pulls t with
  | none => rwa [Net.setPull_self hp]
  | some p => exact h.setPull ⟨_, .fail t hp, rfl⟩

theorem Net.Later.reached {σ₀ : Net N} (h : Net.Later σ σ')
    (hr : ∃ ks, Run (Net.Step fun _ => True) σ₀ ks σ) :
    ∃ ks, Run (Net.Step fun _ => True) σ₀ ks σ' := by
  obtain ⟨ks, hks, _⟩ := h.quiet
  obtain ⟨ks₀, hr⟩ := hr
  exact ⟨ks₀ ++ ks, hr.trans hks⟩

end Quietly

/-! ## What stands for what -/

section Relation
variable [Capnp] [CryptoSystem] {N : Type} (S : Setup N)

omit [Capnp] in
/-- `ns` is a status that a node has published, under its key. -/
def Net.Announced (σ : Net N) (key : TypedKey) (ns : NodeStatus) : Prop :=
  ∃ m, key = S.dhtKey m ∧ ns.key = CryptoSystem.keyToString (S.authKey m) ∧
    S.home ns.route = m ∧ ns.status ∈ σ.published m

omit [Capnp] in
/-- What a task of `n` knows is true. -/
structure Talk.Sound (σ : Net N) (n : N) (q : Talk) : Prop where
  known : ∀ key ns, q.known key ns → σ.Announced S key ns
  read : ∀ st, q.read st → st ∈ σ.published n

omit [Capnp] [CryptoSystem] in
def Answering.phase : Answering → PullPhase
  | .start => .requested
  | .read status => .statusRead status
  | .chosen resp => .answered resp

/-- What `n` decodes from a reply of `m`, if anything, is the answer. -/
def Setup.ReplyIs (n m : N) (reply : Bytes) (phase : PullPhase) : Prop :=
  ∀ resp, Conclave.decodeReply (S.crypto n m) reply = .ok resp → phase = .answered resp

/-- How far the `app_call` of a pull has come. -/
inductive Rpc.Is (n m : N) (since : Int64) : Rpc N → PullPhase → Prop
  | none : Is n m since .none .requested
  | sent (target : RouteId) (message : Bytes) : Is n m since (.sent target message) .requested
  | serving {p : Prog Call Ret (Except Abort Unit × Unit)} {a : Answering}
      (hp : Prog.Follows (answerProtocol (S.crypto m n) since) (fun _ _ => True) p a) :
      Is n m since (.serving m p) a.phase
  | replied {message : Bytes} {phase : PullPhase} (h : S.ReplyIs n m message phase) :
      Is n m since (.replied message) phase

/-- How far the pull of a task has come. -/
inductive Stage.Is (n : N) (rpc : Rpc N) : Stage → Option (Pull N) → Prop
  | idle (hrpc : rpc = .none) : Is n rpc .idle none
  | asked {m : N} {ns : NodeStatus} {since : Int64} {phase : PullPhase}
      (hkey : ns.key = CryptoSystem.keyToString (S.authKey m)) (hrpc : rpc.Is S n m since phase) :
      Is n rpc (.asked (S.dhtKey m) ns since) (some ⟨n, m, ns.status, since, phase⟩)
  | replied {m : N} {ns : NodeStatus} {since : Int64} {phase : PullPhase} {reply : Bytes}
      (hkey : ns.key = CryptoSystem.keyToString (S.authKey m)) (hrpc : rpc = .none)
      (h : S.ReplyIs n m reply phase) :
      Is n rpc (.replied (S.dhtKey m) ns since reply) (some ⟨n, m, ns.status, since, phase⟩)

omit [Capnp] [CryptoSystem] in
/-- A task with an `app_call` waits for it. -/
def Rpc.Awaited (p : Prog Call Ret (Option DDCP)) (rpc : Rpc N) : Prop :=
  rpc = .none ∨ ∃ target message, p.next = some (.veilid (.appCall target message)) ∧
    ∀ target' message', rpc = .sent target' message' → target' = target ∧ message' = message

omit [Capnp] in
/-- The map of a server task: each entry is under the printed key of its peer. -/
def PeersInformed (known : TypedKey → NodeStatus → Prop)
    (peerByKey : AList fun _ : String => Peer) : Prop :=
  ∀ sender p, peerByKey.lookup sender = some p →
    p.Informed S known ∧ sender = CryptoSystem.keyToString p.dhtKey

/-- What a task is for the protocol. -/
inductive Task.Is (σ : Net N) : Option (Task N) → Option (Pull N) → Prop
  | none : Is σ none none
  | idle {n : N} {peerByKey : AList fun _ : String => Peer} {ddcp : DDCP}
      (hpeers : PeersInformed S (σ.Announced S) peerByKey)
      (hinformed : ddcp.conclave.Informed S n (σ.Announced S)) :
      Is σ (some (.idle n peerByKey ddcp)) none
  | busy {n : N} {peerByKey : AList fun _ : String => Peer} {p : Prog Call Ret (Option DDCP)}
      {rpc : Rpc N} {q : Talk} {pull : Option (Pull N)}
      (hpeers : PeersInformed S (σ.Announced S) peerByKey) (hsound : q.Sound S σ n)
      (hp : Prog.Follows (nodeProtocol S n)
        (fun q' o => ∀ d', o = some d' → d'.conclave.Informed S n q'.known) p q)
      (hawaited : rpc.Awaited p) (hstage : q.stage.Is S n rpc pull) :
      Is σ (some (.busy n peerByKey p rpc)) pull

variable [DecidableEq N] [LinearOrder CellData]

/-- **What relates the two.** -/
structure Refines (K : Cluster N) (σ : Net N) : Prop where
  reached : ∃ ks, Run (Net.Step fun _ => True) (Net.init S.site) ks σ
  db : σ.db = K.db
  dht : ∀ v ∈ K.dht, ∀ ns, decode NodeStatus v.data = .ok ns → σ.Announced S v.key ns
  task : ∀ t, Task.Is S σ (K.task t) (σ.pulls t)

end Relation

/-! ## What is published stays published -/

section Mono
variable [Capnp] [CryptoSystem] {N : Type} {S : Setup N} {σ σ' : Net N}

omit [Capnp] in
theorem Net.Announced.mono (hpub : ∀ n st, st ∈ σ.published n → st ∈ σ'.published n)
    {key : TypedKey} {ns : NodeStatus} (h : σ.Announced S key ns) : σ'.Announced S key ns := by
  obtain ⟨m, hkey, hauth, hhome, hst⟩ := h
  exact ⟨m, hkey, hauth, hhome, hpub m _ hst⟩

omit [Capnp] in
theorem Talk.Sound.mono (hpub : ∀ n st, st ∈ σ.published n → st ∈ σ'.published n) {n : N}
    {q : Talk} (h : q.Sound S σ n) : q.Sound S σ' n where
  known key ns hns := (h.known key ns hns).mono hpub
  read st hst := hpub n st (h.read st hst)

omit [Capnp] in
theorem PeersInformed.mono {known known' : TypedKey → NodeStatus → Prop}
    {peerByKey : AList fun _ : String => Peer} (h : PeersInformed S known peerByKey)
    (hle : ∀ key ns, known key ns → known' key ns) : PeersInformed S known' peerByKey :=
  fun sender p hp => ⟨(h sender p hp).1.mono hle, (h sender p hp).2⟩

theorem Task.Is.mono (hpub : ∀ n st, st ∈ σ.published n → st ∈ σ'.published n)
    {task : Option (Task N)} {pull : Option (Pull N)} (h : Task.Is S σ task pull) :
    Task.Is S σ' task pull := by
  cases h with
  | none => exact .none
  | idle hpeers hinformed =>
      exact .idle (hpeers.mono fun _ _ => Net.Announced.mono hpub)
        (hinformed.mono fun _ _ => Net.Announced.mono hpub)
  | busy hpeers hsound hp hawaited hstage =>
      exact .busy (hpeers.mono fun _ _ => Net.Announced.mono hpub) (hsound.mono hpub) hp hawaited
        hstage

variable [DecidableEq N] [LinearOrder CellData]

/-- A step of one task leaves the others. -/
theorem Refines.update {K K' : Cluster N} (h : Refines S K σ) (t : Nat)
    (hreached : ∃ ks, Run (Net.Step fun _ => True) (Net.init S.site) ks σ') (hdb : σ'.db = K'.db)
    (hpub : ∀ n st, st ∈ σ.published n → st ∈ σ'.published n)
    (hdht : ∀ v ∈ K'.dht, v ∈ K.dht ∨
      ∀ ns, decode NodeStatus v.data = .ok ns → σ'.Announced S v.key ns)
    (hothers : ∀ t', t' ≠ t → K'.task t' = K.task t' ∧ σ'.pulls t' = σ.pulls t')
    (ht : Task.Is S σ' (K'.task t) (σ'.pulls t)) : Refines S K' σ' where
  reached := hreached
  db := hdb
  dht v hv ns hns := by
    rcases hdht v hv with hold | hnew
    · exact (h.dht v hold ns hns).mono hpub
    · exact hnew ns hns
  task t' := by
    by_cases heq : t' = t
    · exact heq ▸ ht
    · rw [(hothers t' heq).1, (hothers t' heq).2]
      exact (h.task t').mono hpub

/-- When only the task and its pull change, and perhaps what is published. -/
theorem Refines.later {K : Cluster N} (h : Refines S K σ) (t : Nat) {task : Option (Task N)}
    (hlater : Net.Later σ σ') (hothers : ∀ t', t' ≠ t → σ'.pulls t' = σ.pulls t')
    (ht : Task.Is S σ' task (σ'.pulls t)) : Refines S (K.setTask t task) σ' := by
  refine h.update t (hlater.reached h.reached) (hlater.db.trans h.db) hlater.published
    (fun v hv => Or.inl hv) (fun t' ht' => ⟨Cluster.setTask_of_ne ht' task, hothers t' ht'⟩) ?_
  rwa [Cluster.setTask_self]

end Mono

/-! ## Opening what has been sealed -/

section Opening
variable [Capnp] [CryptoSystem] {IsKeyPair : KeyPair → Prop} {N : Type} {S : Setup N} {n m : N}

omit [Capnp] in
theorem keyToString_injective (hl : CryptoSystem.Lawful IsKeyPair) {k k' : TypedKey}
    (h : CryptoSystem.keyToString k = CryptoSystem.keyToString k') : k = k' := by
  have hk := hl.keyFromStr_keyToString k
  rw [h, hl.keyFromStr_keyToString k'] at hk
  exact (Except.ok.inj hk).symm

/-- What `n` has sealed for `m`, `m` reads as what its tree reads as. -/
theorem Setup.ofObj_of_decode (hl : CryptoSystem.Lawful IsKeyPair) (hc : Capnp.Lawful)
    (hkeys : ∀ n, IsKeyPair (S.keys n).value) {α β : Type} [Encodable α] [Decodable β] {x : α}
    {y : β} {contents : Bytes} (hseals : (S.crypto n m).Seals (encode x) contents)
    (h : (S.crypto m n).decode β contents = .ok y) :
    Decodable.ofObj (Encodable.toObj x) = .ok y := by
  have hopen : (S.crypto m n).decode β contents =
      (decode β (encode x)).mapError fun e => .err (.crypto (.proto e)) :=
    Crypto.decode_of_seals hl (hkeys n) (hkeys m) hseals
  rw [hopen, Except.mapError_eq_ok_iff] at h
  exact decode_write_ok hc h

omit [CryptoSystem] in
/-- An envelope decodes to itself. -/
theorem Envelope.eq_of_decode (hc : Capnp.Lawful) {envelope envelope' : Envelope}
    (h : decode Envelope (encode envelope) = .ok envelope') : envelope' = envelope := by
  have hobj : Envelope.ofObj envelope.toObj = .ok envelope' := decode_write_ok hc h
  exact Except.ok.inj (hobj.symm.trans (Envelope.ofObj_toObj envelope))

/-- The reply that a responder seals is its answer. -/
theorem Setup.replyIs_of_seals (hl : CryptoSystem.Lawful IsKeyPair) (hc : Capnp.Lawful)
    (hkeys : ∀ n, IsKeyPair (S.keys n).value) {resp : ChangesResponse} {sender : String}
    {contents : Bytes} (hseals : (S.crypto m n).Seals (encode (Response.changes resp)) contents) :
    S.ReplyIs n m (encode (Envelope.mk sender contents)) (.answered resp) := by
  intro resp' hdecode
  cases henv : decode Envelope (encode (Envelope.mk sender contents)) with
  | error e => simp [Conclave.decodeReply, henv, bind, Except.bind] at hdecode
  | ok envelope =>
      obtain rfl := Envelope.eq_of_decode hc henv
      have hread : Response.ofObj (Response.changes resp).toObj = .ok (.changes resp') :=
        S.ofObj_of_decode hl hc hkeys hseals ((decodeReply_ok_iff henv).1 hdecode)
      have heq := (Response.ofObj_toObj (.changes resp)).symm.trans hread
      simp only [Except.ok.injEq, Response.changes.injEq] at heq
      rw [heq]

end Opening

/-! ## The responder -/

section Respond
variable [Capnp] [CryptoSystem] {IsKeyPair : KeyPair → Prop} {N : Type} {S : Setup N} {n m : N}
  {σ : Net N}

/-- A call that has reached the server task of the node it was meant for. -/
theorem Stage.Is.deliver (hl : CryptoSystem.Lawful IsKeyPair) (hc : Capnp.Lawful)
    (hkeys : ∀ n, IsKeyPair (S.keys n).value) (hdht : Function.Injective S.dhtKey) {q : Talk}
    {pull : Option (Pull N)} {target : RouteId} {message : Bytes}
    {peerByKey : AList fun _ : String => Peer} {ddcp : DDCP} {callId : UInt64} {r : Responder}
    (h : q.stage.Is S n (.sent target message) pull) (hsound : q.Sound S σ n)
    (hmay : q.May S n (.veilid (.appCall target message)))
    (hpeers : PeersInformed S (σ.Announced S) peerByKey)
    (hkeypair : ddcp.conclave.sovereign.dhtOwnerKeypair = S.keys (S.owner target))
    (hr : ddcp.responderFor peerByKey callId message = .ok (some r)) :
    q.stage.Is S n (.serving (S.owner target) ((r.run : Act Unit Unit) ())) pull := by
  obtain ⟨key, ns, since, ns', recipient, contents, hasked, hknown, howner, hrecipient, rfl,
    hseals⟩ := hmay
  rw [hasked] at h ⊢
  cases h with
  | @asked m ns since phase hkey hrpc =>
  cases hrpc
  -- the route is of a status of `m`, and the recipient's key is the one of `m`
  obtain ⟨m', hm', _, hhome, _⟩ := hsound.known _ _ hknown
  obtain rfl := hdht hm'
  rw [hkey, hl.keyFromStr_keyToString] at hrecipient
  obtain rfl := Except.ok.inj hrecipient
  rw [howner, hhome] at hkeypair ⊢
  -- the responder's peer is the one that `n` is to `m`
  unfold DDCP.responderFor at hr
  cases henv : decode Envelope (encode (Envelope.mk (CryptoSystem.keyToString (S.dhtKey n))
      contents)) with
  | error e => simp [henv] at hr
  | ok envelope =>
  obtain rfl := Envelope.eq_of_decode hc henv
  simp only [henv, Except.ok.injEq, Option.map_eq_some_iff] at hr
  obtain ⟨peer, hpeer, rfl⟩ := hr
  obtain ⟨hinformed, hsender⟩ := hpeers _ _ hpeer
  have hpeerKey : peer.dhtKey = S.dhtKey n := (keyToString_injective hl hsender).symm
  refine .asked hkey (Rpc.Is.serving (a := .start) (follows_responder (fun key hauth => ?_)
    fun request hrequest => ?_))
  · show (⟨ddcp.conclave.sovereign.dhtOwnerKeypair, key⟩ : Crypto) = S.crypto m n
    rw [hkeypair]
    cases hstatus : peer.nodeStatus with
    | none => simp [Peer.authKey, hstatus] at hauth
    | some ns'' =>
        obtain ⟨n', hn', hauth', _, _⟩ := hinformed.status ns'' hstatus
        obtain rfl : n = n' := hdht (hpeerKey ▸ hn')
        have hfrom := hl.keyFromStr_keyToString (S.authKey n)
        rw [← hauth'] at hfrom
        have hkeys := (authKey_of_nodeStatus hstatus hfrom).symm.trans hauth
        rw [← Option.some.inj (Except.ok.inj hkeys)]
        rfl
  · have hread : Request.ofObj (Request.changes since).toObj = .ok request :=
      S.ofObj_of_decode hl hc hkeys hseals hrequest
    exact (Except.ok.inj ((Request.ofObj_toObj (.changes since)).symm.trans hread)).symm

omit [Capnp] [CryptoSystem] in
/-- Only a merge changes a database. -/
theorem Database.Answers.eq_of_not_merge [LinearOrder CellData] {db db' : Database} {e : Event}
    (h : db.Answers e db') (hmerge : ∀ siteId changes, e.1 ≠ .db (.merge siteId changes)) :
    db' = db := by
  obtain ⟨c, a⟩ := e
  cases c with
  | veilid c => exact h
  | randomNonce => exact h
  | shutdown => exact h
  | db c =>
      cases c with
      | status => exact h.2
      | select since => exact h.2
      | trackedPeerVersion siteId => exact h.2
      | merge siteId changes => exact absurd rfl (hmerge siteId changes)
      | finalize => exact h

variable [DecidableEq N] [LinearOrder CellData]

omit [Capnp] [CryptoSystem] in
theorem Net.Later.select {t : Nat} {pull : Pull N} {status : Bytes × Int64}
    (hpull : σ.pulls t = some pull) (hphase : pull.phase = .statusRead status) :
    Net.Later σ (σ.setPull t (some { pull with
      phase := .answered (answerChanges (σ.db pull.server) status pull.sinceDbVersion) })) :=
  (Net.Later.refl σ).setPull ⟨_, .select t hpull hphase trivial, rfl⟩

/-- **What a responder does, its pull does.** -/
theorem Rpc.Is.respond (hl : CryptoSystem.Lawful IsKeyPair) (hc : Capnp.Lawful)
    (hkeys : ∀ n, IsKeyPair (S.keys n).value) {t : Nat} {st : Status} {since : Int64}
    {p p' : Prog Call Ret (Except Abort Unit × Unit)} {e : Event} {a : Answering} {db' : Database}
    (hp : Prog.Follows (answerProtocol (S.crypto m n) since) (fun _ _ => True) p a)
    (hs : p.Step e p') (hdb : (σ.db m).Answers e db')
    (hpull : σ.pulls t = some ⟨n, m, st, since, a.phase⟩) :
    db' = σ.db m ∧ ∃ phase', Net.Later σ (σ.setPull t (some ⟨n, m, st, since, phase'⟩)) ∧
      (Rpc.afterReply m p' e).Is S n m since phase' := by
  have hmay : a.May (S.crypto m n) since e.1 := hp.may hs.next
  obtain ⟨a', hmoves, hp'⟩ := hp.step hs trivial
  refine ⟨hdb.eq_of_not_merge fun siteId changes he => ?_, ?_⟩
  · rw [he] at hmay
    exact hmay
  cases hmoves with
  | status status =>
      obtain ⟨hstatus, -⟩ := hdb
      obtain rfl : status = (σ.db m).status :=
        hstatus.elim Except.ok.inj fun ⟨_, he⟩ => absurd he (by simp)
      refine ⟨_, (Net.Later.refl σ).setPull ⟨_, .readStatus t hpull rfl trivial, rfl⟩, ?_⟩
      exact Rpc.Is.serving hp'
  | select status since' rows =>
      obtain ⟨rfl, status', hread, hlt⟩ := hmay
      obtain rfl := Answering.read.inj hread
      obtain ⟨hrows, -⟩ := hdb
      obtain rfl : rows = (σ.db m).select since' :=
        hrows.elim Except.ok.inj fun ⟨_, he⟩ => absurd he (by simp)
      refine ⟨_, Net.Later.select hpull rfl, ?_⟩
      have hanswer : answerChanges (σ.db m) status since' = ⟨status.1, (σ.db m).select since'⟩ :=
        if_neg (not_le.2 hlt)
      show Rpc.Is S n m since' (.serving m p') (.answered (answerChanges (σ.db m) status since'))
      rw [hanswer]
      exact Rpc.Is.serving hp'
  | stay hstatus hselect =>
      have hstay : Net.Later σ (σ.setPull t (some ⟨n, m, st, since, a.phase⟩)) := by
        rw [Net.setPull_self hpull]
        exact .refl σ
      by_cases hreply : ∃ callId message, e = ⟨.veilid (.appCallReply callId message), .ok ()⟩
      · obtain ⟨callId, message, rfl⟩ := hreply
        obtain ⟨resp, sender, contents, rfl, hseals, hchosen⟩ := hmay
        have hreply : S.ReplyIs n m (encode (Envelope.mk sender contents)) (.answered resp) :=
          S.replyIs_of_seals hl hc hkeys hseals
        have hreplied : Rpc.Is S n m since (.replied (encode (Envelope.mk sender contents)))
          (.answered resp) := .replied hreply
        rcases hchosen with rfl | ⟨status, rfl, hle, rfl⟩
        · exact ⟨_, hstay, hreplied⟩
        · -- no rows are selected
          refine ⟨_, Net.Later.select hpull rfl, ?_⟩
          have hanswer : answerChanges (σ.db m) status since = ⟨status.1, []⟩ := if_pos hle
          show Rpc.Is S n m since _ (.answered (answerChanges (σ.db m) status since))
          rw [hanswer]
          exact hreplied
      · refine ⟨_, hstay, ?_⟩
        have hafter : Rpc.afterReply m p' e = .serving m p' := by
          unfold Rpc.afterReply
          split
          · exact absurd ⟨_, _, rfl⟩ hreply
          · rfl
        rw [hafter]
        exact Rpc.Is.serving hp'

end Respond

/-! ## A call of a task -/

section Call
variable [Capnp] [CryptoSystem] {N : Type} {S : Setup N} {n : N} {σ : Net N} {q : Talk} {e : Event}

omit [Capnp] [CryptoSystem] in
@[simp] theorem Net.setPull_pulls (σ : Net N) (t : Nat) (p : Option (Pull N)) :
    (σ.setPull t p).pulls t = p := Function.update_self ..

omit [Capnp] [CryptoSystem] in
theorem Net.setPull_pulls_of_ne {t t' : Nat} (h : t' ≠ t) (p : Option (Pull N)) :
    (σ.setPull t p).pulls t' = σ.pulls t' := Function.update_of_ne h ..

theorem Talk.Sound.after (h : q.Sound S σ n) {stage : Stage}
    (hget : ∀ key subkey force data ns, e = ⟨.veilid (.getDhtValue key subkey force),
      .ok (some data)⟩ → decode NodeStatus data = .ok ns → σ.Announced S key ns)
    (hstatus : ∀ siteId dbVersion, e = ⟨.db .status, .ok (siteId, dbVersion)⟩ →
      ⟨siteId, dbVersion⟩ ∈ σ.published n) : (q.after e stage).Sound S σ n where
  known key ns hns := by
    rcases hns with hns | ⟨subkey, force, data, he, hdata⟩
    · exact h.known key ns hns
    · exact hget key subkey force data ns he hdata
  read st hst := by
    rcases hst with hst | he
    · exact h.read st hst
    · exact hstatus st.siteId st.dbVersion he

variable [DecidableEq N] [LinearOrder CellData]

/-- What a task learns from a call is true. -/
theorem Refines.learn {K : Cluster N} (h : Refines S K σ) (hsound : q.Sound S σ n) {db' : Database}
    {dht' : List DhtValue} (hdb : (K.db n).Answers e db') (hdht : DhtAnswers K.dht e dht') :
    ∃ σ₁, Net.Later σ σ₁ ∧ σ₁.pulls = σ.pulls ∧ ∀ stage, (q.after e stage).Sound S σ₁ n := by
  have hget : ∀ key subkey force data ns, e = ⟨.veilid (.getDhtValue key subkey force),
      .ok (some data)⟩ → decode NodeStatus data = .ok ns → σ.Announced S key ns := by
    rintro key subkey force data ns rfl hdata
    exact h.dht _ (hdht.1 data rfl) ns hdata
  by_cases hstatus : ∃ st, e = ⟨.db .status, .ok st⟩
  · -- a status that is read is published
    obtain ⟨st, rfl⟩ := hstatus
    obtain ⟨hst, -⟩ := hdb
    obtain rfl : st = (σ.db n).status := by
      rw [h.db]
      exact hst.elim Except.ok.inj fun ⟨_, he⟩ => absurd he (by simp)
    have hlater := Net.Later.publish σ n
    refine ⟨_, hlater, rfl, fun stage => (hsound.mono hlater.published).after ?_ ?_⟩
    · intro key subkey force data ns he _
      cases he
    · intro siteId dbVersion he
      cases he
      show _ ∈ Function.update σ.published n _ n
      rw [Function.update_self]
      exact List.mem_cons_self
  · exact ⟨σ, .refl σ, rfl, fun stage => hsound.after hget fun siteId dbVersion he =>
      absurd ⟨_, he⟩ hstatus⟩

/-- Where a call and its answer take the pull of a task. -/
theorem Stage.Is.call {t : Nat} {rpc : Rpc N} {p p' : Prog Call Ret (Option DDCP)} {stage : Stage}
    {db' : Database} (h : q.stage.Is S n rpc (σ.pulls t)) (hsound : q.Sound S σ n)
    (hawaited : rpc.Awaited p) (hs : p.Step e p') (hmoves : q.Moves e stage)
    (hdb : (σ.db n).Answers e db') (hrpc : rpc.Answers e) :
    ∃ σ', Net.Later σ σ' ∧ (∀ t', t' ≠ t → σ'.pulls t' = σ.pulls t') ∧
      stage.Is S n .none (σ'.pulls t) := by
  cases hmoves with
  | idle =>
      refine ⟨_, (Net.Later.refl σ).giveUp t, fun t' ht' => Net.setPull_pulls_of_ne ht' none, ?_⟩
      rw [Net.setPull_pulls]
      exact .idle rfl
  | stay he =>
      -- a call aside is made when there is no `app_call`
      rcases hawaited with rfl | ⟨target, message, hnext, -⟩
      · exact ⟨σ, .refl σ, fun _ _ => rfl, h⟩
      · rw [hs.next, Option.some.injEq] at hnext
        rw [hnext] at he
        exact he.elim
  | @ask key ns v hknown hlt =>
      obtain ⟨m, rfl, hkey, -, hst⟩ := hsound.known _ _ hknown
      obtain ⟨hv, -⟩ := hdb
      have hbegin : beginPull (σ.db n) ns.status = .request v := by
        obtain rfl : v = (σ.db n).trackedPeerVersion ns.siteId :=
          hv.elim Except.ok.inj fun ⟨_, he⟩ => absurd he (by simp)
        exact if_neg (not_le.2 hlt)
      have hfree : (σ.setPull t none).pulls t = none := Net.setPull_pulls σ t none
      refine ⟨_, ((Net.Later.refl σ).giveUp t).setPull
        ⟨_, .begin t n m ns.status hfree hst hbegin, rfl⟩, fun t' ht' => ?_, ?_⟩
      · rw [Net.setPull_pulls_of_ne ht', Net.setPull_pulls_of_ne ht']
      · rw [Net.setPull_pulls]
        exact .asked hkey .none
  | @reply key ns since target message reply hstage =>
      rw [hstage] at h
      obtain rfl := hrpc target message reply rfl
      generalize hpull : σ.pulls t = pull at h
      cases h with
      | asked hkey hreplied =>
          cases hreplied with
          | replied hreply =>
              refine ⟨σ, .refl σ, fun _ _ => rfl, ?_⟩
              rw [hpull]
              exact .replied hkey rfl hreply

omit [CryptoSystem] [DecidableEq N] [LinearOrder CellData] [Capnp] in
/-- Only a write adds to the DHT. -/
theorem DhtAnswers.mem {dht dht' : List DhtValue} (h : DhtAnswers dht e dht') {v : DhtValue}
    (hv : v ∈ dht') : v ∈ dht ∨ e.1 = .veilid (.setDhtValue v.key v.subkey v.data) := by
  unfold DhtAnswers at h
  split at h
  · exact Or.inl (h.2 ▸ hv)
  · rcases h with rfl | ⟨rfl, -⟩
    · rcases List.mem_cons.1 hv with rfl | hold
      · exact Or.inr rfl
      · exact Or.inl hold
    · exact Or.inl hv
  · exact Or.inl (h ▸ hv)

omit [DecidableEq N] [LinearOrder CellData] in
/-- What a task writes to the DHT is a status that has been published. -/
theorem Talk.Sound.announced (hc : Capnp.Lawful) (h : q.Sound S σ n) {key : TypedKey}
    {subkey : Nat} {data : Bytes} (hmay : q.May S n (.veilid (.setDhtValue key subkey data)))
    {ns : NodeStatus} (hns : decode NodeStatus data = .ok ns) : σ.Announced S key ns := by
  obtain ⟨rfl, ns', rfl, hread, hkey, hhome⟩ := hmay
  have hobj : NodeStatus.ofObj ns'.toObj = .ok ns := decode_write_ok hc hns
  obtain rfl := Except.ok.inj ((NodeStatus.ofObj_toObj ns').symm.trans hobj)
  exact ⟨n, rfl, hkey, hhome, h.read _ hread⟩

omit [Capnp] [CryptoSystem] [DecidableEq N] [LinearOrder CellData] in
theorem Event.deed_eq_none (h : e.deed n = none) (siteId : Bytes) (changes : List Change) :
    e.1 ≠ .db (.merge siteId changes) := by
  obtain ⟨c, a⟩ := e
  rintro rfl
  exact absurd h (by simp [Event.deed])

omit [Capnp] [CryptoSystem] [DecidableEq N] [LinearOrder CellData] in
theorem Event.deed_eq_some {l : Deed N} (h : e.deed n = some l) :
    ∃ siteId changes a, e = ⟨.db (.merge siteId changes), a⟩ ∧ l = .merge n siteId := by
  unfold Event.deed at h
  split at h
  · exact ⟨_, _, _, rfl, (Option.some.inj h).symm⟩
  · exact absurd h (by simp)

variable {K : Cluster N} {t : Nat} {peerByKey : AList fun _ : String => Peer}
  {p p' : Prog Call Ret (Option DDCP)} {rpc : Rpc N} {db' : Database} {dht' : List DhtValue}

/-- What is known of a task in the middle of a method. -/
theorem Refines.busy (h : Refines S K σ) (ht : K.task t = some (.busy n peerByKey p rpc)) :
    ∃ q : Talk, PeersInformed S (σ.Announced S) peerByKey ∧ q.Sound S σ n ∧
      Prog.Follows (nodeProtocol S n)
        (fun q' o => ∀ d', o = some d' → d'.conclave.Informed S n q'.known) p q ∧
      rpc.Awaited p ∧ q.stage.Is S n rpc (σ.pulls t) := by
  have htask := h.task t
  rw [ht] at htask
  generalize hpull : σ.pulls t = pull at htask ⊢
  cases htask with
  | @busy _ _ _ _ q _ hpeers hsound hp hawaited hstage =>
      exact ⟨q, hpeers, hsound, hp, hawaited, hstage⟩

/-- **A call that is not a merge.** -/
theorem Refines.call (hc : Capnp.Lawful) (h : Refines S K σ)
    (ht : K.task t = some (.busy n peerByKey p rpc)) (hs : p.Step e p') (hpromised : Promised S n e)
    (hdb : (K.db n).Answers e db') (hdht : DhtAnswers K.dht e dht') (hrpc : rpc.Answers e)
    (hdeed : e.deed n = none) : ∃ σ', Net.Quietly σ σ' ∧ Refines S { K.setDb n db' with
      dht := dht'
      task := Function.update K.task t (some (.busy n peerByKey p' .none)) } σ' := by
  obtain ⟨q, hpeers, hsound, hp, hawaited, hstage⟩ := h.busy ht
  have hmay : q.May S n e.1 := hp.may hs.next
  obtain ⟨q', ⟨stage, hmoves, rfl⟩, hp'⟩ := hp.step hs hpromised
  obtain ⟨σ₁, hlater₁, hpulls₁, hsound₁⟩ := h.learn hsound hdb hdht
  have hdb₁ : (σ₁.db n).Answers e db' := by rwa [hlater₁.db, h.db]
  have hstage₁ : q.stage.Is S n rpc (σ₁.pulls t) := by rwa [hpulls₁]
  obtain ⟨σ', hlater', hothers, hstage'⟩ := hstage₁.call (hsound.mono hlater₁.published) hawaited hs
    hmoves hdb₁ hrpc
  have hpub : ∀ m st, st ∈ σ.published m → st ∈ σ'.published m := fun m st hst =>
    hlater'.published m st (hlater₁.published m st hst)
  have hquiet : Net.Quietly σ σ' := by
    obtain ⟨ks₁, hr₁, hks₁⟩ := hlater₁.quiet
    obtain ⟨ks', hr', hks'⟩ := hlater'.quiet
    exact ⟨ks₁ ++ ks', hr₁.trans hr', by simp [hks₁, hks']⟩
  refine ⟨σ', hquiet, h.update t (hlater'.reached (hlater₁.reached h.reached)) ?_ hpub ?_ ?_ ?_⟩
  · show σ'.db = Function.update K.db n db'
    rw [hdb.eq_of_not_merge (Event.deed_eq_none hdeed), Function.update_eq_self, hlater'.db,
      hlater₁.db, h.db]
  · intro v hv
    refine (hdht.mem hv).imp_right fun he ns hns => ?_
    rw [he] at hmay
    exact (hsound.announced hc hmay hns).mono hpub
  · intro t' ht'
    exact ⟨Function.update_of_ne ht' .., by rw [hothers t' ht', hpulls₁]⟩
  · show Task.Is S σ' (Function.update K.task t _ t) (σ'.pulls t)
    rw [Function.update_self]
    exact .busy (hpeers.mono fun _ _ => Net.Announced.mono hpub)
      ((hsound₁ stage).mono hlater'.published) hp' (Or.inl rfl) hstage'

/-- **A merge is the end of a pull**, from the node with that site id. -/
theorem Refines.merge {IsKeyPair : KeyPair → Prop} (hl : CryptoSystem.Lawful IsKeyPair)
    (hsite : Function.Injective S.site) (h : Refines S K σ)
    (ht : K.task t = some (.busy n peerByKey p rpc)) {siteId : Bytes} {changes : List Change}
    {a : Except DbError Int64} (hs : p.Step ⟨.db (.merge siteId changes), a⟩ p')
    (hdb : (K.db n).Answers ⟨.db (.merge siteId changes), a⟩ db') :
    ∃ m σ', siteId = S.site m ∧ Net.Step (fun _ => True) σ (.finish n m) σ' ∧
      Refines S { K.setDb n db' with
        dht := K.dht
        task := Function.update K.task t (some (.busy n peerByKey p' .none)) } σ' := by
  obtain ⟨q, hpeers, hsound, hp, hawaited, hstage⟩ := h.busy ht
  generalize hpull : σ.pulls t = pull at hstage
  have hmay : q.May S n (.db (.merge siteId changes)) := hp.may hs.next
  obtain ⟨q', ⟨stage, hmoves, rfl⟩, hp'⟩ := hp.step hs ⟨by simp, by simp⟩
  obtain ⟨key, ns, since, reply, recipient, hreplied, rfl, hrecipient, hdecode⟩ := hmay
  rw [hreplied] at hstage
  cases hstage with
  | @replied m _ _ phase _ hkey hrpc hreply =>
  -- what has been decoded is the answer
  rw [hkey, hl.keyFromStr_keyToString] at hrecipient
  obtain rfl := Except.ok.inj hrecipient
  obtain rfl := hreply _ hdecode
  obtain ⟨env, henv, hmerge⟩ := hdb
  rw [← h.db] at henv hmerge
  have hfinish : finishPull env ns.status ⟨ns.siteId, changes⟩ (σ.db n) =
      ((a.mapError Error.db).map (true, ·), db') := finishPull_of_merge rfl hmerge
  have hstep : Net.Step (fun _ => True) σ (.finish n m) ((σ.setDb n db').setPull t none) := by
    have hs' := @Net.Step.finish N _ _ (fun _ => True) σ t _ _ env hpull rfl henv
    rwa [hfinish] at hs'
  have hsound' : (q.after ⟨.db (.merge ns.siteId changes), a⟩ stage).Sound S σ n := by
    refine hsound.after (fun _ _ _ _ _ he => ?_) fun _ _ he => ?_
    · cases he
    · cases he
  obtain ⟨ks, hr⟩ := h.reached
  refine ⟨m, _, ?_, hstep, h.update t ⟨_, .snoc hr hstep⟩ ?_ (fun _ _ hst => hst)
    (fun v hv => Or.inl hv) (fun t' ht' => ?_) ?_⟩
  · have hcursor := CursorInv.run_honest hsite hr m
    exact ((hcursor.pulls t _ hpull).1).2 rfl
  · show Function.update σ.db n db' = Function.update K.db n db'
    rw [h.db]
  · exact ⟨Function.update_of_ne ht' .., Net.setPull_pulls_of_ne ht' none⟩
  · show Task.Is S _ (Function.update K.task t _ t) ((Net.setPull _ t none).pulls t)
    rw [Function.update_self, Net.setPull_pulls]
    refine .busy hpeers ⟨hsound'.known, hsound'.read⟩ hp' (Or.inl rfl) ?_
    -- only a new start is possible after a merge
    cases hmoves with
    | idle => exact .idle rfl
    | stay he => exact he.elim

end Call

/-! ## Starting, and the map of a server task -/

section Start
variable {σ : Type} {s s' : σ} {tr : List IdentEvent}

/-- Nothing is known of the peer. -/
def Peer.Fresh (p : Peer) : Prop := p.nodeStatus = none ∧ p.routeId = none

theorem Peer.fresh_of_load {name : String} {dbKey : Bytes} {p : Peer}
    (h : Exec (Peer.load name dbKey : Ident σ Peer) s tr (.ok p) s') : p.Fresh := by
  obtain ⟨_, _, value, s₁, _, _, h₁⟩ := exec_bind_ok_iff.1 h
  obtain ⟨_, _, key?, s₂, _, _, h₂⟩ := exec_bind_ok_iff.1 h₁
  cases key? with
  | none => exact absurd (exec_throw_iff.1 h₂).2.1 (by simp)
  | some key =>
      obtain rfl := Except.ok.inj (exec_pure_iff.1 h₂).2.1
      exact ⟨rfl, rfl⟩

theorem Peer.fresh_of_loadKeys {keys : List Bytes} {remotes remotes' : AList fun _ : String => Peer}
    (hfresh : ∀ name p, remotes.lookup name = some p → p.Fresh)
    (h : Exec (Peer.loadKeys keys remotes : Ident σ _) s tr (.ok remotes') s') :
    ∀ name p, remotes'.lookup name = some p → p.Fresh := by
  induction keys generalizing remotes s tr with
  | nil =>
      obtain rfl := Except.ok.inj (exec_pure_iff.1 h).2.1
      exact hfresh
  | cons key keys ih =>
      obtain ⟨_, _, name, s₁, _, _, h₁⟩ := exec_bind_ok_iff.1 h
      obtain ⟨_, _, peer, s₂, _, hload, h₂⟩ := exec_bind_ok_iff.1 h₁
      refine ih (fun name' p hp => ?_) h₂
      by_cases hname : name' = name
      · subst hname
        rw [AList.lookup_insert] at hp
        obtain rfl := Option.some.inj hp
        exact Peer.fresh_of_load hload
      · rw [AList.lookup_insert_ne hname] at hp
        exact hfresh name' p hp

theorem Conclave.fresh_of_new {c : Conclave} {tr : List IdentEvent}
    (h : Exec Conclave.new () tr (.ok c) ()) :
    ∀ name p, c.remotes.lookup name = some p → p.Fresh := by
  obtain ⟨_, _, sov, _, _, _, h₁⟩ := exec_bind_ok_iff.1 h
  obtain ⟨_, _, remotes, _, _, hload, h₂⟩ := exec_bind_ok_iff.1 h₁
  obtain rfl := Except.ok.inj (exec_pure_iff.1 h₂).2.1
  obtain ⟨_, _, _, _, _, _, h₃⟩ := exec_bind_ok_iff.1 hload
  obtain ⟨_, _, keys, _, _, _, h₄⟩ := exec_bind_ok_iff.1 h₃
  exact Peer.fresh_of_loadKeys (fun name p hp => absurd hp (by simp)) h₄

/-- The calls of a startup touch no field. -/
theorem Peer.frame_openDb : Method.Within (frame id fun _ => True) (Peer.openDb : Ident σ Unit) :=
  Method.Within.bind (composable_frame id fun _ => True) (Ident.frame_call trivial) fun _ =>
    Ident.frame_call trivial

theorem Peer.frame_load (name : String) (dbKey : Bytes) :
    Method.Within (frame id fun _ => True) (Peer.load name dbKey : Ident σ Peer) := by
  have hJ := @composable_frame IdentCall IdentRet σ σ id fun _ => True
  refine Method.Within.bind hJ (Ident.frame_call trivial) fun value =>
    Method.Within.bind hJ (Ident.frame_lift _) fun key? => ?_
  cases key? with
  | none => exact Method.Within.throw hJ _
  | some key => exact Method.Within.pure hJ _

theorem Peer.frame_remove (p : Peer) :
    Method.Within (frame id fun _ => True) (p.remove : Ident σ Unit) :=
  Method.Within.bind (composable_frame id fun _ => True) Peer.frame_openDb fun _ =>
    Ident.frame_call trivial

/-- `remote_remove` takes an entry out, or does nothing. -/
theorem Conclave.remotes_of_remoteRemove {name : String} {c c' : Conclave} {tr : List IdentEvent}
    {r : Except Error Bool} (h : Exec (remoteRemove name) c tr r c') :
    c'.sovereign = c.sovereign ∧ ∀ name' p, c'.remotes.lookup name' = some p →
      c.remotes.lookup name' = some p := by
  have h' := exec_get_bind_iff.1 h
  cases hl : c.remotes.lookup name with
  | none =>
      rw [hl] at h'
      obtain ⟨-, -, rfl⟩ := exec_pure_iff.1 h'
      exact ⟨rfl, fun _ _ hp => hp⟩
  | some peer =>
      rw [hl] at h'
      have hc : c' = { c with remotes := c.remotes.erase name } := by
        have hJ := @composable_frame IdentCall IdentRet Conclave Conclave id fun _ => True
        exact ((Method.Within.bind hJ peer.frame_remove fun _ => Method.Within.pure hJ true) _ _ _ _
          (exec_modify_bind_iff.1 h')).1
      subst hc
      refine ⟨rfl, fun name' p hp => ?_⟩
      by_cases hname : name' = name
      · subst hname
        exact absurd hp (by simp)
      · rwa [AList.lookup_erase_ne hname] at hp

variable [CryptoSystem]

theorem Peer.frame_new (name addr : String) :
    Method.Within (frame id fun _ => True) (Peer.new name addr : Ident σ Peer) := by
  have hJ := @composable_frame IdentCall IdentRet σ σ id fun _ => True
  exact Method.Within.bind hJ Peer.frame_openDb fun _ =>
    Method.Within.bind hJ (Ident.frame_lift _) fun _ =>
      Method.Within.bind hJ (Ident.frame_call trivial) fun _ => Peer.frame_load _ _

theorem Peer.fresh_of_new {name addr : String} {p : Peer}
    (h : Exec (Peer.new name addr : Ident σ Peer) s tr (.ok p) s') : p.Fresh := by
  obtain ⟨_, _, _, _, _, _, h₁⟩ := exec_bind_ok_iff.1 h
  obtain ⟨_, _, _, _, _, _, h₂⟩ := exec_bind_ok_iff.1 h₁
  obtain ⟨_, _, _, _, _, _, h₃⟩ := exec_bind_ok_iff.1 h₂
  exact Peer.fresh_of_load h₃

/-- `remote_add` puts a fresh entry in, or does nothing. -/
theorem Conclave.remotes_of_remoteAdd {name addr : String} {c c' : Conclave} {tr : List IdentEvent}
    {r : Except Error Unit} (h : Exec (remoteAdd name addr) c tr r c') :
    c'.sovereign = c.sovereign ∧ ∀ name' p, c'.remotes.lookup name' = some p →
      p.Fresh ∨ c.remotes.lookup name' = some p := by
  rcases exec_bind_iff.1 h with ⟨e, -, h₁⟩ | ⟨tr₁, tr₂, peer, c₁, -, h₁, h₂⟩
  · obtain rfl : c' = c := (Peer.frame_new name addr _ _ _ _ h₁).1
    exact ⟨rfl, fun _ _ hp => Or.inr hp⟩
  · obtain rfl : c₁ = c := (Peer.frame_new name addr _ _ _ _ h₁).1
    obtain ⟨-, -, rfl⟩ := exec_modify_iff.1 h₂
    refine ⟨rfl, fun name' p hp => ?_⟩
    by_cases hname : name' = peer.name
    · subst hname
      rw [AList.lookup_insert] at hp
      obtain rfl := Option.some.inj hp
      exact Or.inl (Peer.fresh_of_new h₁)
    · exact Or.inr (by rwa [AList.lookup_insert_ne hname] at hp)

end Start

end Ddcp
