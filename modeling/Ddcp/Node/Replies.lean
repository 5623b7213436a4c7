import Ddcp.Lib.Protocol
import Ddcp.Node.Keys
import Ddcp.Node.Shutdown
import Mathlib.Data.Multiset.OrderedMonoid

set_option autoImplicit false

/-! # What a serving node replies

The server task spawns a responder for each `app_call` it has received, and does not wait for it:
responders of any number of calls are at work while the loops go on and while the main task cleans
up. `Desk` is the process with its history, in which the calls that have been received stand among
the calls that its tasks have made. A call is replied to at most once, and only by a response that
was read from the database after the call had come, to a request that a peer of the node has sealed
for it. -/

namespace Ddcp

open Method Lts History

/-! ## One responder -/

/-- Any call but a reply. -/
def NotReply (c : Call) : Prop := ∀ callId message, c ≠ .veilid (.appCallReply callId message)

theorem RespondCall.notReply_of_answerCall {c : Call} (h : AnswerCall c) : NotReply c := by
  rintro callId message rfl
  exact h

section Responder
variable [Capnp] [CryptoSystem] {σ : Type} {s s' : σ} {tr : List Event}

/-- The reply `message` of a responder that has read `tr`. -/
def Responder.Replies (r : Responder) (tr : List Event) (message : Bytes) : Prop :=
  ∃ key request response contents, r.peer.authKey = .ok (some key) ∧
    Crypto.decode Request ⟨r.conclave.sovereign.dhtOwnerKeypair, key⟩ r.envelope.contents =
      .ok request ∧
    AnswersFrom tr request response ∧
    Crypto.Seals ⟨r.conclave.sovereign.dhtOwnerKeypair, key⟩ (encode response) contents ∧
    message = encode (Envelope.mk r.sender contents)

omit [Capnp] [CryptoSystem] in
theorem answersFrom_dbChanges {since : Int64} {res : Bytes × List Change}
    (h : Exec (dbChanges since) s tr (.ok res) s') :
    AnswersFrom tr (.changes since) (.changes ⟨res.1, res.2⟩) := by
  rcases Act.exec_db_bind_iff.1 h with ⟨e, _, hr, _⟩ | ⟨status, tr', rfl, h₁⟩
  · exact absurd hr (by simp)
  by_cases hle : since ≥ status.2
  · simp only [hle, if_true] at h₁
    obtain ⟨rfl, hres, rfl⟩ := exec_pure_iff.1 h₁
    obtain rfl := Except.ok.inj hres
    exact ⟨status.1, status.2, by simp, Or.inl ⟨hle, rfl⟩⟩
  · simp only [hle, if_false] at h₁
    rcases Act.exec_db_bind_iff.1 h₁ with ⟨e, _, hr, _⟩ | ⟨changes, tr'', rfl, h₂⟩
    · exact absurd hr (by simp)
    obtain ⟨rfl, hres, rfl⟩ := exec_pure_iff.1 h₂
    obtain rfl := Except.ok.inj hres
    exact ⟨status.1, status.2, by simp, Or.inr ⟨changes, hle, by simp, rfl⟩⟩

/-- What is sealed is the response that has been read. -/
theorem exec_answerRequest_ok {crypto : Crypto} {request : Request} {contents : Bytes}
    (h : Exec (answerRequest crypto request) s tr (.ok contents) s') :
    ∃ response, AnswersFrom tr request response ∧ crypto.Seals (encode response) contents := by
  cases request with
  | status =>
      rcases Act.exec_db_bind_iff.1 h with ⟨e, _, hr, _⟩ | ⟨status, tr', rfl, h₁⟩
      · exact absurd hr (by simp)
      exact ⟨_, ⟨status.1, status.2, by simp, rfl⟩, (Crypto.exec_encode_ok h₁).1⟩
  | changes since =>
      obtain ⟨tr₁, tr₂, res, s₁, rfl, h₁, h₂⟩ := exec_bind_ok_iff.1 h
      refine ⟨_, (answersFrom_dbChanges h₁).mono fun e he => List.mem_append_left _ he, ?_⟩
      exact (Crypto.exec_encode_ok h₂).1

/-- **One responder.** It ends without a reply, or with one, which is its last call. -/
theorem exec_responder {r : Responder} {res : Except Abort Unit}
    (h : Exec (r.run : Act σ Unit) s tr res s') :
    (∀ e ∈ tr, NotReply e.1) ∨ ∃ tr₀ message a,
      tr = tr₀ ++ [⟨.veilid (.appCallReply r.callId message), a⟩] ∧
        (∀ e ∈ tr₀, NotReply e.1) ∧ r.Replies tr₀ message := by
  have hcryptoCall : ∀ a : Except VeilidAPIError (Option Unit),
      ∀ e ∈ [(⟨.veilid (.crypto CRYPTO_KIND_VLD0), a⟩ : Event)], NotReply e.1 := by
    intro a e he callId message hcall
    rw [List.mem_singleton.1 he] at hcall
    exact absurd hcall (by simp)
  rcases exec_bind_iff.1 h with ⟨e, _, h₁⟩ | ⟨tr₁, tr', crypto, s₁, rfl, h₁, h'⟩
  · obtain ⟨a, rfl, _⟩ := exec_crypto_iff.1 h₁
    exact Or.inl (hcryptoCall a)
  obtain ⟨a, rfl, rfl, hwith⟩ := exec_crypto_iff.1 h₁
  obtain ⟨key, hkey, rfl⟩ : ∃ key, r.peer.authKey = .ok (some key) ∧
      crypto = ⟨r.conclave.sovereign.dhtOwnerKeypair, key⟩ := by
    cases a with
    | error e => exact absurd hwith (by simp [bind, Except.bind])
    | ok vld0 =>
        obtain ⟨_, key, hkey, hcrypto⟩ := cryptoWith_ok_iff.1
          (hwith.symm : r.conclave.cryptoWith r.peer vld0 = .ok crypto)
        exact ⟨key, hkey, hcrypto⟩
  rcases exec_bind_iff.1 h' with ⟨e, _, h₂⟩ | ⟨tr₂, tr₃, request, s₂, rfl, h₂, h₃⟩
  · obtain ⟨rfl, _⟩ := Act.exec_lift_iff.1 h₂
    rw [List.append_nil]
    exact Or.inl (hcryptoCall a)
  obtain ⟨rfl, hrequest, rfl⟩ := Act.exec_lift_iff.1 h₂
  -- the answer is sealed, and then sent
  have hanswerCalls : ∀ {tr res s'}, Exec (answerRequest ⟨r.conclave.sovereign.dhtOwnerKeypair, key⟩
      request : Act σ Bytes) s₂ tr res s' → ∀ e ∈ tr, NotReply e.1 := fun hx e he =>
    RespondCall.notReply_of_answerCall ((within_answerRequest (fun _ => id) _ _ _ _ _ _ hx).2 e he)
  have hbefore : ∀ {tr}, (∀ e ∈ tr, NotReply e.1) →
      ∀ e ∈ [(⟨.veilid (.crypto CRYPTO_KIND_VLD0), a⟩ : Event)] ++ tr, NotReply e.1 := fun htr =>
    List.forall_mem_append.2 ⟨hcryptoCall a, htr⟩
  rcases exec_bind_iff.1 h₃ with ⟨e, _, h₄⟩ | ⟨tr₄, tr₅, contents, s₃, rfl, h₄, h₅⟩
  · exact Or.inl (hbefore (hanswerCalls h₄))
  obtain ⟨response, hresponse, hseals⟩ := exec_answerRequest_ok h₄
  obtain ⟨reply, rfl, _⟩ := Act.exec_veilid_iff.1 h₅
  refine Or.inr ⟨_, _, reply, rfl, hbefore (hanswerCalls h₄), key, request, response, contents,
    hkey, hrequest.symm, ?_, hseals, rfl⟩
  exact hresponse.mono fun e he => List.mem_append_right _ he

/-- One call of a responder that has made the calls `tr`. -/
theorem Responder.step {r : Responder} {p p' : Prog Call Ret (Except Abort Unit × Unit)} {e : Event}
    (hr : Run Prog.Step ((r.run : Act Unit Unit) ()) tr p) (hs : p.Step e p') :
    NotReply e.1 ∨ ((∀ e ∈ tr, NotReply e.1) ∧ ∃ message a,
      e = ⟨.veilid (.appCallReply r.callId message), a⟩ ∧ r.Replies tr message) := by
  -- seen from the end of an execution
  obtain ⟨tr', out, hx⟩ := Prog.exists_exec p'
  have hexec : Exec (r.run : Act Unit Unit) () (tr ++ e :: tr') out.1 out.2 :=
    Prog.Exec.after_run hr (hs.exec hx)
  rcases exec_responder hexec with hnone | ⟨tr₀, message, a, heq, hnot, hreplies⟩
  · exact Or.inl (hnone e (by simp))
  induction tr' using List.reverseRecOn with
  | nil =>
      obtain ⟨rfl, hlast⟩ := List.append_inj' heq rfl
      exact Or.inr ⟨hnot, message, a, List.singleton_inj.1 hlast, hreplies⟩
  | append_singleton tr' e' =>
      rw [← List.cons_append, ← List.append_assoc] at heq
      obtain ⟨rfl, _⟩ := List.append_inj' heq rfl
      exact Or.inl (hnot e (by simp))

end Responder

/-! ## The process and its calls -/

/-- What happens at a serving node: a call is received, or a task makes a call. -/
inductive DeskEvent where
  | received (callId : UInt64) (message : Bytes)
  | call (a : Actor) (e : Event)

def DeskEvent.receivedId : DeskEvent → Option UInt64
  | .received callId _ => some callId
  | .call _ _ => none

def DeskEvent.repliedId : DeskEvent → Option UInt64
  | .call _ ⟨.veilid (.appCallReply callId _), _⟩ => some callId
  | _ => none

/-- What a responder was told. -/
def DeskEvent.read : DeskEvent → Option Event
  | .call .responder e => some e
  | _ => none

/-- The ids of the calls that have been received, each as often as it has been. -/
def receivedIds (h : List DeskEvent) : Multiset UInt64 :=
  (h.filterMap DeskEvent.receivedId : List UInt64)

/-- The ids of the calls that have been replied to. -/
def repliedIds (h : List DeskEvent) : Multiset UInt64 :=
  (h.filterMap DeskEvent.repliedId : List UInt64)

def responderReads (h : List DeskEvent) : List Event := h.filterMap DeskEvent.read

structure Desk where
  process : Process
  history : List DeskEvent

/-- What taking an update from the queue leaves in the history. -/
def VeilidUpdate.deskEvents : VeilidUpdate → List DeskEvent
  | .appCall callId message => [.received callId message]
  | _ => []

namespace Desk
variable [Capnp] [CryptoSystem]

omit [Capnp] in
def start (ddcp : DDCP) : Desk := ⟨Process.start ddcp, []⟩

inductive Step : Desk → Option VeilidUpdate → Desk → Prop
  /-- The server's loop takes an update. -/
  | receive {D : Desk} {s : DDCP} (u : VeilidUpdate) (h : D.process.server = .idle s) :
      Step D (some u) {
        process := { D.process with
          server := .busy (DDCP.serverUpdate D.process.peerByKey u s) }
        history := D.history ++ u.deskEvents }
  /-- Any other step of the process. -/
  | other {D : Desk} {l : ProcessAction} {σ : Process} {es : List (Actor × Event)}
      (h : Process.Step D.process l σ) (hlog : σ.log = D.process.log ++ es)
      (htick : ∀ s p, D.process.server = .idle s → σ.server = .busy p → p = DDCP.serverTick s) :
      Step D none ⟨σ, D.history ++ es.map fun e => .call e.1 e.2⟩

/-- Nothing is lost: whatever the process does, it does at its desk. -/
theorem exists_step {D : Desk} {l : ProcessAction} {σ : Process} (h : Process.Step D.process l σ) :
    ∃ u D', Step D u D' ∧ D'.process = σ := by
  have hother : ∀ {es}, σ.log = D.process.log ++ es →
      (∀ s p, D.process.server = .idle s → σ.server = .busy p → p = DDCP.serverTick s) →
      ∃ u D', Step D u D' ∧ D'.process = σ := fun hlog htick => ⟨none, _, .other h hlog htick, rfl⟩
  have hsame : ∀ {s p}, D.process.server = .idle s → D.process.server = .busy p →
      p = DDCP.serverTick s := fun hs hp => absurd (hs.symm.trans hp) (by simp)
  cases h with
  | puller hl => exact hother rfl fun _ _ => hsame
  | @server es rs l' hl =>
      cases hserver : D.process.server with
      | idle s =>
          rw [hserver] at hl
          cases hl with
          | start hround =>
              rcases hround with rfl | ⟨u, rfl⟩
              · refine hother rfl fun s' p hs hp => ?_
                rw [hserver] at hs
                rw [← Loop.idle.inj hs, Loop.busy.inj hp]
              · refine ⟨_, _, .receive u hserver, ?_⟩
                simp [Process.spawned]
          | stop => exact hother rfl fun s' p _ hp => absurd hp (by simp)
      | busy p => exact hother rfl fun s' p' hs => absurd (hserver.symm.trans hs) (by simp)
      | ended => exact hother rfl fun s' p' hs => absurd (hserver.symm.trans hs) (by simp)
  | responder hps hs => exact hother rfl fun _ _ => hsame
  | interrupt => exact hother (List.append_nil _).symm fun _ _ => hsame
  | signalError => exact hother (List.append_nil _).symm fun _ _ => hsame
  | serveReturns hm hi => exact hother (List.append_nil _).symm fun _ _ => hsame
  | main hm hs => exact hother rfl fun _ _ => hsame
  | exit hm => exact hother (List.append_nil _).symm fun s p _ hp => absurd hp (by simp)

theorem exists_run {ddcp : DDCP} {ls : List ProcessAction} {σ : Process}
    (hr : Run Process.Step (Process.start ddcp) ls σ) :
    ∃ us D, Run Step (start ddcp) us D ∧ D.process = σ := by
  induction hr with
  | nil => exact ⟨[], start ddcp, .nil, rfl⟩
  | snoc hr hs ih =>
      obtain ⟨us, D, hus, rfl⟩ := ih
      obtain ⟨u, D', hu, rfl⟩ := exists_step hs
      exact ⟨_, D', .snoc hus hu, rfl⟩

/-- The calls of a responder, with nothing between them. -/
theorem run_responder {D : Desk} {tr : List Event}
    {p p' : Prog Call Ret (Except Abort Unit × Unit)} (hr : Run Prog.Step p tr p')
    (hp : D.process.responders = [p]) : ∃ us D', Run Step D us D' ∧
      D'.process.responders = [p'] ∧ D'.process.server = D.process.server ∧
      D'.history = D.history ++ tr.map (.call .responder) := by
  induction hr with
  | nil => exact ⟨[], D, .nil, hp, rfl, by simp⟩
  | @snoc tr p₁ p₂ e hr hs ih =>
      obtain ⟨us, D₁, hus, hp₁, hserver, hhistory⟩ := ih
      have hstep : Process.Step D₁.process (.task .responder) { D₁.process with
          responders := [] ++ p₂ :: []
          log := D₁.process.log ++ [(.responder, e)] } := .responder hp₁ hs
      refine ⟨_, _, .snoc hus (.other hstep rfl fun s p hs hp => ?_), rfl, hserver, ?_⟩
      · exact absurd (hs.symm.trans hp) (by simp)
      · rw [hhistory]
        simp

/-- A call from its arrival to the end of its responder, with nothing between. -/
theorem run_call {D : Desk} {s : DDCP} {callId : UInt64} {message : Bytes} {r : Responder}
    {tr : List Event} {res : Except Abort Unit} (hserver : D.process.server = .idle s)
    (hnone : D.process.responders = [])
    (hr : s.responderFor D.process.peerByKey callId message = .ok (some r))
    (hx : Exec (r.run : Act Unit Unit) () tr res ()) : ∃ us D', Run Step D us D' ∧
      D'.history = D.history ++ .received callId message :: tr.map (.call .responder) := by
  have hround : Exec (DDCP.serverUpdate D.process.peerByKey (.appCall callId message)) s []
      (.ok (some r)) s := by
    have hhandle := exec_handleAppCall_iff.2 ⟨rfl, hr.symm, rfl⟩
    exact exec_bind_of_ok (exec_attempt_iff.2 (Or.inl ⟨_, rfl, hhandle⟩)) (.pure _)
  have hpure : DDCP.serverUpdate D.process.peerByKey (.appCall callId message) s =
      .pure (.ok (some r), s) := Prog.Exec.eq_pure hround
  have hreceive := Step.receive (D := D) (.appCall callId message) hserver
  rw [hpure] at hreceive
  let received : Process := { D.process with server := .busy (.pure (.ok (some r), s)) }
  let spawned : Process := { D.process with
    server := .idle s
    responders := D.process.responders ++ Process.spawned [some r]
    log := D.process.log ++ ([] : List Event).map (.server, ·) }
  have hdone : Process.Step received (.task .server) spawned := .server .done
  have hspawn := Step.other (D := ⟨received, D.history ++ [.received callId message]⟩) hdone rfl
    fun s p hs => absurd hs (by simp [received])
  obtain ⟨us, D', hus, -, -, hhistory⟩ := run_responder
    (D := ⟨spawned, D.history ++ [.received callId message] ++ []⟩) (Prog.Exec.run hx)
    (by simp only [spawned, hnone]; rfl)
  refine ⟨_, D', .cons hreceive (.cons hspawn hus), ?_⟩
  rw [hhistory]
  simp

end Desk

/-! ## Counting -/

section Counts
variable {h h' : List DeskEvent} {es : List (Actor × Event)}

@[simp] theorem receivedIds_append : receivedIds (h ++ h') = receivedIds h + receivedIds h' := by
  simp [receivedIds]

@[simp] theorem repliedIds_append : repliedIds (h ++ h') = repliedIds h + repliedIds h' := by
  simp [repliedIds]

@[simp] theorem responderReads_append :
    responderReads (h ++ h') = responderReads h ++ responderReads h' :=
  List.filterMap_append

@[simp] theorem receivedIds_calls : receivedIds (es.map fun e => .call e.1 e.2) = 0 := by
  induction es with
  | nil => rfl
  | cons e es ih => exact ih

theorem repliedIds_eq_zero (hh : ∀ x ∈ h, x.repliedId = none) : repliedIds h = 0 := by
  unfold repliedIds
  rw [List.filterMap_eq_nil_iff.2 hh]
  rfl

theorem DeskEvent.repliedId_of_notReply {a : Actor} {e : Event} (he : NotReply e.1) :
    (DeskEvent.call a e).repliedId = none := by
  obtain ⟨c, x⟩ := e
  unfold DeskEvent.repliedId
  split
  · next heq =>
      cases heq
      exact absurd rfl (he _ _)
  · rfl

theorem repliedIds_calls (hes : ∀ e ∈ es, NotReply e.2.1) :
    repliedIds (es.map fun e => .call e.1 e.2) = 0 := by
  refine repliedIds_eq_zero fun x hx => ?_
  obtain ⟨e, he, rfl⟩ := List.mem_map.1 hx
  exact DeskEvent.repliedId_of_notReply (hes e he)

theorem repliedIds_deskEvents (u : VeilidUpdate) : repliedIds u.deskEvents = 0 := by
  cases u <;> rfl

end Counts

/-! ## The books of the desk -/

section Books
variable [Capnp] [CryptoSystem]

/-- `message` answers the call `call`: its sender is a peer in the map of the server task, what it
    contains opens under the key the map has of that peer to a request, and `message` is the
    response to it, read in `reads` and sealed for that key. -/
def DDCP.RepliesTo (ddcp : DDCP) (reads : List Event) (call message : Bytes) : Prop :=
  ∃ envelope peer key request response contents, decode Envelope call = .ok envelope ∧
    ddcp.peerByKey.lookup envelope.sender = some peer ∧ peer.authKey = .ok (some key) ∧
    Crypto.decode Request ⟨ddcp.conclave.sovereign.dhtOwnerKeypair, key⟩ envelope.contents =
      .ok request ∧
    AnswersFrom reads request response ∧
    Crypto.Seals ⟨ddcp.conclave.sovereign.dhtOwnerKeypair, key⟩ (encode response) contents ∧
    message = encode (Envelope.mk ddcp.addr contents)

/-- A reply answers a call that has been received, with what has been read since. -/
def Answered (ddcp : DDCP) (before : List DeskEvent) (e : DeskEvent) : Prop :=
  ∀ a callId message x, e = .call a ⟨.veilid (.appCallReply callId message), x⟩ →
    ∃ h₁ call h₂, before = h₁ ++ .received callId call :: h₂ ∧
      ddcp.RepliesTo (responderReads h₂) call message

/-- The responder is for a call that has been received, and has made the calls `tr` since. -/
def Serves (ddcp : DDCP) (h : List DeskEvent) (r : Responder) (tr : List Event) : Prop :=
  ∃ h₁ call h₂, h = h₁ ++ .received r.callId call :: h₂ ∧ (∀ e ∈ tr, e ∈ responderReads h₂) ∧
    decode Envelope call = .ok r.envelope ∧
    ddcp.peerByKey.lookup r.envelope.sender = some r.peer ∧ r.sender = ddcp.addr ∧
    r.conclave.sovereign.dhtOwnerKeypair = ddcp.conclave.sovereign.dhtOwnerKeypair

/-- A responder at work: what it is, what it has done, and what is left of it. -/
structure Work where
  responder : Responder
  made : List Event
  left : Prog Call Ret (Except Abort Unit × Unit)

/-- The reply that it may still send. -/
def Work.pending (w : Work) : Multiset UInt64 :=
  {w.responder.callId} - repliedIds (w.made.map (.call .responder))

/-- Every call that has been received is still open (`o`), or has a responder that may reply to it,
    or has been replied to, or has been given up. -/
structure Books (ddcp : DDCP) (h : List DeskEvent) (ws : List Work) (o : Multiset UInt64) :
    Prop where
  work : ∀ w ∈ ws, Run Prog.Step ((w.responder.run : Act Unit Unit) ()) w.made w.left ∧
    Serves ddcp h w.responder w.made
  count : repliedIds h + (ws.map Work.pending).sum + o ≤ receivedIds h
  answered : Always (Answered ddcp) h

variable {ddcp : DDCP} {h h' : List DeskEvent} {ws ws' : List Work} {o o' : Multiset UInt64}

omit [CryptoSystem] in
theorem Serves.append [CryptoSystem] {r : Responder} {tr : List Event} (hs : Serves ddcp h r tr) :
    Serves ddcp (h ++ h') r tr := by
  obtain ⟨h₁, call, h₂, rfl, htr, hrest⟩ := hs
  refine ⟨h₁, call, h₂ ++ h', by simp, fun e he => ?_, hrest⟩
  rw [responderReads_append]
  exact List.mem_append_left _ (htr e he)

theorem Answered.of_notReply {before : List DeskEvent} {a : Actor} {e : Event}
    (he : NotReply e.1) : Answered ddcp before (.call a e) := by
  rintro a' callId message x heq
  cases heq
  exact absurd rfl (he callId message)

/-- The calls of the other tasks. -/
theorem Books.quiet (hb : Books ddcp h ws o) {es : List (Actor × Event)}
    (hes : ∀ e ∈ es, NotReply e.2.1) : Books ddcp (h ++ es.map fun e => .call e.1 e.2) ws o where
  work w hw := ⟨(hb.work w hw).1, (hb.work w hw).2.append⟩
  count := by
    rw [repliedIds_append, receivedIds_append, receivedIds_calls, repliedIds_calls hes, add_zero,
      add_zero]
    exact hb.count
  answered := by
    refine always_append.2 ⟨hb.answered, always_of_forall fun e he before => ?_⟩
    obtain ⟨e', he', rfl⟩ := List.mem_map.1 he
    exact Answered.of_notReply (hes e' he')

/-- An update is taken. -/
theorem Books.receive (hb : Books ddcp h ws o) (u : VeilidUpdate) :
    Books ddcp (h ++ u.deskEvents) ws (receivedIds u.deskEvents) where
  work w hw := ⟨(hb.work w hw).1, (hb.work w hw).2.append⟩
  count := by
    rw [repliedIds_append, receivedIds_append, repliedIds_deskEvents, add_zero]
    exact add_le_add_left (le_of_add_le_left hb.count) _
  answered := by
    refine always_append.2 ⟨hb.answered, always_of_forall fun e he before => ?_⟩
    rintro a callId message x rfl
    cases u <;> simp [VeilidUpdate.deskEvents] at he

/-- A responder is spawned for the call that is open. -/
theorem Books.spawn (hb : Books ddcp h ws o) {r : Responder} (hr : {r.callId} ≤ o)
    (hs : Serves ddcp h r []) : Books ddcp h (ws ++ [⟨r, [], (r.run : Act Unit Unit) ()⟩]) 0 where
  work w hw := by
    rcases List.mem_append.1 hw with hw | hw
    · exact hb.work w hw
    · rw [List.mem_singleton.1 hw]
      exact ⟨.nil, hs⟩
  count := by
    have hpending : Work.pending ⟨r, [], (r.run : Act Unit Unit) ()⟩ = {r.callId} := tsub_zero _
    rw [List.map_append, List.sum_append, List.map_singleton, List.sum_singleton, hpending,
      add_zero, ← add_assoc]
    exact (add_le_add_right hr _).trans hb.count
  answered := hb.answered

/-- What is open may be given up, and responders too. -/
theorem Books.giveUp (hb : Books ddcp h ws o) (hws : ws' = ws ∨ ws' = []) (ho : o' ≤ o) :
    Books ddcp h ws' o' where
  work w hw := by
    rcases hws with rfl | rfl
    · exact hb.work w hw
    · exact absurd hw (by simp)
  count := by
    refine le_trans (add_le_add (add_le_add_right ?_ _) ho) hb.count
    rcases hws with rfl | rfl
    · exact le_rfl
    · exact Multiset.zero_le _
  answered := hb.answered

/-- **A call of a responder.** -/
theorem Books.call {ws₁ ws₂ : List Work} {w : Work} (hb : Books ddcp h (ws₁ ++ w :: ws₂) o)
    {e : Event} {p' : Prog Call Ret (Except Abort Unit × Unit)} (hs : w.left.Step e p') :
    Books ddcp (h ++ [.call .responder e])
      (ws₁ ++ ⟨w.responder, w.made ++ [e], p'⟩ :: ws₂) o := by
  have hw : w ∈ ws₁ ++ w :: ws₂ := by simp
  obtain ⟨hrun, hserves⟩ := hb.work w hw
  have hmade : responderReads [DeskEvent.call .responder e] = [e] := rfl
  have hserves' : Serves ddcp (h ++ [.call .responder e]) w.responder (w.made ++ [e]) := by
    obtain ⟨h₁, call, h₂, rfl, htr, hrest⟩ := hserves
    refine ⟨h₁, call, h₂ ++ [.call .responder e], by simp, fun e' he' => ?_, hrest⟩
    rw [responderReads_append, hmade]
    exact (List.mem_append.1 he').elim (fun he' => List.mem_append_left _ (htr e' he'))
      (List.mem_append_right _)
  have hstep := Responder.step hrun hs
  have hpending : repliedIds [DeskEvent.call .responder e] +
      Work.pending ⟨w.responder, w.made ++ [e], p'⟩ ≤ w.pending := by
    rcases hstep with hnot | ⟨hnot, message, a, rfl, -⟩
    · have hnone : repliedIds [DeskEvent.call .responder e] = 0 := repliedIds_eq_zero fun x hx =>
        List.mem_singleton.1 hx ▸ DeskEvent.repliedId_of_notReply hnot
      unfold Work.pending
      rw [List.map_append, repliedIds_append, List.map_singleton, hnone, add_zero, zero_add]
    · -- it has not replied yet, and now it has
      have hnone : repliedIds (w.made.map (.call .responder)) = 0 := by
        refine repliedIds_eq_zero fun x hx => ?_
        obtain ⟨e, he, rfl⟩ := List.mem_map.1 hx
        exact DeskEvent.repliedId_of_notReply (hnot e he)
      unfold Work.pending
      rw [List.map_append, repliedIds_append, hnone]
      show {w.responder.callId} + ({w.responder.callId} - (0 + {w.responder.callId})) ≤
        ({w.responder.callId} - 0 : Multiset UInt64)
      simp
  refine ⟨fun w' hw' => ?_, ?_, always_concat.2 ⟨hb.answered, ?_⟩⟩
  · have hothers : w' = ⟨w.responder, w.made ++ [e], p'⟩ ∨ w' ∈ ws₁ ++ w :: ws₂ := by
      simp only [List.mem_append, List.mem_cons] at hw' ⊢
      tauto
    rcases hothers with rfl | hold
    · exact ⟨.snoc hrun hs, hserves'⟩
    · exact ⟨(hb.work w' hold).1, (hb.work w' hold).2.append⟩
  · have hcount := hb.count
    simp only [List.map_append, List.map_cons, List.sum_append, List.sum_cons] at hcount ⊢
    rw [repliedIds_append, receivedIds_append]
    calc repliedIds h + repliedIds [.call .responder e] +
          ((ws₁.map Work.pending).sum + (Work.pending ⟨w.responder, w.made ++ [e], p'⟩ +
            (ws₂.map Work.pending).sum)) + o
        = repliedIds h + ((ws₁.map Work.pending).sum + ((repliedIds [.call .responder e] +
            Work.pending ⟨w.responder, w.made ++ [e], p'⟩) + (ws₂.map Work.pending).sum)) + o := by
          ac_rfl
      _ ≤ repliedIds h + ((ws₁.map Work.pending).sum + (w.pending +
            (ws₂.map Work.pending).sum)) + o :=
          add_le_add_left (add_le_add_right (add_le_add_right (add_le_add_left hpending _) _) _) _
      _ ≤ receivedIds h + receivedIds [.call .responder e] :=
          hcount.trans (Multiset.le_add_right _ _)
  · rcases hstep with hnot | ⟨-, message, a, rfl, key, request, response, contents, hkey, hrequest,
      hreads, hseals, rfl⟩
    · exact Answered.of_notReply hnot
    · intro a' callId message x heq
      cases heq
      obtain ⟨h₁, call, h₂, rfl, htr, hcall, hpeer, hsender, hkeys⟩ := hserves
      rw [hkeys] at hrequest hseals
      exact ⟨h₁, call, h₂, rfl, _, _, key, request, response, contents, hcall, hpeer, hkey,
        hrequest, hreads.mono htr, hseals, by rw [hsender]⟩

end Books

/-! ## What the other tasks do -/

section Tasks
variable [Capnp] [CryptoSystem]

/-- The keys a node is known by. -/
def DDCP.identity (s : DDCP) : TypedKey × TypedKeyPair :=
  (s.conclave.sovereign.dhtKey, s.conclave.sovereign.dhtOwnerKeypair)

omit [Capnp] [CryptoSystem] in
theorem RefreshCall.notReply {c : Call} (h : RefreshCall c) : NotReply c := by
  rintro callId message rfl
  exact h

omit [CryptoSystem] in
theorem refreshPeers_keeps_sovereign :
    Within (frame Conclave.sovereign NotReply) Conclave.refreshPeers := by
  have hJ := @composable_frame Call Ret Conclave _ Conclave.sovereign NotReply
  refine (Within.get hJ).bind hJ fun c => Within.forM hJ fun name => Within.bind hJ ?_ fun _ =>
    Within.pure hJ _
  intro s tr r s' h
  obtain ⟨hsov, hcalls, -⟩ := exec_onPeer_refresh h
  exact ⟨hsov, fun e he => (hcalls e he).notReply⟩

theorem push_keeps_identity : Within (frame DDCP.identity NotReply) DDCP.push := by
  intro s tr r s' h
  obtain ⟨tr₁, tr₂, r₁, c₁, rfl, hann, hrest⟩ := Server.exec_push h
  have hcalls : ∀ e ∈ tr₁, NotReply e.1 := by
    rintro ⟨c, x⟩ he callId message rfl
    exact (Server.announceStatus_keeps hann).2 _ he
  have hid : DDCP.identity ⟨c₁⟩ = s.identity := by
    obtain ⟨_, _, _, ⟨_, hs⟩ | ⟨_, _, sovereign, _, hx, hs⟩⟩ := Server.exec_announceStatus hann
    · rw [hs]
    · rw [hs]
      unfold DDCP.identity
      rw [announce_keeps hx]
  rcases hrest with ⟨rfl, rfl⟩ | ⟨r₂, c', hr, rfl⟩
  · exact ⟨hid, by simpa using hcalls⟩
  · obtain ⟨hsov, hcalls'⟩ := refreshPeers_keeps_sovereign _ _ _ _ hr
    refine ⟨?_, List.forall_mem_append.2 ⟨hcalls, hcalls'⟩⟩
    rw [← hid]
    unfold DDCP.identity
    rw [hsov]

theorem handleUpdate_keeps_identity (peers : AList fun _ : String => Peer) (u : VeilidUpdate) :
    Within (frame DDCP.identity NotReply) (DDCP.handleUpdate peers u) := by
  intro s tr r s' h
  rcases exec_handleUpdate h with ⟨_, rfl, rfl⟩ | ⟨_, _, sovereign, hrel, rfl⟩
  · exact ⟨rfl, by simp⟩
  · refine ⟨?_, fun e he => ?_⟩
    · unfold DDCP.identity
      rw [releaseRoute_keeps hrel]
    · rcases exec_releaseRoute hrel with ⟨_, rfl, _⟩ | ⟨_, _, ⟨_, rfl, _⟩ | ⟨rfl, _⟩⟩
      · exact absurd he (by simp)
      all_goals
        rw [List.mem_singleton.1 he]
        simp [NotReply]

/-- A round of the server's loop. -/
theorem serverRounds_keep_identity {peers : AList fun _ : String => Peer} {s : DDCP}
    {p : Prog Call Ret (Except Abort (Option Responder) × DDCP)}
    (h : Process.serverRounds peers s p) {tr : List Event}
    {out : Except Abort (Option Responder) × DDCP} (hx : Prog.Exec p tr out) :
    out.2.identity = s.identity ∧ ∀ e ∈ tr, NotReply e.1 := by
  have hJ := @composable_frame Call Ret DDCP _ DDCP.identity NotReply
  rcases h with rfl | ⟨u, rfl⟩
  · exact (Within.bind hJ push_keeps_identity.attempt fun _ => Within.pure hJ _) _ _ _ _ hx
  · refine (Within.bind hJ (handleUpdate_keeps_identity peers u).attempt fun r => ?_) _ _ _ _ hx
    cases r <;> exact Within.pure hJ _

theorem exec_serverTick_ok {s s' : DDCP} {tr : List Event} {r : Option Responder}
    (h : Exec DDCP.serverTick s tr (.ok r) s') : r = none := by
  obtain ⟨_, _, _, _, _, _, h₂⟩ := exec_bind_ok_iff.1 h
  exact Except.ok.inj (exec_pure_iff.1 h₂).2.1

/-- Only a call makes the server spawn a responder, the one for this call. -/
theorem exec_serverUpdate_some {peers : AList fun _ : String => Peer} {u : VeilidUpdate}
    {s s' : DDCP} {tr : List Event} {r : Responder}
    (h : Exec (DDCP.serverUpdate peers u) s tr (.ok (some r)) s') : ∃ callId message,
      u = .appCall callId message ∧ s.responderFor peers callId message = .ok (some r) := by
  obtain ⟨tr₁, tr₂, res, s₁, rfl, h₁, h₂⟩ := exec_bind_ok_iff.1 h
  cases res with
  | error e => exact absurd (exec_pure_iff.1 h₂).2.1 (by simp)
  | ok r' =>
      obtain rfl := Except.ok.inj (exec_pure_iff.1 h₂).2.1
      obtain ⟨r₁, hx, hr₁⟩ := exec_attempt h₁
      obtain rfl := hr₁ (some r) rfl
      cases u with
      | appCall callId message =>
          exact ⟨callId, message, rfl, (exec_handleAppCall_iff.1 hx).2.1.symm⟩
      | shutdown => exact absurd (exec_throw_iff.1 hx).2.1 (by simp)
      | attachment ready => exact absurd (exec_pure_iff.1 hx).2.1 (by simp)
      | other => exact absurd (exec_pure_iff.1 hx).2.1 (by simp)
      | routeChange =>
          obtain ⟨_, _, _, _, _, _, h₃⟩ := exec_bind_ok_iff.1 hx
          exact absurd (exec_pure_iff.1 h₃).2.1 (by simp)

theorem only_pullerTick_notReply (s : DDCP) : (DDCP.pullerTick s).Only NotReply := by
  intro tr r h e he
  obtain ⟨tr₁, tr₂, r₁, rfl, hr, hpull⟩ := pullerTick_refreshes
    (show Exec DDCP.pullerTick s tr r.1 r.2 from h)
  rcases List.mem_append.1 he with he | he
  · exact ((within_refreshPeers _ _ _ _ hr).2 e he).notReply
  · rintro callId message hcall
    have hp := hpull e he
    rw [hcall] at hp
    exact hp

omit [Capnp] [CryptoSystem] in
theorem only_cleanup_notReply (s : DDCP) : (DDCP.cleanup s).Only NotReply := by
  have hJ : ∀ {σ : Type}, @Composable Call Ret σ (frame (fun _ => ()) NotReply) := fun {σ} =>
    @composable_frame Call Ret σ _ _ _
  have hclose : Within (frame (fun _ : Conclave => ()) NotReply) Conclave.close := by
    intro c tr r c' h
    refine ⟨rfl, fun e he => ?_⟩
    rintro callId message hcall
    have hc := (within_close _ _ _ _ h).2 e he
    rw [hcall] at hc
    exact hc
  refine (Within.bind hJ (Within.zoom (fun _ _ _ h => ⟨rfl, h.2⟩) hclose).attempt fun _ =>
    Within.bind hJ ?_ fun _ => frame_db (by simp [NotReply])).only
  exact Within.perform fun _ _ => ⟨rfl, by simp [NotReply]⟩

end Tasks

/-! ## Every run -/

section Run
variable [Capnp] [CryptoSystem] {ddcp : DDCP}

/-- A round of the server's loop: it does not reply itself, and it spawns at most the responder of
    the call that is open. -/
def RoundFor (ddcp : DDCP) (h : List DeskEvent) (o : Multiset UInt64)
    (p : Prog Call Ret (Except Abort (Option Responder) × DDCP)) : Prop :=
  ∀ tr out, p.Exec tr out → (∀ e ∈ tr, NotReply e.1) ∧ out.2.identity = ddcp.identity ∧
    ∀ r, out.1 = .ok (some r) → {r.callId} ≤ o ∧ Serves ddcp h r []

structure DeskInv (ddcp : DDCP) (D : Desk) (ws : List Work) (o : Multiset UInt64) : Prop where
  peers : D.process.peerByKey = ddcp.peerByKey
  puller : ∀ p, D.process.puller = .busy p → p.Only NotReply
  main : ∀ p, D.process.main = .cleaning p → p.Only NotReply
  idle : ∀ s, D.process.server = .idle s → s.identity = ddcp.identity
  busy : ∀ p, D.process.server = .busy p → RoundFor ddcp D.history o p
  responders : D.process.responders = ws.map Work.left
  books : Books ddcp D.history ws o

variable {D D' : Desk} {ws : List Work} {o : Multiset UInt64} {h h' : List DeskEvent}
  {p p' : Prog Call Ret (Except Abort (Option Responder) × DDCP)}

theorem RoundFor.append (hp : RoundFor ddcp h o p) : RoundFor ddcp (h ++ h') o p := by
  intro tr out hx
  obtain ⟨hcalls, hid, hr⟩ := hp tr out hx
  exact ⟨hcalls, hid, fun r hout => ⟨(hr r hout).1, (hr r hout).2.append⟩⟩

theorem RoundFor.step (hp : RoundFor ddcp h o p) {e : Event} (hs : p.Step e p') :
    NotReply e.1 ∧ RoundFor ddcp h o p' := by
  obtain ⟨tr, out, hx⟩ := Prog.exists_exec p'
  refine ⟨(hp _ _ (hs.exec hx)).1 e List.mem_cons_self, fun tr out hx => ?_⟩
  obtain ⟨hcalls, hrest⟩ := hp _ _ (hs.exec hx)
  exact ⟨fun e' he' => hcalls e' (List.mem_cons_of_mem _ he'), hrest⟩

theorem roundFor_serverTick {s : DDCP} (hs : s.identity = ddcp.identity) :
    RoundFor ddcp h o (DDCP.serverTick s) := by
  intro tr out hx
  obtain ⟨hid, hcalls⟩ := @serverRounds_keep_identity _ _ ∅ s _ (Or.inl rfl) _ _ hx
  refine ⟨hcalls, hid.trans hs, fun r hout => ?_⟩
  have hexec : Exec DDCP.serverTick s tr (.ok (some r)) out.2 := by
    rw [← hout]
    exact hx
  exact absurd (exec_serverTick_ok hexec) (by simp)

/-- The call that an update brings is open while the update is handled. -/
theorem roundFor_serverUpdate {s : DDCP} (hs : s.identity = ddcp.identity) (u : VeilidUpdate) :
    RoundFor ddcp (h ++ u.deskEvents) (receivedIds u.deskEvents)
      (DDCP.serverUpdate ddcp.peerByKey u s) := by
  intro tr out hx
  obtain ⟨hid, hcalls⟩ := serverRounds_keep_identity (Or.inr ⟨u, rfl⟩) hx
  refine ⟨hcalls, hid.trans hs, fun r hout => ?_⟩
  have hexec : Exec (DDCP.serverUpdate ddcp.peerByKey u) s tr (.ok (some r)) out.2 := by
    rw [← hout]
    exact hx
  obtain ⟨callId, message, rfl, hr⟩ := exec_serverUpdate_some hexec
  unfold DDCP.responderFor at hr
  cases henv : decode Envelope message with
  | error e => simp [henv] at hr
  | ok envelope =>
      simp only [henv, Except.ok.injEq, Option.map_eq_some_iff] at hr
      obtain ⟨peer, hpeer, rfl⟩ := hr
      obtain ⟨hkey, hpair⟩ := Prod.mk.inj hs
      refine ⟨le_rfl, h, message, [], rfl, by simp, henv, hpeer, ?_, hpair⟩
      show CryptoSystem.keyToString s.conclave.sovereign.dhtKey = ddcp.addr
      rw [hkey]
      rfl

/-- A step that leaves the server and the responders alone. -/
theorem DeskInv.quiet (hinv : DeskInv ddcp D ws o) {σ : Process} {es : List (Actor × Event)}
    (hes : ∀ e ∈ es, NotReply e.2.1) (hpeers : σ.peerByKey = D.process.peerByKey)
    (hserver : σ.server = D.process.server) (hresponders : σ.responders = D.process.responders)
    (hpuller : ∀ p, σ.puller = .busy p → p.Only NotReply)
    (hmain : ∀ p, σ.main = .cleaning p → p.Only NotReply) :
    DeskInv ddcp ⟨σ, D.history ++ es.map fun e => .call e.1 e.2⟩ ws o where
  peers := hpeers.trans hinv.peers
  puller := hpuller
  main := hmain
  idle s hs := hinv.idle s (hserver ▸ hs)
  busy p hp := (hinv.busy p (hserver ▸ hp)).append
  responders := hresponders.trans hinv.responders
  books := hinv.books.quiet hes

omit [Capnp] [CryptoSystem] in
/-- A loop whose rounds make only certain calls. -/
theorem Loop.Step.only_calls {β : Type} {P : Call → Prop} {stops : Prop} {l l' : Loop β}
    {es : List Event} {rs : List β}
    {rounds : DDCP → Prog Call Ret (Except Abort β × DDCP) → Prop}
    (hs : Loop.Step rounds stops l es rs l') (hl : ∀ p, l = .busy p → p.Only P)
    (hrounds : ∀ s p, rounds s p → p.Only P) :
    (∀ p, l' = .busy p → p.Only P) ∧ ∀ e ∈ es, P e.1 := by
  cases hs with
  | start hp => exact ⟨fun p heq => Loop.busy.inj heq ▸ hrounds _ _ hp, by simp⟩
  | call hstep =>
      obtain ⟨he, honly⟩ := (hl _ rfl).step hstep
      exact ⟨fun p heq => Loop.busy.inj heq ▸ honly, by simpa using he⟩
  | done => exact ⟨fun p heq => absurd heq (by simp), by simp⟩
  | failed => exact ⟨fun p heq => absurd heq (by simp), by simp⟩
  | panicked => exact ⟨fun p heq => absurd heq (by simp), by simp⟩
  | stop => exact ⟨fun p heq => absurd heq (by simp), by simp⟩

/-- A step of the server's loop that takes no update. -/
theorem DeskInv.server (hinv : DeskInv ddcp D ws o) {l : Loop (Option Responder)}
    {es : List Event} {rs : List (Option Responder)}
    (hl : Loop.Step (Process.serverRounds D.process.peerByKey) True D.process.server es rs l)
    (htick : ∀ s p, D.process.server = .idle s → l = .busy p → p = DDCP.serverTick s) :
    ∃ ws' o', DeskInv ddcp ⟨{ D.process with
      server := l
      responders := D.process.responders ++ Process.spawned rs
      log := D.process.log ++ es.map (.server, ·) },
      D.history ++ (es.map (Actor.server, ·)).map fun e => .call e.1 e.2⟩ ws' o' := by
  have hnil : D.process.responders ++ [] = ws.map Work.left := by
    rw [List.append_nil, hinv.responders]
  have hbooks : Books ddcp (D.history ++ []) ws o := by rw [List.append_nil]; exact hinv.books
  generalize hserver : D.process.server = server at hl
  cases hl with
  | @start s p hp =>
      obtain rfl := htick s p hserver rfl
      exact ⟨ws, o, hinv.peers, hinv.puller, hinv.main, fun s' hs' => absurd hs' (by simp),
        fun p hp => Loop.busy.inj hp ▸ roundFor_serverTick (hinv.idle s hserver),
        hnil, hbooks⟩
  | @call p p' e hs =>
      obtain ⟨hnot, hround⟩ := (hinv.busy p hserver).step hs
      have hnot' : ∀ e' ∈ [(Actor.server, e)], NotReply e'.2.1 := by simpa using hnot
      have hbooks' := hinv.books.quiet hnot'
      exact ⟨ws, o, hinv.peers, hinv.puller, hinv.main, fun s' hs' => absurd hs' (by simp),
        fun p hp => Loop.busy.inj hp ▸ hround.append, hnil, hbooks'⟩
  | @done b s =>
      obtain ⟨-, hid, hspawn⟩ := hinv.busy _ hserver [] _ (.pure _)
      have hidle : ∀ s', Loop.idle s = (.idle s' : Loop (Option Responder)) →
          s'.identity = ddcp.identity := fun s' hs' => Loop.idle.inj hs' ▸ hid
      cases b with
      | none =>
          exact ⟨ws, o, hinv.peers, hinv.puller, hinv.main, hidle,
            fun p hp => absurd hp (by simp), hnil, hbooks⟩
      | some r =>
          obtain ⟨hopen, hserves⟩ := hspawn r rfl
          have hbooks' : Books ddcp (D.history ++ [])
              (ws ++ [⟨r, [], (r.run : Act Unit Unit) ()⟩]) 0 := by
            rw [List.append_nil]
            exact hinv.books.spawn hopen hserves
          refine ⟨_, 0, hinv.peers, hinv.puller, hinv.main, hidle,
            fun p hp => absurd hp (by simp), ?_, hbooks'⟩
          rw [hinv.responders, List.map_append]
          rfl
  | @failed e s =>
      obtain ⟨-, hid, -⟩ := hinv.busy _ hserver [] _ (.pure _)
      exact ⟨ws, o, hinv.peers, hinv.puller, hinv.main, fun s' hs' => Loop.idle.inj hs' ▸ hid,
        fun p hp => absurd hp (by simp), hnil, hbooks⟩
  | panicked =>
      exact ⟨ws, o, hinv.peers, hinv.puller, hinv.main, fun s' hs' => absurd hs' (by simp),
        fun p hp => absurd hp (by simp), hnil, hbooks⟩
  | stop =>
      exact ⟨ws, o, hinv.peers, hinv.puller, hinv.main, fun s' hs' => absurd hs' (by simp),
        fun p hp => absurd hp (by simp), hnil, hbooks⟩

theorem DeskInv.step {u : Option VeilidUpdate} (hinv : DeskInv ddcp D ws o)
    (hs : Desk.Step D u D') : ∃ ws' o', DeskInv ddcp D' ws' o' := by
  cases hs with
  | @receive s u hidle =>
      refine ⟨ws, receivedIds u.deskEvents, hinv.peers, hinv.puller, hinv.main,
        fun s' hs' => absurd hs' (by simp), fun p hp => ?_, hinv.responders, hinv.books.receive u⟩
      rw [← Loop.busy.inj hp, hinv.peers]
      exact roundFor_serverUpdate (hinv.idle s hidle) u
  | @other l σ es hstep hlog htick =>
      have hes : ∀ {es' : List (Actor × Event)}, σ.log = D.process.log ++ es' → es = es' :=
        fun h' => List.append_cancel_left (hlog.symm.trans h')
      have hnone : σ.log = D.process.log → es = [] := fun h' =>
        hes (h'.trans (List.append_nil _).symm)
      cases hstep with
      | @puller es' rs l hl =>
          obtain rfl := hes rfl
          obtain ⟨honly, hnot⟩ := hl.only_calls hinv.puller fun s p hp =>
            hp ▸ only_pullerTick_notReply s
          have hnot' : ∀ e ∈ es'.map (Actor.puller, ·), NotReply e.2.1 := fun e he => by
            obtain ⟨e', he', rfl⟩ := List.mem_map.1 he
            exact hnot e' he'
          exact ⟨ws, o, hinv.quiet hnot' rfl rfl rfl honly hinv.main⟩
      | @server es' rs l hl =>
          obtain rfl := hes rfl
          exact hinv.server hl htick
      | @responder ps ps' p p' e hps hs =>
          obtain rfl := hes rfl
          rw [hinv.responders] at hps
          obtain ⟨ws₁, ws', rfl, rfl, hws'⟩ := List.map_eq_append_iff.1 hps
          obtain ⟨w, ws₂, rfl, rfl, rfl⟩ := List.map_eq_cons_iff.1 hws'
          refine ⟨_, o, hinv.peers, hinv.puller, hinv.main, hinv.idle,
            fun p hp => (hinv.busy p hp).append, ?_, hinv.books.call hs⟩
          simp
      | interrupt =>
          obtain rfl := hnone rfl
          exact ⟨ws, o, hinv.quiet (by simp) rfl rfl rfl hinv.puller hinv.main⟩
      | signalError =>
          obtain rfl := hnone rfl
          exact ⟨ws, o, hinv.quiet (by simp) rfl rfl rfl hinv.puller hinv.main⟩
      | serveReturns hm hi =>
          obtain rfl := hnone rfl
          refine ⟨ws, o, hinv.quiet (by simp) rfl rfl rfl hinv.puller fun p hp => ?_⟩
          rw [← MainTask.cleaning.inj hp]
          exact only_cleanup_notReply _
      | @main p p' e hm hs =>
          obtain rfl := hes rfl
          obtain ⟨hnot, honly⟩ := (hinv.main p hm).step hs
          exact ⟨ws, o, hinv.quiet (by simpa using hnot) rfl rfl rfl hinv.puller fun p hp =>
            MainTask.cleaning.inj hp ▸ honly⟩
      | exit hm =>
          obtain rfl := hnone rfl
          rw [List.map_nil, List.append_nil]
          exact ⟨[], o, hinv.peers, fun p hp => absurd hp (by simp),
            fun p hp => absurd hp (by simp), fun s hs => absurd hs (by simp),
            fun p hp => absurd hp (by simp), rfl,
            hinv.books.giveUp (Or.inr rfl) le_rfl⟩

theorem DeskInv.init (ddcp : DDCP) : DeskInv ddcp (Desk.start ddcp) [] 0 where
  peers := rfl
  puller p hp := absurd hp (by simp [Desk.start, Process.start])
  main p hp := absurd hp (by simp [Desk.start, Process.start])
  idle s hs := by
    rw [Loop.idle.inj hs]
  busy p hp := absurd hp (by simp [Desk.start, Process.start])
  responders := rfl
  books := ⟨by simp, le_rfl, always_nil⟩

/-- **A call is replied to at most once, and truly.** In every run of a serving node, whatever calls
    come from whomever, and however its tasks interleave, also while it shuts down: no id has been
    replied to more often than calls with it have come; and every reply is to a call that has come
    before, which names a peer of the node and contains a request sealed under the key known of that
    peer, and it is the response to that request, read from the database by a responder since the
    call has come, and sealed for that peer alone. -/
theorem replies_answer_calls {us : List (Option VeilidUpdate)}
    (hr : Run Desk.Step (Desk.start ddcp) us D) :
    repliedIds D.history ≤ receivedIds D.history ∧ Always (Answered ddcp) D.history := by
  obtain ⟨ws, o, hinv⟩ := hr.invariant (I := fun D => ∃ ws o, DeskInv ddcp D ws o)
    ⟨[], 0, .init ddcp⟩ fun _ _ _ ⟨_, _, hinv⟩ hs => hinv.step hs
  refine ⟨?_, hinv.books.answered⟩
  rw [← add_zero (repliedIds D.history)]
  refine le_trans ?_ hinv.books.count
  rw [add_assoc]
  exact add_le_add_right (Multiset.zero_le _) _

end Run

section Example
attribute [local instance] plainCapnp plainCrypto

/-- The responder for the request of a peer whose status the node has. -/
def knownResponder : Responder :=
  { statusResponder with
    conclave := (nodeKnowing (some peerStatus)).conclave
    peer := ⟨"p", ⟨[], [1]⟩, none, some peerStatus, none⟩ }

def statusReply : Bytes := encode (Envelope.mk (PlainCrypto.keyToString ⟨[], []⟩)
  (calmNonce.bytes ++ ([7 + 9] ++ calmNonce.bytes ++ encode (Response.status ⟨[7], 0⟩))))

def knownTrace : List Event :=
  [⟨.veilid (.crypto CRYPTO_KIND_VLD0), .ok (some ())⟩, ⟨.db .status, .ok ([7], 0)⟩,
    ⟨.randomNonce, calmNonce⟩, ⟨.veilid (.appCallReply 0 statusReply), .ok ()⟩]

theorem exec_knownResponder :
    Exec (knownResponder.run : Act Unit Unit) () knownTrace (.ok ()) () := by
  let crypto : Crypto := ⟨⟨[], ⟨[7], [7]⟩⟩, ⟨[], [9]⟩⟩
  have hcrypto : Exec (knownResponder.conclave.crypto knownResponder.peer : Act Unit Crypto) ()
      [⟨.veilid (.crypto CRYPTO_KIND_VLD0), .ok (some ())⟩] (.ok crypto) () := by
    have hauth : knownResponder.peer.authKey = .ok (some ⟨[], [9]⟩) :=
      authKey_of_nodeStatus rfl (PlainCrypto.keyFromStr_keyToString _)
    have hwith : knownResponder.conclave.cryptoWith knownResponder.peer (some ()) = .ok crypto :=
      cryptoWith_ok_iff.2 ⟨rfl, _, hauth, rfl⟩
    exact exec_crypto_iff.2 ⟨.ok (some ()), rfl, rfl, hwith.symm⟩
  have hopen : crypto.decode Request statusContents = .ok .status := by
    let own : TypedKeyPair := ⟨[], ⟨[7], [7]⟩⟩
    let peer : TypedKeyPair := ⟨[], ⟨[9], [9]⟩⟩
    have hown : own.value.key = own.value.secret := rfl
    have hpeer : peer.value.key = peer.value.secret := rfl
    have hseals : Crypto.Seals ⟨peer, ⟨[], own.value.key⟩⟩ (encode Request.status)
        statusContents := ⟨[9 + 7], calmNonce, _, rfl, rfl, rfl⟩
    have hdecode : crypto.decode Request statusContents =
        (decode Request (encode Request.status)).mapError fun e => .err (.crypto (.proto e)) :=
      Crypto.decode_of_seals plainCrypto_lawful hpeer hown hseals
    rw [hdecode, plainCapnp_decode_encode (Request.ofObj_toObj _)]
    rfl
  have hrequest : Exec (Act.lift (crypto.decode Request knownResponder.envelope.contents) :
      Act Unit Request) () [] (.ok .status) () := Act.exec_lift_iff.2 ⟨rfl, hopen.symm, rfl⟩
  have hrest : Exec (do
      let resp ← answerRequest crypto .status
      Act.veilid (.appCallReply 0 (encode (Envelope.mk knownResponder.sender resp))) :
        Act Unit Unit) () (knownTrace.drop 1) (.ok ()) () := .call (.call (.call (.pure _)))
  exact exec_bind_of_ok hcrypto (exec_bind_of_ok hrequest hrest)

/-- A peer asks for the status. -/
theorem replies_answer_calls_status : ∃ us D,
    Run Desk.Step (Desk.start (nodeKnowing (some peerStatus))) us D ∧
    repliedIds D.history = {0} ∧ repliedIds D.history ≤ receivedIds D.history ∧
    Always (Answered (nodeKnowing (some peerStatus))) D.history := by
  have hr : (nodeKnowing (some peerStatus)).responderFor (nodeKnowing (some peerStatus)).peerByKey 0
      statusMessage = .ok (some knownResponder) := by
    have hmessage : decode Envelope statusMessage = .ok statusResponder.envelope :=
      plainCapnp_decode_encode (Envelope.ofObj_toObj _)
    simp only [DDCP.responderFor, hmessage]
    rfl
  obtain ⟨us, D, hus, hhistory⟩ := Desk.run_call (D := Desk.start (nodeKnowing (some peerStatus)))
    rfl rfl hr exec_knownResponder
  have h := replies_answer_calls hus
  exact ⟨us, D, hus, by rw [hhistory]; rfl, h.1, h.2⟩

end Example

end Ddcp
