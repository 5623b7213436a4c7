import Ddcp.Lib.Crash
import Ddcp.Lib.Safe
import Ddcp.Node.Server
import Mathlib.Data.Finset.Basic

set_option autoImplicit false

/-! # Two tasks on one table of open records

While `serve` runs, the puller's and the server's clone of the conclave each refresh their peers,
again and again, against the one table of open DHT records of the node: a refresh closes the record,
opens it and reads it. `Refreshers.Step` interleaves the two call by call. A task that closes or
reads a record between the other's close and open of it does not find it; when no task does, every
close and every read finds its record open. -/

namespace Ddcp

open Method Lts

inductive Who where
  | puller
  | server
  deriving DecidableEq

def Who.other : Who → Who
  | .puller => .server
  | .server => .puller

/-- A task between two refreshes, or what is left of its `refresh_peers`. -/
inductive RefreshTask where
  | idle (c : Conclave)
  | refreshing (p : Prog Call Ret (Except Abort Unit × Conclave))

def RefreshTask.next : RefreshTask → Option Call
  | .idle _ => none
  | .refreshing p => p.next

structure Refreshers where
  opened : Finset TypedKey
  task : Who → RefreshTask
  results : List (Except Abort Unit)
  log : List Event

/-- The table of open records: closing or reading a record fails exactly when it is not open, and no
    other call of a refresh fails. -/
def Records (opened : Finset TypedKey) (opened' : Finset TypedKey) : Event → Prop
  | ⟨.veilid (.closeDhtRecord key), r⟩ =>
      if key ∈ opened then r = .ok () ∧ opened' = opened.erase key
      else opened' = opened ∧ ∃ e : VeilidAPIError, r = .error e
  | ⟨.veilid (.openDhtRecord key _), r⟩ => r = .ok ⟨key⟩ ∧ opened' = insert key opened
  | ⟨.veilid (.getDhtValue key _ _), r⟩ =>
      opened' = opened ∧ if key ∈ opened then ∃ v : Option Bytes, r = .ok v
        else ∃ e : VeilidAPIError, r = .error e
  | ⟨.veilid (.importRemotePrivateRoute _), r⟩ => opened' = opened ∧ ∃ v : RouteId, r = .ok v
  | _ => opened' = opened

inductive RefreshAction where
  | start (w : Who)
  | call (w : Who) (e : Event)
  | finish (w : Who)
  | between (w : Who) (sovereign : Sovereign)

namespace Refreshers

variable [Capnp]

/-- Both tasks at their start, with clones of one conclave. -/
def init (c : Conclave) (opened : Finset TypedKey) : Refreshers where
  opened := opened
  task _ := .idle c
  results := []
  log := []

inductive Step : Refreshers → RefreshAction → Refreshers → Prop
  | start {σ : Refreshers} {w : Who} {c : Conclave} (h : σ.task w = .idle c) :
      Step σ (.start w)
        { σ with task := Function.update σ.task w (.refreshing (Conclave.refreshPeers c)) }
  | call {σ : Refreshers} {w : Who} {p p' : Prog Call Ret (Except Abort Unit × Conclave)}
      {e : Event} {opened' : Finset TypedKey} (h : σ.task w = .refreshing p)
      (hs : Prog.Step p e p') (hr : Records σ.opened opened' e) :
      Step σ (.call w e) { σ with
        opened := opened'
        task := Function.update σ.task w (.refreshing p')
        log := σ.log ++ [e] }
  | finish {σ : Refreshers} {w : Who} {r : Except Abort Unit} {c : Conclave}
      (h : σ.task w = .refreshing (.pure (r, c))) :
      Step σ (.finish w) { σ with
        task := Function.update σ.task w (.idle c)
        results := σ.results ++ [r] }
  /-- What else the loops do between two refreshes. -/
  | between {σ : Refreshers} {w : Who} {c : Conclave} {sovereign : Sovereign}
      (h : σ.task w = .idle c) :
      Step σ (.between w sovereign)
        { σ with task := Function.update σ.task w (.idle { c with sovereign := sovereign }) }

end Refreshers

/-! ## The loops

A turn of a loop, whether it is a tick of the puller, a `push` or an update that is handled, does
one refresh at most; otherwise it makes no call of a refresh and leaves the peers of the conclave as
they are. So a loop does with the records what one of the tasks does (`run_loop`). -/

instance RefreshCall.decidable : DecidablePred RefreshCall := fun c => by
  unfold RefreshCall
  split <;> infer_instance

/-- What the log of a task shows of a turn. -/
def refreshCalls (tr : List Event) : List Event := tr.filter fun e => RefreshCall e.1

theorem refreshCalls_append (tr₁ tr₂ : List Event) :
    refreshCalls (tr₁ ++ tr₂) = refreshCalls tr₁ ++ refreshCalls tr₂ := List.filter_append ..

theorem refreshCalls_of_none {tr : List Event} (h : ∀ e ∈ tr, ¬ RefreshCall e.1) :
    refreshCalls tr = [] :=
  List.filter_eq_nil_iff.2 fun e he => by simpa using h e he

theorem refreshCalls_of_all {tr : List Event} (h : ∀ e ∈ tr, RefreshCall e.1) :
    refreshCalls tr = tr :=
  List.filter_eq_self.2 fun e he => by simpa using h e he

/-- The table of open records when nobody but the task itself uses it. -/
def RecordsServe : Finset TypedKey → List Event → Finset TypedKey → Prop :=
  Prog.Served (fun opened e opened' => Records opened opened' e) Prog.alone

/-- Other calls leave the table alone. -/
theorem RecordsServe.unchanged {opened opened' : Finset TypedKey} {tr : List Event}
    (h : RecordsServe opened tr opened') (hcalls : ∀ e ∈ tr, ¬ RefreshCall e.1) :
    opened' = opened := by
  refine Prog.alone_iff.1 (h.idle fun e he w w' hw => ?_)
  obtain ⟨c, r⟩ := e
  cases c with
  | veilid c => cases c <;> first | exact hw | exact absurd trivial (hcalls _ he)
  | _ => exact hw

theorem PullCall.not_refreshCall {c : Call} (h : PullCall c) : ¬ RefreshCall c := by
  cases c with
  | veilid c => cases c <;> first | exact id | exact absurd h id
  | _ => exact id

section Loops
variable [Capnp]

/-- At most one refresh, of the peers that there are. -/
def RefreshesOnce (s : DDCP) (tr : List Event) (s' : DDCP) : Prop :=
  ∃ (c₁ : Conclave) (before during after : List Event), tr = before ++ (during ++ after) ∧
    c₁.remotes = s.conclave.remotes ∧ (∀ e ∈ before ++ after, ¬ RefreshCall e.1) ∧
    ((during = [] ∧ s' = ⟨c₁⟩) ∨ ∃ r, Exec Conclave.refreshPeers c₁ during r s'.conclave)

/-- The calls of a refresh, one after the other. -/
theorem Refreshers.run_calls {σ : Refreshers} {w : Who} {opened' : Finset TypedKey}
    {p : Prog Call Ret (Except Abort Unit × Conclave)} {tr : List Event}
    {out : Except Abort Unit × Conclave} (hx : Prog.Exec p tr out)
    (ht : σ.task w = .refreshing p) (hserved : RecordsServe σ.opened tr opened') :
    Run Refreshers.Step σ (tr.map (.call w))
      ⟨opened', Function.update σ.task w (.refreshing (.pure out)), σ.results, σ.log ++ tr⟩ := by
  induction hx generalizing σ with
  | pure out =>
      obtain rfl := Prog.served_alone_nil_iff.1 hserved
      rw [← ht, Function.update_eq_self, List.append_nil]
      exact .nil
  | @call c k a tr out _ ih =>
      obtain ⟨opened₁, hrec, hrest⟩ := Prog.served_alone_cons_iff.1 hserved
      have hstep : Refreshers.Step σ (.call w ⟨c, a⟩) _ := .call ht (.call c k a) hrec
      have hrun := ih (σ := ⟨opened₁, Function.update σ.task w (.refreshing (k a)), σ.results,
        σ.log ++ [⟨c, a⟩]⟩) (Function.update_self ..) hrest
      rw [Function.update_idem, List.append_assoc, List.singleton_append] at hrun
      exact .cons hstep hrun

/-- What a turn does is what a task does. -/
theorem RefreshesOnce.run {s s' : DDCP} {tr : List Event} (h : RefreshesOnce s tr s')
    {σ : Refreshers} {w : Who} {opened' : Finset TypedKey} (hidle : σ.task w = .idle s.conclave)
    (hserved : RecordsServe σ.opened tr opened') :
    ∃ ls σ', Run Refreshers.Step σ ls σ' ∧ σ'.task w = .idle s'.conclave ∧ σ'.opened = opened' ∧
      σ'.log = σ.log ++ refreshCalls tr := by
  obtain ⟨c₁, before, during, after, rfl, hremotes, hquiet, hrefresh⟩ := h
  obtain ⟨hbefore, hafter⟩ := List.forall_mem_append.1 hquiet
  obtain ⟨opened₁, hserved₁, hserved₂⟩ := Prog.served_append_iff.1 hserved
  obtain ⟨opened₂, hserved₂, hserved₃⟩ := Prog.served_append_iff.1 hserved₂
  obtain rfl := RecordsServe.unchanged hserved₁ hbefore
  obtain rfl := RecordsServe.unchanged hserved₃ hafter
  have hc₁ : (⟨c₁.sovereign, s.conclave.remotes⟩ : Conclave) = c₁ := hremotes ▸ rfl
  have hbetween : Refreshers.Step σ (.between w c₁.sovereign) { σ with
      task := Function.update σ.task w (.idle ⟨c₁.sovereign, s.conclave.remotes⟩) } :=
    .between hidle
  rw [hc₁] at hbetween
  rw [refreshCalls_append, refreshCalls_append, refreshCalls_of_none hbefore,
    refreshCalls_of_none hafter, List.nil_append, List.append_nil]
  rcases hrefresh with ⟨rfl, rfl⟩ | ⟨r, hx⟩
  · refine ⟨_, _, .snoc .nil hbetween, Function.update_self .., ?_, (List.append_nil _).symm⟩
    exact (Prog.served_alone_nil_iff.1 hserved₂).symm
  · have hstart := Refreshers.Step.start (σ := { σ with
      task := Function.update σ.task w (.idle c₁) }) (Function.update_self ..)
    have hcalls := Refreshers.run_calls (σ := { σ with
      task := Function.update (Function.update σ.task w (.idle c₁)) w
        (.refreshing (Conclave.refreshPeers c₁)) }) hx (Function.update_self ..) hserved₂
    have hfinish := hcalls.snoc (.finish (Function.update_self ..))
    refine ⟨_, _, .cons hbetween (.cons hstart hfinish), Function.update_self .., rfl, ?_⟩
    rw [refreshCalls_of_all (within_refreshPeers _ _ _ _ hx).2]

variable [CryptoSystem]

theorem push_refreshes {s s' : DDCP} {tr : List Event}
    {r : Except Abort (String × Bytes × Int64)} (h : Exec DDCP.push s tr r s') :
    RefreshesOnce s tr s' := by
  obtain ⟨tr₁, tr₂, r₁, c₁, rfl, hann, hrest⟩ := Server.exec_push h
  obtain ⟨hremotes, hcalls⟩ := Server.announceStatus_keeps hann
  refine ⟨c₁, tr₁, tr₂, [], by rw [List.append_nil], hremotes, ?_, hrest.imp_right ?_⟩
  · rw [List.append_nil]
    exact fun e he => (hcalls e he).not_refreshCall
  · rintro ⟨r₂, c', hx, rfl⟩
    exact ⟨r₂, hx⟩

theorem handleUpdate_refreshes {peers : AList fun _ : String => Peer} {u : VeilidUpdate}
    {s s' : DDCP} {tr : List Event} {r : Except Abort (Option Responder)}
    (h : Exec (DDCP.handleUpdate peers u) s tr r s') : RefreshesOnce s tr s' := by
  have hcalls : s'.conclave.remotes = s.conclave.remotes ∧ ∀ e ∈ tr, ¬ RefreshCall e.1 := by
    rcases exec_handleUpdate h with ⟨_, rfl, rfl⟩ | ⟨_, _, _, hrel, rfl⟩
    · exact ⟨rfl, by simp⟩
    · refine ⟨rfl, ?_⟩
      rcases exec_releaseRoute hrel with ⟨_, rfl, _⟩ | ⟨_, _, ⟨_, rfl, _⟩ | ⟨rfl, _⟩⟩ <;>
        simp [RefreshCall]
  refine ⟨s'.conclave, tr, [], [], by simp, hcalls.1, ?_, Or.inl ⟨rfl, rfl⟩⟩
  rw [List.append_nil]
  exact hcalls.2

/-- A turn of one of the two loops. -/
inductive LoopTurn (s : DDCP) (tr : List Event) (s' : DDCP) : Prop
  | tick {r : Except Abort (List (Peer × Except Error (Bool × Int64)))}
      (h : Exec DDCP.pullerTick s tr r s')
  | push {r : Except Abort (String × Bytes × Int64)} (h : Exec DDCP.push s tr r s')
  | update {peers : AList fun _ : String => Peer} {u : VeilidUpdate}
      {r : Except Abort (Option Responder)} (h : Exec (DDCP.handleUpdate peers u) s tr r s')

theorem LoopTurn.refreshesOnce {s s' : DDCP} {tr : List Event} (h : LoopTurn s tr s') :
    RefreshesOnce s tr s' := by
  cases h with
  | tick h =>
      obtain ⟨tr₁, tr₂, r₁, rfl, hx, hcalls⟩ := pullerTick_refreshes h
      refine ⟨s.conclave, [], tr₁, tr₂, rfl, rfl, fun e he => ?_, Or.inr ⟨r₁, hx⟩⟩
      exact PullCall.not_refreshCall (hcalls e he)
  | push h => exact push_refreshes h
  | update h => exact handleUpdate_refreshes h

/-- **A loop, while the other is idle, is a run.** However many turns it takes: the task ends with
    the loop's conclave, and its log has the calls that refreshed. -/
theorem Refreshers.run_loop {s s' : DDCP} {turns : List (List Event)}
    (hr : Run LoopTurn s turns s') {σ : Refreshers} {w : Who} {opened' : Finset TypedKey}
    (hidle : σ.task w = .idle s.conclave) (hserved : RecordsServe σ.opened turns.flatten opened') :
    ∃ ls σ', Run Refreshers.Step σ ls σ' ∧ σ'.task w = .idle s'.conclave ∧ σ'.opened = opened' ∧
      σ'.log = σ.log ++ refreshCalls turns.flatten := by
  induction hr generalizing opened' with
  | nil =>
      obtain rfl := Prog.served_alone_nil_iff.1 hserved
      exact ⟨[], σ, .nil, hidle, rfl, (List.append_nil _).symm⟩
  | @snoc turns s₁ s₂ tr _ hturn ih =>
      rw [List.flatten_append, List.flatten_singleton] at hserved ⊢
      obtain ⟨opened₁, hserved₁, hserved₂⟩ := Prog.served_append_iff.1 hserved
      obtain ⟨ls, σ₁, hls, hidle₁, rfl, hlog₁⟩ := ih hserved₁
      obtain ⟨ls', σ₂, hls', hidle₂, hopened, hlog₂⟩ := hturn.refreshesOnce.run hidle₁ hserved₂
      refine ⟨ls ++ ls', σ₂, hls.trans hls', hidle₂, hopened, ?_⟩
      rw [hlog₂, hlog₁, refreshCalls_append, List.append_assoc]

end Loops

/-! ## What a refresh does on its own -/

/-- A record was found open. -/
def FoundOpen : Event → Prop
  | ⟨.veilid (.closeDhtRecord _), r⟩ => r = .ok ()
  | ⟨.veilid (.getDhtValue _ _ _), r⟩ => ∃ v : Option Bytes, r = .ok v
  | _ => True

/-- No Veilid call made the refresh fail; a status may still not decode. -/
def RefreshFine (r : Except Abort Unit) : Prop :=
  ∀ a, r = .error a → ∃ e, a = .err (.protocol e)

/-- The call closes or reads the record. -/
def ClosesOrReads (key : TypedKey) : Call → Prop
  | .veilid (.closeDhtRecord k) | .veilid (.getDhtValue k _ _) => k = key
  | _ => False

/-- The discipline of a refresh of peers whose keys are in `K`: a closed record is opened next. -/
def refreshing (K : TypedKey → Prop) : Discipline Call Ret where
  allowed e := match e with
    | ⟨.veilid (.closeDhtRecord _), r⟩ => r = .ok ()
    | ⟨.veilid (.openDhtRecord key _), r⟩ => r = .ok ⟨key⟩
    | ⟨.veilid (.getDhtValue _ _ _), r⟩ => ∃ v : Option Bytes, r = .ok v
    | ⟨.veilid (.importRemotePrivateRoute _), r⟩ => ∃ v : RouteId, r = .ok v
    | _ => True
  may c := ∀ key, ClosesOrReads key c → K key
  must c := match c with
    | .veilid (.closeDhtRecord key) => some (.veilid (.openDhtRecord key none))
    | _ => none

/-- A peer with a handle of its record. -/
def Held (K : TypedKey → Prop) (p : Peer) : Prop := p.dht = some ⟨p.dhtKey⟩ ∧ K p.dhtKey

def HeldAll (K : TypedKey → Prop) (c : Conclave) : Prop :=
  ∀ name p, c.remotes.lookup name = some p → Held K p

section Refresh
variable [Capnp] {K : TypedKey → Prop} {σ β : Type}

omit [Capnp] in
/-- A Veilid call and what follows it. -/
theorem safe_veilid_bind {D : Discipline Call Ret} {c : VeilidCall} {f : c.Val → Act σ β} {s : σ}
    {Q : Except Abort β → σ → Prop} (hmay : D.may (.veilid c))
    (h : ∀ a : Except VeilidAPIError c.Val, D.allowed ⟨.veilid c, a⟩ → ∃ v, a = .ok v ∧
      (∀ d, D.must (.veilid c) = some d → Prog.next (f v s) = some d) ∧ Safe D (f v) s Q) :
    Safe D (Act.veilid c >>= f) s Q := by
  show Prog.Safe D (fun p : Except Abort β × σ => Q p.1 p.2) (Prog.call (.veilid c) _)
  refine ⟨hmay, fun a ha => ?_⟩
  obtain ⟨v, rfl, hnext, hsafe⟩ := h a ha
  exact ⟨hnext, hsafe⟩

omit [Capnp] in
theorem safe_lift_bind {D : Discipline Call Ret} {α : Type} {x : Except Abort α} {f : α → Act σ β}
    {s : σ} {Q : Except Abort β → σ → Prop} (hok : ∀ a, x = .ok a → Safe D (f a) s Q)
    (herr : ∀ a, x = .error a → Q (.error a) s) : Safe D (Act.lift x >>= f) s Q := by
  cases x with
  | ok a => exact hok a rfl
  | error a => exact herr a rfl

/-- How a method of a peer ends that makes the calls of a refresh. -/
def EndsHeld (K : TypedKey → Prop) {α : Type} (r : Except Abort α) (p : Peer) : Prop :=
  Held K p ∧ ∀ a, r = .error a → ∃ e, a = .err (.protocol e)

omit [Capnp] in
theorem EndsHeld.ok {α : Type} {a : α} {p : Peer} (h : Held K p) : EndsHeld K (.ok a) p :=
  ⟨h, fun a ha => absurd ha (by simp)⟩

/-- A record that is closed, opened and read. -/
theorem safe_refreshDht {p : Peer} (h : Held K p) :
    Safe (refreshing K) Peer.refreshDht p (EndsHeld K) := by
  refine Safe.get_bind ?_
  rw [h.1]
  refine safe_veilid_bind (fun _ hk => hk ▸ h.2) fun a ha => ⟨(), ha, fun d hd => hd, ?_⟩
  -- the record is opened at once
  refine safe_veilid_bind (fun _ hk => hk.elim) fun a ha =>
    ⟨⟨p.dhtKey⟩, ha, fun d hd => absurd hd (by simp [refreshing]), ?_⟩
  refine Safe.modify_bind (safe_veilid_bind (fun _ hk => hk ▸ h.2) fun a ⟨value, hv⟩ =>
    ⟨value, hv, fun d hd => absurd hd (by simp [refreshing]), ?_⟩)
  have hheld : Held K { p with dht := some ⟨p.dhtKey⟩ } := ⟨rfl, h.2⟩
  cases value with
  | none => exact Safe.modify (.ok hheld)
  | some data =>
      refine safe_lift_bind (fun st _ => Safe.modify (.ok hheld)) fun a ha =>
        ⟨hheld, fun a' ha' => ?_⟩
      cases hd : decode NodeStatus data with
      | ok st => exact absurd ha (by simp [hd])
      | error e =>
          rw [hd] at ha
          exact ⟨e, (Except.error.inj ha').symm.trans (Except.error.inj ha).symm⟩

omit [Capnp] in
theorem safe_refreshRoute {p : Peer} (h : Held K p) :
    Safe (refreshing K) Peer.refreshRoute p (EndsHeld K) := by
  refine Safe.get_bind ?_
  cases p.nodeStatus with
  | none => exact Safe.pure (.ok h)
  | some status =>
      refine safe_veilid_bind (fun _ hk => hk.elim) fun a ⟨routeId, hv⟩ =>
        ⟨routeId, hv, fun d hd => absurd hd (by simp [refreshing]), ?_⟩
      exact Safe.modify (.ok h)

theorem safe_refresh {p : Peer} (h : Held K p) :
    Safe (refreshing K) Peer.refresh p (EndsHeld K) := by
  have herr : ∀ {α β : Type} (a : Abort) (p : Peer), EndsHeld K (.error a : Except Abort α) p →
      EndsHeld K (.error a : Except Abort β) p := fun a p h =>
    ⟨h.1, fun a' ha' => h.2 a' (by rw [Except.error.inj ha'])⟩
  refine (safe_refreshDht h).bind (fun _ p₁ h₁ => ?_) fun a p₁ h₁ => herr a p₁ h₁
  refine (safe_refreshRoute h₁.1).bind (fun _ p₂ h₂ => ?_) fun a p₂ h₂ => herr a p₂ h₂
  exact Safe.get_bind (Safe.pure (.ok h₂.1))

omit [Capnp] in
theorem HeldAll.replace {c : Conclave} {name : String} {p : Peer} (h : HeldAll K c)
    (hp : Held K p) : HeldAll K { c with remotes := c.remotes.replace name p } := by
  intro n q hq
  by_cases hn : n = name
  · subst hn
    have hmem : n ∈ c.remotes := AList.mem_replace.1 (AList.lookup_isSome.1 (by rw [hq]; rfl))
    rw [AList.lookup_replace_self hmem] at hq
    exact Option.some.inj hq ▸ hp
  · rw [AList.lookup_replace_ne hn] at hq
    exact h n q hq

/-- One round: every peer in turn, until a status does not decode. -/
theorem safe_refreshPeers {c : Conclave} (h : HeldAll K c) :
    Safe (refreshing K) Conclave.refreshPeers c fun r c' => HeldAll K c' ∧ RefreshFine r := by
  have hone : ∀ (name : String) (c : Conclave), HeldAll K c →
      Safe (refreshing K)
        (do let _ ← Conclave.onPeer name Peer.refresh; return () : Act Conclave PUnit) c
        fun r c' => (∀ u, r = .ok u → HeldAll K c') ∧
          ∀ a, r = .error a → HeldAll K c' ∧ ∃ e, a = .err (.protocol e) := by
    intro name c h
    have hpeer : Safe (refreshing K) (Conclave.onPeer name Peer.refresh) c fun r c' =>
        HeldAll K c' ∧ ∀ a, r = .error a → ∃ e, a = .err (.protocol e) := by
      refine Safe.get_bind ?_
      cases hp : c.remotes.lookup name with
      | none => exact Safe.pure ⟨h, fun a ha => absurd ha (by simp)⟩
      | some p =>
          have hzoom : Safe (refreshing K) (Method.zoom (fun _ => p)
              (fun (c : Conclave) p => { c with remotes := c.remotes.replace name p }) Peer.refresh) c
              fun r c' => HeldAll K c' ∧ ∀ a, r = .error a → ∃ e, a = .err (.protocol e) :=
            Safe.zoom ((safe_refresh (h name p hp)).mono fun r hr => ⟨h.replace hr.1, hr.2⟩)
          refine hzoom.bind (fun a c₁ h₁ => ?_) fun a c₁ h₁ => ⟨h₁.1, fun a' ha' => h₁.2 a' ?_⟩
          · exact Safe.pure ⟨h₁.1, fun a ha => absurd ha (by simp)⟩
          · rw [Except.error.inj ha']
    refine hpeer.bind (fun _ c₁ h₁ => ?_) fun a c₁ h₁ => ⟨fun u hu => absurd hu (by simp), ?_⟩
    · exact Safe.pure ⟨fun _ _ => h₁.1, fun a ha => absurd ha (by simp)⟩
    · intro a' ha'
      exact ⟨h₁.1, h₁.2 a' (by rw [Except.error.inj ha'])⟩
  refine (Safe.get_bind (Safe.forM h fun name c hc => hone name c hc)).mono fun r hr => ?_
  obtain ⟨r, c'⟩ := r
  cases r with
  | ok u => exact ⟨hr.1 u rfl, fun a ha => absurd ha (by simp)⟩
  | error a =>
      obtain ⟨hheld, hproto⟩ := hr.2 a rfl
      exact ⟨hheld, fun a' ha' => Except.error.inj ha' ▸ hproto⟩

end Refresh

/-! ## Both tasks -/

/-- Everything went well: records were found open, and no refresh failed for a Veilid call. -/
structure NoneBroken (σ : Refreshers) : Prop where
  found : ∀ e ∈ σ.log, FoundOpen e
  finished : ∀ r ∈ σ.results, RefreshFine r

/-- A task closes or reads a record only when the other is not between its close and open of it. -/
def OtherNotReopening (σ : Refreshers) : RefreshAction → Prop
  | .call w e => ∀ key, ClosesOrReads key e.1 →
      (σ.task w.other).next ≠ some (.veilid (.openDhtRecord key none))
  | _ => True

def TaskSafe (K : TypedKey → Prop) : RefreshTask → Prop
  | .idle c => HeldAll K c
  | .refreshing p => Prog.Safe (refreshing K) (fun r => HeldAll K r.2 ∧ RefreshFine r.1) p

/-- The invariant: a record is open unless a task is about to open it. -/
structure RecordsInv (K : TypedKey → Prop) (σ : Refreshers) : Prop where
  tasks : ∀ w, TaskSafe K (σ.task w)
  opened : ∀ key, K key → key ∈ σ.opened ∨
    ∃ w, (σ.task w).next = some (.veilid (.openDhtRecord key none))
  well : NoneBroken σ

section Run
variable {K : TypedKey → Prop}

theorem Who.eq_or_other (w w' : Who) : w' = w ∨ w' = w.other := by
  cases w <;> cases w' <;> simp [Who.other]

theorem TaskSafe.update {task : Who → RefreshTask} (h : ∀ w, TaskSafe K (task w)) {w : Who}
    {t : RefreshTask} (ht : TaskSafe K t) : ∀ w', TaskSafe K (Function.update task w t w') := by
  intro w'
  by_cases hw : w' = w
  · subst hw
    rwa [Function.update_self]
  · rw [Function.update_of_ne hw]
    exact h w'

/-- A task that is not about to open a record may become anything. -/
theorem opened_update {opened : Finset TypedKey} {task : Who → RefreshTask}
    (h : ∀ key, K key → key ∈ opened ∨
      ∃ w, (task w).next = some (.veilid (.openDhtRecord key none)))
    {w : Who} {t : RefreshTask} (hnone : (task w).next = none) : ∀ key, K key → key ∈ opened ∨
      ∃ w', (Function.update task w t w').next = some (.veilid (.openDhtRecord key none)) := by
  intro key hkey
  refine (h key hkey).imp_right fun ⟨w', hw'⟩ => ⟨w', ?_⟩
  have hne : w' ≠ w := fun heq => by
    rw [heq, hnone] at hw'
    exact absurd hw' (by simp)
  rwa [Function.update_of_ne hne]

/-- A call that finds its record open is answered as a refresh is promised. -/
theorem Records.allowed {opened opened' : Finset TypedKey} {e : Event}
    (h : Records opened opened' e) (hopen : ∀ key, ClosesOrReads key e.1 → key ∈ opened) :
    (refreshing K).allowed e ∧ FoundOpen e := by
  obtain ⟨c, r⟩ := e
  cases c with
  | veilid c =>
      cases c with
      | closeDhtRecord key =>
          have hr := h
          simp only [Records, if_pos (hopen key rfl)] at hr
          exact ⟨hr.1, hr.1⟩
      | getDhtValue key subkey force =>
          have hr := h
          simp only [Records, if_pos (hopen key rfl)] at hr
          exact ⟨hr.2, hr.2⟩
      | openDhtRecord key writer => exact ⟨h.1, trivial⟩
      | importRemotePrivateRoute blob => exact ⟨h.2, trivial⟩
      | _ => exact ⟨trivial, trivial⟩
  | _ => exact ⟨trivial, trivial⟩

/-- A record stays open unless it is closed. -/
theorem Records.stays {opened opened' : Finset TypedKey} {e : Event}
    (h : Records opened opened' e) {key : TypedKey} (hkey : key ∈ opened) :
    key ∈ opened' ∨ e.1 = .veilid (.closeDhtRecord key) := by
  obtain ⟨c, r⟩ := e
  cases c with
  | veilid c =>
      cases c with
      | closeDhtRecord k =>
          by_cases hk : key = k
          · exact Or.inr (by rw [hk])
          · refine Or.inl ?_
            by_cases hmem : k ∈ opened
            · simp only [Records, if_pos hmem] at h
              rw [h.2]
              exact Finset.mem_erase.2 ⟨hk, hkey⟩
            · simp only [Records, if_neg hmem] at h
              rw [h.1]
              exact hkey
      | openDhtRecord k writer => exact Or.inl (h.2 ▸ Finset.mem_insert_of_mem hkey)
      | getDhtValue k subkey force => exact Or.inl (h.1 ▸ hkey)
      | importRemotePrivateRoute blob => exact Or.inl (h.1 ▸ hkey)
      | _ => exact Or.inl ((show opened' = opened from h) ▸ hkey)
  | _ => exact Or.inl ((show opened' = opened from h) ▸ hkey)

theorem Records.opens {opened opened' : Finset TypedKey} {e : Event}
    (h : Records opened opened' e) {key : TypedKey} {writer : Option KeyPair}
    (he : e.1 = .veilid (.openDhtRecord key writer)) : key ∈ opened' := by
  obtain ⟨c, r⟩ := e
  obtain rfl : c = _ := he
  exact h.2 ▸ Finset.mem_insert_self _ _

theorem RecordsInv.step [Capnp] {σ σ' : Refreshers} {l : RefreshAction} (h : RecordsInv K σ)
    (hs : guarded Refreshers.Step OtherNotReopening σ l σ') : RecordsInv K σ' := by
  obtain ⟨hcond, hs⟩ := hs
  cases hs with
  | @start w c hw =>
      have hc : HeldAll K c := (congrArg (TaskSafe K) hw).mp (h.tasks w)
      exact ⟨TaskSafe.update h.tasks (safe_refreshPeers hc), opened_update h.opened (by rw [hw]; rfl),
        h.well.found, h.well.finished⟩
  | @finish w r c hw =>
      have hc : HeldAll K c ∧ RefreshFine r := (congrArg (TaskSafe K) hw).mp (h.tasks w)
      refine ⟨TaskSafe.update h.tasks hc.1, opened_update h.opened (by rw [hw]; rfl), h.well.found, ?_⟩
      intro r' hr'
      rcases List.mem_append.1 hr' with hr' | hr'
      · exact h.well.finished r' hr'
      · exact List.mem_singleton.1 hr' ▸ hc.2
  | @between w c sovereign hw =>
      have hc : HeldAll K c := (congrArg (TaskSafe K) hw).mp (h.tasks w)
      exact ⟨TaskSafe.update h.tasks hc, opened_update h.opened (by rw [hw]; rfl),
        h.well.found, h.well.finished⟩
  | @call w p p' e opened' hw hstep hrec =>
      have hsafe : Prog.Safe (refreshing K) (fun r => HeldAll K r.2 ∧ RefreshFine r.1) p :=
        (congrArg (TaskSafe K) hw).mp (h.tasks w)
      have hmay := hsafe.may hstep.next
      -- what it closes or reads is open: neither task is about to open it
      have hopen : ∀ key, ClosesOrReads key e.1 → key ∈ σ.opened := by
        intro key hkey
        rcases h.opened key (hmay key hkey) with hmem | ⟨w', hw'⟩
        · exact hmem
        rcases Who.eq_or_other w w' with rfl | rfl
        · rw [hw, RefreshTask.next, hstep.next] at hw'
          rw [Option.some.inj hw'] at hkey
          exact hkey.elim
        · exact absurd hw' (hcond key hkey)
      obtain ⟨hallowed, hfound⟩ := hrec.allowed (K := K) hopen
      obtain ⟨hmust, hsafe'⟩ := hsafe.step hstep hallowed
      refine ⟨TaskSafe.update h.tasks hsafe', fun key hkey => ?_, ?_, h.well.finished⟩
      · show key ∈ opened' ∨ ∃ w', (Function.update σ.task w (.refreshing p') w').next =
          some (.veilid (.openDhtRecord key none))
        rcases h.opened key hkey with hmem | ⟨w', hw'⟩
        · refine (hrec.stays hmem).imp_right fun hclose => ⟨w, ?_⟩
          rw [Function.update_self]
          exact hmust _ (by rw [hclose]; rfl)
        · by_cases hww : w' = w
          · -- this task has just opened it
            subst hww
            rw [hw, RefreshTask.next, hstep.next] at hw'
            exact Or.inl (hrec.opens (Option.some.inj hw'))
          · exact Or.inr ⟨w', by rwa [Function.update_of_ne hww]⟩
      · intro e' he'
        rcases List.mem_append.1 he' with he' | he'
        · exact h.well.found e' he'
        · exact List.mem_singleton.1 he' ▸ hfound

/-- **No task finds a record closed**, in every run in which a task closes or reads a record only
    when the other is not between its close and open of it: both start with a handle of every peer's
    record, all open. -/
theorem records_found_open [Capnp] {c : Conclave} {opened : Finset TypedKey}
    (hheld : HeldAll (· ∈ opened) c) {ls : List RefreshAction} {σ : Refreshers}
    (hr : Run (guarded Refreshers.Step OtherNotReopening) (Refreshers.init c opened) ls σ) :
    NoneBroken σ := by
  have h0 : RecordsInv (· ∈ opened) (Refreshers.init c opened) :=
    ⟨fun _ => hheld, fun key hkey => Or.inl hkey, by simp [Refreshers.init], by simp [Refreshers.init]⟩
  exact (hr.invariant h0 fun _ _ _ h hs => h.step hs).well

end Run

section Example
attribute [local instance] plainCapnp

/-- A conclave with one peer, whose record it has open. -/
def heldConclave : Conclave where
  sovereign := ⟨⟨[], []⟩, ⟨[], ⟨[], []⟩⟩, none, none⟩
  remotes := (∅ : AList fun _ : String => Peer).insert "p" {
    name := "p"
    dhtKey := ⟨[], [1]⟩
    dht := some ⟨⟨[], [1]⟩⟩
    nodeStatus := none
    routeId := none }

def closeEvent (r : Except VeilidAPIError Unit) : Event := ⟨.veilid (.closeDhtRecord ⟨[], [1]⟩), r⟩

def openEvent : Event := ⟨.veilid (.openDhtRecord ⟨[], [1]⟩ none), .ok ⟨⟨[], [1]⟩⟩⟩

theorem heldConclave_held : HeldAll (· ∈ ({⟨[], [1]⟩} : Finset TypedKey)) heldConclave := by
  intro name p hp
  by_cases hn : name = "p"
  · subst hn
    obtain rfl := Option.some.inj ((AList.lookup_insert _).symm.trans hp)
    exact ⟨rfl, by simp⟩
  · have hnone := (AList.lookup_insert_ne hn).symm.trans hp
    exact absurd hnone (by simp)

/-- The puller closes and opens the record, then the server closes it. -/
theorem records_found_open_in_turn : ∃ ls σ,
    Run (guarded Refreshers.Step OtherNotReopening)
      (Refreshers.init heldConclave {⟨[], [1]⟩}) ls σ ∧
    σ.log = [closeEvent (.ok ()), openEvent, closeEvent (.ok ())] ∧ NoneBroken σ := by
  have h₀ : Run (guarded Refreshers.Step OtherNotReopening)
    (Refreshers.init heldConclave {⟨[], [1]⟩}) [] _ := .nil
  have h₁ := h₀.snoc_guarded (.start (w := .puller) rfl) trivial
  have h₂ := h₁.snoc_guarded (.start (w := .server) rfl) trivial
  have h₃ := h₂.snoc_guarded (.call (w := .puller) (e := closeEvent (.ok ())) rfl (.call _ _ _)
    ⟨rfl, rfl⟩) fun _ _ =>
    ne_of_eq_of_ne (b := some (.veilid (.closeDhtRecord ⟨[], [1]⟩))) rfl (by simp)
  have h₄ := h₃.snoc_guarded (.call (w := .puller) (e := openEvent) rfl (.call _ _ _) ⟨rfl, rfl⟩)
    (fun _ h => h.elim)
  have h₅ := h₄.snoc_guarded (.call (w := .server) (e := closeEvent (.ok ())) rfl (.call _ _ _)
    ⟨rfl, rfl⟩) fun _ _ =>
    ne_of_eq_of_ne (b := some (.veilid (.getDhtValue ⟨[], [1]⟩ DHT_SUBKEY_STATUS true))) rfl (by simp)
  exact ⟨_, _, h₅, rfl, records_found_open heldConclave_held h₅⟩

/-- Both tasks close the record: the second close fails, and with it the refresh. -/
theorem records_found_closed : ∃ ls σ,
    Run Refreshers.Step (Refreshers.init heldConclave {⟨[], [1]⟩}) ls σ ∧ ¬ NoneBroken σ ∧
    σ.results = [.error (.err (.veilidAPI .keyNotFound))] := by
  have h₀ : Run Refreshers.Step (Refreshers.init heldConclave {⟨[], [1]⟩}) [] _ := .nil
  have h₁ := h₀.snoc (.start (w := .puller) rfl)
  have h₂ := h₁.snoc (.start (w := .server) rfl)
  have h₃ := h₂.snoc (.call (w := .puller) (e := closeEvent (.ok ())) rfl (.call _ _ _) ⟨rfl, rfl⟩)
  have h₄ := h₃.snoc (.call (w := .server) (e := closeEvent (.error .keyNotFound)) rfl
    (.call _ _ _) ⟨rfl, _, rfl⟩)
  have h₅ := h₄.snoc (.finish (w := .server) rfl)
  refine ⟨_, _, h₅, fun h => ?_, rfl⟩
  have hfound := h.found (closeEvent (.error .keyNotFound)) (List.mem_append_right _ (by simp))
  exact absurd (show (Except.error VeilidAPIError.keyNotFound : Except _ Unit) = .ok () from hfound)
    (by simp)

end Example

end Ddcp
