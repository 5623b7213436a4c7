import Ddcp.Lib.History
import Ddcp.Lib.Safe
import Ddcp.Node.Panic
import Ddcp.Node.Server

set_option autoImplicit false

/-! # Serving and shutting down

The process while it serves: the puller's and the server's loop, the responders the server spawns,
the interrupter, and the main task, which waits in `serve` and then cleans up. They interleave call
by call on the one database connection. `serve` joins the futures that spawn the two loops, not the
loops, so it returns when the interrupter has ended, whatever the loops and responders are doing.
When they happen to be over by then, `crsql_finalize` is the last operation on the database
(`ordered_of_tasksOver`). -/

namespace Ddcp

open Method Lts History

instance (c : Call) : Nonempty (Ret c) := ⟨CalmEnv.answer ⟨fun _ => none, id, ([], 0), fun _ => 0, []⟩ c⟩

/-! ## The tasks -/

/-- A loop between two rounds, or what is left of a round, or ended. -/
inductive Loop (β : Type) where
  | idle (s : DDCP)
  | busy (p : Prog Call Ret (Except Abort β × DDCP))
  | ended

/-- What a loop does next: `rounds s p` says that `p` is a round from `s`, `stops` that the loop may
    end instead of starting one. A panic ends it too. -/
inductive Loop.Step {β : Type} (rounds : DDCP → Prog Call Ret (Except Abort β × DDCP) → Prop)
    (stops : Prop) : Loop β → List Event → List β → Loop β → Prop
  | start {s : DDCP} {p : Prog Call Ret (Except Abort β × DDCP)} (h : rounds s p) :
      Step rounds stops (.idle s) [] [] (.busy p)
  | call {p p' : Prog Call Ret (Except Abort β × DDCP)} {e : Event} (h : Prog.Step p e p') :
      Step rounds stops (.busy p) [e] [] (.busy p')
  | done {b : β} {s : DDCP} : Step rounds stops (.busy (.pure (.ok b, s))) [] [b] (.idle s)
  | failed {e : Error} {s : DDCP} :
      Step rounds stops (.busy (.pure (.error (.err e), s))) [] [] (.idle s)
  | panicked {s : DDCP} : Step rounds stops (.busy (.pure (.error .panic, s))) [] [] .ended
  | stop {s : DDCP} (h : stops) : Step rounds stops (.idle s) [] [] .ended

/-- The main task: inside `serve`, in what is left of `cleanup`, or at its end. -/
inductive MainTask where
  | serving
  | cleaning (p : Prog Call Ret (Except Abort Unit × DDCP))
  | exited

inductive Actor where
  | puller
  | server
  | responder
  | main
  deriving DecidableEq

structure Process where
  self : DDCP
  peerByKey : AList fun _ : String => Peer
  puller : Loop (List (Peer × Except Error (Bool × Int64)))
  server : Loop (Option Responder)
  responders : List (Prog Call Ret (Except Abort Unit × Unit))
  cancelled : Bool
  interrupterEnded : Bool
  main : MainTask
  log : List (Actor × Event)

inductive ProcessAction where
  | task (a : Actor)
  | interrupt
  | signalError
  | serveReturns
  | exit

namespace Process

variable [Capnp] [CryptoSystem]

omit [Capnp] in
/-- `serve` has spawned its tasks, each with a clone of the node. -/
def start (ddcp : DDCP) : Process where
  self := ddcp
  peerByKey := ddcp.peerByKey
  puller := .idle ddcp
  server := .idle ddcp
  responders := []
  cancelled := false
  interrupterEnded := false
  main := .serving
  log := []

/-- The rounds of the server's loop: a tick or an update. -/
def serverRounds (peers : AList fun _ : String => Peer) (s : DDCP)
    (p : Prog Call Ret (Except Abort (Option Responder) × DDCP)) : Prop :=
  p = DDCP.serverTick s ∨ ∃ u, p = DDCP.serverUpdate peers u s

/-- The responders spawned by a round, at their start. -/
def spawned (rs : List (Option Responder)) : List (Prog Call Ret (Except Abort Unit × Unit)) :=
  rs.filterMap fun r => r.map fun r => (r.run : Act Unit Unit) ()

inductive Step : Process → ProcessAction → Process → Prop
  | puller {σ : Process} {es : List Event} {rs : List (List (Peer × Except Error (Bool × Int64)))}
      {l : Loop (List (Peer × Except Error (Bool × Int64)))}
      (h : Loop.Step (fun s p => p = DDCP.pullerTick s) (σ.cancelled = true) σ.puller es rs l) :
      Step σ (.task .puller) { σ with
        puller := l
        log := σ.log ++ es.map (.puller, ·) }
  /-- The server's loop also ends when the channel of updates is closed. -/
  | server {σ : Process} {es : List Event} {rs : List (Option Responder)}
      {l : Loop (Option Responder)}
      (h : Loop.Step (serverRounds σ.peerByKey) True σ.server es rs l) :
      Step σ (.task .server) { σ with
        server := l
        responders := σ.responders ++ spawned rs
        log := σ.log ++ es.map (.server, ·) }
  | responder {σ : Process} {ps ps' : List (Prog Call Ret (Except Abort Unit × Unit))}
      {p p' : Prog Call Ret (Except Abort Unit × Unit)} {e : Event}
      (h : σ.responders = ps ++ p :: ps') (hs : Prog.Step p e p') :
      Step σ (.task .responder) { σ with
        responders := ps ++ p' :: ps'
        log := σ.log ++ [(.responder, e)] }
  | interrupt {σ : Process} :
      Step σ .interrupt { σ with cancelled := true, interrupterEnded := true }
  | signalError {σ : Process} : Step σ .signalError { σ with interrupterEnded := true }
  | serveReturns {σ : Process} (h : σ.main = .serving) (hi : σ.interrupterEnded = true) :
      Step σ .serveReturns { σ with main := .cleaning (DDCP.cleanup σ.self) }
  | main {σ : Process} {p p' : Prog Call Ret (Except Abort Unit × DDCP)} {e : Event}
      (h : σ.main = .cleaning p) (hs : Prog.Step p e p') :
      Step σ (.task .main) { σ with
        main := .cleaning p'
        log := σ.log ++ [(.main, e)] }
  /-- With the main task everything ends. -/
  | exit {σ : Process} {r : Except Abort Unit × DDCP} (h : σ.main = .cleaning (.pure r)) :
      Step σ .exit { σ with
        main := .exited
        puller := .ended
        server := .ended
        responders := [] }

end Process

/-! ## The property -/

/-- An operation on the database. -/
def IsDb : Call → Prop
  | .db _ => True
  | _ => False

/-- `serve` has returned only after both loops, and nothing follows `crsql_finalize` on the
    database. -/
structure ShutdownOrdered (σ : Process) : Prop where
  joined : σ.main ≠ .serving → σ.puller = .ended ∧ σ.server = .ended
  finalizeLast : Always (fun before e => IsDb e.2.1 → ∀ e' ∈ before, e'.2.1 ≠ .db .finalize) σ.log

/-- When `serve` returns, both loops have ended and no responder will use the database again. -/
def TasksOver (σ : Process) : ProcessAction → Prop
  | .serveReturns => σ.puller = .ended ∧ σ.server = .ended ∧
      ∀ p ∈ σ.responders, p.Only fun c => ¬ IsDb c
  | _ => True

/-! ## What each task calls -/

section Calls
variable [Capnp] [CryptoSystem]

def NotFinalize (c : Call) : Prop := c ≠ .db .finalize

omit [Capnp] [CryptoSystem] in
theorem RefreshCall.notFinalize {c : Call} (h : RefreshCall c) : NotFinalize c := by
  rintro rfl
  exact h

theorem only_pullerTick (s : DDCP) : (DDCP.pullerTick s).Only NotFinalize := by
  intro tr r h e he
  obtain ⟨tr₁, tr₂, r₁, rfl, hr, hpull⟩ := pullerTick_refreshes
    (show Exec DDCP.pullerTick s tr r.1 r.2 from h)
  rcases List.mem_append.1 he with he | he
  · exact ((within_refreshPeers _ _ _ _ hr).2 e he).notFinalize
  · intro hfin
    have hp := hpull e he
    rw [hfin] at hp
    exact hp

theorem within_push : Within (frame (fun _ : DDCP => ()) NotFinalize) DDCP.push := by
  intro s tr r s' h
  obtain ⟨tr₁, tr₂, r₁, c₁, rfl, hann, hrest⟩ := Server.exec_push h
  refine ⟨rfl, fun e he => ?_⟩
  rcases List.mem_append.1 he with he | he
  · intro hfin
    have ha := (Server.announceStatus_keeps hann).2 e he
    rw [hfin] at ha
    exact ha
  · rcases hrest with ⟨rfl, _⟩ | ⟨r₂, c', hr, _⟩
    · exact absurd he (by simp)
    · exact ((within_refreshPeers _ _ _ _ hr).2 e he).notFinalize

omit [CryptoSystem] in
theorem within_handleUpdate [CryptoSystem] (peers : AList fun _ : String => Peer) (u : VeilidUpdate) :
    Within (frame (fun _ : DDCP => ()) NotFinalize) (DDCP.handleUpdate peers u) := by
  intro s tr r s' h
  refine ⟨rfl, fun e he => ?_⟩
  rcases exec_handleUpdate h with ⟨_, rfl, _⟩ | ⟨_, _, _, hrel, _⟩
  · exact absurd he (by simp)
  · rcases exec_releaseRoute hrel with ⟨_, rfl, _⟩ | ⟨_, _, ⟨_, rfl, _⟩ | ⟨rfl, _⟩⟩
    · exact absurd he (by simp)
    all_goals
      rw [List.mem_singleton.1 he]
      simp [NotFinalize]

/-- No round of the server's loop finalizes the database. -/
theorem only_serverRounds {peers : AList fun _ : String => Peer} {s : DDCP}
    {p : Prog Call Ret (Except Abort (Option Responder) × DDCP)}
    (h : Process.serverRounds peers s p) : p.Only NotFinalize := by
  have hJ := @composable_frame Call Ret DDCP _ (fun _ => ()) NotFinalize
  rcases h with rfl | ⟨u, rfl⟩
  · exact (Within.bind hJ within_push.attempt fun _ => Within.pure hJ _).only
  · refine (Within.bind hJ (within_handleUpdate peers u).attempt fun r => ?_).only
    cases r <;> exact Within.pure hJ _

theorem only_spawned {rs : List (Option Responder)} :
    ∀ p ∈ Process.spawned rs, p.Only NotFinalize := by
  intro p hp
  obtain ⟨o, _, ho⟩ := List.mem_filterMap.1 hp
  obtain ⟨r, rfl, rfl⟩ := Option.map_eq_some_iff.1 ho
  refine (within_responder r).only.mono fun c hc => ?_
  rintro rfl
  exact hc

/-- The calls of `close`. -/
def CloseCall : Call → Prop
  | .veilid (.closeDhtRecord _) | .veilid (.releasePrivateRoute _) => True
  | _ => False

omit [Capnp] [CryptoSystem] in
theorem within_close : Within (frame (fun _ : Conclave => ()) CloseCall) Conclave.close := by
  have hJ : ∀ {σ : Type}, @Composable Call Ret σ (frame (fun _ => ()) CloseCall) := fun {σ} =>
    @composable_frame Call Ret σ _ _ _
  have hmodify : ∀ {σ : Type} (g : σ → σ),
      Within (frame (fun _ => ()) CloseCall) (modify g : Act σ PUnit) := fun g =>
    Within.modify fun _ => ⟨rfl, by simp⟩
  have hrecord : ∀ {σ : Type} (dht : Option DHTRecordDescriptor),
      Within (frame (fun _ => ()) CloseCall) (Act.closeRecord dht : Act σ Unit) := fun dht => by
    cases dht with
    | some dht => exact frame_veilid trivial
    | none => exact Within.pure hJ _
  have hroute : ∀ {σ : Type} (routeId : Option RouteId),
      Within (frame (fun _ => ()) CloseCall) (Act.releaseRoute routeId : Act σ Unit) := fun routeId => by
    cases routeId with
    | some routeId => exact frame_veilid trivial
    | none => exact Within.pure hJ _
  have hsovereign : Within (frame (fun _ => ()) CloseCall) Sovereign.close :=
    (Within.get hJ).bind hJ fun s => (hmodify _).bind hJ fun _ => (hrecord _).bind hJ fun _ =>
      (hmodify _).bind hJ fun _ => hroute _
  have hpeer : Within (frame (fun _ => ()) CloseCall) Peer.close :=
    (Within.get hJ).bind hJ fun s => (hmodify _).bind hJ fun _ => (hrecord _).bind hJ fun _ =>
      (hmodify _).bind hJ fun _ => hroute _
  refine Within.bind hJ (Within.zoom (fun _ _ _ h => ⟨rfl, h.2⟩) hsovereign) fun _ =>
    (Within.get hJ).bind hJ fun c => Within.forM hJ fun name => Within.bind hJ ?_ fun _ =>
      Within.pure hJ _
  intro c tr r c' h
  refine ⟨rfl, fun e he => ?_⟩
  rcases exec_onPeer h with ⟨_, rfl, _, _⟩ | ⟨_, _, _, _, hx, _, _⟩
  · exact absurd he (by simp)
  · exact (hpeer _ _ _ _ hx).2 e he

end Calls

/-! ## Cleaning up -/

section Cleanup

theorem endsIff_onPeer {α : Type} {bad : Event → Prop} {name : String} {x : Act Peer α}
    (hx : x.EndsIff .panic bad) : (Conclave.onPeer name x).EndsIff .panic bad := by
  refine EndsIff.get.bind fun c => ?_
  split
  · exact EndsIff.pure _
  · exact hx.zoom.bind fun a => EndsIff.pure _

/-- Giving everything back does not panic. -/
theorem endsIff_close : Conclave.close.EndsIff .panic fun _ => False := by
  have hrecord : ∀ {σ : Type} (dht : Option DHTRecordDescriptor),
      (Act.closeRecord dht : Act σ Unit).EndsIff .panic fun _ => False := fun dht => by
    cases dht with
    | some dht => exact endsIff_veilid fun _ => id
    | none => exact EndsIff.pure _
  have hroute : ∀ {σ : Type} (routeId : Option RouteId),
      (Act.releaseRoute routeId : Act σ Unit).EndsIff .panic fun _ => False := fun routeId => by
    cases routeId with
    | some routeId => exact endsIff_veilid fun _ => id
    | none => exact EndsIff.pure _
  have hsovereign : Sovereign.close.EndsIff .panic fun _ => False :=
    EndsIff.get.bind fun s => (EndsIff.modify _).bind fun _ => (hrecord _).bind fun _ =>
      (EndsIff.modify _).bind fun _ => hroute _
  have hpeer : Peer.close.EndsIff .panic fun _ => False :=
    EndsIff.get.bind fun s => (EndsIff.modify _).bind fun _ => (hrecord _).bind fun _ =>
      (EndsIff.modify _).bind fun _ => hroute _
  exact (EndsIff.zoom hsovereign).bind fun _ => EndsIff.get.bind fun c => EndsIff.forM fun name =>
    (endsIff_onPeer hpeer).bind fun _ => EndsIff.pure _

/-- The cleanup goes to its end, whatever fails while the handles are given back. -/
theorem exec_cleanup_iff {app app' : DDCP} {tr : List Event} {r : Except Abort Unit} :
    Exec DDCP.cleanup app tr r app' ↔ ∃ closes r₀ a,
      Exec Conclave.close app.conclave closes r₀ app'.conclave ∧
      tr = closes ++ [⟨.shutdown, ()⟩, ⟨.db .finalize, a⟩] ∧
      r = a.mapError fun e => .err (.db e) := by
  have hclose : (DDCP.onConclave Conclave.close).EndsIff .panic fun _ => False :=
    EndsIff.zoom endsIff_close
  constructor
  · intro h
    rcases exec_bind_iff.1 h with ⟨e, rfl, h₁⟩ | ⟨tr₁, tr₂, o, app₁, rfl, h₁, h₂⟩
    · obtain ⟨_, hx⟩ := exec_warnErr_error h₁
      obtain ⟨_, _, hno⟩ := (hclose _ _ _ _ hx).1 rfl
      exact hno.elim
    · have hx := exec_warnErr_ok h₁
      obtain ⟨c, hc, rfl⟩ := exec_zoom_iff.1 hx
      obtain ⟨u, tr₃, rfl, h₃⟩ := Prog.exec_call_iff.1 h₂
      obtain ⟨a, rfl, rfl, rfl⟩ := Act.exec_db_iff.1
        (show Exec (Act.db .finalize) _ tr₃ r app' from h₃)
      exact ⟨tr₁, _, a, hc, rfl, rfl⟩
  · rintro ⟨closes, r₀, a, hc, rfl, rfl⟩
    have hx : Exec (DDCP.onConclave Conclave.close) app closes r₀ app' :=
      exec_zoom_iff.2 ⟨app'.conclave, hc, rfl⟩
    obtain ⟨o, h₁⟩ : ∃ o, Exec (warnErr (DDCP.onConclave Conclave.close)) app closes (.ok o) app' := by
      cases r₀ with
      | ok u => exact ⟨.ok u, exec_warnErr_iff.2 (Or.inr ⟨.ok u, rfl, hx⟩)⟩
      | error e =>
          cases e with
          | err e => exact ⟨.error e, exec_warnErr_iff.2 (Or.inr ⟨.error e, rfl, hx⟩)⟩
          | panic =>
              obtain ⟨_, _, hno⟩ := (hclose _ _ _ _ hx).1 rfl
              exact hno.elim
    have hfinalize : Exec (Act.db .finalize) app' [⟨.db .finalize, a⟩]
        (a.mapError fun e => .err (.db e)) app' := Act.exec_db_iff.2 ⟨a, rfl, rfl, rfl⟩
    exact exec_bind_of_ok h₁ (.call hfinalize)

/-- In a cleanup, `crsql_finalize` is the only operation on the database. -/
def OnlyFinalize (tr : List Event) : Prop :=
  Always (fun before e => IsDb e.1 → e.1 = .db .finalize ∧ ∀ e' ∈ before, ¬ IsDb e'.1) tr

theorem CloseCall.not_isDb {c : Call} (h : CloseCall c) : ¬ IsDb c := by
  cases c with
  | db c => exact h.elim
  | _ => exact id

theorem exec_cleanup {s s' : DDCP} {tr : List Event} {r : Except Abort Unit}
    (h : Exec DDCP.cleanup s tr r s') : OnlyFinalize tr := by
  obtain ⟨closes, r₀, a, hclose, rfl, _⟩ := exec_cleanup_iff.1 h
  have hcloses : ∀ e ∈ closes, ¬ IsDb e.1 := fun e he =>
    ((within_close _ _ _ _ hclose).2 e he).not_isDb
  -- the calls of `close`, `shutdown`, and `crsql_finalize`
  have hbefore : ∀ e ∈ closes ++ [⟨.shutdown, ()⟩], ¬ IsDb e.1 := by
    intro e he
    rcases List.mem_append.1 he with he | he
    · exact hcloses e he
    · rw [List.mem_singleton.1 he]
      exact id
  rw [← List.singleton_append, ← List.append_assoc]
  refine always_concat.2 ⟨always_of_forall fun e he before hdb => ?_, fun _ => ⟨rfl, hbefore⟩⟩
  exact absurd hdb (hbefore e he)

end Cleanup

/-! ## Every run -/

/-- What the main task has called. -/
def mainEvents (log : List (Actor × Event)) : List Event :=
  (log.filter fun e => e.1 = .main).map Prod.snd

theorem mainEvents_append (log log' : List (Actor × Event)) :
    mainEvents (log ++ log') = mainEvents log ++ mainEvents log' := by
  simp [mainEvents]

theorem mainEvents_map {a : Actor} (ha : a ≠ .main) (es : List Event) :
    mainEvents (es.map (a, ·)) = [] := by
  have hnone : ∀ e ∈ es.map (a, ·), ¬ (decide (e.1 = Actor.main)) = true := by
    intro e he
    obtain ⟨_, _, rfl⟩ := List.mem_map.1 he
    simpa using ha
  rw [mainEvents, List.filter_eq_nil_iff.2 hnone]
  rfl

section Run

/-- The invariant of a process. Only the main task finalizes, when `serve` has returned; from then
    on the loops are over and the responders are done with the database. -/
structure ProcessInv (σ : Process) : Prop where
  puller : ∀ p, σ.puller = .busy p → p.Only NotFinalize
  server : ∀ p, σ.server = .busy p → p.Only NotFinalize
  responders : ∀ p ∈ σ.responders, p.Only NotFinalize
  finalizes : ∀ e ∈ σ.log, e.2.1 = .db .finalize → e.1 = .main
  serving : σ.main = .serving → mainEvents σ.log = []
  joined : σ.main ≠ .serving → σ.puller = .ended ∧ σ.server = .ended
  quiet : σ.main ≠ .serving → ∀ p ∈ σ.responders, p.Only fun c => ¬ IsDb c
  cleaning : ∀ p, σ.main = .cleaning p → ∃ s : DDCP, ∀ tr a, Prog.Exec p tr a →
    Prog.Exec (DDCP.cleanup s) (mainEvents σ.log ++ tr) a
  last : Always (fun before e => IsDb e.2.1 → ∀ e' ∈ before, e'.2.1 ≠ .db .finalize) σ.log

theorem finalizeLast_of_notFinalized {log : List (Actor × Event)}
    (h : ∀ e ∈ log, e.2.1 ≠ .db .finalize) :
    Always (fun before e => IsDb e.2.1 → ∀ e' ∈ before, e'.2.1 ≠ .db .finalize) log := by
  intro before e after heq _ e' he'
  exact h e' (by rw [heq]; exact List.mem_append_left _ he')

/-- What has been finalized, the main task has. -/
theorem ProcessInv.mem_mainEvents {σ : Process} (h : ProcessInv σ) {e : Actor × Event}
    (he : e ∈ σ.log) (hfin : e.2.1 = .db .finalize) : e.2 ∈ mainEvents σ.log :=
  List.mem_map.2 ⟨e, List.mem_filter.2 ⟨he, by simpa using h.finalizes e he hfin⟩, rfl⟩

/-- While `serve` is waiting nothing has been finalized. -/
theorem ProcessInv.notFinalized {σ : Process} (h : ProcessInv σ) (hm : σ.main = .serving) :
    ∀ e ∈ σ.log, e.2.1 ≠ .db .finalize := by
  intro e he hfin
  have hmem := h.mem_mainEvents he hfin
  rw [h.serving hm] at hmem
  exact absurd hmem (by simp)

theorem Loop.Step.not_ended {β : Type} {stops : Prop} {l l' : Loop β} {es : List Event}
    {rs : List β} {rounds : DDCP → Prog Call Ret (Except Abort β × DDCP) → Prop}
    (h : Loop.Step rounds stops l es rs l') : l ≠ .ended := by
  cases h <;> simp

theorem Loop.Step.only {β : Type} {stops : Prop} {l l' : Loop β} {es : List Event} {rs : List β}
    {rounds : DDCP → Prog Call Ret (Except Abort β × DDCP) → Prop}
    (h : Loop.Step rounds stops l es rs l') (hl : ∀ p, l = .busy p → p.Only NotFinalize)
    (hrounds : ∀ s p, rounds s p → p.Only NotFinalize) :
    (∀ p, l' = .busy p → p.Only NotFinalize) ∧ ∀ e ∈ es, NotFinalize e.1 := by
  cases h with
  | start hp =>
      refine ⟨fun p heq => ?_, by simp⟩
      obtain rfl := Loop.busy.inj heq
      exact hrounds _ _ hp
  | call hs =>
      obtain ⟨he, honly⟩ := (hl _ rfl).step hs
      refine ⟨fun p heq => ?_, fun e he' => List.mem_singleton.1 he' ▸ he⟩
      obtain rfl := Loop.busy.inj heq
      exact honly
  | done => exact ⟨fun p heq => absurd heq (by simp), by simp⟩
  | failed => exact ⟨fun p heq => absurd heq (by simp), by simp⟩
  | panicked => exact ⟨fun p heq => absurd heq (by simp), by simp⟩
  | stop => exact ⟨fun p heq => absurd heq (by simp), by simp⟩

/-- A step of another task before `serve` returns, as far as the log goes. -/
theorem ProcessInv.log_append {σ : Process} (h : ProcessInv σ) (hm : σ.main = .serving) (a : Actor)
    (ha : a ≠ .main) {es : List Event} (hes : ∀ e ∈ es, NotFinalize e.1) :
    (∀ e ∈ σ.log ++ es.map (a, ·), e.2.1 ≠ .db .finalize) ∧
    mainEvents (σ.log ++ es.map (a, ·)) = [] := by
  refine ⟨fun e he => ?_, ?_⟩
  · rcases List.mem_append.1 he with he | he
    · exact h.notFinalized hm e he
    · obtain ⟨e', he', rfl⟩ := List.mem_map.1 he
      exact hes e' he'
  · rw [mainEvents_append, h.serving hm, mainEvents_map ha, List.append_nil]

/-- Before `serve` returns the invariant says that nothing has been finalized. -/
theorem ProcessInv.of_serving {σ : Process} (hm : σ.main = .serving)
    (hpuller : ∀ p, σ.puller = .busy p → p.Only NotFinalize)
    (hserver : ∀ p, σ.server = .busy p → p.Only NotFinalize)
    (hresponders : ∀ p ∈ σ.responders, p.Only NotFinalize)
    (hnot : ∀ e ∈ σ.log, e.2.1 ≠ .db .finalize) (hmain : mainEvents σ.log = []) :
    ProcessInv σ where
  puller := hpuller
  server := hserver
  responders := hresponders
  finalizes := fun e he hfin => absurd hfin (hnot e he)
  serving := fun _ => hmain
  joined := fun hne => absurd hm hne
  quiet := fun hne => absurd hm hne
  cleaning := fun p hp => absurd (hm.symm.trans hp) (by simp)
  last := finalizeLast_of_notFinalized hnot

variable [Capnp] [CryptoSystem]

/-! ### Its steps -/

section Steps
variable {σ : Process}

theorem ProcessInv.step_puller (h : ProcessInv σ) {es : List Event}
    {rs : List (List (Peer × Except Error (Bool × Int64)))}
    {l : Loop (List (Peer × Except Error (Bool × Int64)))}
    (hl : Loop.Step (fun s p => p = DDCP.pullerTick s) (σ.cancelled = true) σ.puller es rs l) :
    ProcessInv { σ with puller := l, log := σ.log ++ es.map (.puller, ·) } := by
  have hm : σ.main = .serving := by
    by_contra hm
    exact hl.not_ended (h.joined hm).1
  obtain ⟨honly, hes⟩ := hl.only h.puller fun s p hp => hp ▸ only_pullerTick s
  obtain ⟨hnot, hmain⟩ := h.log_append hm .puller (by simp) hes
  exact .of_serving hm honly h.server h.responders hnot hmain

theorem ProcessInv.step_server (h : ProcessInv σ) {es : List Event}
    {rs : List (Option Responder)} {l : Loop (Option Responder)}
    (hl : Loop.Step (Process.serverRounds σ.peerByKey) True σ.server es rs l) :
    ProcessInv { σ with
      server := l
      responders := σ.responders ++ Process.spawned rs
      log := σ.log ++ es.map (.server, ·) } := by
  have hm : σ.main = .serving := by
    by_contra hm
    exact hl.not_ended (h.joined hm).2
  obtain ⟨honly, hes⟩ := hl.only h.server fun s p hp => only_serverRounds hp
  obtain ⟨hnot, hmain⟩ := h.log_append hm .server (by simp) hes
  refine .of_serving hm h.puller honly (fun p hp => ?_) hnot hmain
  exact (List.mem_append.1 hp).elim (h.responders p) (only_spawned p)

omit [Capnp] [CryptoSystem] in
theorem ProcessInv.step_responder (h : ProcessInv σ)
    {ps ps' : List (Prog Call Ret (Except Abort Unit × Unit))}
    {p p' : Prog Call Ret (Except Abort Unit × Unit)} {e : Event}
    (hps : σ.responders = ps ++ p :: ps') (hstep : Prog.Step p e p') :
    ProcessInv { σ with
      responders := ps ++ p' :: ps'
      log := σ.log ++ [(.responder, e)] } := by
  have hp : p ∈ σ.responders := by rw [hps]; simp
  obtain ⟨hfin, honly⟩ := (h.responders p hp).step hstep
  have hmain : mainEvents (σ.log ++ [(.responder, e)]) = mainEvents σ.log := by
    rw [mainEvents_append, show [(Actor.responder, e)] = [e].map (Actor.responder, ·) from rfl,
      mainEvents_map (by simp), List.append_nil]
  have hothers : ∀ q ∈ ps ++ p' :: ps', q = p' ∨ q ∈ σ.responders := by
    intro q hq
    rw [hps]
    simp only [List.mem_append, List.mem_cons] at hq ⊢
    tauto
  refine {
    puller := h.puller
    server := h.server
    responders := fun q hq => (hothers q hq).elim (fun heq => heq ▸ honly) (h.responders q)
    finalizes := fun e' he' hfin' => ?_
    serving := fun hm => hmain.trans (h.serving hm)
    joined := h.joined
    quiet := fun hm q hq => (hothers q hq).elim
      (fun heq => heq ▸ ((h.quiet hm p hp).step hstep).2) (h.quiet hm q)
    cleaning := fun q hq => by rw [hmain]; exact h.cleaning q hq
    last := always_concat.2 ⟨h.last, fun hdb => ?_⟩ }
  · rcases List.mem_append.1 he' with he' | he'
    · exact h.finalizes e' he' hfin'
    · rw [List.mem_singleton.1 he'] at hfin'
      exact absurd hfin' hfin
  · -- after the return a responder does not use the database
    by_cases hm : σ.main = .serving
    · exact h.notFinalized hm
    · exact absurd hdb ((h.quiet hm p hp).step hstep).1

omit [Capnp] [CryptoSystem] in
theorem ProcessInv.step_serveReturns (h : ProcessInv σ) (hm : σ.main = .serving)
    (hover : TasksOver σ .serveReturns) :
    ProcessInv { σ with main := .cleaning (DDCP.cleanup σ.self) } := by
  obtain ⟨hpuller, hserver, hquiet⟩ := hover
  exact { h with
    serving := fun _ => h.serving hm
    joined := fun _ => ⟨hpuller, hserver⟩
    quiet := fun _ => hquiet
    cleaning := fun p hp => by
      obtain rfl := MainTask.cleaning.inj hp
      exact ⟨σ.self, fun tr a hx => by rw [h.serving hm]; exact hx⟩ }

omit [Capnp] [CryptoSystem] in
theorem ProcessInv.step_main (h : ProcessInv σ) {p p' : Prog Call Ret (Except Abort Unit × DDCP)}
    {e : Event} (hm : σ.main = .cleaning p) (hstep : Prog.Step p e p') :
    ProcessInv { σ with main := .cleaning p', log := σ.log ++ [(.main, e)] } := by
  have hne : σ.main ≠ .serving := by simp [hm]
  have hmain : mainEvents (σ.log ++ [(.main, e)]) = mainEvents σ.log ++ [e] := by
    rw [mainEvents_append]
    rfl
  obtain ⟨s, hs⟩ := h.cleaning p hm
  have hs' : ∀ tr a, Prog.Exec p' tr a →
      Prog.Exec (DDCP.cleanup s) (mainEvents σ.log ++ [e] ++ tr) a := fun tr a hx => by
    rw [List.append_assoc]
    exact hs _ a (hstep.exec hx)
  refine { h with
    finalizes := fun e' he' hfin => ?_
    serving := fun hm' => absurd hm' (by simp)
    joined := fun _ => h.joined hne
    quiet := fun _ => h.quiet hne
    cleaning := fun q hq => by
      obtain rfl := MainTask.cleaning.inj hq
      exact ⟨s, by rw [hmain]; exact hs'⟩
    last := always_concat.2 ⟨h.last, fun hdb e' he' hfin => ?_⟩ }
  · rcases List.mem_append.1 he' with he' | he'
    · exact h.finalizes e' he' hfin
    · rw [List.mem_singleton.1 he']
  · -- a cleanup that has finalized uses the database no more
    obtain ⟨tr, a, hx⟩ := Prog.exists_exec p'
    have hexec : Exec DDCP.cleanup _ _ a.1 a.2 := hs' tr a hx
    have honce := exec_cleanup hexec (mainEvents σ.log) e tr (by simp) hdb
    have hbefore := honce.2 _ (h.mem_mainEvents he' hfin)
    rw [hfin] at hbefore
    exact hbefore trivial

omit [Capnp] [CryptoSystem] in
theorem ProcessInv.step_exit (h : ProcessInv σ) :
    ProcessInv { σ with main := .exited, puller := .ended, server := .ended, responders := [] } where
  puller := fun p hp => absurd hp (by simp)
  server := fun p hp => absurd hp (by simp)
  responders := by simp
  finalizes := h.finalizes
  serving := fun hm' => absurd hm' (by simp)
  joined := fun _ => ⟨rfl, rfl⟩
  quiet := by simp
  cleaning := fun p hp => absurd hp (by simp)
  last := h.last

end Steps

theorem ProcessInv.step {σ σ' : Process} {l : ProcessAction} (h : ProcessInv σ)
    (hs : guarded Process.Step TasksOver σ l σ') : ProcessInv σ' := by
  obtain ⟨hover, hs⟩ := hs
  cases hs with
  | puller hl => exact h.step_puller hl
  | server hl => exact h.step_server hl
  | responder hps hstep => exact h.step_responder hps hstep
  | interrupt => exact { h with }
  | signalError => exact { h with }
  | serveReturns hm hi => exact h.step_serveReturns hm hover
  | main hm hstep => exact h.step_main hm hstep
  | exit hm => exact h.step_exit

/-- A run in which `serve` returns when its tasks are over keeps the order. -/
theorem ordered_of_tasksOver {ddcp : DDCP} {ls : List ProcessAction} {σ : Process}
    (hr : Run (guarded Process.Step TasksOver) (Process.start ddcp) ls σ) : ShutdownOrdered σ := by
  have h0 : ProcessInv (Process.start ddcp) := by
    refine .of_serving rfl ?_ ?_ ?_ ?_ rfl
    · exact fun p hp => absurd hp (by simp [Process.start])
    · exact fun p hp => absurd hp (by simp [Process.start])
    · simp [Process.start]
    · simp [Process.start]
  have hinv : ProcessInv σ := hr.invariant h0 fun _ _ _ h hs => h.step hs
  exact ⟨hinv.joined, hinv.last⟩

end Run

end Ddcp
