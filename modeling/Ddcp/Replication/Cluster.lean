import Ddcp.Replication.Conversation
import Ddcp.Replication.Delivery
import Ddcp.Ident.Store

set_option autoImplicit false

/-! # The system of the programs

`Net` is the protocol; here are the programs. A node has its database and any number of tasks: the
commands, the puller and the server, of one process or of several. Each task has a clone of the
node's state and calls one method after another (`DDCP.Calls`), and between two calls that a method
makes of its environment anything can happen elsewhere. The tasks of a node share its database; the
nodes share the DHT, in which a value is found once it has been written, and perhaps an old one; and
an `app_call` goes to the node whose route it is, whose server task spawns a responder for it, which
is a program as well. Every call may fail, and a task may be gone at any time. -/

namespace Ddcp

open Method Lts

/-! ## The state -/

/-- A value that has been written to the DHT. -/
structure DhtValue where
  key : TypedKey
  subkey : Nat
  data : Bytes

/-- The `app_call` of a task: there is none; it is on its way; a responder of the node it has
    reached is at work; its reply is there. -/
inductive Rpc (N : Type) where
  | none
  | sent (target : RouteId) (message : Bytes)
  | serving (server : N) (responder : Prog Call Ret (Except Abort Unit × Unit))
  | replied (message : Bytes)

/-- A task with its clone of the node's state, or with what is left of the method it runs. -/
inductive Task (N : Type) where
  | idle (node : N) (peerByKey : AList fun _ : String => Peer) (ddcp : DDCP)
  | busy (node : N) (peerByKey : AList fun _ : String => Peer) (p : Prog Call Ret (Option DDCP))
      (rpc : Rpc N)

structure Cluster (N : Type) where
  db : N → Database
  dht : List DhtValue
  task : Nat → Option (Task N)

/-- New databases, nothing published, nobody running. -/
def Cluster.init {N : Type} (S : Setup N) : Cluster N where
  db n := Database.new (S.site n)
  dht := []
  task _ := none

section Updates
variable {N : Type}

def Cluster.setDb [DecidableEq N] (K : Cluster N) (n : N) (db : Database) : Cluster N :=
  { K with db := Function.update K.db n db }

def Cluster.setTask (K : Cluster N) (t : Nat) (task : Option (Task N)) : Cluster N :=
  { K with task := Function.update K.task t task }

@[simp] theorem Cluster.setTask_self (K : Cluster N) (t : Nat) (task : Option (Task N)) :
    (K.setTask t task).task t = task := Function.update_self ..

theorem Cluster.setTask_of_ne {K : Cluster N} {t t' : Nat} (h : t' ≠ t) (task : Option (Task N)) :
    (K.setTask t task).task t' = K.task t' := Function.update_of_ne h ..

@[simp] theorem Cluster.setTask_setTask (K : Cluster N) (t : Nat) (task task' : Option (Task N)) :
    (K.setTask t task).setTask t task' = K.setTask t task' := by
  simp only [setTask, Function.update_idem]

theorem Cluster.setTask_same {K : Cluster N} {t : Nat} {task : Option (Task N)}
    (h : K.task t = task) : K.setTask t task = K := by
  unfold setTask
  rw [← h, Function.update_eq_self]

@[simp] theorem Cluster.setDb_same [DecidableEq N] (K : Cluster N) (n : N) :
    K.setDb n (K.db n) = K := by
  unfold setDb
  rw [Function.update_eq_self]

end Updates

/-! ## What happens to a database -/

/-- Who has written, and where changes of which site have been merged. -/
inductive Deed (N : Type) where
  | write (n : N)
  | merge (n : N) (siteId : Bytes)

def Traffic.deed {N : Type} (site : N → Bytes) : Traffic N → Deed N
  | .write n => .write n
  | .pull n author => .merge n (site author)

/-- What a call of a task of `n` does. -/
def Event.deed {N : Type} (n : N) : Event → Option (Deed N)
  | ⟨.db (.merge siteId _), _⟩ => some (.merge n siteId)
  | _ => none

/-! ## The answers of the environment -/

/-- The DHT returns what has been written under the key, and a write that fails may have been
    made. -/
def DhtAnswers (dht : List DhtValue) : Event → List DhtValue → Prop
  | ⟨.veilid (.getDhtValue key subkey _), a⟩, dht' =>
      (∀ data, a = .ok (some data) → ⟨key, subkey, data⟩ ∈ dht) ∧ dht' = dht
  | ⟨.veilid (.setDhtValue key subkey data), a⟩, dht' =>
      dht' = ⟨key, subkey, data⟩ :: dht ∨ (dht' = dht ∧ a ≠ .ok ())
  | _, dht' => dht' = dht

/-- An `app_call` returns the reply of its responder. -/
def Rpc.Answers {N : Type} (rpc : Rpc N) (e : Event) : Prop :=
  ∀ target message reply, e = ⟨.veilid (.appCall target message), .ok reply⟩ →
    rpc = .replied reply

/-- What a responder's call does to the `app_call` that it answers. -/
def Rpc.afterReply {N : Type} (server : N) (p : Prog Call Ret (Except Abort Unit × Unit)) :
    Event → Rpc N
  | ⟨.veilid (.appCallReply _ message), .ok ()⟩ => .replied message
  | _ => .serving server p

/-! ## The steps -/

section Step
variable {N : Type} [DecidableEq N] [LinearOrder CellData] [Capnp] [CryptoSystem]

inductive Cluster.Step (S : Setup N) : Cluster N → Option (Deed N) → Cluster N → Prop
  | localTx {K : Cluster N} (n : N) {db' : Database} (htx : LocalTx (K.db n) db') :
      Step S K (some (.write n)) (K.setDb n db')
  /-- A process of `n` starts up. -/
  | spawn {K : Cluster N} (t : Nat) (n : N) {c : Conclave} {tr : List IdentEvent}
      (hfree : K.task t = none) (hnew : Exec Conclave.new () tr (.ok c) ())
      (hkey : c.sovereign.dhtKey = S.dhtKey n) (hkeys : c.sovereign.dhtOwnerKeypair = S.keys n) :
      Step S K none (K.setTask t (some (.idle n ∅ ⟨c⟩)))
  /-- A task is spawned with a clone; a server task makes its map of peers. -/
  | clone {K : Cluster N} (t t' : Nat) {n : N} {peerByKey : AList fun _ : String => Peer}
      {ddcp : DDCP} (ht : K.task t = some (.idle n peerByKey ddcp)) (hfree : K.task t' = none) :
      Step S K none (K.setTask t' (some (.idle n ddcp.peerByKey ddcp)))
  | remoteAdd {K : Cluster N} (t : Nat) {n : N} {peerByKey : AList fun _ : String => Peer}
      {ddcp : DDCP} {name addr : String} {tr : List IdentEvent} {r : Except Error Unit}
      {c : Conclave} (ht : K.task t = some (.idle n peerByKey ddcp))
      (h : Exec (Ddcp.remoteAdd name addr) ddcp.conclave tr r c) :
      Step S K none (K.setTask t (some (.idle n peerByKey ⟨c⟩)))
  | remoteRemove {K : Cluster N} (t : Nat) {n : N} {peerByKey : AList fun _ : String => Peer}
      {ddcp : DDCP} {name : String} {tr : List IdentEvent} {r : Except Error Bool}
      {c : Conclave} (ht : K.task t = some (.idle n peerByKey ddcp))
      (h : Exec (Ddcp.remoteRemove name) ddcp.conclave tr r c) :
      Step S K none (K.setTask t (some (.idle n peerByKey ⟨c⟩)))
  /-- A method is called. -/
  | start {K : Cluster N} (t : Nat) {n : N} {peerByKey : AList fun _ : String => Peer}
      {ddcp : DDCP} {p : Prog Call Ret (Option DDCP)}
      (ht : K.task t = some (.idle n peerByKey ddcp)) (hp : DDCP.Calls peerByKey ddcp p) :
      Step S K none (K.setTask t (some (.busy n peerByKey p .none)))
  /-- One call of a method, and its answer. -/
  | call {K : Cluster N} (t : Nat) {n : N} {peerByKey : AList fun _ : String => Peer}
      {p p' : Prog Call Ret (Option DDCP)} {rpc : Rpc N} {e : Event} {db' : Database}
      {dht' : List DhtValue} (ht : K.task t = some (.busy n peerByKey p rpc)) (hp : p.Step e p')
      (hpromised : Promised S n e) (hdb : (K.db n).Answers e db') (hdht : DhtAnswers K.dht e dht')
      (hrpc : rpc.Answers e) :
      Step S K (e.deed n) { K.setDb n db' with
        dht := dht'
        task := Function.update K.task t (some (.busy n peerByKey p' .none)) }
  | send {K : Cluster N} (t : Nat) {n : N} {peerByKey : AList fun _ : String => Peer}
      {p : Prog Call Ret (Option DDCP)} {target : RouteId} {message : Bytes}
      (ht : K.task t = some (.busy n peerByKey p .none))
      (hp : p.next = some (.veilid (.appCall target message))) :
      Step S K none (K.setTask t (some (.busy n peerByKey p (.sent target message))))
  /-- The server task of the node that the route leads to spawns a responder. -/
  | deliver {K : Cluster N} (t u : Nat) {n : N} {peerByKey peerByKey' : AList fun _ : String => Peer}
      {p : Prog Call Ret (Option DDCP)} {target : RouteId} {message : Bytes} {ddcp ddcp' : DDCP}
      {callId : UInt64} {r : Responder}
      (ht : K.task t = some (.busy n peerByKey p (.sent target message)))
      (hu : K.task u = some (.idle (S.owner target) peerByKey' ddcp))
      (h : Exec (DDCP.handleUpdate peerByKey' (.appCall callId message)) ddcp [] (.ok (some r))
        ddcp') :
      Step S K none (K.setTask t
        (some (.busy n peerByKey p (.serving (S.owner target) ((r.run : Act Unit Unit) ())))))
  /-- One call of a responder, and its answer. -/
  | respond {K : Cluster N} (t : Nat) {n server : N} {peerByKey : AList fun _ : String => Peer}
      {p : Prog Call Ret (Option DDCP)} {q q' : Prog Call Ret (Except Abort Unit × Unit)}
      {e : Event} {db' : Database}
      (ht : K.task t = some (.busy n peerByKey p (.serving server q))) (hq : q.Step e q')
      (hdb : (K.db server).Answers e db') :
      Step S K none ((K.setDb server db').setTask t
        (some (.busy n peerByKey p (Rpc.afterReply server q' e))))
  /-- A method returns. -/
  | finish {K : Cluster N} (t : Nat) {n : N} {peerByKey : AList fun _ : String => Peer}
      {ddcp : DDCP} {rpc : Rpc N}
      (ht : K.task t = some (.busy n peerByKey (.pure (some ddcp)) rpc)) :
      Step S K none (K.setTask t (some (.idle n peerByKey ddcp)))
  | drop {K : Cluster N} (t : Nat) : Step S K none (K.setTask t none)

end Step

/-! ## Executions are runs -/

section Runs
variable {N : Type} [DecidableEq N] [LinearOrder CellData] [Capnp] [CryptoSystem] {S : Setup N}
  {K : Cluster N} {t : Nat} {n : N} {peerByKey : AList fun _ : String => Peer} {tr : List Event}
  {dbdht : Database × List DhtValue}

omit [Capnp] [CryptoSystem] [DecidableEq N] in
/-- What the calls of a task do to its database and to the DHT. -/
def TaskAnswers (w : Database × List DhtValue) (e : Event) (w' : Database × List DhtValue) : Prop :=
  w.1.Answers e w'.1 ∧ DhtAnswers w.2 e w'.2

def Cluster.afterCalls (K : Cluster N) (n : N) (w : Database × List DhtValue) (t : Nat)
    (task : Task N) : Cluster N where
  db := Function.update K.db n w.1
  dht := w.2
  task := Function.update K.task t (some task)

omit [Capnp] [CryptoSystem] [LinearOrder CellData] in
@[simp] theorem Cluster.afterCalls_task (K : Cluster N) (n : N) (w : Database × List DhtValue)
    (t : Nat) (task : Task N) : (K.afterCalls n w t task).task t = some task :=
  Function.update_self ..

omit [Capnp] [CryptoSystem] [LinearOrder CellData] in
@[simp] theorem Cluster.afterCalls_setTask (K : Cluster N) (n : N) (w : Database × List DhtValue)
    (t : Nat) (task task' : Task N) :
    (K.afterCalls n w t task).setTask t (some task') = K.afterCalls n w t task' := by
  simp only [Cluster.afterCalls, Cluster.setTask, Function.update_idem]

omit [Capnp] [CryptoSystem] [LinearOrder CellData] in
@[simp] theorem Cluster.setTask_afterCalls (K : Cluster N) (n : N) (w : Database × List DhtValue)
    (t : Nat) (task : Option (Task N)) (task' : Task N) :
    (K.setTask t task).afterCalls n w t task' = K.afterCalls n w t task' := by
  simp only [Cluster.afterCalls, Cluster.setTask, Function.update_idem]

omit [Capnp] [CryptoSystem] [LinearOrder CellData] in
@[simp] theorem Cluster.afterCalls_afterCalls (K : Cluster N) (n : N)
    (w w' : Database × List DhtValue) (t : Nat) (task task' : Task N) :
    (K.afterCalls n w t task).afterCalls n w' t task' = K.afterCalls n w' t task' := by
  simp only [Cluster.afterCalls, Function.update_idem]

/-- Calls of one task, with nothing between them. -/
theorem Cluster.run_calls {p p' : Prog Call Ret (Option DDCP)} (hr : Run Prog.Step p tr p')
    (ht : K.task t = some (.busy n peerByKey p .none))
    (hserved : Prog.Served TaskAnswers Prog.alone (K.db n, K.dht) tr dbdht)
    (hpromised : ∀ e ∈ tr, Promised S n e) (hrpc : ∀ e ∈ tr, (Rpc.none : Rpc N).Answers e) :
    Run (Cluster.Step S) K (tr.map (Event.deed n))
      (K.afterCalls n dbdht t (.busy n peerByKey p' .none)) := by
  induction hr generalizing dbdht with
  | nil =>
      obtain rfl := Prog.alone_iff.1 (Prog.served_nil_iff.1 hserved)
      have hsame : K.afterCalls n (K.db n, K.dht) t (.busy n peerByKey p .none) = K := by
        unfold Cluster.afterCalls
        rw [Function.update_eq_self, ← ht, Function.update_eq_self]
      rw [hsame]
      exact .nil
  | @snoc tr p₁ p₂ e hr hs ih =>
      obtain ⟨w₁, hserved₁, hlast⟩ := Prog.served_append_iff.1 hserved
      obtain ⟨w₂, w₃, hbefore, ⟨hdb, hdht⟩, hafter⟩ := Prog.served_cons_iff.1 hlast
      obtain rfl := Prog.alone_iff.1 hbefore
      obtain rfl := Prog.alone_iff.1 (Prog.served_nil_iff.1 hafter)
      have hrun := ih hserved₁ (fun e he => hpromised e (List.mem_append_left _ he))
        fun e he => hrpc e (List.mem_append_left _ he)
      have htask : (K.afterCalls n w₂ t (.busy n peerByKey p₁ .none)).task t =
          some (.busy n peerByKey p₁ .none) := Function.update_self ..
      have hdb' : ((K.afterCalls n w₂ t (.busy n peerByKey p₁ .none)).db n).Answers e dbdht.1 := by
        show (Function.update K.db n w₂.1 n).Answers e dbdht.1
        rwa [Function.update_self]
      have hstep := Cluster.Step.call t htask hs
        (hpromised e (List.mem_append_right _ List.mem_cons_self)) hdb' hdht
        (hrpc e (List.mem_append_right _ List.mem_cons_self))
      rw [List.map_append]
      refine .snoc hrun ?_
      have hsame : ({ (K.afterCalls n w₂ t (.busy n peerByKey p₁ .none)).setDb n dbdht.1 with
          dht := dbdht.2
          task := Function.update (K.afterCalls n w₂ t (.busy n peerByKey p₁ .none)).task t
            (some (.busy n peerByKey p₂ .none)) } : Cluster N) =
          K.afterCalls n dbdht t (.busy n peerByKey p₂ .none) := by
        simp only [Cluster.afterCalls, Cluster.setDb, Function.update_idem]
      rwa [hsame] at hstep

/-- A call of a responder that only reads. -/
theorem Cluster.Step.respond_same {server : N} {p : Prog Call Ret (Option DDCP)}
    {q q' : Prog Call Ret (Except Abort Unit × Unit)} {e : Event}
    (ht : K.task t = some (.busy n peerByKey p (.serving server q))) (hq : q.Step e q')
    (hanswers : (K.db server).Answers e (K.db server)) :
    Cluster.Step S K none
      (K.setTask t (some (.busy n peerByKey p (Rpc.afterReply server q' e)))) := by
  have hs := Cluster.Step.respond (S := S) t ht hq hanswers
  rwa [Cluster.setDb_same] at hs

/-- The calls of a responder before its reply. -/
theorem Cluster.run_responder {server : N} {p : Prog Call Ret (Option DDCP)}
    {q q' : Prog Call Ret (Except Abort Unit × Unit)} (hr : Run Prog.Step q tr q')
    (ht : K.task t = some (.busy n peerByKey p (.serving server q)))
    (hanswers : ∀ e ∈ tr, (K.db server).Answers e (K.db server))
    (hreply : ∀ e ∈ tr, ∀ q, Rpc.afterReply server q e = .serving server q) :
    Run (Cluster.Step S) K (tr.map fun _ => none)
      (K.setTask t (some (.busy n peerByKey p (.serving server q')))) := by
  induction hr with
  | nil =>
      rw [Cluster.setTask_same ht]
      exact .nil
  | @snoc tr q₁ q₂ e hr hs ih =>
      have hrun := ih (fun e he => hanswers e (List.mem_append_left _ he))
        fun e he => hreply e (List.mem_append_left _ he)
      have hmem : e ∈ tr ++ [e] := List.mem_append_right _ List.mem_cons_self
      have hstep := Cluster.Step.respond_same (S := S)
        (Cluster.setTask_self K t (some (.busy n peerByKey p (.serving server q₁)))) hs
        (hanswers e hmem)
      rw [hreply e hmem, Cluster.setTask_setTask] at hstep
      rw [List.map_append]
      exact .snoc hrun hstep

/-- **An `app_call`**, from its sending to its reply. -/
theorem Cluster.run_appCall {u : Nat} {p p' : Prog Call Ret (Option DDCP)}
    {peerByKey' : AList fun _ : String => Peer} {d : DDCP} {target : RouteId}
    {message reply : Bytes} {callId callId' : UInt64} {r : Responder} {res : Except Abort Unit}
    (ht : K.task t = some (.busy n peerByKey p .none))
    (hs : p.Step ⟨.veilid (.appCall target message), .ok reply⟩ p')
    (hu : K.task u = some (.idle (S.owner target) peerByKey' d)) (hne : u ≠ t)
    (hr : d.responderFor peerByKey' callId message = .ok (some r))
    (hx : Exec (r.run : Act Unit Unit) ()
      (tr ++ [⟨.veilid (.appCallReply callId' reply), .ok ()⟩]) res ())
    (hanswers : ∀ e ∈ tr, (K.db (S.owner target)).Answers e (K.db (S.owner target)))
    (hreply : ∀ e ∈ tr, ∀ q, Rpc.afterReply (S.owner target) q e = .serving (S.owner target) q) :
    Run (Cluster.Step S) K (none :: none :: ((tr.map fun _ => none) ++ [none, none]))
      (K.setTask t (some (.busy n peerByKey p' .none))) := by
  obtain ⟨q, q', hcalls, hlast, -⟩ := (Prog.Exec.run hx).split_at
  let waiting : Rpc N → Cluster N := fun rpc => K.setTask t (some (.busy n peerByKey p rpc))
  have htask : ∀ rpc, (waiting rpc).task t = some (.busy n peerByKey p rpc) := fun rpc =>
    Cluster.setTask_self K t _
  have hset : ∀ rpc task, (waiting rpc).setTask t task = K.setTask t task := fun rpc task =>
    Cluster.setTask_setTask K t _ task
  have hsend : Cluster.Step S K none (waiting (.sent target message)) := .send t ht hs.next
  have hdeliver : Cluster.Step S (waiting (.sent target message)) none
      (waiting (.serving (S.owner target) (r.run ()))) := by
    have hstep := Cluster.Step.deliver (S := S) t u (htask _)
      ((Cluster.setTask_of_ne hne _).trans hu) (exec_handleAppCall_iff.2 ⟨rfl, hr.symm, rfl⟩)
    rwa [hset] at hstep
  have hserve : Run (Cluster.Step S) (waiting (.serving (S.owner target) (r.run ())))
      (tr.map fun _ => none) (waiting (.serving (S.owner target) q)) := by
    have hrun := Cluster.run_responder (S := S) hcalls (htask _) hanswers hreply
    rwa [hset] at hrun
  have hrespond : Cluster.Step S (waiting (.serving (S.owner target) q)) none
      (waiting (.replied reply)) := by
    have hstep := Cluster.Step.respond_same (S := S) (htask (.serving (S.owner target) q)) hlast rfl
    rwa [hset] at hstep
  have hcall : Cluster.Step S (waiting (.replied reply)) none
      (K.setTask t (some (.busy n peerByKey p' .none))) := by
    have hstep := Cluster.Step.call (S := S) t (htask (.replied reply)) hs ⟨by simp, by simp⟩ rfl
      rfl fun target' message' reply' he => by cases he; rfl
    rw [Cluster.setDb_same] at hstep
    rw [← hset (.replied reply)]
    exact hstep
  exact .cons hsend (.cons hdeliver (hserve.trans (.cons hrespond (.snoc .nil hcall))))

section Methods
variable {α : Type} {x : Act DDCP α} {d d' : DDCP} {r : Except Abort α}

/-- A method that makes no `app_call`. -/
theorem Cluster.run_method (hp : DDCP.Calls peerByKey d (keeping x d))
    (ht : K.task t = some (.idle n peerByKey d)) (hx : Exec x d tr r d')
    (hserved : Prog.Served TaskAnswers Prog.alone (K.db n, K.dht) tr dbdht)
    (hpromised : ∀ e ∈ tr, Promised S n e) (hrpc : ∀ e ∈ tr, (Rpc.none : Rpc N).Answers e) :
    Run (Cluster.Step S) K (none :: (tr.map (Event.deed n) ++ [none]))
      (K.afterCalls n dbdht t (.idle n peerByKey d')) := by
  have hkeeping : Prog.Exec (keeping x d) tr (some d') :=
    Prog.exec_bind_pure_iff.2 ⟨(r, d'), hx, rfl⟩
  have hcalls := Cluster.run_calls (S := S) (K := K.setTask t (some (.busy n peerByKey
    (keeping x d) .none))) (t := t) hkeeping.run (Cluster.setTask_self ..) hserved hpromised hrpc
  have hfinish := Cluster.Step.finish (S := S) t
    (Cluster.afterCalls_task K n dbdht t (.busy n peerByKey (.pure (some d')) .none))
  rw [Cluster.setTask_afterCalls] at hcalls
  rw [Cluster.afterCalls_setTask] at hfinish
  exact .cons (.start t ht hp) (hcalls.trans (.snoc .nil hfinish))

/-- A method that makes one. -/
theorem Cluster.run_method_appCall {u : Nat} {tr₁ tr₂ : List Event}
    {w : Database × List DhtValue} {peerByKey' : AList fun _ : String => Peer} {dₛ : DDCP}
    {target : RouteId} {message reply : Bytes} {callId callId' : UInt64} {responder : Responder}
    {res : Except Abort Unit} (hp : DDCP.Calls peerByKey d (keeping x d))
    (ht : K.task t = some (.idle n peerByKey d))
    (hx : Exec x d (tr₁ ++ ⟨.veilid (.appCall target message), .ok reply⟩ :: tr₂) r d')
    (hserved₁ : Prog.Served TaskAnswers Prog.alone (K.db n, K.dht) tr₁ w)
    (hserved₂ : Prog.Served TaskAnswers Prog.alone w tr₂ dbdht)
    (hpromised : ∀ e ∈ tr₁ ++ tr₂, Promised S n e)
    (hrpc : ∀ e ∈ tr₁ ++ tr₂, (Rpc.none : Rpc N).Answers e)
    (hu : K.task u = some (.idle (S.owner target) peerByKey' dₛ)) (hne : u ≠ t)
    (hr : dₛ.responderFor peerByKey' callId message = .ok (some responder))
    (hreply : Exec (responder.run : Act Unit Unit) ()
      (tr ++ [⟨.veilid (.appCallReply callId' reply), .ok ()⟩]) res ())
    (hserver : S.owner target ≠ n)
    (hanswers : ∀ e ∈ tr, (K.db (S.owner target)).Answers e (K.db (S.owner target)))
    (hbefore : ∀ e ∈ tr, ∀ q, Rpc.afterReply (S.owner target) q e = .serving (S.owner target) q) :
    ∃ ls, Run (Cluster.Step S) K ls (K.afterCalls n dbdht t (.idle n peerByKey d')) ∧
      ls.flatMap Option.toList = (tr₁ ++ tr₂).flatMap fun e => (e.deed n).toList := by
  have hkeeping : Prog.Exec (keeping x d)
      (tr₁ ++ ⟨.veilid (.appCall target message), .ok reply⟩ :: tr₂) (some d') :=
    Prog.exec_bind_pure_iff.2 ⟨(r, d'), hx, rfl⟩
  obtain ⟨p₁, p₂, hrun₁, hs, hrun₂⟩ := hkeeping.run.split_at
  have hcalls₁ := Cluster.run_calls (S := S) (K := K.setTask t (some (.busy n peerByKey
    (keeping x d) .none))) (t := t) hrun₁ (Cluster.setTask_self ..) hserved₁
    (fun e he => hpromised e (List.mem_append_left _ he))
    fun e he => hrpc e (List.mem_append_left _ he)
  rw [Cluster.setTask_afterCalls] at hcalls₁
  -- the call, with the cursor read
  have hdb : (K.afterCalls n w t (.busy n peerByKey p₁ .none)).db (S.owner target) =
      K.db (S.owner target) := Function.update_of_ne hserver ..
  have hu' : (K.afterCalls n w t (.busy n peerByKey p₁ .none)).task u =
      some (.idle (S.owner target) peerByKey' dₛ) := (Function.update_of_ne hne ..).trans hu
  have happ := Cluster.run_appCall (S := S) (Cluster.afterCalls_task K n w t _) hs hu' hne hr hreply
    (by rwa [hdb]) hbefore
  rw [Cluster.afterCalls_setTask] at happ
  have hcalls₂ := Cluster.run_calls (S := S) (K := K.afterCalls n w t (.busy n peerByKey p₂ .none))
    hrun₂ (Cluster.afterCalls_task ..) (by simpa [Cluster.afterCalls] using hserved₂)
    (fun e he => hpromised e (List.mem_append_right _ he))
    fun e he => hrpc e (List.mem_append_right _ he)
  rw [Cluster.afterCalls_afterCalls] at hcalls₂
  have hfinish := Cluster.Step.finish (S := S) t
    (Cluster.afterCalls_task K n dbdht t (.busy n peerByKey (.pure (some d')) .none))
  rw [Cluster.afterCalls_setTask] at hfinish
  refine ⟨_, .cons (.start t ht hp) (hcalls₁.trans (happ.trans (hcalls₂.trans
    (.snoc .nil hfinish)))), ?_⟩
  simp [List.flatMap_map]

end Methods

end Runs

end Ddcp
