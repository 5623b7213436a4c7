import Ddcp.Lib.Prog
import Ddcp.Proto.Messages

set_option autoImplicit false

/-! # What a node calls

A node talks to one Veilid API and one database connection. `Call` lists the calls it makes, with
their arguments, and `Ret` the answers; a method of the program is an `Act`, which keeps what it has
done to its own state when it ends with an error. `Act.veilid` and `Act.db` are a call followed
by `?`. -/

namespace Ddcp

/-! ## Keys, routes, records -/

/-- A four-character code. -/
abbrev CryptoKind := Bytes

/-- `VLD0`. -/
def CRYPTO_KIND_VLD0 : CryptoKind := [86, 76, 68, 48]

structure TypedKey where
  kind : CryptoKind
  value : Bytes
  deriving DecidableEq, Repr

structure KeyPair where
  key : Bytes
  secret : Bytes
  deriving DecidableEq, Repr

structure TypedKeyPair where
  kind : CryptoKind
  value : KeyPair
  deriving DecidableEq, Repr

def NONCE_LENGTH : Nat := 24

structure Nonce where
  bytes : Bytes
  length_eq : bytes.length = NONCE_LENGTH
  deriving DecidableEq

abbrev RouteId := Bytes

/-- The handle of an open DHT record. -/
structure DHTRecordDescriptor where
  key : TypedKey
  deriving DecidableEq, Repr

/-! ## Calls -/

/-- Calls of the Veilid API that return a `VeilidAPIResult`. -/
inductive VeilidCall where
  /-- `api.crypto()?.get(kind)`, up to what the system found can do. -/
  | crypto (kind : CryptoKind)
  | openDhtRecord (key : TypedKey) (writer : Option KeyPair)
  | closeDhtRecord (key : TypedKey)
  | getDhtValue (key : TypedKey) (subkey : Nat) (forceRefresh : Bool)
  | setDhtValue (key : TypedKey) (subkey : Nat) (data : Bytes)
  | newPrivateRoute
  | importRemotePrivateRoute (blob : Bytes)
  | releasePrivateRoute (routeId : RouteId)
  | appCall (target : RouteId) (message : Bytes)
  | appCallReply (callId : UInt64) (message : Bytes)
  deriving DecidableEq

/-- What a Veilid call returns when it succeeds. -/
abbrev VeilidCall.Val : VeilidCall → Type
  | .crypto _ => Option Unit
  | .openDhtRecord _ _ => DHTRecordDescriptor
  | .closeDhtRecord _ => Unit
  | .getDhtValue _ _ _ => Option Bytes
  | .setDhtValue _ _ _ => Unit
  | .newPrivateRoute => RouteId × Bytes
  | .importRemotePrivateRoute _ => RouteId
  | .releasePrivateRoute _ => Unit
  | .appCall _ _ => Bytes
  | .appCallReply _ _ => Unit

/-- Closures sent to the database connection, one at a time. -/
inductive DbCall where
  | status
  | select (sinceDbVersion : Int64)
  | trackedPeerVersion (siteId : Bytes)
  | merge (siteId : Bytes) (changes : List Change)
  | finalize
  deriving DecidableEq

abbrev DbCall.Val : DbCall → Type
  | .status => Bytes × Int64
  | .select _ => List Change
  | .trackedPeerVersion _ => Int64
  | .merge _ _ => Int64
  | .finalize => Unit

inductive Call where
  | veilid (c : VeilidCall)
  | db (c : DbCall)
  | randomNonce
  | shutdown
  deriving DecidableEq

abbrev Ret : Call → Type
  | .veilid c => Except VeilidAPIError c.Val
  | .db c => Except DbError c.Val
  | .randomNonce => Nonce
  | .shutdown => Unit

/-- A call and its answer. -/
abbrev Event := Σ c : Call, Ret c

/-! ## Methods -/

/-- A method on a state `σ`. -/
abbrev Act (σ α : Type) := Method Call Ret Abort σ α

namespace Act
variable {σ α : Type}

/-- A Veilid call, followed by `?`. -/
def veilid (c : VeilidCall) : Act σ c.Val := do
  let r : Except VeilidAPIError c.Val ← Method.perform (Call.veilid c)
  match r with
  | .ok v => pure v
  | .error e => throw (.err (.veilidAPI e))

/-- A database call, followed by `?`. -/
def db (c : DbCall) : Act σ c.Val := do
  let r : Except DbError c.Val ← Method.perform (Call.db c)
  match r with
  | .ok v => pure v
  | .error e => throw (.err (.db e))

def randomNonce : Act σ Nonce := Method.perform Call.randomNonce

/-- `?` on a result that is already there. -/
def lift : Except Abort α → Act σ α
  | .ok a => pure a
  | .error e => throw e

/-- `ok_or(e)?`. -/
def okOr (e : Error) : Option α → Act σ α
  | some a => pure a
  | none => throw (.err e)

/-- Close a record, when there is a handle of one. -/
def closeRecord : Option DHTRecordDescriptor → Act σ Unit
  | some dht => veilid (.closeDhtRecord dht.key)
  | none => pure ()

/-- Release a route, when there is one. -/
def releaseRoute : Option RouteId → Act σ Unit
  | some routeId => veilid (.releasePrivateRoute routeId)
  | none => pure ()

end Act

/-! ### Their executions -/

namespace Act
variable {σ α : Type} {s s' : σ} {tr : List Event}

theorem exec_veilid_iff {c : VeilidCall} {r : Except Abort c.Val} :
    Method.Exec (veilid c) s tr r s' ↔ ∃ a : Except VeilidAPIError c.Val,
      tr = [⟨.veilid c, a⟩] ∧ r = a.mapError (fun e => .err (.veilidAPI e)) ∧ s' = s := by
  constructor
  · intro h
    obtain ⟨a, tr', rfl, hk⟩ := Prog.exec_call_iff.1 h
    cases a with
    | ok v =>
        obtain ⟨rfl, hv⟩ := Prog.exec_pure_iff.1 hk
        obtain ⟨rfl, rfl⟩ := Prod.mk.inj hv
        exact ⟨.ok v, rfl, rfl, rfl⟩
    | error e =>
        obtain ⟨rfl, he⟩ := Prog.exec_pure_iff.1 hk
        obtain ⟨rfl, rfl⟩ := Prod.mk.inj he
        exact ⟨.error e, rfl, rfl, rfl⟩
  · rintro ⟨a, rfl, rfl, rfl⟩
    cases a with
    | ok v => exact .call (.pure _)
    | error e => exact .call (.pure _)

/-- A call that returns. -/
theorem exec_veilid_ok_iff {c : VeilidCall} {v : c.Val} :
    Method.Exec (veilid c) s tr (.ok v) s' ↔ tr = [⟨.veilid c, .ok v⟩] ∧ s' = s := by
  rw [exec_veilid_iff]
  constructor
  · rintro ⟨a, rfl, hv, rfl⟩
    rw [Except.mapError_eq_ok_iff.1 hv.symm]
    exact ⟨rfl, rfl⟩
  · rintro ⟨rfl, rfl⟩
    exact ⟨.ok v, rfl, rfl, rfl⟩

/-- A call fails and ends the method, or returns to it. -/
theorem exec_veilid_bind_iff {c : VeilidCall} {f : c.Val → Act σ α} {r : Except Abort α} :
    Method.Exec (veilid c >>= f) s tr r s' ↔
      (∃ e, tr = [⟨.veilid c, .error e⟩] ∧ r = .error (.err (.veilidAPI e)) ∧ s' = s) ∨
      ∃ v tr', tr = ⟨.veilid c, .ok v⟩ :: tr' ∧ Method.Exec (f v) s tr' r s' := by
  constructor
  · intro h
    obtain ⟨a, tr', rfl, hk⟩ := Prog.exec_call_iff.1 h
    cases a with
    | error e =>
        obtain ⟨rfl, he⟩ := Prog.exec_pure_iff.1 hk
        obtain ⟨rfl, rfl⟩ := Prod.mk.inj he
        exact Or.inl ⟨e, rfl, rfl, rfl⟩
    | ok v => exact Or.inr ⟨v, tr', rfl, hk⟩
  · rintro (⟨e, rfl, rfl, rfl⟩ | ⟨v, tr', rfl, h⟩)
    · exact .call (.pure _)
    · exact .call h

theorem exec_db_iff {c : DbCall} {r : Except Abort c.Val} :
    Method.Exec (db c) s tr r s' ↔ ∃ a : Except DbError c.Val,
      tr = [⟨.db c, a⟩] ∧ r = a.mapError (fun e => .err (.db e)) ∧ s' = s := by
  constructor
  · intro h
    obtain ⟨a, tr', rfl, hk⟩ := Prog.exec_call_iff.1 h
    cases a with
    | ok v =>
        obtain ⟨rfl, hv⟩ := Prog.exec_pure_iff.1 hk
        obtain ⟨rfl, rfl⟩ := Prod.mk.inj hv
        exact ⟨.ok v, rfl, rfl, rfl⟩
    | error e =>
        obtain ⟨rfl, he⟩ := Prog.exec_pure_iff.1 hk
        obtain ⟨rfl, rfl⟩ := Prod.mk.inj he
        exact ⟨.error e, rfl, rfl, rfl⟩
  · rintro ⟨a, rfl, rfl, rfl⟩
    cases a with
    | ok v => exact .call (.pure _)
    | error e => exact .call (.pure _)

theorem exec_db_bind_iff {c : DbCall} {f : c.Val → Act σ α} {r : Except Abort α} :
    Method.Exec (db c >>= f) s tr r s' ↔
      (∃ e, tr = [⟨.db c, .error e⟩] ∧ r = .error (.err (.db e)) ∧ s' = s) ∨
      ∃ v tr', tr = ⟨.db c, .ok v⟩ :: tr' ∧ Method.Exec (f v) s tr' r s' := by
  constructor
  · intro h
    obtain ⟨a, tr', rfl, hk⟩ := Prog.exec_call_iff.1 h
    cases a with
    | error e =>
        obtain ⟨rfl, he⟩ := Prog.exec_pure_iff.1 hk
        obtain ⟨rfl, rfl⟩ := Prod.mk.inj he
        exact Or.inl ⟨e, rfl, rfl, rfl⟩
    | ok v => exact Or.inr ⟨v, tr', rfl, hk⟩
  · rintro (⟨e, rfl, rfl, rfl⟩ | ⟨v, tr', rfl, h⟩)
    · exact .call (.pure _)
    · exact .call h

theorem exec_lift_iff {x : Except Abort α} {r : Except Abort α} :
    Method.Exec (lift x : Act σ α) s tr r s' ↔ tr = [] ∧ r = x ∧ s' = s := by
  cases x with
  | ok a => exact Method.exec_pure_iff
  | error e => exact Method.exec_throw_iff

end Act

section Within
variable {σ α : Type} {J : σ → List Event → σ → Prop}

theorem within_veilid {c : VeilidCall} (hc : ∀ s a, J s [⟨.veilid c, a⟩] s) :
    Method.Within J (Act.veilid c : Act σ c.Val) := by
  intro s tr r s' h
  obtain ⟨a, rfl, _, rfl⟩ := Act.exec_veilid_iff.1 h
  exact hc s' a

theorem within_db {c : DbCall} (hc : ∀ s a, J s [⟨.db c, a⟩] s) :
    Method.Within J (Act.db c : Act σ c.Val) := by
  intro s tr r s' h
  obtain ⟨a, rfl, _, rfl⟩ := Act.exec_db_iff.1 h
  exact hc s' a

theorem within_lift (hJ : Method.Composable J) (x : Except Abort α) :
    Method.Within J (Act.lift x : Act σ α) := by
  intro s tr r s' h
  obtain ⟨rfl, _, rfl⟩ := Act.exec_lift_iff.1 h
  exact hJ.nil s'

theorem within_okOr (hJ : Method.Composable J) (e : Error) (o : Option α) :
    Method.Within J (Act.okOr e o : Act σ α) := by
  cases o with
  | some a => exact Method.Within.pure hJ a
  | none => exact Method.Within.throw hJ _

theorem frame_veilid {τ : Type} {f : σ → τ} {calls : Call → Prop} {c : VeilidCall}
    (hc : calls (.veilid c)) : Method.Within (Method.frame f calls) (Act.veilid c : Act σ c.Val) :=
  within_veilid fun _ _ => ⟨rfl, fun _ he => List.mem_singleton.1 he ▸ hc⟩

theorem frame_db {τ : Type} {f : σ → τ} {calls : Call → Prop} {c : DbCall}
    (hc : calls (.db c)) : Method.Within (Method.frame f calls) (Act.db c : Act σ c.Val) :=
  within_db fun _ _ => ⟨rfl, fun _ he => List.mem_singleton.1 he ▸ hc⟩

end Within

section Ensures
variable {σ α : Type} {good : Event → Prop} {s : σ}

theorem ensures_veilid {c : VeilidCall} {Q : List Event → c.Val → σ → Prop}
    (hgood : ∀ a : Except VeilidAPIError c.Val, good ⟨.veilid c, a⟩ → ∃ v, a = .ok v ∧
      Q [⟨.veilid c, .ok v⟩] v s) : Method.Ensures good (Act.veilid c) s Q := by
  intro tr r s' hx hall
  obtain ⟨a, rfl, rfl, rfl⟩ := Act.exec_veilid_iff.1 hx
  obtain ⟨v, rfl, hQ⟩ := hgood a (hall _ (List.mem_singleton_self _))
  exact ⟨v, rfl, hQ⟩

theorem ensures_db {c : DbCall} {Q : List Event → c.Val → σ → Prop}
    (hgood : ∀ a : Except DbError c.Val, good ⟨.db c, a⟩ → ∃ v, a = .ok v ∧
      Q [⟨.db c, .ok v⟩] v s) : Method.Ensures good (Act.db c) s Q := by
  intro tr r s' hx hall
  obtain ⟨a, rfl, rfl, rfl⟩ := Act.exec_db_iff.1 hx
  obtain ⟨v, rfl, hQ⟩ := hgood a (hall _ (List.mem_singleton_self _))
  exact ⟨v, rfl, hQ⟩

theorem ensures_lift {x : Except Abort α} {a : α} {Q : List Event → α → σ → Prop}
    (hx : x = .ok a) (hQ : Q [] a s) : Method.Ensures good (Act.lift x) s Q := by
  subst hx
  exact Method.Ensures.pure hQ

end Ensures

/-- The error of an abort that is not a panic. -/
def Abort.err? : Abort → Option Error
  | .err e => some e
  | .panic => none

/-- `warn_err`, and `if let Err(_)`: an error becomes a value, a panic goes on unwinding. -/
def warnErr {σ α : Type} (x : Act σ α) : Act σ (Except Error α) := x.attempt Abort.err?

/-! ## An environment in which every call goes well -/

/-- What is in the DHT, what the database holds, and what peers reply. -/
structure CalmEnv where
  value : TypedKey → Option Bytes
  reply : Bytes → Bytes
  dbStatus : Bytes × Int64
  tracked : Bytes → Int64
  rows : List Change

def calmNonce : Nonce := ⟨List.replicate NONCE_LENGTH 0, rfl⟩

def CalmEnv.answer (env : CalmEnv) : (c : Call) → Ret c
  | .veilid (.crypto _) => .ok (some ())
  | .veilid (.openDhtRecord key _) => .ok ⟨key⟩
  | .veilid (.closeDhtRecord _) => .ok ()
  | .veilid (.getDhtValue key _ _) => .ok (env.value key)
  | .veilid (.setDhtValue _ _ _) => .ok ()
  | .veilid .newPrivateRoute => .ok ([], [])
  | .veilid (.importRemotePrivateRoute blob) => .ok blob
  | .veilid (.releasePrivateRoute _) => .ok ()
  | .veilid (.appCall _ message) => .ok (env.reply message)
  | .veilid (.appCallReply _ _) => .ok ()
  | .db .status => .ok env.dbStatus
  | .db (.select _) => .ok env.rows
  | .db (.trackedPeerVersion siteId) => .ok (env.tracked siteId)
  | .db (.merge _ _) => .ok 0
  | .db .finalize => .ok ()
  | .randomNonce => calmNonce
  | .shutdown => ()

/-- The environment as a handler without a world. -/
def CalmEnv.handler (env : CalmEnv) : (c : Call) → Unit → Ret c × Unit :=
  fun c w => (env.answer c, w)

end Ddcp
