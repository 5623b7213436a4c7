import Ddcp.Ident.Basic
import Ddcp.Lib.Crash

set_option autoImplicit false

/-! # The identities in the table store

The local identity and the remotes outlive the process in Veilid's table store: the table
`ddcp_conclave_local` holds the DHT key and the owner key pair of the local record, each in a column
of its own under the empty key, and `ddcp_conclave_remotes` the DHT key of each remote under its
name. This module has the functions of `src/ident.rs` that read and write these tables, and
`DDCP::remote_add` and `DDCP::remote_remove`, call by call; `StoreWorld` is what they find.

A key is stored and loaded as such, but the owner key pair is stored without its kind and loaded
with one, which is then the default kind. -/

namespace Ddcp

open Method

/-! ## Calls -/

inductive Table where
  | conclaveLocal
  | conclaveRemotes
  deriving DecidableEq, Repr

/-- The values the program stores as JSON. -/
inductive Json where
  | typedKey (key : TypedKey)
  | keyPair (keyPair : KeyPair)
  deriving DecidableEq, Repr

/-- What `create_dht_record` returns. -/
structure NewDHTRecord where
  key : TypedKey
  owner : Bytes
  ownerSecret : Option Bytes
  deriving DecidableEq, Repr

inductive IdentCall where
  | tableStore
  | open (table : Table) (columns : Nat)
  | storeJson (table : Table) (column : Nat) (key : Bytes) (value : Json)
  | loadJson (table : Table) (column : Nat) (key : Bytes)
  | getKeys (table : Table) (column : Nat)
  | delete (table : Table) (column : Nat) (key : Bytes)
  | createDhtRecord (oCnt : Nat)
  | closeDhtRecord (key : TypedKey)
  | openDhtRecord (key : TypedKey) (writer : Option KeyPair)
  deriving DecidableEq

abbrev IdentCall.Val : IdentCall → Type
  | .tableStore => Unit
  | .open _ _ => Unit
  | .storeJson _ _ _ _ => Unit
  | .loadJson _ _ _ => Option Json
  | .getKeys _ _ => List Bytes
  | .delete _ _ _ => Unit
  | .createDhtRecord _ => NewDHTRecord
  | .closeDhtRecord _ => Unit
  | .openDhtRecord _ _ => DHTRecordDescriptor

abbrev IdentRet (c : IdentCall) : Type := Except VeilidAPIError c.Val

/-- A call and its answer. -/
abbrev IdentEvent := Σ c : IdentCall, IdentRet c

/-- A function that uses the table store. -/
abbrev Ident (σ α : Type) := Method IdentCall IdentRet Error σ α

namespace Ident
variable {σ α : Type}

/-- A call, followed by `?`. -/
def call (c : IdentCall) : Ident σ c.Val := do
  let r : Except VeilidAPIError c.Val ← perform c
  match r with
  | .ok v => pure v
  | .error e => throw (.veilidAPI e)

/-- `?` on a result that is already there. -/
def lift : Except Error α → Ident σ α
  | .ok a => pure a
  | .error e => throw e

/-- `load_json::<TypedKey>`, once the value has been read. -/
def asTypedKey : Option Json → Except Error (Option TypedKey)
  | none => .ok none
  | some (.typedKey key) => .ok (some key)
  | some _ => .error (.veilidAPI (.generic "failed to deserialize json"))

theorem asTypedKey_eq_some_iff {value : Option Json} {key : TypedKey} :
    asTypedKey value = .ok (some key) ↔ value = some (.typedKey key) := by
  unfold asTypedKey
  split <;> simp_all

/-- `load_json::<TypedKeyPair>`, once the value has been read. -/
def asTypedKeyPair : Option Json → Except Error (Option TypedKeyPair)
  | none => .ok none
  | some (.keyPair keyPair) => .ok (some ⟨CRYPTO_KIND_VLD0, keyPair⟩)
  | some _ => .error (.veilidAPI (.generic "failed to deserialize json"))

section Exec
variable {s s' : σ} {tr : List IdentEvent}

/-- A call fails and ends the function, or returns to it. -/
theorem exec_call_bind_iff {c : IdentCall} {f : c.Val → Ident σ α} {r : Except Error α} :
    Exec (call c >>= f) s tr r s' ↔
      (∃ e, tr = [⟨c, .error e⟩] ∧ r = .error (.veilidAPI e) ∧ s' = s) ∨
      ∃ v tr', tr = ⟨c, .ok v⟩ :: tr' ∧ Exec (f v) s tr' r s' := by
  constructor
  · intro h
    obtain ⟨a, tr', rfl, hk⟩ := Prog.exec_call_iff.1 h
    cases a with
    | error e =>
        obtain ⟨rfl, he⟩ := Prog.exec_pure_iff.1 hk
        obtain ⟨rfl, rfl⟩ := Prod.mk.inj he
        exact Or.inl ⟨e, rfl, rfl, rfl⟩
    | ok v => exact Or.inr ⟨v, tr', rfl, hk⟩
  · rintro (⟨e, rfl, rfl, rfl⟩ | ⟨v, tr', rfl, h⟩)
    · exact .call (.pure _)
    · exact .call h

theorem exec_lift_bind_iff {β : Type} {x : Except Error β} {f : β → Ident σ α}
    {r : Except Error α} :
    Exec (lift x >>= f) s tr r s' ↔
      (∃ e, x = .error e ∧ tr = [] ∧ r = .error e ∧ s' = s) ∨
      ∃ a, x = .ok a ∧ Exec (f a) s tr r s' := by
  cases x with
  | ok a =>
      constructor
      · intro h
        exact Or.inr ⟨a, rfl, h⟩
      · rintro (⟨e, he, _⟩ | ⟨a', ha, h⟩)
        · exact absurd he (by simp)
        · exact Except.ok.inj ha ▸ h
  | error e =>
      constructor
      · intro h
        obtain ⟨rfl, rfl, rfl⟩ := exec_throw_iff.1 h
        exact Or.inl ⟨e, rfl, rfl, rfl, rfl⟩
      · rintro (⟨e', he, rfl, rfl, rfl⟩ | ⟨a, ha, _⟩)
        · exact Except.error.inj he ▸ exec_throw_iff.2 ⟨rfl, rfl, rfl⟩
        · exact absurd ha (by simp)

end Exec

section Within
variable {τ : Type} {f : σ → τ} {P : IdentCall → Prop}

theorem frame_call {c : IdentCall} (hc : P c) : Within (frame f P) (call c : Ident σ c.Val) := by
  have hJ := @composable_frame IdentCall IdentRet σ τ f P
  refine Within.bind hJ (Within.perform fun _ _ => ⟨rfl, fun e he => ?_⟩) fun r => ?_
  · rw [List.mem_singleton.1 he]
    exact hc
  · cases r with
    | ok v => exact Within.pure hJ v
    | error e => exact Within.throw hJ _

theorem frame_lift (x : Except Error α) : Within (frame f P) (lift x : Ident σ α) := by
  cases x with
  | ok a => exact Within.pure (composable_frame f P) a
  | error e => exact Within.throw (composable_frame f P) e

end Within

end Ident

/-- `str::as_bytes`. -/
def asBytes (s : String) : Bytes := s.toByteArray.data.toList

/-! ## The local identity -/

def DHT_N_SUBKEYS : Nat := 3

def TABLE_STORE_LOCAL_N_COLUMNS : Nat := 2
def TABLE_STORE_LOCAL_COLUMN_DHT_KEY : Nat := 0
def TABLE_STORE_LOCAL_COLUMN_DHT_OWNER_KEYPAIR : Nat := 1

namespace Sovereign
variable {σ : Type}

/-- `api().table_store()?` and `open_db`. -/
def openDb : Ident σ Unit := do
  Ident.call .tableStore
  Ident.call (.open .conclaveLocal TABLE_STORE_LOCAL_N_COLUMNS)

/-- `load`, from the owner key pair on. -/
def loadOwner (dhtKey : TypedKey) : Ident σ (Option Sovereign) := do
  let value ← Ident.call (.loadJson .conclaveLocal TABLE_STORE_LOCAL_COLUMN_DHT_OWNER_KEYPAIR [])
  match ← Ident.lift (Ident.asTypedKeyPair value) with
  | none => return none
  | some dhtOwnerKeypair =>
      let dht ← Ident.call (.openDhtRecord dhtKey (some dhtOwnerKeypair.value))
      return some ⟨dhtKey, dhtOwnerKeypair, some dht, none⟩

/-- `load`. -/
def load : Ident σ (Option Sovereign) := do
  openDb
  let value ← Ident.call (.loadJson .conclaveLocal TABLE_STORE_LOCAL_COLUMN_DHT_KEY [])
  match ← Ident.lift (Ident.asTypedKey value) with
  | none => return none
  | some dhtKey => loadOwner dhtKey

/-- `init`, once the record is there and closed. -/
def store (dhtKey : TypedKey) (dhtOwnerKeypair : KeyPair) : Ident σ Sovereign := do
  Ident.call (.storeJson .conclaveLocal TABLE_STORE_LOCAL_COLUMN_DHT_KEY [] (.typedKey dhtKey))
  Ident.call (.storeJson .conclaveLocal TABLE_STORE_LOCAL_COLUMN_DHT_OWNER_KEYPAIR []
    (.keyPair dhtOwnerKeypair))
  -- read back from storage
  match ← load with
  | some sovereign => return sovereign
  | none => throw (otherErr "failed to initialize sovereign identity")

/-- `init`. -/
def init : Ident σ Sovereign := do
  openDb
  let newDht ← Ident.call (.createDhtRecord DHT_N_SUBKEYS)
  match newDht.ownerSecret with
  | none => throw (otherErr "expected dht owner secret")
  | some secret =>
      Ident.call (.closeDhtRecord newDht.key)
      store newDht.key ⟨newDht.owner, secret⟩

end Sovereign

/-! ## The remotes -/

def TABLE_STORE_REMOTES_N_COLUMNS : Nat := 1
def TABLE_STORE_REMOTES_COLUMN_DHT_KEY : Nat := 0

namespace Peer
variable {σ : Type} [CryptoSystem]

omit [CryptoSystem] in
/-- `api.table_store()?` and `open_db`. -/
def openDb : Ident σ Unit := do
  Ident.call .tableStore
  Ident.call (.open .conclaveRemotes TABLE_STORE_REMOTES_N_COLUMNS)

omit [CryptoSystem] in
/-- `load`. -/
def load (name : String) (dbKey : Bytes) : Ident σ Peer := do
  let value ← Ident.call (.loadJson .conclaveRemotes TABLE_STORE_REMOTES_COLUMN_DHT_KEY dbKey)
  match ← Ident.lift (Ident.asTypedKey value) with
  | some dhtPublicKey => return ⟨name, dhtPublicKey, none, none, none⟩
  | none => throw (otherErr "remote peer missing dht key")

/-- `new`. -/
def new (name dhtPublicKey : String) : Ident σ Peer := do
  openDb
  let dhtKey ← Ident.lift ((CryptoSystem.keyFromStr dhtPublicKey).mapError .veilidAPI)
  Ident.call (.storeJson .conclaveRemotes TABLE_STORE_REMOTES_COLUMN_DHT_KEY (asBytes name)
    (.typedKey dhtKey))
  load name (asBytes name)

omit [CryptoSystem] in
/-- The loop of `load_all`. -/
def loadKeys : List Bytes → (AList fun _ : String => Peer) → Ident σ (AList fun _ : String => Peer)
  | [], remotes => return remotes
  | remoteKey :: rest, remotes => do
      let remoteName ← Ident.lift ((Bytes.toStr remoteKey).mapError fun _ =>
        otherErr "invalid utf-8 sequence")
      let peer ← load remoteName remoteKey
      loadKeys rest (remotes.insert remoteName peer)

omit [CryptoSystem] in
/-- `load_all`. -/
def loadAll : Ident σ (AList fun _ : String => Peer) := do
  openDb
  let keys ← Ident.call (.getKeys .conclaveRemotes TABLE_STORE_REMOTES_COLUMN_DHT_KEY)
  loadKeys keys ∅

omit [CryptoSystem] in
/-- `remove`, and the `table_store()?` of its caller. -/
def remove (p : Peer) : Ident σ Unit := do
  openDb
  Ident.call (.delete .conclaveRemotes TABLE_STORE_REMOTES_COLUMN_DHT_KEY (asBytes p.name))

end Peer

/-! ## Starting up, and the commands on remotes -/

namespace Conclave

/-- The sovereign of `new`. -/
def loadSovereign : Ident Unit Sovereign := do
  match ← Sovereign.load with
  | some sov => return sov
  | none => Sovereign.init

/-- `new`. -/
def new : Ident Unit Conclave := do
  let sovereign ← loadSovereign
  let remotes ← Peer.loadAll
  return ⟨sovereign, remotes⟩

/-- `set_peer`. -/
def setPeer (peer : Peer) : Ident Conclave Unit :=
  modify fun c => { c with remotes := c.remotes.insert peer.name peer }

/-- `remove_peer`: the peer leaves the map first. -/
def removePeer (name : String) : Ident Conclave Bool := do
  match (← get).remotes.lookup name with
  | some peer =>
      modify fun c => { c with remotes := c.remotes.erase name }
      peer.remove
      return true
  | none => return false

end Conclave

/-- `DDCP::remote_add`. -/
def remoteAdd [CryptoSystem] (name addr : String) : Ident Conclave Unit := do
  let peer ← Peer.new name addr
  Conclave.setPeer peer

/-- `DDCP::remote_remove`. -/
def remoteRemove (name : String) : Ident Conclave Bool := Conclave.removePeer name

/-- `DDCP::remotes`. -/
def Conclave.remoteKeys (c : Conclave) : List (String × TypedKey) :=
  c.peers.map fun peer => (peer.name, peer.dhtKey)

/-! ## What the calls do -/

/-- What is stored, and the DHT records created so far. -/
structure StoreWorld where
  cell : Table → Nat → Bytes → Option Json
  created : List NewDHTRecord

namespace StoreWorld

def empty : StoreWorld := ⟨fun _ _ _ => none, []⟩

def put (w : StoreWorld) (table : Table) (column : Nat) (key : Bytes) (value : Option Json) :
    StoreWorld :=
  { w with
    cell := fun t c k => if t = table ∧ c = column ∧ k = key then value else w.cell t c k }

/-- What a call does that returns `v`. A record that is created has a key of its own. -/
def Does (w : StoreWorld) : (c : IdentCall) → c.Val → StoreWorld → Prop
  | .tableStore, _, w' => w' = w
  | .open _ _, _, w' => w' = w
  | .storeJson table column key value, _, w' => w' = w.put table column key (some value)
  | .loadJson table column key, v, w' => w' = w ∧ v = w.cell table column key
  | .getKeys table column, keys, w' =>
      w' = w ∧ keys.Nodup ∧ ∀ k, k ∈ keys ↔ (w.cell table column k).isSome
  | .delete table column key, _, w' => w' = w.put table column key none
  | .createDhtRecord _, newDht, w' =>
      w' = { w with created := newDht :: w.created } ∧ newDht.key ∉ w.created.map NewDHTRecord.key
  | .closeDhtRecord _, _, w' => w' = w
  | .openDhtRecord key _, dht, w' => w' = w ∧ dht.key = key

/-- Which calls may fail, and whether one that fails may have taken effect. -/
structure Faults where
  mayFail : IdentCall → Prop
  torn : Prop

def Answers (faults : Faults) (w : StoreWorld) (e : IdentEvent) (w' : StoreWorld) : Prop :=
  match e.2 with
  | .ok v => w.Does e.1 v w'
  | .error _ => faults.mayFail e.1 ∧ (w' = w ∨ faults.torn ∧ ∃ v, w.Does e.1 v w')

/-- Calls that change nothing. -/
def Idle (c : IdentCall) : Prop := ∀ w v w', Does w c v w' → w' = w

variable {w : StoreWorld} {table : Table} {column : Nat} {key : Bytes} {value : Option Json}

@[simp] theorem put_created : (w.put table column key value).created = w.created := rfl

@[simp] theorem cell_put_self : (w.put table column key value).cell table column key = value :=
  if_pos ⟨rfl, rfl, rfl⟩

theorem cell_put_of_ne {t : Table} {c : Nat} {k : Bytes}
    (h : ¬ (t = table ∧ c = column ∧ k = key)) :
    (w.put table column key value).cell t c k = w.cell t c k := if_neg h

end StoreWorld

namespace StoreWorld

theorem idle_tableStore : Idle .tableStore := fun _ _ _ h => h

theorem idle_open (table : Table) (columns : Nat) : Idle (.open table columns) := fun _ _ _ h => h

theorem idle_loadJson (table : Table) (column : Nat) (key : Bytes) :
    Idle (.loadJson table column key) := fun _ _ _ h => h.1

theorem idle_getKeys (table : Table) (column : Nat) : Idle (.getKeys table column) :=
  fun _ _ _ h => h.1

theorem idle_closeDhtRecord (key : TypedKey) : Idle (.closeDhtRecord key) := fun _ _ _ h => h

theorem idle_openDhtRecord (key : TypedKey) (writer : Option KeyPair) :
    Idle (.openDhtRecord key writer) := fun _ _ _ h => h.1

end StoreWorld

/-! ### Their rules -/

section Rules
variable {σ α : Type} {faults : StoreWorld.Faults} {I : StoreWorld → Prop} {s : σ} {w : StoreWorld}
  {c : IdentCall} {f : c.Val → Ident σ α} {Q : Except Error α → σ → StoreWorld → Prop}

theorem Ident.keeps_call_bind (hI : I w)
    (herr : ∀ e w', faults.mayFail c → (w' = w ∨ faults.torn ∧ ∃ v, w.Does c v w') →
      I w' ∧ Q (.error e) s w')
    (hok : ∀ v w', w.Does c v w' → Keeps (StoreWorld.Answers faults) I (f v) s w' Q) :
    Keeps (StoreWorld.Answers faults) I (Ident.call c >>= f) s w Q := by
  refine ⟨hI, fun r w' ha => ?_⟩
  cases r with
  | ok v => exact hok v w' ha
  | error e => exact herr (.veilidAPI e) w' ha.1 ha.2

theorem Ident.keeps_idle_bind (hidle : StoreWorld.Idle c) (hI : I w)
    (herr : ∀ e, faults.mayFail c → Q (.error e) s w)
    (hok : ∀ v, w.Does c v w → Keeps (StoreWorld.Answers faults) I (f v) s w Q) :
    Keeps (StoreWorld.Answers faults) I (Ident.call c >>= f) s w Q := by
  refine Ident.keeps_call_bind hI (fun e w' hfail hw => ?_) fun v w' hdoes => ?_
  · obtain rfl : w' = w := hw.elim id fun h => h.2.elim fun v hdoes => hidle _ _ _ hdoes
    exact ⟨hI, herr e hfail⟩
  · obtain rfl := hidle _ _ _ hdoes
    exact hok v hdoes

theorem Ident.keeps_lift_bind {β : Type} {x : Except Error β} {g : β → Ident σ α} (hI : I w)
    (herr : ∀ e, x = .error e → Q (.error e) s w)
    (hok : ∀ a, x = .ok a → Keeps (StoreWorld.Answers faults) I (g a) s w Q) :
    Keeps (StoreWorld.Answers faults) I (Ident.lift x >>= g) s w Q := by
  cases x with
  | ok a => exact hok a rfl
  | error e => exact ⟨hI, herr e rfl⟩

theorem Sovereign.keeps_openDb_bind {f : Unit → Ident σ α} (hI : I w)
    (herr : ∀ e, faults.mayFail .tableStore ∨ faults.mayFail (.open .conclaveLocal
      TABLE_STORE_LOCAL_N_COLUMNS) → Q (.error e) s w)
    (hok : Keeps (StoreWorld.Answers faults) I (f ()) s w Q) :
    Keeps (StoreWorld.Answers faults) I (Sovereign.openDb >>= f) s w Q := by
  unfold Sovereign.openDb
  rw [bind_assoc]
  refine Ident.keeps_idle_bind StoreWorld.idle_tableStore hI (fun e h => herr e (Or.inl h)) ?_
  intro _ _
  exact Ident.keeps_idle_bind (StoreWorld.idle_open _ _) hI (fun e h => herr e (Or.inr h))
    fun _ _ => hok

theorem Peer.keeps_openDb_bind {f : Unit → Ident σ α} (hI : I w)
    (herr : ∀ e, faults.mayFail .tableStore ∨ faults.mayFail (.open .conclaveRemotes
      TABLE_STORE_REMOTES_N_COLUMNS) → Q (.error e) s w)
    (hok : Keeps (StoreWorld.Answers faults) I (f ()) s w Q) :
    Keeps (StoreWorld.Answers faults) I (Peer.openDb >>= f) s w Q := by
  unfold Peer.openDb
  rw [bind_assoc]
  refine Ident.keeps_idle_bind StoreWorld.idle_tableStore hI (fun e h => herr e (Or.inl h)) ?_
  intro _ _
  exact Ident.keeps_idle_bind (StoreWorld.idle_open _ _) hI (fun e h => herr e (Or.inr h))
    fun _ _ => hok

end Rules

end Ddcp
