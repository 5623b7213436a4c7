import Ddcp.Db.Merge
import Ddcp.Lib.Lts

set_option autoImplicit false

/-! # The replication protocol: nodes, announcements and pulls in flight

`DDCP::pull_from` waits for the database and the network three times: for the cursor, for the
peer's answer and for the merge. `beginPull` is what it does with the cursor and `finishPull` what
it does with the answer; the responder's `DB::changes` in between is two database calls, `status`
and then `select`, with anything happening between them (`answerChanges`).

`Net.Step` lets any number of nodes take these steps in any order. A pull may be given up at any
time (a failed call, a crash), its answer may come late, a node may run several at once, and the
status it starts from is any the peer ever published. Nodes outside `honest` publish any status and
give any answer. -/

namespace Ddcp

/-- What `pull_from` does once it has read the cursor. -/
inductive PullStart where
  | upToDate (trackedVersion : Int64)
  | request (sinceDbVersion : Int64)
  deriving DecidableEq, Repr

/-- `pull_from` up to the request. -/
def beginPull (db : Database) (peerStatus : Status) : PullStart :=
  let trackedVersion := db.trackedPeerVersion peerStatus.siteId
  if peerStatus.dbVersion ≤ trackedVersion then .upToDate trackedVersion
  else .request trackedVersion

/-- The responder's answer: a status read earlier, and the rows selected now. -/
def answerChanges (db : Database) (status : Bytes × Int64) (sinceDbVersion : Int64) :
    ChangesResponse :=
  if sinceDbVersion ≥ status.2 then ⟨status.1, []⟩ else ⟨status.1, db.select sinceDbVersion⟩

section Merge
variable [LinearOrder CellData]

/-- `pull_from` from the response on. -/
def finishPull (env : Database.TxEnv) (peerStatus : Status) (resp : ChangesResponse)
    (db : Database) : Except Error (Bool × Int64) × Database :=
  if resp.siteId ≠ peerStatus.siteId then (.error (otherErr "mismatched site_id"), db)
  else
    match db.merge env resp.siteId resp.changes with
    | (.ok mergeVersion, db') => (.ok (true, mergeVersion), db')
    | (.error e, db') => (.error (.db e), db')

end Merge

/-! ## The system -/

/-- How far a pull in flight has come: sent; the responder has read its status; answered. -/
inductive PullPhase where
  | requested
  | statusRead (status : Bytes × Int64)
  | answered (resp : ChangesResponse)

/-- A `pull_from` in flight at `client`, from the peer `server`. -/
structure Pull (N : Type) where
  client : N
  server : N
  status : Status
  sinceDbVersion : Int64
  phase : PullPhase

/-- The nodes' databases, every status each of them has published, and the pulls in flight. -/
structure Net (N : Type) where
  db : N → Database
  published : N → List Status
  pulls : Nat → Option (Pull N)

/-- New databases, nothing published, no pull. -/
def Net.init {N : Type} (site : N → Bytes) : Net N where
  db n := Database.new (site n)
  published _ := []
  pulls _ := none

section Updates
variable {N : Type} [DecidableEq N]

def Net.setDb (σ : Net N) (n : N) (db : Database) : Net N :=
  { σ with db := Function.update σ.db n db }

def Net.publish (σ : Net N) (n : N) (st : Status) : Net N :=
  { σ with published := Function.update σ.published n (st :: σ.published n) }

def Net.setPull (σ : Net N) (i : Nat) (p : Option (Pull N)) : Net N :=
  { σ with pulls := Function.update σ.pulls i p }

def Net.dropPulls (σ : Net N) (n : N) : Net N :=
  { σ with pulls := fun i => (σ.pulls i).filter fun p => p.client ≠ n }

end Updates

/-- What a step does, and between whom. -/
inductive Action (N : Type) where
  | localTx (n : N)
  | announce (n : N)
  | forgeStatus (n : N) (st : Status)
  | begin (client server : N)
  | readStatus (server : N)
  | select (server : N)
  | forgeAnswer (server : N)
  | finish (client server : N)
  | fail (client server : N)
  | crash (n : N)

/-- A committed transaction of the application: each cell it writes becomes strictly newer, is
    local, and gets a version above every earlier one of that database. -/
structure LocalTx [LinearOrder CellData] (db db' : Database) : Prop where
  siteId : db'.siteId = db.siteId
  trackedPeers : db'.trackedPeers = db.trackedPeers
  fresh : db.clock < db'.clock
  cells : ∀ k, db'.cells.lookup k = db.cells.lookup k ∨
    ∃ cell, db'.cells.lookup k = some cell ∧ cell.siteId = none ∧ cell.dbVersion = db'.clock ∧
      db.view k < (cell.data : WithBot CellData)

/-- A transaction that writes one cell. -/
def Database.writeCell (db : Database) (version : Int64) (k : CellKey) (data : CellData)
    (seq : Int64) : Database :=
  { db with cells := db.cells.insert k ⟨data, version, seq, none⟩, clock := version }

theorem LocalTx.writeCell [LinearOrder CellData] {db : Database} (version : Int64) (k : CellKey)
    (data : CellData) (seq : Int64) (hv : db.clock < version)
    (hnew : db.view k < (data : WithBot CellData)) :
    LocalTx db (db.writeCell version k data seq) where
  siteId := rfl
  trackedPeers := rfl
  fresh := hv
  cells k' := by
    by_cases hk : k' = k
    · subst hk
      exact Or.inr ⟨⟨data, version, seq, none⟩, AList.lookup_insert _, rfl, rfl, hnew⟩
    · exact Or.inl (AList.lookup_insert_ne hk)

section Step
variable {N : Type} [DecidableEq N] [LinearOrder CellData]

/-- One step of the system. -/
inductive Net.Step (honest : N → Prop) : Net N → Action N → Net N → Prop
  | localTx {σ : Net N} (n : N) {db' : Database} (htx : LocalTx (σ.db n) db') :
      Step honest σ (.localTx n) (σ.setDb n db')
  | announce {σ : Net N} (n : N) (hn : honest n) :
      Step honest σ (.announce n) (σ.publish n ⟨(σ.db n).status.1, (σ.db n).status.2⟩)
  | forgeStatus {σ : Net N} (n : N) (st : Status) (hn : ¬ honest n) :
      Step honest σ (.forgeStatus n st) (σ.publish n st)
  | begin {σ : Net N} (i : Nat) (client server : N) (st : Status) {since : Int64}
      (hfree : σ.pulls i = none) (hst : st ∈ σ.published server)
      (hbegin : beginPull (σ.db client) st = .request since) :
      Step honest σ (.begin client server)
        (σ.setPull i (some ⟨client, server, st, since, .requested⟩))
  | readStatus {σ : Net N} (i : Nat) {p : Pull N} (hp : σ.pulls i = some p)
      (hphase : p.phase = .requested) (hn : honest p.server) :
      Step honest σ (.readStatus p.server)
        (σ.setPull i (some { p with phase := .statusRead (σ.db p.server).status }))
  | select {σ : Net N} (i : Nat) {p : Pull N} {status : Bytes × Int64}
      (hp : σ.pulls i = some p) (hphase : p.phase = .statusRead status) (hn : honest p.server) :
      Step honest σ (.select p.server)
        (σ.setPull i (some { p with
          phase := .answered (answerChanges (σ.db p.server) status p.sinceDbVersion) }))
  | forgeAnswer {σ : Net N} (i : Nat) {p : Pull N} (resp : ChangesResponse)
      (hp : σ.pulls i = some p) (hphase : p.phase = .requested) (hn : ¬ honest p.server) :
      Step honest σ (.forgeAnswer p.server)
        (σ.setPull i (some { p with phase := .answered resp }))
  | finish {σ : Net N} (i : Nat) {p : Pull N} {resp : ChangesResponse} (env : Database.TxEnv)
      (hp : σ.pulls i = some p) (hphase : p.phase = .answered resp)
      (henv : (σ.db p.client).clock < env.version) :
      Step honest σ (.finish p.client p.server)
        ((σ.setDb p.client (finishPull env p.status resp (σ.db p.client)).2).setPull i none)
  | fail {σ : Net N} (i : Nat) {p : Pull N} (hp : σ.pulls i = some p) :
      Step honest σ (.fail p.client p.server) (σ.setPull i none)
  | crash {σ : Net N} (n : N) : Step honest σ (.crash n) (σ.dropPulls n)

end Step

end Ddcp
