import Mathlib.Data.List.AList
import Ddcp.Proto.Messages
import Ddcp.Lib.Order

set_option autoImplicit false

/-! # The database: `src/db.rs` over cr-sqlite's tables

`Database` holds what the program reads and writes of a cr-sqlite database: the virtual table
`crsql_changes`, one row for each cell `(table, pk, cid)`, and the cursor table
`crsql_tracked_peers` with its primary key `(site_id, tag, event)`. Both are association lists
without duplicate keys, in the order in which SQLite enumerates them.

The operations are those of `DB`: `status`, `select` (the query of `DB::changes`), `changes`,
`trackedPeerVersion` and `merge`. What cr-sqlite itself decides, which of two values of a cell is
newer and which version a transaction gets, is a parameter: a linear order on `CellData` and the
field `version` of `TxEnv`. -/

namespace Ddcp

/-- The cell a change is about. -/
structure CellKey where
  table : String
  pk : Bytes
  cid : String
  deriving DecidableEq, Repr

/-- A real that is not a number: its exponent is all ones, and its fraction is not zero. -/
def Value.isNaN : Value → Bool
  | .real bits => decide (0x7FF0000000000000 < bits &&& 0x7FFFFFFFFFFFFFFF)
  | _ => false

/-- A value in a table. There is no NaN among them. -/
structure SqlValue where
  value : Value
  notNaN : value.isNaN = false
  deriving DecidableEq, Repr

def SqlValue.null : SqlValue := ⟨.null, rfl⟩

def SqlValue.integer (i : Int64) : SqlValue := ⟨.integer i, rfl⟩

/-- A value as SQLite binds it to a parameter: a NaN becomes NULL. -/
def Value.toSql (v : Value) : SqlValue :=
  if h : v.isNaN = false then ⟨v, h⟩ else .null

@[simp] theorem SqlValue.toSql_value (v : SqlValue) : v.value.toSql = v := dif_pos v.notNaN

/-- What cr-sqlite compares when two versions of one cell meet. -/
structure CellData where
  cl : Int64
  colVersion : Int64
  val : SqlValue
  deriving DecidableEq, Repr

/-- A row of `crsql_changes` apart from its key. `siteId` is `none` for a local write. -/
structure Cell where
  data : CellData
  dbVersion : Int64
  seq : Int64
  siteId : Option Bytes
  deriving DecidableEq, Repr

def Change.key (c : Change) : CellKey := ⟨c.table, c.pk, c.cid⟩

def Change.data (c : Change) : CellData := ⟨c.cl, c.colVersion, c.val.toSql⟩

/-- The row of `crsql_changes` for the cell `k`, as `DB::changes` reads it. -/
def Cell.toChange (k : CellKey) (cell : Cell) : Change where
  table := k.table
  pk := k.pk
  cid := k.cid
  val := cell.data.val.value
  colVersion := cell.data.colVersion
  dbVersion := cell.dbVersion
  cl := cell.data.cl
  seq := cell.seq

def CRSQL_TRACKED_TAG_WHOLE_DATABASE : Int := 0
def CRSQL_TRACKED_EVENT_RECEIVE : Int := 0

/-- The primary key of `crsql_tracked_peers`. -/
structure TrackKey where
  siteId : Bytes
  tag : Int
  event : Int
  deriving DecidableEq, Repr

/-- A cr-sqlite database. `clock` is the greatest `db_version` it has handed out. -/
structure Database where
  siteId : Bytes
  cells : AList fun _ : CellKey => Cell
  trackedPeers : AList fun _ : TrackKey => Int64
  clock : Int64

/-- A new database: no rows, no cursors. -/
def Database.new (siteId : Bytes) : Database := ⟨siteId, ∅, ∅, 0⟩

namespace Database

/-! ## Reading -/

/-- The versions of the rows whose `site_id` is null. -/
def localVersions (db : Database) : List Int64 :=
  db.cells.entries.filterMap fun e => if e.2.siteId = none then some e.2.dbVersion else none

/-- `DB::status`: the site id, and the greatest version of a local row, or 0. -/
def status (db : Database) : Bytes × Int64 :=
  (db.siteId, db.localVersions.max?.getD 0)

/-- The query of `DB::changes`: the local rows above a version. -/
def select (db : Database) (sinceDbVersion : Int64) : List Change :=
  db.cells.entries.filterMap fun e =>
    if sinceDbVersion < e.2.dbVersion ∧ e.2.siteId = none then some (e.2.toChange e.1) else none

/-- `DB::changes` on a database that does not change between its two calls. -/
def changes (db : Database) (sinceDbVersion : Int64) : Bytes × List Change :=
  let (siteId, dbVersion) := db.status
  if sinceDbVersion ≥ dbVersion then (siteId, []) else (siteId, db.select sinceDbVersion)

/-- `DB::tracked_peer_version`. -/
def trackedPeerVersion (db : Database) (siteId : Bytes) : Int64 :=
  (db.trackedPeers.entries.filterMap fun e =>
    if e.1.siteId = siteId ∧ e.1.event = CRSQL_TRACKED_EVENT_RECEIVE then some e.2 else none).max?.getD 0

/-! ## Merging -/

/-- What SQLite and cr-sqlite decide in one `DB::merge` transaction: the version given to the rows
    it replaces, and which of its statements fail. -/
structure TxEnv where
  version : Int64
  beginErr : Option DbError := none
  prepareErr : Option DbError := none
  insertErr : Nat → Change → Option DbError := fun _ _ => none
  upsertErr : Option DbError := none
  commitErr : Option DbError := none

variable [LinearOrder CellData]

/-- `insert into crsql_changes`: a strictly newer change replaces the cell, which then carries the
    given site id and the transaction's version; otherwise the cell is untouched. -/
def insertChange (db : Database) (version : Int64) (siteId : Bytes) (c : Change) : Database :=
  let replaced := { db with
    cells := db.cells.insert c.key ⟨c.data, version, c.seq, some siteId⟩
    clock := max db.clock version }
  match db.cells.lookup c.key with
  | none => replaced
  | some cell => if cell.data < c.data then replaced else db

/-- The loop of `DB::merge` over the changes, with the running `max_db_version`. -/
def mergeInserts (env : TxEnv) (siteId : Bytes) :
    List Change → Nat → Database × Int64 → Except DbError (Database × Int64)
  | [], _, acc => .ok acc
  | change :: rest, i, (tx, maxDbVersion) =>
      let maxDbVersion :=
        if change.dbVersion > maxDbVersion then change.dbVersion else maxDbVersion
      match env.insertErr i change with
      | some e => .error e
      | none =>
          mergeInserts env siteId rest (i + 1)
            (tx.insertChange env.version siteId change, maxDbVersion)

omit [LinearOrder CellData] in
/-- `insert into crsql_tracked_peers … on conflict do update set version = max(version, …)`. -/
def upsertTracked (db : Database) (siteId : Bytes) (version : Int64) : Database :=
  let key : TrackKey := ⟨siteId, CRSQL_TRACKED_TAG_WHOLE_DATABASE, CRSQL_TRACKED_EVENT_RECEIVE⟩
  { db with
    trackedPeers :=
      match db.trackedPeers.lookup key with
      | none => db.trackedPeers.insert key version
      | some old => db.trackedPeers.insert key (max old version) }

/-- The body of the `DB::merge` transaction, up to and including its commit. -/
def mergeTx (env : TxEnv) (siteId : Bytes) (changes : List Change) (db : Database) :
    Except DbError (Database × Int64) :=
  match env.beginErr with
  | some e => .error e
  | none =>
  match env.prepareErr with
  | some e => .error e
  | none =>
  match mergeInserts env siteId changes 0 (db, 0) with
  | .error e => .error e
  | .ok (tx, maxDbVersion) =>
  match env.upsertErr with
  | some e => .error e
  | none =>
  match env.commitErr with
  | some e => .error e
  | none => .ok (tx.upsertTracked siteId maxDbVersion, maxDbVersion)

/-- `DB::merge`: a transaction that ends in an error is dropped, and so rolled back. -/
def merge (env : TxEnv) (siteId : Bytes) (changes : List Change) (db : Database) :
    Except DbError Int64 × Database :=
  match mergeTx env siteId changes db with
  | .ok (tx, maxDbVersion) => (.ok maxDbVersion, tx)
  | .error e => (.error e, db)

end Database

end Ddcp
