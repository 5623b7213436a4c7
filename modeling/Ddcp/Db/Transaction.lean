import Ddcp.Db.Merge
import Ddcp.Lib.Runs

set_option autoImplicit false

/-! # The transaction of a merge, statement by statement

`Database.merge` says what a merge does to the database as a whole. Here is the closure that
`DB::merge` sends to the connection: it begins a transaction, prepares and executes the inserts one
by one, upserts the cursor and commits, and any of these may fail; a transaction that is dropped
before its commit is rolled back. `Connection` is the connection between two statements, with the
committed database and the one the open transaction works on. Run against it, the closure does what
`Database.merge` does (`runMerge_eq`). -/

namespace Ddcp

open Method

/-- The statements of the closure. -/
inductive SqlCall where
  | begin
  | prepare
  | insert (siteId : Bytes) (change : Change)
  | upsert (siteId : Bytes) (version : Int64)
  | commit
  | rollback
  deriving DecidableEq

/-- The closure of `DB::merge`; its locals are in the program, so it has no state of its own. -/
abbrev Sql (α : Type) := Method SqlCall (fun _ => Except DbError Unit) DbError Unit α

/-- A statement, followed by `?`. -/
def sql (c : SqlCall) : Sql Unit := do
  match ← perform c with
  | .ok () => pure ()
  | .error e => throw e

/-- The body of a transaction. When it returns early the transaction is dropped, which rolls it back
    and ignores errors. -/
def transaction {α : Type} (body : Sql α) : Sql α := do
  sql .begin
  match ← attempt some body with
  | .ok a => return a
  | .error e =>
      let _ ← perform SqlCall.rollback
      throw e

/-- The loop over the changes, with the running `max_db_version`. -/
def insertLoop (siteId : Bytes) : List Change → Int64 → Sql Int64
  | [], maxDbVersion => pure maxDbVersion
  | change :: rest, maxDbVersion => do
      sql (.insert siteId change)
      insertLoop siteId rest
        (if change.dbVersion > maxDbVersion then change.dbVersion else maxDbVersion)

/-- The transaction from `prepare` on. -/
def mergeBody (siteId : Bytes) (changes : List Change) : Sql Int64 := do
  sql .prepare
  let maxDbVersion ← insertLoop siteId changes 0
  sql (.upsert siteId maxDbVersion)
  sql .commit
  return maxDbVersion

/-- The closure of `DB::merge`. -/
def mergeClosure (siteId : Bytes) (changes : List Change) : Sql Int64 :=
  transaction (mergeBody siteId changes)

/-- The connection between two statements. -/
structure Connection where
  committed : Database
  working : Option Database

variable [LinearOrder CellData]

/-- What a statement that succeeds does. -/
def Connection.apply (version : Int64) (conn : Connection) : SqlCall → Connection
  | .begin => { conn with working := some conn.committed }
  | .prepare => conn
  | .insert siteId change =>
      { conn with working := conn.working.map fun tx => tx.insertChange version siteId change }
  | .upsert siteId v => { conn with working := conn.working.map fun tx => tx.upsertTracked siteId v }
  | .commit => ⟨conn.working.getD conn.committed, none⟩
  | .rollback => { conn with working := none }

/-- The connection as the environment of the closure. `fails n c` is the error of the `n`-th
    statement, if it is `c` and fails; dropping a transaction rolls it back in any case. -/
def Connection.handler (fails : Nat → SqlCall → Option DbError) (version : Int64) :
    SqlCall → Nat × Connection → Except DbError Unit × (Nat × Connection)
  | .rollback, (n, conn) => (.ok (), n + 1, conn.apply version .rollback)
  | c, (n, conn) =>
      match fails n c with
      | some e => (.error e, n + 1, conn)
      | none => (.ok (), n + 1, conn.apply version c)

/-- `DB::merge` on a connection without an open transaction: the result, and the connection left. -/
def runMerge (fails : Nat → SqlCall → Option DbError) (version : Int64) (siteId : Bytes)
    (changes : List Change) (db : Database) : Except DbError Int64 × Connection :=
  let ((r, _), (_, conn)) :=
    runOn (Connection.handler fails version) (mergeClosure siteId changes) () (0, ⟨db, none⟩)
  (r, conn)

/-! ## The closure does what `Database.merge` does -/

section Run
variable {fails : Nat → SqlCall → Option DbError} {version : Int64} {α : Type}

theorem runOn_sql_ok {c : SqlCall} {f : Unit → Sql α} {n : Nat} {conn : Connection}
    (hc : c ≠ .rollback) (h : fails n c = none) :
    runOn (Connection.handler fails version) (sql c >>= f) () (n, conn) =
      runOn (Connection.handler fails version) (f ()) () (n + 1, conn.apply version c) := by
  have hcall : Connection.handler fails version c (n, conn) =
      (.ok (), n + 1, conn.apply version c) := by
    cases c <;> first | exact absurd rfl hc | simp [Connection.handler, h]
  rw [runOn_bind]
  unfold sql
  rw [runOn_bind, runOn_perform, hcall]
  rfl

theorem runOn_sql_error {c : SqlCall} {f : Unit → Sql α} {n : Nat} {conn : Connection}
    {e : DbError} (hc : c ≠ .rollback) (h : fails n c = some e) :
    runOn (Connection.handler fails version) (sql c >>= f) () (n, conn) =
      ((.error e, ()), (n + 1, conn)) := by
  have hcall : Connection.handler fails version c (n, conn) = (.error e, n + 1, conn) := by
    cases c <;> first | exact absurd rfl hc | simp [Connection.handler, h]
  rw [runOn_bind]
  unfold sql
  rw [runOn_bind, runOn_perform, hcall]
  rfl

/-- The failures of the statements, as the environment of a merge. -/
def mergeEnv (fails : Nat → SqlCall → Option DbError) (version : Int64) (siteId : Bytes)
    (changes : List Change) : Database.TxEnv where
  version := version
  beginErr := fails 0 .begin
  prepareErr := fails 1 .prepare
  insertErr i c := fails (2 + i) (.insert siteId c)
  upsertErr := fails (2 + changes.length) (.upsert siteId (Database.maxDbVersion changes))
  commitErr := fails (3 + changes.length) .commit

/-- The loop, on the open transaction. -/
theorem runOn_insertLoop {env : Database.TxEnv} (hversion : env.version = version)
    {siteId : Bytes} (hins : ∀ i c, env.insertErr i c = fails (2 + i) (.insert siteId c))
    (changes : List Change) (i : Nat) (m : Int64) (db tx : Database) (f : Int64 → Sql α) :
    (∀ tx' m', Database.mergeInserts env siteId changes i (tx, m) = .ok (tx', m') →
      runOn (Connection.handler fails version) (insertLoop siteId changes m >>= f) ()
          (2 + i, ⟨db, some tx⟩) =
        runOn (Connection.handler fails version) (f m') ()
          (2 + i + changes.length, ⟨db, some tx'⟩)) ∧
    ∀ e, Database.mergeInserts env siteId changes i (tx, m) = .error e → ∃ n tx',
      runOn (Connection.handler fails version) (insertLoop siteId changes m >>= f) ()
        (2 + i, ⟨db, some tx⟩) = ((.error e, ()), (n, ⟨db, some tx'⟩)) := by
  induction changes generalizing i m tx with
  | nil =>
      refine ⟨fun tx' m' h => ?_, fun e h => absurd h (by simp [Database.mergeInserts])⟩
      obtain ⟨rfl, rfl⟩ := Prod.mk.inj (Except.ok.inj h)
      rfl
  | cons c rest ih =>
      have hassoc : insertLoop siteId (c :: rest) m >>= f =
          sql (.insert siteId c) >>= fun _ => insertLoop siteId rest
            (if c.dbVersion > m then c.dbVersion else m) >>= f := by
        rw [insertLoop, bind_assoc]
      rw [hassoc, Database.mergeInserts, hins]
      cases hc : fails (2 + i) (.insert siteId c) with
      | some e =>
          refine ⟨fun tx' m' h => absurd h (by simp), fun e' h => ?_⟩
          obtain rfl := Except.error.inj h
          exact ⟨_, _, runOn_sql_error (by simp) hc⟩
      | none =>
          rw [runOn_sql_ok (by simp) hc]
          have hlen : 2 + i + (c :: rest).length = 2 + (i + 1) + rest.length := by
            rw [List.length_cons]
            omega
          rw [hlen, hversion]
          exact ih (i + 1) _ _

/-- The body of the transaction, on a copy of the database: it commits the copy and returns, or
    fails and leaves the transaction open. -/
theorem runOn_mergeBody (siteId : Bytes) (changes : List Change) (db : Database)
    (hbegin : fails 0 .begin = none) :
    (∃ v tx n, runOn (Connection.handler fails version) (mergeBody siteId changes) ()
        (1, ⟨db, some db⟩) = ((.ok v, ()), (n, ⟨tx, none⟩)) ∧
      db.merge (mergeEnv fails version siteId changes) siteId changes = (.ok v, tx)) ∨
    ∃ e tx n, runOn (Connection.handler fails version) (mergeBody siteId changes) ()
        (1, ⟨db, some db⟩) = ((.error e, ()), (n, ⟨db, some tx⟩)) ∧
      db.merge (mergeEnv fails version siteId changes) siteId changes = (.error e, db) := by
  have hbeginErr : (mergeEnv fails version siteId changes).beginErr = none := hbegin
  unfold mergeBody Database.merge Database.mergeTx
  rw [hbeginErr]
  cases hp : fails 1 .prepare with
  | some e =>
      have hprepareErr : (mergeEnv fails version siteId changes).prepareErr = some e := hp
      rw [runOn_sql_error (by simp) hp, hprepareErr]
      exact Or.inr ⟨e, _, _, rfl, rfl⟩
  | none =>
      have hprepareErr : (mergeEnv fails version siteId changes).prepareErr = none := hp
      rw [runOn_sql_ok (by simp) hp, hprepareErr]
      have henv : (mergeEnv fails version siteId changes).version = version := rfl
      have hins : ∀ i c, (mergeEnv fails version siteId changes).insertErr i c =
          fails (2 + i) (.insert siteId c) := fun _ _ => rfl
      obtain ⟨hok, herr⟩ := runOn_insertLoop henv hins changes 0 0 db db
        (fun maxDbVersion => do
          sql (.upsert siteId maxDbVersion)
          sql .commit
          return maxDbVersion)
      cases hm : Database.mergeInserts (mergeEnv fails version siteId changes) siteId changes 0
          (db, 0) with
      | error e =>
          obtain ⟨n, tx, hrun⟩ := herr e hm
          exact Or.inr ⟨e, tx, n, hrun, rfl⟩
      | ok acc =>
          obtain ⟨tx, m⟩ := acc
          obtain rfl : m = Database.maxDbVersion changes := (Database.mergeInserts_ok hm).2
          have hrun := hok tx _ hm
          rw [Nat.add_zero] at hrun
          cases hu : fails (2 + changes.length)
              (.upsert siteId (Database.maxDbVersion changes)) with
          | some e =>
              have hupsertErr : (mergeEnv fails version siteId changes).upsertErr = some e := hu
              rw [runOn_sql_error (by simp) hu] at hrun
              exact Or.inr ⟨e, _, _, hrun, by rw [hupsertErr]⟩
          | none =>
              have hupsertErr : (mergeEnv fails version siteId changes).upsertErr = none := hu
              rw [runOn_sql_ok (by simp) hu] at hrun
              have hn : 2 + changes.length + 1 = 3 + changes.length := by omega
              rw [hn] at hrun
              rw [hupsertErr]
              cases hc : fails (3 + changes.length) .commit with
              | some e =>
                  have hcommitErr : (mergeEnv fails version siteId changes).commitErr = some e := hc
                  rw [runOn_sql_error (by simp) hc] at hrun
                  exact Or.inr ⟨e, _, _, hrun, by rw [hcommitErr]⟩
              | none =>
                  have hcommitErr : (mergeEnv fails version siteId changes).commitErr = none := hc
                  rw [runOn_sql_ok (by simp) hc] at hrun
                  exact Or.inl ⟨_, _, _, hrun, by rw [hcommitErr]; rfl⟩

/-- **The closure of `DB::merge` refines `Database.merge`**: whatever statements fail, it returns
    what the merge returns, commits what the merge leaves, and leaves no transaction open. -/
theorem runMerge_eq (fails : Nat → SqlCall → Option DbError) (version : Int64) (siteId : Bytes)
    (changes : List Change) (db : Database) :
    runMerge fails version siteId changes db =
      ((db.merge (mergeEnv fails version siteId changes) siteId changes).1,
        ⟨(db.merge (mergeEnv fails version siteId changes) siteId changes).2, none⟩) := by
  unfold runMerge mergeClosure transaction
  cases hb : fails 0 .begin with
  | some e =>
      have hbeginErr : (mergeEnv fails version siteId changes).beginErr = some e := hb
      rw [runOn_sql_error (by simp) hb]
      unfold Database.merge Database.mergeTx
      rw [hbeginErr]
  | none =>
      rw [runOn_sql_ok (by simp) hb, runOn_bind, runOn_attempt]
      have hbegun : Connection.apply version ⟨db, none⟩ .begin = ⟨db, some db⟩ := rfl
      rw [hbegun]
      have hbody := @runOn_mergeBody _ fails version siteId changes db hb
      rcases hbody with
        ⟨v, tx, n, hrun, hmerge⟩ | ⟨e, tx, n, hrun, hmerge⟩
      · rw [hrun, hmerge]
        rfl
      · -- the dropped transaction is rolled back
        rw [hrun, hmerge]
        rfl

end Run

/-- **A merge is all or nothing.** Whatever statement of its transaction fails: when `DB::merge`
    returns an error, the rows of the database and every row of the cursor table are as before; when
    it returns normally, every change has been inserted in order under the given site id, that
    site's cursor is the greatest of its old value, 0 and the versions in the list, and no other
    cursor has moved. -/
theorem merge_all_or_nothing (fails : Nat → SqlCall → Option DbError) (version : Int64)
    (siteId : Bytes) (changes : List Change) (db : Database) :
    (∀ e, (runMerge fails version siteId changes db).1 = .error e →
      (runMerge fails version siteId changes db).2 = ⟨db, none⟩) ∧
    ∀ v, (runMerge fails version siteId changes db).1 = .ok v → ∃ db',
      (runMerge fails version siteId changes db).2 = ⟨db', none⟩ ∧
      db'.cells = (changes.foldl (fun tx c => tx.insertChange version siteId c) db).cells ∧
      db'.trackedPeerVersion siteId =
        (changes.map Change.dbVersion).foldl max (max (db.trackedPeerVersion siteId) 0) ∧
      ∀ other, other ≠ siteId → db'.trackedPeerVersion other = db.trackedPeerVersion other := by
  rw [runMerge_eq]
  refine ⟨fun e he => ?_, fun v hv => ⟨_, rfl, ?_, ?_, fun other hne => ?_⟩⟩
  · rw [Database.merge_error he]
  · rw [(Database.merge_ok hv).2]
    rfl
  · rw [Database.trackedPeerVersion_merge_ok hv]
    exact List.max_maxFrom _ _ _
  · exact Database.trackedPeerVersion_merge_of_ne hne

end Ddcp
