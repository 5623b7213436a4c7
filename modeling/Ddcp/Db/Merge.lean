import Ddcp.Db.Proofs

set_option autoImplicit false

/-! # What a merge does to a database

A merge either returns an error and leaves the database as it was, or inserts every change under
the given site id and raises that site's cursor to the greatest version in the list
(`merge_cases`). On the registers (`view`) the second case is a join; on the local rows it can only
remove some; no other cursor moves. -/

namespace Ddcp

namespace Database

/-- The replicated data of a database, without origin and version. -/
def view (db : Database) : Registers CellKey CellData := fun k =>
  match db.cells.lookup k with
  | none => ⊥
  | some cell => (cell.data : WithBot CellData)

theorem view_of_lookup {db : Database} {k : CellKey} {cell : Cell}
    (h : db.cells.lookup k = some cell) : db.view k = (cell.data : WithBot CellData) := by
  simp only [view, h]

theorem view_of_lookup_none {db : Database} {k : CellKey} (h : db.cells.lookup k = none) :
    db.view k = ⊥ := by
  simp only [view, h]

theorem view_congr {db db' : Database} {k k' : CellKey}
    (h : db'.cells.lookup k' = db.cells.lookup k) : db'.view k' = db.view k := by
  simp only [view, h]

theorem LocalRow.view_eq {db : Database} {k : CellKey} {cell : Cell} (h : db.LocalRow k cell) :
    db.view k = (cell.data : WithBot CellData) :=
  view_of_lookup h.1

/-- The writes a list of changes offers. -/
def writes (changes : List Change) : List (CellKey × CellData) :=
  changes.map fun c => (c.key, c.data)

variable [LinearOrder CellData]

/-! ## One insert -/

section Insert

variable (db : Database) (version : Int64) (siteId : Bytes) (c : Change)

/-- All an insert can do: nothing, when the cell is at least as new; or replace the cell. -/
theorem insertChange_cases :
    (db.insertChange version siteId c = db ∧ (c.data : WithBot CellData) ≤ db.view c.key) ∨
    (db.insertChange version siteId c = { db with
        cells := db.cells.insert c.key ⟨c.data, version, c.seq, some siteId⟩
        clock := max db.clock version } ∧
      db.view c.key < (c.data : WithBot CellData)) := by
  unfold insertChange
  cases hl : db.cells.lookup c.key with
  | none =>
      refine Or.inr ⟨rfl, ?_⟩
      rw [view_of_lookup_none hl]
      exact WithBot.bot_lt_coe _
  | some cell =>
      rw [view_of_lookup hl]
      by_cases hlt : cell.data < c.data
      · exact Or.inr ⟨if_pos hlt, WithBot.coe_lt_coe.2 hlt⟩
      · exact Or.inl ⟨if_neg hlt, WithBot.coe_le_coe.2 (not_lt.1 hlt)⟩

@[simp] theorem insertChange_siteId : (db.insertChange version siteId c).siteId = db.siteId := by
  rcases insertChange_cases db version siteId c with ⟨h, _⟩ | ⟨h, _⟩ <;> rw [h]

@[simp] theorem insertChange_trackedPeers :
    (db.insertChange version siteId c).trackedPeers = db.trackedPeers := by
  rcases insertChange_cases db version siteId c with ⟨h, _⟩ | ⟨h, _⟩ <;> rw [h]

theorem clock_le_insertChange : db.clock ≤ (db.insertChange version siteId c).clock := by
  rcases insertChange_cases db version siteId c with ⟨h, _⟩ | ⟨h, _⟩ <;> rw [h]
  exact le_max_left _ _

/-- On the registers an insert is a join. -/
theorem view_insertChange :
    (db.insertChange version siteId c).view = db.view ⊔ Registers.single c.key c.data := by
  funext k
  rw [Pi.sup_apply]
  rcases insertChange_cases db version siteId c with ⟨h, hle⟩ | ⟨h, hlt⟩
  · rw [h]
    by_cases hk : k = c.key
    · subst hk
      rw [Registers.single_self, sup_eq_left.2 hle]
    · rw [Registers.single_of_ne hk, sup_bot_eq]
  · rw [h]
    by_cases hk : k = c.key
    · subst hk
      rw [Registers.single_self, sup_eq_right.2 hlt.le]
      simp only [view, AList.lookup_insert]
    · rw [Registers.single_of_ne hk, sup_bot_eq]
      exact view_congr (AList.lookup_insert_ne hk)

variable {db version siteId c}

/-- An insert writes no local row. -/
theorem LocalRow.of_insertChange {k : CellKey} {cell : Cell}
    (h : (db.insertChange version siteId c).LocalRow k cell) : db.LocalRow k cell := by
  rcases insertChange_cases db version siteId c with ⟨he, _⟩ | ⟨he, _⟩
  · exact he ▸ h
  · rw [he] at h
    obtain ⟨hl, hs⟩ := h
    by_cases hk : k = c.key
    · subst hk
      rw [AList.lookup_insert, Option.some.injEq] at hl
      subst hl
      exact absurd hs (by simp)
    · rw [AList.lookup_insert_ne hk] at hl
      exact ⟨hl, hs⟩

/-- An insert removes a local row only by putting greater data in its place. -/
theorem LocalRow.insertChange (version : Int64) (siteId : Bytes) (c : Change) {k : CellKey}
    {cell : Cell} (h : db.LocalRow k cell) : (db.insertChange version siteId c).LocalRow k cell ∨
      (k = c.key ∧ cell.data < c.data) := by
  rcases insertChange_cases db version siteId c with ⟨he, _⟩ | ⟨he, hlt⟩
  · exact Or.inl (by rw [he]; exact h)
  · by_cases hk : k = c.key
    · subst hk
      rw [h.view_eq] at hlt
      exact Or.inr ⟨rfl, WithBot.coe_lt_coe.1 hlt⟩
    · refine Or.inl ⟨?_, h.2⟩
      rw [he, AList.lookup_insert_ne hk]
      exact h.1

end Insert

/-! ## A list of inserts -/

/-- The inserts of one transaction, in order. -/
def insertAll (db : Database) (version : Int64) (siteId : Bytes) (changes : List Change) :
    Database :=
  changes.foldl (fun db c => db.insertChange version siteId c) db

section InsertAll

variable (db : Database) (version : Int64) (siteId : Bytes) (changes : List Change)

@[simp] theorem insertAll_siteId : (db.insertAll version siteId changes).siteId = db.siteId := by
  induction changes generalizing db with
  | nil => rfl
  | cons c rest ih => rw [insertAll, List.foldl_cons, ← insertAll, ih, insertChange_siteId]

@[simp] theorem insertAll_trackedPeers :
    (db.insertAll version siteId changes).trackedPeers = db.trackedPeers := by
  induction changes generalizing db with
  | nil => rfl
  | cons c rest ih => rw [insertAll, List.foldl_cons, ← insertAll, ih, insertChange_trackedPeers]

theorem clock_le_insertAll : db.clock ≤ (db.insertAll version siteId changes).clock := by
  induction changes generalizing db with
  | nil => exact le_rfl
  | cons c rest ih => exact (clock_le_insertChange db version siteId c).trans (ih _)

theorem view_insertAll :
    (db.insertAll version siteId changes).view = db.view ⊔ Registers.joinAll (writes changes) := by
  induction changes generalizing db with
  | nil => exact (sup_bot_eq _).symm
  | cons c rest ih =>
      rw [insertAll, List.foldl_cons, ← insertAll, ih, view_insertChange, sup_assoc]
      rfl

variable {db version siteId changes}

theorem LocalRow.of_insertAll {k : CellKey} {cell : Cell}
    (h : (db.insertAll version siteId changes).LocalRow k cell) : db.LocalRow k cell := by
  induction changes generalizing db with
  | nil => exact h
  | cons c rest ih => exact (ih h).of_insertChange

/-- A local row survives the inserts, unless one of them put greater data in its place. -/
theorem LocalRow.insertAll {k : CellKey} {cell : Cell} (h : db.LocalRow k cell) :
    (db.insertAll version siteId changes).LocalRow k cell ∨
      (cell.data : WithBot CellData) < (db.insertAll version siteId changes).view k := by
  induction changes generalizing db with
  | nil => exact Or.inl h
  | cons c rest ih =>
      rcases h.insertChange version siteId c with h' | ⟨rfl, hlt⟩
      · exact ih h'
      · refine Or.inr (lt_of_lt_of_le (WithBot.coe_lt_coe.2 hlt) ?_)
        rw [view_insertAll]
        exact le_sup_of_le_right (Registers.le_joinAll (w := (c.key, c.data)) List.mem_cons_self)

/-- A transaction without failing inserts inserts them all and returns the greatest version. -/
theorem mergeInserts_ok {env : TxEnv} {i : Nat} {m m' : Int64} {db' : Database}
    (h : mergeInserts env siteId changes i (db, m) = .ok (db', m')) :
    db' = db.insertAll env.version siteId changes ∧
      m' = List.maxFrom m (changes.map Change.dbVersion) := by
  induction changes generalizing db i m with
  | nil =>
      simp only [mergeInserts, Except.ok.injEq, Prod.mk.injEq] at h
      exact ⟨h.1.symm, h.2.symm⟩
  | cons c rest ih =>
      rw [mergeInserts] at h
      cases he : env.insertErr i c with
      | some e => simp [he] at h
      | none =>
          simp only [he] at h
          obtain ⟨hdb, hm⟩ := ih h
          refine ⟨hdb, ?_⟩
          rw [hm, List.map_cons, List.maxFrom_cons, ← max_def_gt]

end InsertAll

/-! ## The merge -/

/-- The greatest version in a list of changes, or 0: what `DB::merge` returns. -/
def maxDbVersion (changes : List Change) : Int64 :=
  List.maxFrom 0 (changes.map Change.dbVersion)

omit [LinearOrder CellData] in
theorem maxDbVersion_nonneg (changes : List Change) : 0 ≤ maxDbVersion changes :=
  List.floor_le_maxFrom _ _

omit [LinearOrder CellData] in
theorem dbVersion_le_maxDbVersion {changes : List Change} {c : Change} (h : c ∈ changes) :
    c.dbVersion ≤ maxDbVersion changes :=
  List.le_maxFrom (List.mem_map_of_mem h)

omit [LinearOrder CellData] in
theorem maxDbVersion_le_iff {changes : List Change} {v : Int64} (h0 : 0 ≤ v) :
    maxDbVersion changes ≤ v ↔ ∀ c ∈ changes, c.dbVersion ≤ v := by
  rw [maxDbVersion, List.maxFrom_le_iff]
  simp [h0]

section Merge

variable {env : TxEnv} {siteId : Bytes} {changes : List Change} {db : Database}

/-- All a merge can do. -/
theorem merge_cases (env : TxEnv) (siteId : Bytes) (changes : List Change) (db : Database) :
    (∃ e, merge env siteId changes db = (.error e, db)) ∨
    merge env siteId changes db = (.ok (maxDbVersion changes),
      (db.insertAll env.version siteId changes).upsertTracked siteId (maxDbVersion changes)) := by
  unfold merge mergeTx
  cases env.beginErr with
  | some e => exact Or.inl ⟨e, rfl⟩
  | none =>
  cases env.prepareErr with
  | some e => exact Or.inl ⟨e, rfl⟩
  | none =>
  cases hi : mergeInserts env siteId changes 0 (db, 0) with
  | error e => exact Or.inl ⟨e, rfl⟩
  | ok r =>
      obtain ⟨tx, m⟩ := r
      obtain ⟨hdb, hm⟩ := mergeInserts_ok hi
      cases env.upsertErr with
      | some e => exact Or.inl ⟨e, rfl⟩
      | none =>
      cases env.commitErr with
      | some e => exact Or.inl ⟨e, rfl⟩
      | none =>
          right
          simp only [hdb, hm, maxDbVersion]

theorem merge_ok {v : Int64} (h : (merge env siteId changes db).1 = .ok v) :
    v = maxDbVersion changes ∧ (merge env siteId changes db).2 =
      (db.insertAll env.version siteId changes).upsertTracked siteId v := by
  rcases merge_cases env siteId changes db with ⟨e, he⟩ | he
  · rw [he] at h; simp at h
  · rw [he] at h ⊢
    simp only [Except.ok.injEq] at h
    exact ⟨h.symm, by rw [← h]⟩

/-- A merge that returns an error changes nothing. -/
theorem merge_error {e : DbError} (h : (merge env siteId changes db).1 = .error e) :
    (merge env siteId changes db).2 = db := by
  rcases merge_cases env siteId changes db with ⟨e', he⟩ | he
  · rw [he]
  · rw [he] at h; simp at h

@[simp] theorem merge_siteId : (merge env siteId changes db).2.siteId = db.siteId := by
  rcases merge_cases env siteId changes db with ⟨e, h⟩ | h <;> simp [h]

theorem clock_le_merge : db.clock ≤ (merge env siteId changes db).2.clock := by
  rcases merge_cases env siteId changes db with ⟨e, h⟩ | h <;> rw [h]
  exact clock_le_insertAll db env.version siteId changes

theorem view_merge_ok {v : Int64} (h : (merge env siteId changes db).1 = .ok v) :
    (merge env siteId changes db).2.view = db.view ⊔ Registers.joinAll (writes changes) := by
  rw [(merge_ok h).2, ← view_insertAll db env.version siteId changes]
  rfl

theorem view_le_merge : db.view ≤ (merge env siteId changes db).2.view := by
  cases h : (merge env siteId changes db).1 with
  | error e => rw [merge_error h]
  | ok v => rw [view_merge_ok h]; exact le_sup_left

theorem LocalRow.of_merge {k : CellKey} {cell : Cell}
    (h : (merge env siteId changes db).2.LocalRow k cell) : db.LocalRow k cell := by
  cases hm : (merge env siteId changes db).1 with
  | error e => rwa [merge_error hm] at h
  | ok v =>
      rw [(merge_ok hm).2] at h
      exact LocalRow.of_insertAll h

theorem LocalRow.merge {k : CellKey} {cell : Cell} (h : db.LocalRow k cell) :
    (merge env siteId changes db).2.LocalRow k cell ∨
      (cell.data : WithBot CellData) < (merge env siteId changes db).2.view k := by
  cases hm : (Database.merge env siteId changes db).1 with
  | error e => rw [merge_error hm]; exact Or.inl h
  | ok v =>
      rw [(merge_ok hm).2]
      exact h.insertAll

theorem trackedPeerVersion_insertAll (db : Database) (version : Int64) (siteId other : Bytes)
    (changes : List Change) :
    (db.insertAll version siteId changes).trackedPeerVersion other =
      db.trackedPeerVersion other := by
  simp only [trackedPeerVersion, insertAll_trackedPeers]

/-- A successful merge raises the cursor of its site to the greatest version it merged. -/
theorem trackedPeerVersion_merge_ok {v : Int64} (h : (merge env siteId changes db).1 = .ok v) :
    (merge env siteId changes db).2.trackedPeerVersion siteId =
      max (db.trackedPeerVersion siteId) (maxDbVersion changes) := by
  obtain ⟨rfl, hdb⟩ := merge_ok h
  rw [hdb, trackedPeerVersion_upsertTracked_self _ _ (maxDbVersion_nonneg changes),
    trackedPeerVersion_insertAll]

/-- A merge moves no other site's cursor. -/
theorem trackedPeerVersion_merge_of_ne {other : Bytes} (hne : other ≠ siteId) :
    (merge env siteId changes db).2.trackedPeerVersion other = db.trackedPeerVersion other := by
  cases h : (merge env siteId changes db).1 with
  | error e => rw [merge_error h]
  | ok v =>
      rw [(merge_ok h).2, trackedPeerVersion_upsertTracked_of_ne _ _ hne,
        trackedPeerVersion_insertAll]

/-- No merge lowers a cursor. -/
theorem trackedPeerVersion_le_merge (other : Bytes) :
    db.trackedPeerVersion other ≤ (merge env siteId changes db).2.trackedPeerVersion other := by
  by_cases hne : other = siteId
  · subst hne
    cases h : (merge env other changes db).1 with
    | error e => rw [merge_error h]
    | ok v => rw [trackedPeerVersion_merge_ok h]; exact le_max_left _ _
  · rw [trackedPeerVersion_merge_of_ne hne]

end Merge

end Database

end Ddcp
