import Ddcp.Db.Basic
import Ddcp.Lib.Registers

set_option autoImplicit false

/-! # What the database operations do

Two views of a database carry every later argument. `view` forgets who wrote a cell and when: it
is the family of registers of `Lib/Registers.lean`, and a merge joins the incoming changes to it.
`LocalRow db k cell` says that `cell` is the row of `k` and was written locally: these are the rows
`status` measures and `select` exports, and a merge can only remove them. -/

namespace Ddcp

@[simp] theorem Cell.toChange_key (k : CellKey) (cell : Cell) : (cell.toChange k).key = k := rfl

@[simp] theorem Cell.toChange_data (k : CellKey) (cell : Cell) :
    (cell.toChange k).data = cell.data := by
  show (⟨cell.data.cl, cell.data.colVersion, cell.data.val.value.toSql⟩ : CellData) = cell.data
  rw [SqlValue.toSql_value]

@[simp] theorem Cell.toChange_dbVersion (k : CellKey) (cell : Cell) :
    (cell.toChange k).dbVersion = cell.dbVersion := rfl

namespace Database

/-! ## Local rows: `status`, `select`, `changes` -/

/-- `cell` is the row of `k`, written locally. -/
def LocalRow (db : Database) (k : CellKey) (cell : Cell) : Prop :=
  db.cells.lookup k = some cell ∧ cell.siteId = none

theorem mem_entries_iff {db : Database} {k : CellKey} {cell : Cell} :
    (⟨k, cell⟩ : Sigma fun _ : CellKey => Cell) ∈ db.cells.entries ↔
      db.cells.lookup k = some cell :=
  AList.mem_lookup_iff.symm

theorem mem_localVersions {db : Database} {v : Int64} :
    v ∈ db.localVersions ↔ ∃ k cell, db.LocalRow k cell ∧ cell.dbVersion = v := by
  simp only [localVersions, List.mem_filterMap, LocalRow]
  constructor
  · rintro ⟨⟨k, cell⟩, hmem, hv⟩
    split_ifs at hv with hs
    exact ⟨k, cell, ⟨mem_entries_iff.1 hmem, hs⟩, Option.some.inj hv⟩
  · rintro ⟨k, cell, ⟨hk, hs⟩, rfl⟩
    exact ⟨⟨k, cell⟩, mem_entries_iff.2 hk, if_pos hs⟩

theorem mem_select {db : Database} {since : Int64} {c : Change} :
    c ∈ db.select since ↔
      ∃ k cell, db.LocalRow k cell ∧ since < cell.dbVersion ∧ c = cell.toChange k := by
  simp only [select, List.mem_filterMap, LocalRow]
  constructor
  · rintro ⟨⟨k, cell⟩, hmem, hc⟩
    split_ifs at hc with hs
    exact ⟨k, cell, ⟨mem_entries_iff.1 hmem, hs.2⟩, hs.1, (Option.some.inj hc).symm⟩
  · rintro ⟨k, cell, ⟨hk, hs⟩, hlt, rfl⟩
    exact ⟨⟨k, cell⟩, mem_entries_iff.2 hk, if_pos ⟨hlt, hs⟩⟩

/-- No local row is above the version `status` reports. -/
theorem LocalRow.le_status {db : Database} {k : CellKey} {cell : Cell} (h : db.LocalRow k cell) :
    cell.dbVersion ≤ db.status.2 :=
  List.le_max?_getD (mem_localVersions.2 ⟨k, cell, h, rfl⟩)

theorem changes_eq (db : Database) (since : Int64) :
    db.changes since = (db.siteId, if since ≥ db.status.2 then [] else db.select since) := by
  by_cases h : since ≥ db.status.2
  · rw [if_pos h]
    exact if_pos h
  · rw [if_neg h]
    exact if_neg h

/-- `changes` returns the local rows above the given version: the early exit loses none. -/
theorem mem_changes {db : Database} {since : Int64} {c : Change} :
    c ∈ (db.changes since).2 ↔
      ∃ k cell, db.LocalRow k cell ∧ since < cell.dbVersion ∧ c = cell.toChange k := by
  rw [changes_eq]
  split_ifs with h
  · refine ⟨fun hc => absurd hc (by simp), ?_⟩
    rintro ⟨k, cell, hrow, hlt, _⟩
    exact absurd (hrow.le_status.trans h) (not_le.2 hlt)
  · exact mem_select

@[simp] theorem changes_siteId (db : Database) (since : Int64) :
    (db.changes since).1 = db.siteId := by
  rw [changes_eq]

/-! ## Cursors -/

/-- The versions recorded for a peer, one for each tag. -/
def trackedVersions (db : Database) (siteId : Bytes) : List Int64 :=
  db.trackedPeers.entries.filterMap fun e =>
    if e.1.siteId = siteId ∧ e.1.event = CRSQL_TRACKED_EVENT_RECEIVE then some e.2 else none

theorem trackedPeerVersion_eq (db : Database) (siteId : Bytes) :
    db.trackedPeerVersion siteId = (db.trackedVersions siteId).max?.getD 0 := rfl

theorem mem_trackedVersions {db : Database} {siteId : Bytes} {v : Int64} :
    v ∈ db.trackedVersions siteId ↔ ∃ key : TrackKey, key.siteId = siteId ∧
      key.event = CRSQL_TRACKED_EVENT_RECEIVE ∧ db.trackedPeers.lookup key = some v := by
  simp only [trackedVersions, List.mem_filterMap]
  constructor
  · rintro ⟨⟨key, v'⟩, hmem, hv⟩
    split_ifs at hv with hs
    obtain rfl : v' = v := Option.some.inj hv
    exact ⟨key, hs.1, hs.2, AList.mem_lookup_iff.2 hmem⟩
  · rintro ⟨key, hs, he, hk⟩
    exact ⟨⟨key, v⟩, AList.mem_lookup_iff.1 hk, if_pos ⟨hs, he⟩⟩

/-- The row a merge from `siteId` writes. -/
def cursorKey (siteId : Bytes) : TrackKey :=
  ⟨siteId, CRSQL_TRACKED_TAG_WHOLE_DATABASE, CRSQL_TRACKED_EVENT_RECEIVE⟩

theorem upsertTracked_lookup_self (db : Database) (siteId : Bytes) (version : Int64) :
    (db.upsertTracked siteId version).trackedPeers.lookup (cursorKey siteId) =
      some ((db.trackedPeers.lookup (cursorKey siteId)).elim version (max · version)) := by
  simp only [upsertTracked, cursorKey]
  split <;> rename_i h <;> rw [AList.lookup_insert, h] <;> rfl

theorem upsertTracked_lookup_of_ne {db : Database} {siteId : Bytes} (version : Int64)
    {key : TrackKey} (h : key ≠ cursorKey siteId) :
    (db.upsertTracked siteId version).trackedPeers.lookup key = db.trackedPeers.lookup key := by
  unfold upsertTracked
  simp only
  split <;> exact AList.lookup_insert_ne h

@[simp] theorem upsertTracked_cells (db : Database) (siteId : Bytes) (version : Int64) :
    (db.upsertTracked siteId version).cells = db.cells := rfl

@[simp] theorem upsertTracked_siteId (db : Database) (siteId : Bytes) (version : Int64) :
    (db.upsertTracked siteId version).siteId = db.siteId := rfl

@[simp] theorem upsertTracked_clock (db : Database) (siteId : Bytes) (version : Int64) :
    (db.upsertTracked siteId version).clock = db.clock := rfl

/-- The upsert raises the peer's cursor to the given version. -/
theorem trackedPeerVersion_upsertTracked_self (db : Database) (siteId : Bytes) {version : Int64}
    (h0 : 0 ≤ version) :
    (db.upsertTracked siteId version).trackedPeerVersion siteId =
      max (db.trackedPeerVersion siteId) version := by
  have hself := upsertTracked_lookup_self db siteId version
  have hmem : ∀ {v}, (db.upsertTracked siteId version).trackedPeers.lookup (cursorKey siteId) =
      some v → v ∈ (db.upsertTracked siteId version).trackedVersions siteId := fun h =>
    mem_trackedVersions.2 ⟨cursorKey siteId, rfl, rfl, h⟩
  rw [trackedPeerVersion_eq, trackedPeerVersion_eq]
  refine le_antisymm ?_ (max_le ?_ ?_)
  · -- every recorded version is an old one, or the one just written
    refine (List.max?_getD_le_iff (le_max_of_le_right h0)).2 fun v hv => ?_
    obtain ⟨key, hs, he, hk⟩ := mem_trackedVersions.1 hv
    by_cases hkey : key = cursorKey siteId
    · rw [hkey, hself, Option.some.injEq] at hk
      subst hk
      cases hold : db.trackedPeers.lookup (cursorKey siteId) with
      | none => exact le_max_right _ _
      | some old =>
          have hle : old ≤ (db.trackedVersions siteId).max?.getD 0 :=
            List.le_max?_getD (mem_trackedVersions.2 ⟨cursorKey siteId, rfl, rfl, hold⟩)
          exact max_le_max hle le_rfl
    · rw [upsertTracked_lookup_of_ne version hkey] at hk
      exact le_max_of_le_left (List.le_max?_getD (mem_trackedVersions.2 ⟨key, hs, he, hk⟩))
  · -- the old cursor was 0 or a recorded version, and those stay or grow
    by_cases hnil : db.trackedVersions siteId = []
    · rw [hnil]
      refine h0.trans (le_trans ?_ (List.le_max?_getD (hmem hself)))
      cases db.trackedPeers.lookup (cursorKey siteId) with
      | none => exact le_rfl
      | some old => exact le_max_right _ _
    · obtain ⟨key, hs, he, hk⟩ := mem_trackedVersions.1 (List.max?_getD_mem (d := 0) hnil)
      by_cases hkey : key = cursorKey siteId
      · rw [hkey] at hk
        rw [hk] at hself
        exact (le_max_left _ _).trans (List.le_max?_getD (hmem hself))
      · rw [← upsertTracked_lookup_of_ne version hkey] at hk
        exact List.le_max?_getD (mem_trackedVersions.2 ⟨key, hs, he, hk⟩)
  · refine le_trans ?_ (List.le_max?_getD (hmem hself))
    cases db.trackedPeers.lookup (cursorKey siteId) with
    | none => exact le_rfl
    | some old => exact le_max_right _ _

/-- The upsert moves no other peer's cursor. -/
theorem trackedPeerVersion_upsertTracked_of_ne (db : Database) {siteId other : Bytes}
    (version : Int64) (h : other ≠ siteId) :
    (db.upsertTracked siteId version).trackedPeerVersion other = db.trackedPeerVersion other := by
  have hmem : ∀ v, v ∈ (db.upsertTracked siteId version).trackedVersions other ↔
      v ∈ db.trackedVersions other := fun v => by
    simp only [mem_trackedVersions]
    refine exists_congr fun key => and_congr_right fun hs => and_congr_right fun _ => ?_
    rw [upsertTracked_lookup_of_ne version fun hkey => h (by rw [← hs, hkey]; rfl)]
  rw [trackedPeerVersion_eq, trackedPeerVersion_eq]
  exact List.max?_getD_congr hmem

end Database

end Ddcp
