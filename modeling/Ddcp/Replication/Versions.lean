import Ddcp.Replication.Cursor

set_option autoImplicit false

/-! # What the version numbers tell

Two numbers are taken for more than they are. The version `DB::status` reports is the greatest
version among the rows that are still local, and a merge that replaces all rows of that version
lowers it (`status_lowered_iff`). The version a pull returns is the greatest one in the response,
which is below the cursor when the response is empty or old (`pull_reports_recorded_iff`). -/

namespace Ddcp

open Lts

/-! ## The reported status -/

section Status
variable {db : Database}

namespace Database

theorem status_le_iff {v : Int64} (h0 : 0 ≤ v) :
    db.status.2 ≤ v ↔ ∀ k cell, db.LocalRow k cell → cell.dbVersion ≤ v := by
  have h : db.status.2 ≤ v ↔ ∀ w ∈ db.localVersions, w ≤ v := List.max?_getD_le_iff h0
  rw [h]
  constructor
  · intro hle k cell hrow
    exact hle _ (mem_localVersions.2 ⟨k, cell, hrow, rfl⟩)
  · intro hle w hw
    obtain ⟨k, cell, hrow, rfl⟩ := mem_localVersions.1 hw
    exact hle k cell hrow

/-- The reported version is that of a local row, unless it is 0. -/
theorem status_eq_zero_or (db : Database) :
    db.status.2 = 0 ∨ ∃ k cell, db.LocalRow k cell ∧ cell.dbVersion = db.status.2 := by
  by_cases hnil : db.localVersions = []
  · refine Or.inl ?_
    show db.localVersions.max?.getD 0 = 0
    rw [hnil]
    rfl
  · exact Or.inr (mem_localVersions.1 (List.max?_getD_mem hnil))

end Database

variable [LinearOrder CellData]

omit [LinearOrder CellData] in
theorem Clocked.status_nonneg (h : Clocked db) : 0 ≤ db.status.2 := by
  rcases db.status_eq_zero_or with h0 | ⟨k, cell, hrow, hv⟩
  · rw [h0]
  · rw [← hv]
    exact (h.version k cell hrow).1.le

omit [LinearOrder CellData] in
theorem Clocked.status_le_clock (h : Clocked db) : db.status.2 ≤ db.clock :=
  (Database.status_le_iff h.nonneg).2 fun k cell hrow => (h.version k cell hrow).2

/-- A transaction of the application does not lower the status. -/
theorem LocalTx.status_le {db' : Database} (h : LocalTx db db') (hdb : Clocked db) :
    db.status.2 ≤ db'.status.2 := by
  have hdb' : Clocked db' := hdb.advance h.advances
  refine (Database.status_le_iff hdb'.status_nonneg).2 fun k cell hrow => ?_
  rcases h.cells k with hk | ⟨cell', hk, hs, hv, _⟩
  · exact Database.LocalRow.le_status ⟨hk.trans hrow.1, hrow.2⟩
  · -- the row has been written again, with the transaction's version
    calc cell.dbVersion ≤ db.clock := (hdb.version k cell hrow).2
      _ ≤ cell'.dbVersion := by rw [hv]; exact h.fresh.le
      _ ≤ db'.status.2 := Database.LocalRow.le_status ⟨hk, hs⟩

/-- `changes` replace every local row of the reported version. -/
def Database.Replaced (db : Database) (changes : List Change) : Prop :=
  ∀ k cell, db.LocalRow k cell → cell.dbVersion = db.status.2 →
    ∃ c ∈ changes, c.key = k ∧ cell.data < c.data

/-- The local rows that a merge leaves are those to which it brings nothing newer. -/
theorem Database.localRow_merge_iff {env : Database.TxEnv} {siteId : Bytes} {changes : List Change}
    {v : Int64} (hv : (db.merge env siteId changes).1 = .ok v) {k : CellKey} {cell : Cell} :
    (db.merge env siteId changes).2.LocalRow k cell ↔
      db.LocalRow k cell ∧ ∀ c ∈ changes, c.key = k → ¬ cell.data < c.data := by
  have hview := congrFun (Database.view_merge_ok hv) k
  rw [Pi.sup_apply] at hview
  constructor
  · intro hrow
    refine ⟨hrow.of_merge, fun c hc hk hlt => ?_⟩
    have hle : (c.data : WithBot CellData) ≤ (cell.data : WithBot CellData) := by
      rw [← hrow.view_eq, hview, ← hk]
      exact le_sup_of_le_right (Registers.le_joinAll (w := (c.key, c.data)) (List.mem_map_of_mem hc))
    exact absurd hlt (not_lt.2 (WithBot.coe_le_coe.1 hle))
  · rintro ⟨hrow, hnone⟩
    rcases hrow.merge with hrow' | hlt
    · exact hrow'
    · rw [hview, hrow.view_eq, lt_sup_iff] at hlt
      obtain ⟨w, hw, rfl, hdata⟩ := Registers.lt_joinAll (hlt.resolve_left (lt_irrefl _))
      obtain ⟨c, hc, rfl⟩ := List.mem_map.1 hw
      exact absurd hdata (hnone c hc rfl)

theorem Database.status_merge_le (env : Database.TxEnv) (siteId : Bytes) (changes : List Change)
    (hdb : Clocked db) : (db.merge env siteId changes).2.status.2 ≤ db.status.2 :=
  (Database.status_le_iff hdb.status_nonneg).2 fun _ _ hrow => hrow.of_merge.le_status

/-- **When a merge lowers the status.** -/
theorem Database.status_merge_lt_iff {env : Database.TxEnv} {siteId : Bytes} {changes : List Change}
    {v : Int64} (hdb : Clocked db) (hv : (db.merge env siteId changes).1 = .ok v) :
    (db.merge env siteId changes).2.status.2 < db.status.2 ↔
      0 < db.status.2 ∧ db.Replaced changes := by
  have hdb' : Clocked (db.merge env siteId changes).2 :=
    hdb.advance (Database.merge_advances env siteId changes db)
  constructor
  · intro hlt
    refine ⟨lt_of_le_of_lt hdb'.status_nonneg hlt, fun k cell hrow hver => ?_⟩
    by_contra hnone
    have hrow' : (db.merge env siteId changes).2.LocalRow k cell :=
      (Database.localRow_merge_iff hv).2 ⟨hrow, fun c hc hk hdata => hnone ⟨c, hc, hk, hdata⟩⟩
    exact absurd (hver ▸ hrow'.le_status) (not_le.2 hlt)
  · rintro ⟨hpos, hreplaced⟩
    refine lt_of_le_of_ne (Database.status_merge_le env siteId changes hdb) fun heq => ?_
    rcases (db.merge env siteId changes).2.status_eq_zero_or with h0 | ⟨k, cell, hrow, hver⟩
    · exact absurd (heq.symm.trans h0) hpos.ne'
    · obtain ⟨hold, hnone⟩ := (Database.localRow_merge_iff hv).1 hrow
      obtain ⟨c, hc, hk, hdata⟩ := hreplaced k cell hold (hver.trans heq)
      exact hnone c hc hk hdata

/-! ### Runs of one database -/

inductive DbAction where
  | localTx
  | merge (siteId : Bytes) (changes : List Change)

/-- A write transaction of the application, or a successful merge from another site. -/
inductive DbStep : Database → DbAction → Database → Prop
  | localTx {db db' : Database} (htx : LocalTx db db') : DbStep db .localTx db'
  | merge {db : Database} (env : Database.TxEnv) {siteId : Bytes} {changes : List Change} {v : Int64}
      (hother : siteId ≠ db.siteId) (henv : db.clock < env.version)
      (hv : (db.merge env siteId changes).1 = .ok v) :
      DbStep db (.merge siteId changes) (db.merge env siteId changes).2

/-- A merge that replaces every local row of the reported version. -/
def DbAction.Lowers (db : Database) : DbAction → Prop
  | .localTx => False
  | .merge _ changes => 0 < db.status.2 ∧ db.Replaced changes

theorem DbStep.advances {db' : Database} {l : DbAction} (hs : DbStep db l db') :
    Advances db db' := by
  cases hs with
  | localTx htx => exact htx.advances
  | merge env _ _ _ => exact Database.merge_advances ..

theorem DbStep.status_lt_iff {db' : Database} {l : DbAction} (hs : DbStep db l db')
    (hdb : Clocked db) : db'.status.2 < db.status.2 ↔ l.Lowers db := by
  cases hs with
  | localTx htx => exact ⟨fun hlt => absurd (htx.status_le hdb) (not_le.2 hlt), False.elim⟩
  | merge env _ _ hv => exact Database.status_merge_lt_iff hdb hv

/-- Rows written during a run are above everything the database had handed out before it. -/
theorem Advances.trans {db' db'' : Database} (h : Advances db db') (h' : Advances db' db'') :
    Advances db db'' where
  siteId := h'.siteId.trans h.siteId
  view := h.view.trans h'.view
  clock := h.clock.trans h'.clock
  row k cell hrow := by
    rcases h'.row k cell hrow with hold | ⟨hlt, hle⟩
    · rcases h.row k cell hold with hold | ⟨hlt, hle⟩
      · exact Or.inl hold
      · exact Or.inr ⟨hlt, hle.trans h'.clock⟩
    · exact Or.inr ⟨lt_of_le_of_lt h.clock hlt, hle⟩

theorem DbStep.run_advances {db' : Database} {ls : List DbAction} (hr : Run DbStep db ls db') :
    Advances db db' :=
  hr.invariant (Advances.refl db) fun _ _ _ h hs => h.trans hs.advances

/-- A transaction that changes a row is reported: its version is above every earlier one. -/
theorem LocalTx.clock_lt_status {db' : Database} (h : LocalTx db db') {k : CellKey}
    (hk : db'.cells.lookup k ≠ db.cells.lookup k) : db.clock < db'.status.2 := by
  rcases h.cells k with hsame | ⟨cell, hl, hs, hv, _⟩
  · exact absurd hsame hk
  · have hrow : db'.LocalRow k cell := ⟨hl, hs⟩
    calc db.clock < db'.clock := h.fresh
      _ = cell.dbVersion := hv.symm
      _ ≤ db'.status.2 := hrow.le_status

/-- **When the published version goes back.** In every run of transactions and merges the version
    that `DB::status` reports is lowered by those merges that replace every local row carrying it,
    and by nothing else: along a run without such a merge it never decreases. In every run the local
    rows written since carry versions above it, and after a transaction that writes, the reported
    version is greater than the one before, and than the one at the start of the run. -/
theorem status_lowered_iff {db' : Database} {ls : List DbAction} (hdb : Clocked db)
    (hr : Run DbStep db ls db') :
    (∀ l db'', DbStep db' l db'' → (db''.status.2 < db'.status.2 ↔ l.Lowers db')) ∧
    (Run (guarded DbStep fun d l => ¬ l.Lowers d) db ls db' → db.status.2 ≤ db'.status.2) ∧
    (∀ k cell, db'.LocalRow k cell → db.LocalRow k cell ∨ db.status.2 < cell.dbVersion) ∧
    ∀ db'', DbStep db' .localTx db'' → (∃ k, db''.cells.lookup k ≠ db'.cells.lookup k) →
      db'.status.2 < db''.status.2 ∧ db.status.2 < db''.status.2 := by
  have hadvances := DbStep.run_advances hr
  refine ⟨fun l db'' hs => hs.status_lt_iff (hdb.advance hadvances),
    fun hguarded => ?_, fun k cell hrow => ?_, fun db'' hs ⟨k, hk⟩ => ?_⟩
  · refine (hguarded.invariant (I := fun d => Clocked d ∧ db.status.2 ≤ d.status.2) ⟨hdb, le_rfl⟩
      fun d l d' h hs => ⟨h.1.advance hs.2.advances, h.2.trans ?_⟩).2
    exact not_lt.1 fun hlt => hs.1 ((hs.2.status_lt_iff h.1).1 hlt)
  · rcases hadvances.row k cell hrow with hold | ⟨hlt, _⟩
    · exact Or.inl hold
    · exact Or.inr (lt_of_le_of_lt hdb.status_le_clock hlt)
  · cases hs with
    | localTx htx =>
        have hlt := htx.clock_lt_status hk
        refine ⟨lt_of_le_of_lt (hdb.advance hadvances).status_le_clock hlt, ?_⟩
        exact lt_of_le_of_lt (hdb.status_le_clock.trans hadvances.clock) hlt

end Status

/-! ## The version a pull returns -/

section Reported
variable [LinearOrder CellData]

/-- A merge returns the cursor it leaves exactly when the list reaches the cursor it found. -/
theorem Database.merge_reports_iff {env : Database.TxEnv} {siteId : Bytes} {changes : List Change}
    {db db' : Database} {v : Int64} (h : db.merge env siteId changes = (.ok v, db')) :
    v = db'.trackedPeerVersion siteId ↔ db.trackedPeerVersion siteId ≤ 0 ∨
      ∃ c ∈ changes, db.trackedPeerVersion siteId ≤ c.dbVersion := by
  have hv : (db.merge env siteId changes).1 = .ok v := by rw [h]
  have hafter : db'.trackedPeerVersion siteId = max (db.trackedPeerVersion siteId) v := by
    rw [(Database.merge_ok hv).1, ← Database.trackedPeerVersion_merge_ok hv, h]
  have hmax : db.trackedPeerVersion siteId ≤ v ↔ db.trackedPeerVersion siteId ≤ 0 ∨
      ∃ c ∈ changes, db.trackedPeerVersion siteId ≤ c.dbVersion := by
    rw [(Database.merge_ok hv).1, Database.maxDbVersion, List.le_maxFrom_iff]
    simp only [List.mem_map, exists_exists_and_eq_and]
  rw [hafter, ← hmax]
  constructor
  · intro he
    exact he ▸ le_max_left _ _
  · intro hle
    exact (max_eq_right hle).symm

/-- A pull that returns after its request has merged the response. -/
theorem finishPull_ok_merge {env : Database.TxEnv} {st : Status} {resp : ChangesResponse}
    {db db' : Database} {pulled : Bool} {v : Int64}
    (h : finishPull env st resp db = (.ok (pulled, v), db')) :
    resp.siteId = st.siteId ∧ db.merge env resp.siteId resp.changes = (.ok v, db') := by
  unfold finishPull at h
  by_cases hsite : resp.siteId ≠ st.siteId
  · rw [if_pos hsite] at h
    exact absurd (congrArg Prod.fst h) (by simp)
  · rw [if_neg hsite] at h
    refine ⟨not_not.1 hsite, ?_⟩
    rcases hm : db.merge env resp.siteId resp.changes with ⟨r, tx⟩
    rw [hm] at h
    cases r with
    | ok w =>
        obtain ⟨hr, rfl⟩ := Prod.mk.inj h
        obtain ⟨-, rfl⟩ := Prod.mk.inj (Except.ok.inj hr)
        rfl
    | error e => exact absurd (congrArg Prod.fst h) (by simp)

variable {N : Type} [DecidableEq N]

/-- No step takes a cursor back. -/
theorem Net.Step.cursor_le {honest : N → Prop} {σ σ' : Net N} {l : Action N}
    (hs : Net.Step honest σ l σ') (n : N) (s : Bytes) :
    (σ.db n).trackedPeerVersion s ≤ (σ'.db n).trackedPeerVersion s := by
  have hset : ∀ (m : N) (db' : Database),
      (σ.db m).trackedPeerVersion s ≤ db'.trackedPeerVersion s →
      (σ.db n).trackedPeerVersion s ≤ ((σ.setDb m db').db n).trackedPeerVersion s := by
    intro m db' hle
    by_cases hn : n = m
    · subst hn
      rw [Net.setDb_db_self]
      exact hle
    · rw [Net.setDb_db_of_ne hn]
  cases hs with
  | localTx m htx => exact hset m _ (htx.trackedPeerVersion s).ge
  | @finish i p resp env hp hphase henv =>
      refine hset p.client _ ?_
      rcases finishPull_cases env p.status resp (σ.db p.client) with hsame | ⟨_, _, hm⟩
      · rw [hsame]
      · rw [hm]
        exact Database.trackedPeerVersion_le_merge s
  | announce => exact le_rfl
  | forgeStatus => exact le_rfl
  | begin => exact le_rfl
  | readStatus => exact le_rfl
  | select => exact le_rfl
  | forgeAnswer => exact le_rfl
  | fail => exact le_rfl
  | crash => exact le_rfl

omit [LinearOrder CellData] [DecidableEq N] in
theorem Net.setPull_some {σ : Net N} {i j : Nat} {p : Option (Pull N)} {q : Pull N}
    (h : (σ.setPull i p).pulls j = some q) : (j = i ∧ p = some q) ∨ σ.pulls j = some q := by
  by_cases hj : j = i
  · subst hj
    exact Or.inl ⟨rfl, by simpa [Net.setPull] using h⟩
  · exact Or.inr (by simpa [Net.setPull, Function.update_of_ne hj] using h)

/-- A pull after a step was there before, for the same status and from the same cursor; or it
    begins, and then from the cursor its client has. -/
theorem Net.Step.pull_cases {honest : N → Prop} {σ σ' : Net N} {l : Action N}
    (hs : Net.Step honest σ l σ') {j : Nat} {q : Pull N} (hq : σ'.pulls j = some q) :
    (∃ p, σ.pulls j = some p ∧ q.client = p.client ∧ q.status = p.status ∧
      q.sinceDbVersion = p.sinceDbVersion) ∨
    q.sinceDbVersion = (σ.db q.client).trackedPeerVersion q.status.siteId := by
  cases hs with
  | localTx => exact Or.inl ⟨q, hq, rfl, rfl, rfl⟩
  | announce => exact Or.inl ⟨q, hq, rfl, rfl, rfl⟩
  | forgeStatus => exact Or.inl ⟨q, hq, rfl, rfl, rfl⟩
  | @begin i client server st since hfree hst hbegin =>
      rcases Net.setPull_some hq with ⟨rfl, he⟩ | hq
      · obtain rfl := Option.some.inj he
        exact Or.inr (beginPull_request hbegin).1
      · exact Or.inl ⟨q, hq, rfl, rfl, rfl⟩
  | @readStatus i p hp hphase hn =>
      rcases Net.setPull_some hq with ⟨rfl, he⟩ | hq
      · exact Or.inl ⟨p, hp, by obtain rfl := Option.some.inj he; exact ⟨rfl, rfl, rfl⟩⟩
      · exact Or.inl ⟨q, hq, rfl, rfl, rfl⟩
  | @select i p status hp hphase hn =>
      rcases Net.setPull_some hq with ⟨rfl, he⟩ | hq
      · exact Or.inl ⟨p, hp, by obtain rfl := Option.some.inj he; exact ⟨rfl, rfl, rfl⟩⟩
      · exact Or.inl ⟨q, hq, rfl, rfl, rfl⟩
  | @forgeAnswer i p resp hp hphase hn =>
      rcases Net.setPull_some hq with ⟨rfl, he⟩ | hq
      · exact Or.inl ⟨p, hp, by obtain rfl := Option.some.inj he; exact ⟨rfl, rfl, rfl⟩⟩
      · exact Or.inl ⟨q, hq, rfl, rfl, rfl⟩
  | finish =>
      rcases Net.setPull_some hq with ⟨_, he⟩ | hq
      · exact absurd he (by simp)
      · exact Or.inl ⟨q, hq, rfl, rfl, rfl⟩
  | fail =>
      rcases Net.setPull_some hq with ⟨_, he⟩ | hq
      · exact absurd he (by simp)
      · exact Or.inl ⟨q, hq, rfl, rfl, rfl⟩
  | crash n =>
      simp only [Net.dropPulls, Option.filter_eq_some_iff] at hq
      exact Or.inl ⟨q, hq.1, rfl, rfl, rfl⟩

/-- A pull in flight began at a cursor that is not above the present one. -/
theorem Net.since_le_cursor {honest : N → Prop} {site : N → Bytes} {σ : Net N}
    {ls : List (Action N)} (hr : Run (Net.Step honest) (Net.init site) ls σ) {i : Nat}
    {p : Pull N} (hp : σ.pulls i = some p) :
    p.sinceDbVersion ≤ (σ.db p.client).trackedPeerVersion p.status.siteId := by
  refine hr.invariant (I := fun σ => ∀ i p, σ.pulls i = some p →
    p.sinceDbVersion ≤ (σ.db p.client).trackedPeerVersion p.status.siteId)
    (fun i p h => absurd h (by simp [Net.init])) ?_ i p hp
  intro σ l σ' ih hs j q hq
  refine le_trans ?_ (hs.cursor_le q.client q.status.siteId)
  rcases hs.pull_cases hq with ⟨p, hp, hclient, hstatus, hsince⟩ | hsince
  · rw [hclient, hstatus, hsince]
    exact ih j p hp
  · rw [hsince]

/-- **Which version a pull returns.** In every run of honest nodes: a pull that finds nothing to do
    returns the cursor. One that merges the answer it has got returns the cursor it leaves, and one
    not below that from which it began, exactly when the cursor it found was 0 or some change of
    the answer is not below it; and so for `DB::merge` by itself, on every list. -/
theorem pull_reports_recorded_iff {site : N → Bytes} {σ : Net N} {ls : List (Action N)}
    (hr : Run (Net.Step fun _ : N => True) (Net.init site) ls σ) :
    (∀ client st v, beginPull (σ.db client) st = .upToDate v →
      v = (σ.db client).trackedPeerVersion st.siteId) ∧
    (∀ i p resp env pulled v db', σ.pulls i = some p → p.phase = .answered resp →
      finishPull env p.status resp (σ.db p.client) = (.ok (pulled, v), db') →
      ((v = db'.trackedPeerVersion p.status.siteId ∧ p.sinceDbVersion ≤ v) ↔
        (σ.db p.client).trackedPeerVersion p.status.siteId ≤ 0 ∨ ∃ c ∈ resp.changes,
          (σ.db p.client).trackedPeerVersion p.status.siteId ≤ c.dbVersion)) ∧
    ∀ env siteId changes v (db db' : Database), db.merge env siteId changes = (.ok v, db') →
      (v = db'.trackedPeerVersion siteId ↔ db.trackedPeerVersion siteId ≤ 0 ∨
        ∃ c ∈ changes, db.trackedPeerVersion siteId ≤ c.dbVersion) := by
  refine ⟨fun client st v hv => (beginPull_upToDate hv).1,
    fun i p resp env pulled v db' hp _ hfinish => ?_,
    fun env siteId changes v db db' => Database.merge_reports_iff⟩
  obtain ⟨hsite, hmerge⟩ := finishPull_ok_merge hfinish
  have hiff := Database.merge_reports_iff hmerge
  rw [hsite] at hiff hmerge
  rw [← hiff]
  constructor
  · exact And.left
  · intro he
    refine ⟨he, he ▸ (Net.since_le_cursor hr hp).trans ?_⟩
    have hle : (σ.db p.client).trackedPeerVersion p.status.siteId ≤
        ((σ.db p.client).merge env p.status.siteId resp.changes).2.trackedPeerVersion
          p.status.siteId := Database.trackedPeerVersion_le_merge _
    rw [hmerge] at hle
    exact hle

end Reported

section Example
attribute [local instance] cellDataOrder

/-- A row written by the application, and replaced by a newer one from another site. -/
theorem status_goes_back : ∃ (db db' : Database) (ls ls' : List DbAction),
    Run DbStep (Database.new [1]) ls db ∧ Run DbStep db ls' db' ∧
    db.status.2 = 1 ∧ db'.status.2 = 0 :=
  ⟨_, _, _, _, .snoc .nil (.localTx
      (LocalTx.writeCell 1 ⟨"t", [], "x"⟩ ⟨1, 1, .null⟩ 0 (by decide) (WithBot.bot_lt_coe _))),
    .snoc .nil (@DbStep.merge _ _ ⟨2, none, none, fun _ _ => none, none, none⟩ [2]
      [⟨"t", [], "x", .null, 2, 4, 1, 0⟩] 4 (by decide) (by decide) rfl),
    by decide, by decide⟩

/-- The same merge lowers the status because it replaces the only local row. -/
theorem status_lowered_iff_replaced : ∃ db db' : Database,
    Run DbStep (Database.new [1]) [.localTx] db ∧
    DbStep db (.merge [2] [⟨"t", [], "x", .null, 2, 4, 1, 0⟩]) db' ∧
    DbAction.Lowers db (.merge [2] [⟨"t", [], "x", .null, 2, 4, 1, 0⟩]) := by
  obtain ⟨db, db', hr, hs, hlt⟩ : ∃ db db' : Database,
      Run DbStep (Database.new [1]) [.localTx] db ∧
      DbStep db (.merge [2] [⟨"t", [], "x", .null, 2, 4, 1, 0⟩]) db' ∧
      db'.status.2 < db.status.2 :=
    ⟨_, _, .snoc .nil (.localTx
      (LocalTx.writeCell 1 ⟨"t", [], "x"⟩ ⟨1, 1, .null⟩ 0 (by decide) (WithBot.bot_lt_coe _))),
    @DbStep.merge _ _ ⟨2, none, none, fun _ _ => none, none, none⟩ [2]
      [⟨"t", [], "x", .null, 2, 4, 1, 0⟩] 4 (by decide) (by decide) rfl, by decide⟩
  exact ⟨db, db', hr, hs, ((status_lowered_iff (Clocked.new [1]) hr).1 _ _ hs).1 hlt⟩

/-- A transaction of SQLite in which nothing fails. -/
def calmTx (version : Int64) : Database.TxEnv := ⟨version, none, none, fun _ _ => none, none, none⟩

section SetPull
variable {N : Type} (σ : Net N) (i : Nat) (p : Option (Pull N))

theorem Net.setPull_pulls_self : (σ.setPull i p).pulls i = p := Function.update_self ..

theorem Net.setPull_setPull (q : Option (Pull N)) :
    (σ.setPull i p).setPull i q = σ.setPull i q := by
  simp only [Net.setPull, Function.update_idem]

end SetPull

/-- Three honest nodes reach these databases and announcements, with no pull in flight. -/
def Reached (db : Fin 3 → Database) (published : Fin 3 → List Status) : Prop :=
  ∃ ls, Run (Net.Step fun _ : Fin 3 => True) (Net.init fun n => [n.val.toUInt8]) ls
    ⟨db, published, fun _ => none⟩

/-- A node writes and announces. -/
theorem Reached.write {db : Fin 3 → Database} {published : Fin 3 → List Status}
    (h : Reached db published) (n : Fin 3) {db' : Database} (htx : LocalTx (db n) db') :
    Reached (Function.update db n db')
      (Function.update published n (⟨db'.status.1, db'.status.2⟩ :: published n)) := by
  obtain ⟨ls, hr⟩ := h
  have hs := Run.snoc (.snoc hr (.localTx n htx)) (.announce n trivial)
  rw [Net.setDb_db_self] at hs
  exact ⟨_, hs⟩

/-- A node asks a peer, which answers. -/
theorem Reached.ask {db : Fin 3 → Database} {published : Fin 3 → List Status}
    (h : Reached db published) (client server : Fin 3) (st : Status) (since : Int64)
    {resp : ChangesResponse} (hst : st ∈ published server)
    (hbegin : beginPull (db client) st = .request since)
    (hresp : answerChanges (db server) (db server).status since = resp) :
    ∃ ls, Run (Net.Step fun _ : Fin 3 => True) (Net.init fun n => [n.val.toUInt8]) ls
      (Net.setPull ⟨db, published, fun _ => none⟩ 0
        (some ⟨client, server, st, since, .answered resp⟩)) := by
  obtain ⟨ls, hr⟩ := h
  have hbegun := Run.snoc hr (.begin 0 client server st rfl hst hbegin)
  have hread := Run.snoc hbegun (.readStatus 0 (Net.setPull_pulls_self ..) rfl trivial)
  rw [Net.setPull_setPull] at hread
  have hselected := Run.snoc hread (.select 0 (Net.setPull_pulls_self ..) rfl trivial)
  rw [Net.setPull_setPull] at hselected
  subst hresp
  exact ⟨_, hselected⟩

/-- A node pulls from a peer. -/
theorem Reached.pull {db : Fin 3 → Database} {published : Fin 3 → List Status}
    (h : Reached db published) (client server : Fin 3) (st : Status) (since : Int64)
    (env : Database.TxEnv) (hst : st ∈ published server)
    (hbegin : beginPull (db client) st = .request since) (henv : (db client).clock < env.version) :
    Reached (Function.update db client (finishPull env st
      (answerChanges (db server) (db server).status since) (db client)).2) published := by
  obtain ⟨ls, hr⟩ := h.ask client server st since hst hbegin rfl
  have hfinish := Run.snoc hr (.finish 0 env (Net.setPull_pulls_self ..) rfl henv)
  refine ⟨_, cast (congrArg (Run _ _ _) ?_) hfinish⟩
  simp only [Net.setPull, Net.setDb, Function.update_idem, Net.mk.injEq, true_and]
  exact Function.update_eq_self 0 _

def rowX : CellKey := ⟨"t", [], "x"⟩

/-- Node 1 after its first write, and node 0 after pulling that. -/
def one₁ : Database := (Database.new [1]).writeCell 1 rowX ⟨1, 1, .null⟩ 0

def zero₁ : Database :=
  (finishPull (calmTx 1) ⟨[1], 1⟩ (answerChanges one₁ one₁.status 0) (Database.new [0])).2

def one₂ : Database := one₁.writeCell 2 rowX ⟨1, 2, .null⟩ 0

def two₁ : Database := (Database.new [2]).writeCell 1 rowX ⟨1, 3, .null⟩ 0

/-- Node 1 writes a row, which node 0 pulls; it writes the row again and announces that. Then node 2
    writes the row too, node 1 pulls this, and has no local row left. Node 0 now asks node 1. -/
theorem stale_pull_run : ∃ (σ : Net (Fin 3)) (ls : List (Action (Fin 3))),
    Run (Net.Step fun _ => True) (Net.init fun n => [n.val.toUInt8]) ls σ ∧
    σ.pulls 0 = some ⟨0, 1, ⟨[1], 2⟩, 1, .answered ⟨[1], []⟩⟩ ∧ σ.db 0 = zero₁ := by
  have hone₁ : LocalTx (Database.new [1]) one₁ :=
    LocalTx.writeCell 1 rowX ⟨1, 1, .null⟩ 0 (by decide) (by decide)
  have hone₂ : LocalTx one₁ one₂ :=
    LocalTx.writeCell 2 rowX ⟨1, 2, .null⟩ 0 (by decide) (by decide)
  have htwo₁ : LocalTx (Database.new [2]) two₁ :=
    LocalTx.writeCell 1 rowX ⟨1, 3, .null⟩ 0 (by decide) (by decide)
  have h0 : Reached (fun n => Database.new [n.val.toUInt8]) fun _ => [] := ⟨[], .nil⟩
  have h1 := h0.write 1 hone₁
  have h2 := h1.pull 0 1 ⟨[1], 1⟩ 0 (calmTx 1) (by decide) (by decide) (by decide)
  have h3 := (h2.write 1 hone₂).write 2 htwo₁
  have h4 := h3.pull 1 2 ⟨[2], 1⟩ 0 (calmTx 3) (by decide) (by decide) (by decide)
  obtain ⟨ls, h⟩ := h4.ask 0 1 ⟨[1], 2⟩ 1 (by decide) (by decide)
    (show _ = (⟨[1], []⟩ : ChangesResponse) by decide)
  exact ⟨_, ls, h, Net.setPull_pulls_self .., rfl⟩

/-- The pull ends well and returns 0, and the cursor is 1. -/
theorem stale_pull_reports_zero : ∃ (σ : Net (Fin 3)) (ls : List (Action (Fin 3)))
    (p : Pull (Fin 3)) (resp : ChangesResponse) (db' : Database),
    Run (Net.Step fun _ => True) (Net.init fun n => [n.val.toUInt8]) ls σ ∧
    σ.pulls 0 = some p ∧ p.phase = .answered resp ∧
    finishPull (calmTx 2) p.status resp (σ.db p.client) = (.ok (true, 0), db') ∧
    db'.trackedPeerVersion p.status.siteId = 1 ∧ p.sinceDbVersion = 1 := by
  obtain ⟨σ, ls, hr, hp, hdb⟩ := stale_pull_run
  refine ⟨σ, ls, _, _, (finishPull (calmTx 2) ⟨[1], 2⟩ ⟨[1], []⟩ zero₁).2, hr, hp, rfl, ?_, by decide,
    rfl⟩
  rw [hdb]
  rfl

/-- What that pull returns is not what it leaves, as the cursor was 1 and the answer is empty. -/
theorem pull_reports_recorded_iff_stale : ∃ (db' : Database),
    finishPull (calmTx 2) ⟨[1], 2⟩ ⟨[1], []⟩ zero₁ = (.ok (true, 0), db') ∧
    ¬ (0 = db'.trackedPeerVersion [1] ∧ 1 ≤ (0 : Int64)) := by
  obtain ⟨σ, ls, hr, hp, hdb⟩ := stale_pull_run
  have hfinish : finishPull (calmTx 2) ⟨[1], 2⟩ ⟨[1], []⟩ (σ.db 0) =
      (.ok (true, 0), (finishPull (calmTx 2) ⟨[1], 2⟩ ⟨[1], []⟩ zero₁).2) := by
    rw [hdb]
    rfl
  have h := (pull_reports_recorded_iff hr).2.1 0 _ _ _ _ _ _ hp rfl hfinish
  rw [hdb] at h hfinish
  exact ⟨_, hfinish, fun hc => absurd (h.1 hc) (by decide)⟩

end Example

end Ddcp
