import Ddcp.Replication.Net
import Ddcp.Db.CellOrder

set_option autoImplicit false

/-! # The version cursor loses no update

Fix one honest node `P`. `CursorInv P` relates `P`'s database, every other node's cursor for `P` and
the pulls from `P` in flight:

* every local row of `P` at or below a node's cursor for `P` is taken at that node (`taken`);
* an answer of `P` in flight has every local row of `P` above the request's cursor and up to the
  greatest version in the answer (`PullInv`), which is never above `P`'s clock.

Only the second needs an argument: `select` establishes it, since the query reads all local rows
above the cursor at once, whatever happened after the earlier `status` call; and no later step
breaks it, since new local rows of `P` are above `P`'s clock and merges only remove local rows. The
merge at the client then turns it into the first. -/

namespace Ddcp

open Lts

section PullPieces
variable [LinearOrder CellData]

omit [LinearOrder CellData] in
theorem beginPull_request {db : Database} {st : Status} {since : Int64}
    (h : beginPull db st = .request since) :
    since = db.trackedPeerVersion st.siteId ∧ since < st.dbVersion := by
  unfold beginPull at h
  by_cases hle : st.dbVersion ≤ db.trackedPeerVersion st.siteId
  · simp [hle] at h
  · simp only [hle, if_false, PullStart.request.injEq] at h
    exact ⟨h.symm, h ▸ not_le.1 hle⟩

omit [LinearOrder CellData] in
theorem beginPull_upToDate {db : Database} {st : Status} {v : Int64}
    (h : beginPull db st = .upToDate v) :
    v = db.trackedPeerVersion st.siteId ∧ st.dbVersion ≤ v := by
  unfold beginPull at h
  by_cases hle : st.dbVersion ≤ db.trackedPeerVersion st.siteId
  · simp only [hle, if_true, PullStart.upToDate.injEq] at h
    exact ⟨h.symm, h ▸ hle⟩
  · simp [hle] at h

omit [LinearOrder CellData] in
@[simp] theorem answerChanges_siteId (db : Database) (status : Bytes × Int64) (since : Int64) :
    (answerChanges db status since).siteId = status.1 := by
  unfold answerChanges
  split <;> rfl

omit [LinearOrder CellData] in
/-- On a database that does not change, the two calls answer as `DB::changes`. -/
theorem answerChanges_status (db : Database) (since : Int64) :
    answerChanges db db.status since = ⟨(db.changes since).1, (db.changes since).2⟩ := by
  rw [Database.changes_eq]
  unfold answerChanges
  split <;> rfl

omit [LinearOrder CellData] in
/-- Every change in an answer is a local row of the responder, above the requested version. -/
theorem mem_answerChanges {db : Database} {status : Bytes × Int64} {since : Int64} {c : Change}
    (h : c ∈ (answerChanges db status since).changes) :
    ∃ k cell, db.LocalRow k cell ∧ since < cell.dbVersion ∧ c = cell.toChange k := by
  unfold answerChanges at h
  split at h
  · simp at h
  · exact Database.mem_select.1 h

/-- An answer that carries the expected site id is merged. -/
theorem finishPull_snd {env : Database.TxEnv} {st : Status} {resp : ChangesResponse}
    {db : Database} (hsite : resp.siteId = st.siteId) :
    (finishPull env st resp db).2 = (db.merge env resp.siteId resp.changes).2 := by
  unfold finishPull
  rw [if_neg (not_not.2 hsite)]
  split <;> rename_i h <;> rw [h]

/-- What the client's database can become in the last step of a pull: it is left alone, or the
    answer carried the expected site id and was merged. -/
theorem finishPull_cases (env : Database.TxEnv) (st : Status) (resp : ChangesResponse)
    (db : Database) :
    (finishPull env st resp db).2 = db ∨
    (resp.siteId = st.siteId ∧
      (∃ v, (db.merge env resp.siteId resp.changes).1 = .ok v) ∧
      (finishPull env st resp db).2 = (db.merge env resp.siteId resp.changes).2) := by
  unfold finishPull
  by_cases hs : resp.siteId = st.siteId
  · rw [if_neg (not_not.2 hs)]
    rcases Database.merge_cases env resp.siteId resp.changes db with ⟨e, h⟩ | h
    · exact Or.inl (by rw [h])
    · exact Or.inr ⟨hs, ⟨_, congrArg Prod.fst h⟩, by rw [h]⟩
  · rw [if_pos hs]
    exact Or.inl rfl

end PullPieces

/-! ## Local transactions -/

section LocalTx
variable [LinearOrder CellData] {db db' : Database}

theorem LocalTx.view_le (h : LocalTx db db') : db.view ≤ db'.view := fun k => by
  rcases h.cells k with hk | ⟨cell, hk, _, _, hlt⟩
  · exact (Database.view_congr hk).ge
  · exact hlt.le.trans (Database.view_of_lookup hk).ge

/-- A local row after a transaction was there before, or has the transaction's version. -/
theorem LocalTx.localRow (h : LocalTx db db') {k : CellKey} {cell : Cell}
    (hrow : db'.LocalRow k cell) : db.LocalRow k cell ∨ cell.dbVersion = db'.clock := by
  rcases h.cells k with hk | ⟨cell', hk, _, hv, _⟩
  · exact Or.inl ⟨hk ▸ hrow.1, hrow.2⟩
  · rw [hrow.1, Option.some.injEq] at hk
    exact Or.inr (hk ▸ hv)

theorem LocalTx.trackedPeerVersion (h : LocalTx db db') (siteId : Bytes) :
    db'.trackedPeerVersion siteId = db.trackedPeerVersion siteId := by
  simp only [Database.trackedPeerVersion, h.trackedPeers]

end LocalTx

/-! ## How a database goes on -/

section Advances
variable [LinearOrder CellData] {db db' : Database}

/-- How a step may change the database of one node. -/
structure Advances (db db' : Database) : Prop where
  siteId : db'.siteId = db.siteId
  view : db.view ≤ db'.view
  clock : db.clock ≤ db'.clock
  row : ∀ k cell, db'.LocalRow k cell →
    db.LocalRow k cell ∨ (db.clock < cell.dbVersion ∧ cell.dbVersion ≤ db'.clock)

theorem Advances.refl (db : Database) : Advances db db :=
  ⟨rfl, le_rfl, le_rfl, fun _ _ hrow => Or.inl hrow⟩

theorem LocalTx.advances (h : LocalTx db db') : Advances db db' where
  siteId := h.siteId
  view := h.view_le
  clock := h.fresh.le
  row _ _ hrow := (h.localRow hrow).imp_right fun hv => ⟨by rw [hv]; exact h.fresh, hv.le⟩

theorem Database.merge_advances (env : Database.TxEnv) (s : Bytes) (cs : List Change)
    (db : Database) : Advances db (db.merge env s cs).2 where
  siteId := Database.merge_siteId
  view := Database.view_le_merge
  clock := Database.clock_le_merge
  row _ _ hrow := Or.inl hrow.of_merge

theorem finishPull_advances (env : Database.TxEnv) (st : Status) (resp : ChangesResponse)
    (db : Database) : Advances db (finishPull env st resp db).2 := by
  rcases finishPull_cases env st resp db with hsame | ⟨_, _, hm⟩
  · rw [hsame]
    exact Advances.refl db
  · rw [hm]
    exact Database.merge_advances ..

/-- The local rows have positive versions, none of them above the clock. -/
structure Clocked (db : Database) : Prop where
  nonneg : 0 ≤ db.clock
  version : ∀ k cell, db.LocalRow k cell → 0 < cell.dbVersion ∧ cell.dbVersion ≤ db.clock

omit [LinearOrder CellData] in
theorem Database.not_localRow_new {s : Bytes} {k : CellKey} {cell : Cell} :
    ¬ (Database.new s).LocalRow k cell := fun h => by
  have := h.1
  simp [Database.new] at this

omit [LinearOrder CellData] in
theorem Clocked.new (s : Bytes) : Clocked (Database.new s) :=
  ⟨le_rfl, fun _ _ h => absurd h Database.not_localRow_new⟩

theorem Clocked.advance (h : Clocked db) (hadv : Advances db db') : Clocked db' where
  nonneg := h.nonneg.trans hadv.clock
  version k cell hrow := by
    rcases hadv.row k cell hrow with hold | ⟨hlt, hle⟩
    · exact ⟨(h.version k cell hold).1, (h.version k cell hold).2.trans hadv.clock⟩
    · exact ⟨lt_of_le_of_lt h.nonneg hlt, hle⟩

/-- `resp` has every local row above `since` and up to the greatest version in it. -/
structure Complete (db : Database) (since : Int64) (resp : ChangesResponse) : Prop where
  clock : Database.maxDbVersion resp.changes ≤ db.clock
  rows : ∀ k cell, db.LocalRow k cell → since < cell.dbVersion →
    cell.dbVersion ≤ Database.maxDbVersion resp.changes →
    (k, cell.data) ∈ Database.writes resp.changes

/-- It stays so: rows written later are above the clock. -/
theorem Complete.advance {since : Int64} {resp : ChangesResponse} (h : Complete db since resp)
    (hadv : Advances db db') : Complete db' since resp where
  clock := h.clock.trans hadv.clock
  rows k cell hrow hlt hle := by
    rcases hadv.row k cell hrow with hold | ⟨hnew, _⟩
    · exact h.rows k cell hold hlt hle
    · exact absurd (hle.trans h.clock) (not_le.2 hnew)

omit [LinearOrder CellData] in
/-- The answer has every local row above the requested version, whenever the status was read. -/
theorem Clocked.complete (h : Clocked db) (status : Bytes × Int64) (since : Int64) :
    Complete db since (answerChanges db status since) where
  clock := by
    rw [Database.maxDbVersion_le_iff h.nonneg]
    intro c hc
    obtain ⟨k, cell, hrow, _, rfl⟩ := mem_answerChanges hc
    exact (h.version k cell hrow).2
  rows k cell hrow hlt hle := by
    unfold answerChanges at hle ⊢
    split at hle
    · -- nothing above the version read first: the answer is empty and its greatest version is 0
      exact absurd hle (not_le.2 (h.version k cell hrow).1)
    · rename_i hnot
      rw [if_neg hnot]
      exact List.mem_map.2 ⟨cell.toChange k, Database.mem_select.2 ⟨k, cell, hrow, hlt, rfl⟩,
        Prod.ext rfl (Cell.toChange_data k cell)⟩

end Advances

/-! ## The invariant -/

section Cursor
variable {N : Type} [LinearOrder CellData]

/-- Every local row of `a` at or below `b`'s cursor for `a` is taken at `b`. -/
def Net.Taken (σ : Net N) (b a : N) : Prop :=
  ∀ k cell, (σ.db a).LocalRow k cell →
    cell.dbVersion ≤ (σ.db b).trackedPeerVersion (σ.db a).siteId →
    (cell.data : WithBot CellData) ≤ (σ.db b).view k

variable (site : N → Bytes) (P : N)

/-- A pull from `P`, whose client has the database `client`, against `P`'s database. -/
structure PullInv (dbP client : Database) (p : Pull N) : Prop where
  since_le : p.sinceDbVersion ≤ client.trackedPeerVersion (site P)
  complete : ∀ resp, p.phase = .answered resp → Complete dbP p.sinceDbVersion resp

/-- What holds of `P` and of everybody's business with `P` in every reachable state. -/
structure CursorInv (σ : Net N) : Prop where
  siteId : ∀ n, (σ.db n).siteId = site n
  clocked : Clocked (σ.db P)
  cursor : ∀ n, (σ.db n).trackedPeerVersion (site P) ≤ (σ.db P).clock
  taken : ∀ n k cell, (σ.db P).LocalRow k cell →
    cell.dbVersion ≤ (σ.db n).trackedPeerVersion (site P) →
    (cell.data : WithBot CellData) ≤ (σ.db n).view k
  published : ∀ n st, st ∈ σ.published n → (st.siteId = site P ↔ n = P)
  pulls : ∀ i p, σ.pulls i = some p →
    (p.status.siteId = site P ↔ p.server = P) ∧
    (p.server = P → PullInv site P (σ.db P) (σ.db p.client) p)

variable {site P}

theorem CursorInv.init : CursorInv site P (Net.init site) where
  siteId _ := rfl
  clocked := Clocked.new (site P)
  cursor _ := le_rfl
  taken _ _ _ h := absurd h Database.not_localRow_new
  published _ _ h := absurd h (by simp [Net.init])
  pulls _ _ h := absurd h (by simp [Net.init])

theorem PullInv.advance {dbP dbP' client client' : Database} {p : Pull N}
    (h : PullInv site P dbP client p) (hP : Advances dbP dbP')
    (hcursor : client.trackedPeerVersion (site P) ≤ client'.trackedPeerVersion (site P)) :
    PullInv site P dbP' client' p where
  since_le := h.since_le.trans hcursor
  complete resp hr := (h.complete resp hr).advance hP

variable [DecidableEq N]

omit [LinearOrder CellData] in
@[simp] theorem Net.setDb_db_self (σ : Net N) (n : N) (db : Database) :
    (σ.setDb n db).db n = db := Function.update_self ..

omit [LinearOrder CellData] in
theorem Net.setDb_db_of_ne {σ : Net N} {n m : N} (h : m ≠ n) (db : Database) :
    (σ.setDb n db).db m = σ.db m := Function.update_of_ne h ..

/-- Every node's database advances when one of them does. -/
theorem Net.setDb_advances {σ : Net N} {n : N} {db' : Database} (h : Advances (σ.db n) db')
    (m : N) : Advances (σ.db m) ((σ.setDb n db').db m) := by
  by_cases hm : m = n
  · subst hm
    rw [Net.setDb_db_self]
    exact h
  · rw [Net.setDb_db_of_ne hm]
    exact Advances.refl _

/-- The invariant survives a change of one database, if the node's cursor for `P` does not go down
    and covers, besides what it covered before, only rows of `P` the node has now taken. -/
theorem CursorInv.setDb {σ : Net N} (h : CursorInv site P σ) {n : N} {db' : Database}
    (hadv : Advances (σ.db n) db')
    (hmono : (σ.db n).trackedPeerVersion (site P) ≤ db'.trackedPeerVersion (site P))
    (hle : db'.trackedPeerVersion (site P) ≤ (σ.db P).clock)
    (htaken : ∀ k cell, (σ.db P).LocalRow k cell →
      cell.dbVersion ≤ db'.trackedPeerVersion (site P) →
      (cell.data : WithBot CellData) ≤ db'.view k) :
    CursorInv site P (σ.setDb n db') := by
  have hall := Net.setDb_advances hadv
  have hcursor : ∀ m, (σ.db m).trackedPeerVersion (site P) ≤
      ((σ.setDb n db').db m).trackedPeerVersion (site P) := fun m => by
    by_cases hm : m = n
    · subst hm; rw [Net.setDb_db_self]; exact hmono
    · rw [Net.setDb_db_of_ne hm]
  -- no cursor for `P` is above `P`'s old clock, so no new row of `P` is below a cursor
  have hbound : ∀ m, ((σ.setDb n db').db m).trackedPeerVersion (site P) ≤ (σ.db P).clock :=
    fun m => by
      by_cases hm : m = n
      · subst hm; rw [Net.setDb_db_self]; exact hle
      · rw [Net.setDb_db_of_ne hm]; exact h.cursor m
  refine ⟨fun m => ?_, h.clocked.advance (hall P), fun m => ?_, fun m k cell hrow hv => ?_,
    h.published, fun i p hp => ⟨(h.pulls i p hp).1, fun hs => ?_⟩⟩
  · rw [(hall m).siteId, h.siteId]
  · exact (hbound m).trans (hall P).clock
  · rcases (hall P).row k cell hrow with hold | ⟨hlt, _⟩
    · by_cases hm : m = n
      · subst hm
        rw [Net.setDb_db_self] at hv ⊢
        exact htaken k cell hold hv
      · rw [Net.setDb_db_of_ne hm] at hv ⊢
        exact h.taken m k cell hold hv
    · exact absurd (hv.trans (hbound m)) (not_le.2 hlt)
  · exact ((h.pulls i p hp).2 hs).advance (hall P) (hcursor p.client)

omit [DecidableEq N] in
/-- A pull may be dropped or moved on, as long as the one put in its place is in order. -/
theorem CursorInv.setPull {σ : Net N} (h : CursorInv site P σ) (i : Nat) {p : Option (Pull N)}
    (hp : ∀ q, p = some q → (q.status.siteId = site P ↔ q.server = P) ∧
      (q.server = P → PullInv site P (σ.db P) (σ.db q.client) q)) :
    CursorInv site P (σ.setPull i p) :=
  { h with
    pulls := fun j q hq => by
      by_cases hj : j = i
      · subst hj
        exact hp q (by simpa [Net.setPull] using hq)
      · exact h.pulls j q (by simpa [Net.setPull, Function.update_of_ne hj] using hq) }

theorem CursorInv.dropPulls {σ : Net N} (h : CursorInv site P σ) (n : N) :
    CursorInv site P (σ.dropPulls n) :=
  { h with
    pulls := fun i p hp => h.pulls i p (by
      simp only [Net.dropPulls, Option.filter_eq_some_iff] at hp
      exact hp.1) }

theorem CursorInv.publish {σ : Net N} (h : CursorInv site P σ) {n : N} {st : Status}
    (hst : st.siteId = site P ↔ n = P) : CursorInv site P (σ.publish n st) :=
  { h with
    published := fun m st' hm => by
      by_cases hmn : m = n
      · subst hmn
        simp only [Net.publish, Function.update_self, List.mem_cons] at hm
        rcases hm with rfl | hm
        · exact hst
        · exact h.published m st' hm
      · exact h.published m st' (by simpa [Net.publish, Function.update_of_ne hmn] using hm) }

/-- The client's merge: the rows the cursor newly covers were all in the answer. -/
theorem CursorInv.finishPull {σ : Net N} (h : CursorInv site P σ) {i : Nat} {p : Pull N}
    {resp : ChangesResponse} {env : Database.TxEnv} (hp : σ.pulls i = some p)
    (hphase : p.phase = .answered resp) :
    CursorInv site P
      (σ.setDb p.client (finishPull env p.status resp (σ.db p.client)).2) := by
  obtain ⟨hiff, hpull⟩ := h.pulls i p hp
  refine h.setDb (finishPull_advances env p.status resp _) ?_ ?_ ?_
  all_goals
    rcases finishPull_cases env p.status resp (σ.db p.client) with hsame | ⟨hs, ⟨v, hv⟩, hm⟩
  · rw [hsame]
  · rw [hm]
    exact Database.trackedPeerVersion_le_merge _
  · rw [hsame]
    exact h.cursor _
  · rw [hm]
    by_cases hsite : site P = resp.siteId
    · have hpi := hpull (hiff.1 (hs ▸ hsite.symm))
      rw [hsite, Database.trackedPeerVersion_merge_ok hv, ← hsite]
      exact max_le (h.cursor _) (hpi.complete resp hphase).clock
    · rw [Database.trackedPeerVersion_merge_of_ne hsite]
      exact h.cursor _
  · rw [hsame]
    exact h.taken _
  · intro k cell hrow hver
    rw [hm] at hver ⊢
    by_cases hsite : site P = resp.siteId
    · have hpi := hpull (hiff.1 (hs ▸ hsite.symm))
      rw [hsite, Database.trackedPeerVersion_merge_ok hv, ← hsite] at hver
      by_cases hle : cell.dbVersion ≤ (σ.db p.client).trackedPeerVersion (site P)
      · exact (h.taken _ k cell hrow hle).trans (Database.view_le_merge k)
      · -- above the old cursor, hence above the request's, hence in the answer
        have hmax := (le_max_iff.1 hver).resolve_left hle
        have hlt := lt_of_le_of_lt hpi.since_le (not_le.1 hle)
        have hmem := (hpi.complete resp hphase).rows k cell hrow hlt hmax
        rw [Database.view_merge_ok hv]
        exact le_sup_of_le_right (Registers.le_joinAll hmem)
    · rw [Database.trackedPeerVersion_merge_of_ne hsite] at hver
      exact (h.taken _ k cell hrow hver).trans (Database.view_le_merge k)

/-- **The step lemma.** Every step preserves the invariant, if the honest nodes' site ids differ
    from `P`'s and no other node forges a status with `P`'s site id. -/
theorem CursorInv.step {honest : N → Prop} (hP : honest P)
    (hsite : ∀ n, honest n → n ≠ P → site n ≠ site P) {σ σ' : Net N} {l : Action N}
    (h : CursorInv site P σ) (hs : Net.Step honest σ l σ')
    (hl : ∀ n st, l = .forgeStatus n st → st.siteId ≠ site P) : CursorInv site P σ' := by
  cases hs with
  | @localTx n db' htx =>
      refine h.setDb htx.advances (htx.trackedPeerVersion _).ge ?_ fun k cell hrow hv => ?_
      · rw [htx.trackedPeerVersion]
        exact h.cursor n
      · rw [htx.trackedPeerVersion] at hv
        exact (h.taken n k cell hrow hv).trans (htx.view_le k)
  | announce n hn =>
      refine h.publish ?_
      show (σ.db n).siteId = site P ↔ n = P
      rw [h.siteId]
      exact ⟨fun he => by_contra fun hne => hsite n hn hne he, fun he => by rw [he]⟩
  | forgeStatus n st hn =>
      refine h.publish ⟨fun he => absurd he (hl n st rfl), fun he => absurd (he ▸ hP) hn⟩
  | @begin i client server st since hfree hst hbegin =>
      refine h.setPull i fun q hq => ?_
      obtain rfl := Option.some.inj hq
      refine ⟨h.published server st hst, fun hserver => ?_⟩
      have hstP : st.siteId = site P := (h.published server st hst).2 hserver
      have hsince : since = (σ.db client).trackedPeerVersion (site P) :=
        hstP ▸ (beginPull_request hbegin).1
      exact ⟨hsince.le, fun _ hr => by simp at hr⟩
  | @readStatus i p hp hphase hn =>
      refine h.setPull i fun q hq => ?_
      obtain rfl := Option.some.inj hq
      exact ⟨(h.pulls i p hp).1, fun hserver =>
        ⟨((h.pulls i p hp).2 hserver).since_le, fun _ hr => by simp at hr⟩⟩
  | @select i p status hp hphase hn =>
      refine h.setPull i fun q hq => ?_
      obtain rfl := Option.some.inj hq
      refine ⟨(h.pulls i p hp).1, fun hserver => ?_⟩
      obtain rfl : p.server = P := hserver
      refine ⟨((h.pulls i p hp).2 rfl).since_le, fun resp hr => ?_⟩
      simp only [PullPhase.answered.injEq] at hr
      exact hr ▸ h.clocked.complete status p.sinceDbVersion
  | @forgeAnswer i p resp hp hphase hn =>
      refine h.setPull i fun q hq => ?_
      obtain rfl := Option.some.inj hq
      refine ⟨(h.pulls i p hp).1, fun hserver => ?_⟩
      obtain rfl : p.server = P := hserver
      exact absurd hP hn
  | @finish i p resp env hp hphase henv =>
      exact (h.finishPull hp hphase).setPull i fun q hq => absurd hq (by simp)
  | @fail i p hp => exact h.setPull i fun q hq => absurd hq (by simp)
  | crash n => exact h.dropPulls n

/-- Only a pull from `P` moves a cursor for `P`. -/
theorem CursorInv.cursor_step {honest : N → Prop} {σ σ' : Net N} {l : Action N}
    (h : CursorInv site P σ) (hs : Net.Step honest σ l σ') {b : N}
    (hmoved : (σ'.db b).trackedPeerVersion (site P) ≠ (σ.db b).trackedPeerVersion (site P)) :
    l = .finish b P := by
  cases hs with
  | @localTx n db' htx =>
      refine absurd ?_ hmoved
      by_cases hb : b = n
      · subst hb
        rw [Net.setDb_db_self, htx.trackedPeerVersion]
      · rw [Net.setDb_db_of_ne hb]
  | @finish i p resp env hp hphase henv =>
      have hbp : b = p.client := by
        by_contra hb
        exact hmoved (congrArg (Database.trackedPeerVersion · (site P)) (Net.setDb_db_of_ne hb _))
      subst hbp
      have hdb : ((σ.setDb p.client
          (Ddcp.finishPull env p.status resp (σ.db p.client)).2).setPull i none).db p.client =
          (Ddcp.finishPull env p.status resp (σ.db p.client)).2 := Net.setDb_db_self ..
      rw [hdb] at hmoved
      rcases finishPull_cases env p.status resp (σ.db p.client) with hsame | ⟨hs, _, hm⟩
      · exact absurd (by rw [hsame]) hmoved
      · by_cases hsite : site P = resp.siteId
        · rw [(h.pulls i p hp).1.1 (hs ▸ hsite.symm)]
        · exact absurd (by rw [hm, Database.trackedPeerVersion_merge_of_ne hsite]) hmoved
  | announce => exact absurd rfl hmoved
  | forgeStatus => exact absurd rfl hmoved
  | begin => exact absurd rfl hmoved
  | readStatus => exact absurd rfl hmoved
  | select => exact absurd rfl hmoved
  | forgeAnswer => exact absurd rfl hmoved
  | fail => exact absurd rfl hmoved
  | crash => exact absurd rfl hmoved

/-- **The run lemma.** -/
theorem CursorInv.run {honest : N → Prop} (hP : honest P)
    (hsite : ∀ n, honest n → n ≠ P → site n ≠ site P) {σ : Net N} {ls : List (Action N)}
    (hr : Run (guarded (Net.Step honest)
      fun _ l => ∀ n st, l = .forgeStatus n st → st.siteId ≠ site P) (Net.init site) ls σ) :
    CursorInv site P σ :=
  hr.invariant CursorInv.init fun _ _ _ h hs => h.step hP hsite hs.2 hs.1

/-- With honest nodes only, the condition on forged statuses is met by every run. -/
theorem Net.run_honest {σ : Net N} {ls : List (Action N)}
    (hr : Run (Net.Step fun _ : N => True) (Net.init site) ls σ) :
    Run (guarded (Net.Step fun _ => True)
      fun _ l => ∀ n st, l = .forgeStatus n st → st.siteId ≠ site P) (Net.init site) ls σ :=
  hr.mono fun σ l σ' hs => ⟨fun n st hl => by
    subst hl
    cases hs with
    | forgeStatus n st hn => exact absurd trivial hn, hs⟩

/-- **No update is lost by the version cursor.** In every state that honest nodes with distinct
    site ids can reach, by any interleaving of transactions, announcements and pulls, every change
    still exported by `a` at or below `b`'s cursor for `a` has been taken into `b`'s database. -/
theorem no_update_lost (hsite : Function.Injective site) {σ : Net N} {ls : List (Action N)}
    (hr : Run (Net.Step fun _ : N => True) (Net.init site) ls σ) (b a : N) : σ.Taken b a := by
  have h : CursorInv site a σ :=
    CursorInv.run trivial (fun n _ hne he => hne (hsite he)) (Net.run_honest hr)
  intro k cell hrow hv
  rw [h.siteId a] at hv
  exact h.taken b k cell hrow hv

end Cursor

section Example
attribute [local instance] cellDataOrder

/-- A write at `true`, announced, and pulled by `false`. -/
theorem no_update_lost_one_pull : ∃ σ : Net Bool,
    Run (Net.Step fun _ => True) (Net.init fun n => if n then [1] else [2])
      [.localTx true, .announce true, .begin false true, .readStatus true, .select true,
        .finish false true] σ ∧
    (σ.db false).trackedPeerVersion (σ.db true).siteId = 1 ∧ σ.Taken false true := by
  let site : Bool → Bytes := fun n => if n then [1] else [2]
  obtain ⟨σ, ls, hr, rfl, hv⟩ : ∃ (σ : Net Bool) (ls : List (Action Bool)),
      Run (Net.Step fun _ => True) (Net.init site) ls σ ∧
      ls = [.localTx true, .announce true, .begin false true, .readStatus true, .select true,
        .finish false true] ∧ (σ.db false).trackedPeerVersion (σ.db true).siteId = 1 :=
    ⟨_, _, .snoc (.snoc (.snoc (.snoc (.snoc (.snoc .nil
      (.localTx true
        (LocalTx.writeCell 1 ⟨"t", [], "c"⟩ ⟨1, 1, .null⟩ 0 (by decide) (WithBot.bot_lt_coe _))))
      (.announce true trivial))
      (.begin 0 false true ⟨[1], 1⟩ rfl (by decide) rfl))
      (.readStatus 0 rfl rfl trivial))
      (.select 0 rfl rfl trivial))
      (.finish 0 ⟨1, none, none, fun _ _ => none, none, none⟩ rfl rfl (by decide)), rfl, by decide⟩
  have hsite : Function.Injective site := fun a b h => by cases a <;> cases b <;> simp_all [site]
  exact ⟨σ, hr, hv, no_update_lost hsite hr false true⟩

end Example

end Ddcp
