import Ddcp.Lib.WriteLog
import Ddcp.Replication.Convergence
import Ddcp.Replication.Provenance

set_option autoImplicit false

/-! # What the replication protocol is for

Databases, cursors, versions, announcements and pulls in flight are all there is to `Net`; what they
are for is in `WriteLog`: a node writes what is news to it, and writes go from their author to other
nodes, in any order and any number of times. `Delivered` relates the two. Each transaction is one
`write`, each pull that ends is one `deliver` (of nothing, when the answer was not merged), every
other step is invisible (`net_simulates`); and at any time a database holds the join of the
writes its node has seen, each row under the name of the node that wrote it. -/

namespace Ddcp

open Lts

/-- What can be observed of a run: who has written, and who has got an answer from whom. -/
inductive Traffic (N : Type) where
  | write (n : N)
  | pull (n author : N)

def Action.traffic {N : Type} : Action N → List (Traffic N)
  | .localTx n => [.write n]
  | .finish client server => [.pull client server]
  | _ => []

def WriteAction.traffic {N W : Type} : WriteAction N W → List (Traffic N)
  | .write n _ => [.write n]
  | .deliver n author _ => [.pull n author]

/-! ## The writes of a transaction -/

/-- The rows that a transaction has put in place of others. -/
def Database.written (db db' : Database) : List (CellKey × CellData) :=
  db'.cells.entries.filterMap fun e =>
    if db.cells.lookup e.1 = some e.2 then none else some (e.1, e.2.data)

theorem Database.mem_written {db db' : Database} {w : CellKey × CellData} :
    w ∈ db.written db' ↔ ∃ k cell, db'.cells.lookup k = some cell ∧
      db.cells.lookup k ≠ some cell ∧ w = (k, cell.data) := by
  simp only [written, List.mem_filterMap]
  constructor
  · rintro ⟨⟨k, cell⟩, hmem, hw⟩
    split_ifs at hw with hold
    exact ⟨k, cell, mem_entries_iff.1 hmem, hold, (Option.some.inj hw).symm⟩
  · rintro ⟨k, cell, hl, hold, rfl⟩
    exact ⟨⟨k, cell⟩, mem_entries_iff.2 hl, if_neg hold⟩

section LocalTx
variable [LinearOrder CellData] {db db' : Database}

/-- They are newer than what was there. -/
theorem LocalTx.lt_of_mem_written (h : LocalTx db db') {w : CellKey × CellData}
    (hw : w ∈ db.written db') : db.view w.1 < (w.2 : WithBot CellData) := by
  obtain ⟨k, cell, hl, hold, rfl⟩ := Database.mem_written.1 hw
  rcases h.cells k with hk | ⟨cell', hk, _, _, hlt⟩
  · exact absurd (hk ▸ hl) hold
  · rw [hl, Option.some.injEq] at hk
    rwa [hk]

/-- On the registers a transaction is the join of its writes. -/
theorem LocalTx.view_eq (h : LocalTx db db') :
    db'.view = Registers.joinAll (db.written db') ⊔ db.view := by
  refine le_antisymm (fun k => ?_) (sup_le (Registers.joinAll_le_iff.2 fun w hw => ?_) h.view_le)
  · cases hl : db'.cells.lookup k with
    | none =>
        rw [Database.view_of_lookup_none hl]
        exact bot_le
    | some cell =>
        rw [Database.view_of_lookup hl]
        by_cases hold : db.cells.lookup k = some cell
        · exact le_sup_of_le_right (Database.view_of_lookup hold).ge
        · exact le_sup_of_le_left (Registers.le_joinAll (w := (k, cell.data))
            (Database.mem_written.2 ⟨k, cell, hl, hold, rfl⟩))
  · obtain ⟨k, cell, hl, _, rfl⟩ := Database.mem_written.1 hw
    exact (Database.view_of_lookup hl).ge

end LocalTx

/-! ## The simulation -/

section Delivered
variable {N : Type} [LinearOrder CellData]

/-- How a state of the protocol stands to what has been written and seen. -/
structure Delivered (site : N → Bytes) (σ : Net N) (τ : WriteLog N (CellKey × CellData)) :
    Prop where
  cursor : ∀ P, CursorInv site P σ
  attributed : ∀ P, Attributed site P (fun n w => (P, w) ∈ τ.seen n ∧ w ∈ τ.wrote P) σ
  view : ∀ n, (σ.db n).view = τ.held n
  author : ∀ n k cell, (σ.db n).cells.lookup k = some cell →
    cell.siteId = none ∨ ∃ m, cell.siteId = some (site m)

variable {site : N → Bytes}

theorem Delivered.init : Delivered site (Net.init site) WriteLog.empty where
  cursor _ := CursorInv.init
  attributed _ := Attributed.init
  view n := Database.new_view (site n)
  author _ _ _ h := absurd h (by simp [Net.init, Database.new])

variable [DecidableEq N]

/-- A step that neither writes nor delivers. -/
theorem Delivered.quiet (hsite : Function.Injective site) {σ σ' : Net N}
    {τ : WriteLog N (CellKey × CellData)} {l : Action N} (h : Delivered site σ τ)
    (hs : Net.Step (fun _ => True) σ l σ') (hdb : σ'.db = σ.db) : Delivered site σ' τ where
  cursor P := (h.cursor P).step trivial (fun n _ hne he => hne (hsite he)) hs fun n st hl => by
    subst hl
    cases hs with
    | forgeStatus n st hn => exact absurd trivial hn
  attributed P := (h.attributed P).step trivial (h.cursor P) hs (fun _ _ hw => hw)
    (fun k cell _ hrow hnew => absurd (hdb ▸ hrow) hnew)
    fun n k cell _ hl hnew => absurd (hdb ▸ hl) hnew
  view n := by rw [hdb, h.view]
  author := hdb ▸ h.author

/-- A transaction is a write. -/
theorem Delivered.localTx (hsite : Function.Injective site) {σ : Net N}
    {τ : WriteLog N (CellKey × CellData)} {n : N} {db' : Database} (h : Delivered site σ τ)
    (htx : LocalTx (σ.db n) db') :
    Delivered site (σ.setDb n db') (τ.write n ((σ.db n).written db')) where
  cursor P := (h.cursor P).step trivial (fun m _ hne he => hne (hsite he))
    (Net.Step.localTx n htx : Net.Step (fun _ => True) _ _ _) fun m st hl => by simp at hl
  attributed P := by
    have hs : Net.Step (fun _ => True) σ (.localTx n) _ := .localTx n htx
    refine (h.attributed P).step trivial (h.cursor P) hs
      (fun m w hw => ?_) (fun k cell hl hrow hnew => ?_) fun m k cell hl => by simp at hl
    · rw [WriteLog.write_seen, WriteLog.mem_see_seen_iff, WriteLog.mem_write_wrote_iff]
      exact ⟨Or.inr hw.1, Or.inr hw.2⟩
    · obtain rfl : n = P := by simpa using hl
      rw [Net.setDb_db_self] at hrow
      have hw : (k, cell.data) ∈ (σ.db n).written db' :=
        Database.mem_written.2 ⟨k, cell, hrow.1, fun hold => hnew ⟨hold, hrow.2⟩, rfl⟩
      rw [WriteLog.write_seen, WriteLog.mem_see_seen_iff, WriteLog.mem_write_wrote_iff]
      exact ⟨Or.inl ⟨rfl, rfl, hw⟩, Or.inl ⟨rfl, hw⟩⟩
  view m := by
    show _ = (τ.see n n _).held m
    by_cases hm : m = n
    · subst hm
      rw [Net.setDb_db_self, WriteLog.held_see_self, htx.view_eq, h.view]
    · rw [Net.setDb_db_of_ne hm, WriteLog.held_see_of_ne hm, h.view]
  author m k cell hl := by
    by_cases hm : m = n
    · subst hm
      rw [Net.setDb_db_self] at hl
      rcases htx.cells k with hk | ⟨cell', hk, hnone, _⟩
      · exact h.author m k cell (hk ▸ hl)
      · rw [hl, Option.some.injEq] at hk
        exact Or.inl (hk ▸ hnone)
    · exact h.author m k cell (by rwa [Net.setDb_db_of_ne hm] at hl)

/-- The end of a pull is a delivery: of the rows of the answer, or of nothing. -/
theorem Delivered.finish (hsite : Function.Injective site) {σ : Net N}
    {τ : WriteLog N (CellKey × CellData)} (h : Delivered site σ τ) {i : Nat} {p : Pull N}
    {resp : ChangesResponse} {env : Database.TxEnv} (hp : σ.pulls i = some p)
    (hphase : p.phase = .answered resp) (henv : (σ.db p.client).clock < env.version) :
    ∃ ws, (∀ w ∈ ws, w ∈ τ.wrote p.server) ∧
      Delivered site ((σ.setDb p.client (finishPull env p.status resp (σ.db p.client)).2).setPull i
        none) (τ.see p.client p.server ws) := by
  have hs : Net.Step (fun _ => True) σ (.finish p.client p.server) _ :=
    .finish i env hp hphase henv
  have hcursor : ∀ P, CursorInv site P ((σ.setDb p.client
      (finishPull env p.status resp (σ.db p.client)).2).setPull i none) := fun P =>
    (h.cursor P).step trivial (fun m _ hne he => hne (hsite he)) hs fun m st hl => by simp at hl
  -- what is delivered is what the merge offers to the registers
  obtain ⟨ws, hws, hmem, hview⟩ : ∃ ws, (∀ w ∈ ws, w ∈ Database.writes resp.changes) ∧
      (∀ k cell, (finishPull env p.status resp (σ.db p.client)).2.cells.lookup k = some cell →
        (σ.db p.client).cells.lookup k ≠ some cell → (k, cell.data) ∈ ws) ∧
      (finishPull env p.status resp (σ.db p.client)).2.view =
        Registers.joinAll ws ⊔ (σ.db p.client).view := by
    rcases finishPull_cases env p.status resp (σ.db p.client) with hsame | ⟨_, ⟨v, hv⟩, hm⟩
    · refine ⟨[], fun w hw => absurd hw (by simp), fun k cell hl hnew => ?_, ?_⟩
      · exact absurd (hsame ▸ hl) hnew
      · rw [hsame]
        exact (bot_sup_eq _).symm
    · refine ⟨_, fun w hw => hw, fun k cell hl hnew => ?_, ?_⟩
      · exact ((lookup_finishPull hl).resolve_left hnew).2
      · rw [hm, Database.view_merge_ok hv, sup_comm]
  have hsent : ∀ w ∈ ws, w ∈ τ.wrote p.server := fun w hw =>
    ((h.attributed p.server).sent i p resp hp rfl hphase w (hws w hw)).2
  refine ⟨ws, hsent, hcursor, fun P => ?_, fun m => ?_, fun m k cell hl => ?_⟩
  · refine (h.attributed P).step trivial (h.cursor P) hs (fun m w hw => ?_)
      (fun k cell hl => by simp at hl) fun m k cell hfinish hl hnew hw => ?_
    · exact ⟨WriteLog.mem_see_seen_iff.2 (Or.inr hw.1), hw.2⟩
    · obtain ⟨rfl, rfl⟩ : p.client = m ∧ p.server = P := by simpa using hfinish
      change ((σ.setDb p.client _).db p.client).cells.lookup k = some cell at hl
      rw [Net.setDb_db_self] at hl
      exact ⟨WriteLog.mem_see_seen_iff.2 (Or.inl ⟨rfl, rfl, hmem k cell hl hnew⟩), hw.2⟩
  · show ((σ.setDb p.client _).db m).view = _
    by_cases hm : m = p.client
    · subst hm
      rw [Net.setDb_db_self, WriteLog.held_see_self, hview, h.view]
    · rw [Net.setDb_db_of_ne hm, WriteLog.held_see_of_ne hm, h.view]
  · change ((σ.setDb p.client _).db m).cells.lookup k = some cell at hl
    by_cases hm : m = p.client
    · subst hm
      rw [Net.setDb_db_self] at hl
      rcases lookup_finishPull hl with hold | ⟨hsome, _⟩
      · exact h.author p.client k cell hold
      · -- the status that the pull began with is one its server has published
        have hserver : p.status.siteId = site p.server :=
          ((h.cursor p.server).pulls i p hp).1.2 rfl
        exact Or.inr ⟨p.server, hsome.trans (congrArg some hserver)⟩
    · exact h.author m k cell (by rwa [Net.setDb_db_of_ne hm] at hl)

/-- **The simulation.** Step by step, the protocol does what `WriteLog` does. -/
theorem net_simulates (hsite : Function.Injective site) :
    Simulates (Net.Step fun _ : N => True) (WriteLog.Step WriteLog.Newer) Action.traffic
      WriteAction.traffic (Delivered site) := by
  intro σ τ l σ' h hs
  have hquiet : σ'.db = σ.db → Action.traffic l = [] →
      ∃ ks τ', Run (WriteLog.Step WriteLog.Newer) τ ks τ' ∧
        ks.flatMap WriteAction.traffic = Action.traffic l ∧ Delivered site σ' τ' := fun hdb hl =>
    ⟨[], τ, .nil, hl.symm, h.quiet hsite hs hdb⟩
  cases hs with
  | @localTx n db' htx =>
      refine ⟨[.write n ((σ.db n).written db')], _, .snoc .nil (.write n _ fun w hw => ?_), rfl,
        h.localTx hsite htx⟩
      have hlt := htx.lt_of_mem_written hw
      rwa [h.view] at hlt
  | @finish i p resp env hp hphase henv =>
      obtain ⟨ws, hws, h'⟩ := h.finish hsite hp hphase henv
      exact ⟨[.deliver p.client p.server ws], _, .snoc .nil (.deliver _ _ ws hws), rfl, h'⟩
  | announce => exact hquiet rfl rfl
  | forgeStatus => exact hquiet rfl rfl
  | begin => exact hquiet rfl rfl
  | readStatus => exact hquiet rfl rfl
  | select => exact hquiet rfl rfl
  | forgeAnswer => exact hquiet rfl rfl
  | fail => exact hquiet rfl rfl
  | crash => exact hquiet rfl rfl

/-- **What replication is.** Every run of honest nodes with distinct site ids, in any interleaving
    of transactions, announcements and pulls, is a run of `WriteLog` with the same transactions and
    the same ended pulls in the same order; and after it each database holds, cell by cell, the
    greatest of the writes its node has seen, each row under the name of the node that wrote it:
    no row is under any other name. -/
theorem replication_delivers (hsite : Function.Injective site) {σ : Net N} {ls : List (Action N)}
    (hr : Run (Net.Step fun _ : N => True) (Net.init site) ls σ) :
    ∃ ks τ, Run (WriteLog.Step WriteLog.Newer) WriteLog.empty ks τ ∧
      ks.flatMap WriteAction.traffic = ls.flatMap Action.traffic ∧
      (∀ n, (σ.db n).view = τ.held n) ∧
      (∀ n k cell, (σ.db n).cells.lookup k = some cell →
        cell.siteId = none ∨ ∃ m, cell.siteId = some (site m)) ∧
      ∀ n m k cell, (σ.db n).cells.lookup k = some cell →
        (cell.siteId = some (site m) ∨ (n = m ∧ cell.siteId = none)) →
        (m, (k, cell.data)) ∈ τ.seen n ∧ (k, cell.data) ∈ τ.wrote m := by
  obtain ⟨ks, τ, hks, hobs, h⟩ := (net_simulates hsite).run Delivered.init hr
  refine ⟨ks, τ, hks, hobs, h.view, h.author, fun n m k cell hl hfrom => ?_⟩
  rcases hfrom with hs | ⟨rfl, hs⟩
  · exact (h.attributed m).stored n k cell hl hs
  · exact (h.attributed n).own k cell ⟨hl, hs⟩

end Delivered

section Example
attribute [local instance] cellDataOrder

/-- A write at `true`, announced, and pulled by `false`. -/
theorem replication_delivers_one_pull :
    ∃ (σ : Net Bool) (ks : List (WriteAction Bool (CellKey × CellData)))
      (τ : WriteLog Bool (CellKey × CellData)),
    Run (Net.Step fun _ => True) (Net.init fun n => if n then [1] else [2])
      [.localTx true, .announce true, .begin false true, .readStatus true, .select true,
        .finish false true] σ ∧
    Run (WriteLog.Step WriteLog.Newer) WriteLog.empty ks τ ∧
    ks.flatMap WriteAction.traffic = [.write true, .pull false true] ∧
    (σ.db false).cells.lookup ⟨"t", [], "c"⟩ = some ⟨⟨1, 1, .null⟩, 1, 0, some [1]⟩ ∧
    (true, ((⟨"t", [], "c"⟩ : CellKey), (⟨1, 1, .null⟩ : CellData))) ∈ τ.seen false := by
  let site : Bool → Bytes := fun n => if n then [1] else [2]
  obtain ⟨σ, ls, hr, rfl, hrow⟩ : ∃ (σ : Net Bool) (ls : List (Action Bool)),
      Run (Net.Step fun _ => True) (Net.init site) ls σ ∧
      ls = [.localTx true, .announce true, .begin false true, .readStatus true, .select true,
        .finish false true] ∧
      (σ.db false).cells.lookup ⟨"t", [], "c"⟩ = some ⟨⟨1, 1, .null⟩, 1, 0, some (site true)⟩ :=
    ⟨_, _, .snoc (.snoc (.snoc (.snoc (.snoc (.snoc .nil
      (.localTx true
        (LocalTx.writeCell 1 ⟨"t", [], "c"⟩ ⟨1, 1, .null⟩ 0 (by decide) (WithBot.bot_lt_coe _))))
      (.announce true trivial))
      (.begin 0 false true ⟨[1], 1⟩ rfl (by decide) rfl))
      (.readStatus 0 rfl rfl trivial))
      (.select 0 rfl rfl trivial))
      (.finish 0 ⟨1, none, none, fun _ _ => none, none, none⟩ rfl rfl (by decide)), rfl, by decide⟩
  have hsite : Function.Injective site := fun a b h => by cases a <;> cases b <;> simp_all [site]
  obtain ⟨ks, τ, hks, hobs, _, _, hseen⟩ := replication_delivers hsite hr
  exact ⟨σ, ks, τ, hr, hks, hobs, hrow, (hseen false true _ _ hrow (Or.inl rfl)).1⟩

end Example

end Ddcp
