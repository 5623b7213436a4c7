import Ddcp.Replication.Cursor

set_option autoImplicit false

/-! # Quiescence means convergence

No node forwards what it merged, so a node can only get a write from the node that made it, and
only while that node still exports it. `WinnerInv` says why this is enough: the greatest data of
every cell is a local row of some node (`Registers.Winner`), because a local row is replaced only by
greater data, and the data that replaces it in a merge is at that moment at the responder. When no
node has anything left to pull, the cursors are sound (`CursorInv`) and every such row has been
taken everywhere. -/

namespace Ddcp

open Lts

section Convergence
variable {N : Type} [LinearOrder CellData]

/-- `n` exports a row for the cell `k`. -/
def Net.Exports (σ : Net N) (n : N) (k : CellKey) : Prop :=
  ∃ cell, (σ.db n).LocalRow k cell

/-- The greatest data of every cell is exported by some node, and no answer in flight is ahead of
    the node that gave it. -/
structure WinnerInv (σ : Net N) : Prop where
  winner : Registers.Winner (fun n => (σ.db n).view) σ.Exports
  answer : ∀ i p resp, σ.pulls i = some p → p.phase = .answered resp →
    Registers.joinAll (Database.writes resp.changes) ≤ (σ.db p.server).view

omit [LinearOrder CellData] in
theorem Database.new_view (s : Bytes) : (Database.new s).view = fun _ => ⊥ := by
  funext k
  exact Database.view_of_lookup_none rfl

theorem WinnerInv.init (site : N → Bytes) : WinnerInv (Net.init site) where
  winner := by
    have hview : (fun n => ((Net.init site).db n).view) = fun _ _ => ⊥ := by
      funext n
      exact Database.new_view (site n)
    rw [hview]
    exact Registers.Winner.empty _
  answer _ _ _ hp := absurd hp (by simp [Net.init])

/-- What the last step of a pull does to one cell of the client: nothing, or it adopts data of the
    answer. -/
theorem finishPull_register (env : Database.TxEnv) (st : Status) (resp : ChangesResponse)
    (db : Database) (k : CellKey) :
    ((finishPull env st resp db).2.view k = db.view k ∧
      ((∃ cell, db.LocalRow k cell) → ∃ cell, (finishPull env st resp db).2.LocalRow k cell)) ∨
    (db.view k < (finishPull env st resp db).2.view k ∧
      (finishPull env st resp db).2.view k ≤
        Registers.joinAll (Database.writes resp.changes) k) := by
  rcases finishPull_cases env st resp db with hsame | ⟨_, ⟨v, hv⟩, hm⟩
  · rw [hsame]
    exact Or.inl ⟨rfl, id⟩
  · rw [hm]
    have hview := congrFun (Database.view_merge_ok hv) k
    rw [Pi.sup_apply] at hview
    by_cases hle : Registers.joinAll (Database.writes resp.changes) k ≤ db.view k
    · rw [sup_eq_left.2 hle] at hview
      refine Or.inl ⟨hview, ?_⟩
      rintro ⟨cell, hrow⟩
      -- the row could only go if the cell had become greater
      have hkept : (db.merge env resp.siteId resp.changes).2.LocalRow k cell ∨
          (cell.data : WithBot CellData) < (db.merge env resp.siteId resp.changes).2.view k :=
        hrow.merge
      rcases hkept with h | h
      · exact ⟨cell, h⟩
      · rw [hview, hrow.view_eq] at h
        exact absurd h (lt_irrefl _)
    · have hlt := not_le.1 hle
      rw [sup_eq_right.2 hlt.le] at hview
      rw [hview]
      exact Or.inr ⟨hlt, le_rfl⟩

variable [DecidableEq N]

/-- The invariant survives a change of one node's cells, if each of them is left alone, or is
    written by the node itself, or adopts something another node has. -/
theorem WinnerInv.setDb {σ : Net N} (h : WinnerInv σ) {n : N} {db' : Database}
    (hview : (σ.db n).view ≤ db'.view)
    (hn : ∀ k, (db'.view k = (σ.db n).view k ∧
        ((∃ cell, (σ.db n).LocalRow k cell) → ∃ cell, db'.LocalRow k cell)) ∨
      ((σ.db n).view k < db'.view k ∧
        ((∃ cell, db'.LocalRow k cell) ∨ ∃ m, m ≠ n ∧ db'.view k ≤ (σ.db m).view k))) :
    WinnerInv (σ.setDb n db') := by
  refine ⟨h.winner.step (n := n) (fun m hm => ?_) (fun k => ?_), fun i p resp hp hr => ?_⟩
  · refine ⟨?_, ?_⟩
    · show ((σ.setDb n db').db m).view = (σ.db m).view
      rw [Net.setDb_db_of_ne hm]
    · funext k
      show (∃ cell, ((σ.setDb n db').db m).LocalRow k cell) = ∃ cell, (σ.db m).LocalRow k cell
      rw [Net.setDb_db_of_ne hm]
  · simp only [Net.Exports, Net.setDb_db_self]
    exact hn k
  · refine (h.answer i p resp hp hr).trans ?_
    by_cases hs : p.server = n
    · rw [hs, Net.setDb_db_self]
      exact hview
    · rw [Net.setDb_db_of_ne hs]

omit [DecidableEq N] in
theorem WinnerInv.setPull {σ : Net N} (h : WinnerInv σ) (i : Nat) {p : Option (Pull N)}
    (hp : ∀ q resp, p = some q → q.phase = .answered resp →
      Registers.joinAll (Database.writes resp.changes) ≤ (σ.db q.server).view) :
    WinnerInv (σ.setPull i p) where
  winner := h.winner
  answer j q resp hq hr := by
    by_cases hj : j = i
    · subst hj
      exact hp q resp (by simpa [Net.setPull] using hq) hr
    · exact h.answer j q resp (by simpa [Net.setPull, Function.update_of_ne hj] using hq) hr

theorem WinnerInv.dropPulls {σ : Net N} (h : WinnerInv σ) (n : N) : WinnerInv (σ.dropPulls n) where
  winner := h.winner
  answer i p resp hp hr := h.answer i p resp (by
    simp only [Net.dropPulls, Option.filter_eq_some_iff] at hp
    exact hp.1) hr

omit [DecidableEq N] in
/-- The rows in an answer are the responder's own. -/
theorem joinAll_answerChanges_le (db : Database) (status : Bytes × Int64) (since : Int64) :
    Registers.joinAll (Database.writes (answerChanges db status since).changes) ≤ db.view := by
  rw [Registers.joinAll_le_iff]
  intro w hw
  obtain ⟨c, hc, rfl⟩ := List.mem_map.1 hw
  obtain ⟨k, cell, hrow, _, rfl⟩ := mem_answerChanges hc
  rw [Cell.toChange_key, Cell.toChange_data]
  exact hrow.view_eq.ge

/-- **The step lemma.** Every step of honest nodes keeps the greatest data of every cell exported
    by somebody. -/
theorem WinnerInv.step {σ σ' : Net N} {l : Action N} (h : WinnerInv σ)
    (hs : Net.Step (fun _ => True) σ l σ') : WinnerInv σ' := by
  cases hs with
  | @localTx n db' htx =>
      refine h.setDb htx.view_le fun k => ?_
      rcases htx.cells k with hk | ⟨cell, hk, hsite, _, hlt⟩
      · refine Or.inl ⟨Database.view_congr hk, ?_⟩
        rintro ⟨cell, hl, hsite⟩
        exact ⟨cell, hk.trans hl, hsite⟩
      · exact Or.inr ⟨hlt.trans_eq (Database.view_of_lookup hk).symm, Or.inl ⟨cell, hk, hsite⟩⟩
  | announce n hn => exact ⟨h.winner, h.answer⟩
  | forgeStatus n st hn => exact absurd trivial hn
  | begin i client server st hfree hst hbegin =>
      refine h.setPull i fun q resp hq hr => ?_
      obtain rfl := Option.some.inj hq
      simp at hr
  | readStatus i hp hphase hn =>
      refine h.setPull i fun q resp hq hr => ?_
      obtain rfl := Option.some.inj hq
      simp at hr
  | select i hp hphase hn =>
      refine h.setPull i fun q resp hq hr => ?_
      obtain rfl := Option.some.inj hq
      simp only [PullPhase.answered.injEq] at hr
      rw [← hr]
      exact joinAll_answerChanges_le _ _ _
  | forgeAnswer i resp hp hphase hn => exact absurd trivial hn
  | @finish i p resp env hp hphase henv =>
      have hans := h.answer i p resp hp hphase
      have hreg := finishPull_register env p.status resp (σ.db p.client)
      have hview : (σ.db p.client).view ≤ (finishPull env p.status resp (σ.db p.client)).2.view :=
        fun k => by
          rcases hreg k with ⟨hk, _⟩ | ⟨hk, _⟩
          · exact hk.ge
          · exact hk.le
      refine (h.setDb hview fun k => ?_).setPull i fun q resp hq => absurd hq (by simp)
      rcases hreg k with hk | ⟨hlt, hle⟩
      · exact Or.inl hk
      · -- what the client adopts is still at the server, so the server is another node
        have hserver := hle.trans (hans k)
        refine Or.inr ⟨hlt, Or.inr ⟨p.server, fun hne => ?_, hserver⟩⟩
        rw [hne] at hserver
        exact absurd hlt (not_lt.2 hserver)
  | fail i hp => exact h.setPull i fun q resp hq => absurd hq (by simp)
  | crash n => exact h.dropPulls n

/-- **The run lemma.** -/
theorem WinnerInv.run {site : N → Bytes} {σ : Net N} {ls : List (Action N)}
    (hr : Run (Net.Step fun _ : N => True) (Net.init site) ls σ) : WinnerInv σ :=
  hr.invariant (WinnerInv.init site) fun _ _ _ h hs => h.step hs

/-- No node has anything to pull: `pull_from` with the peer's current status stops at the cursor. -/
def Net.Quiescent (σ : Net N) : Prop :=
  ∀ b a, b ≠ a →
    ∃ v, beginPull (σ.db b) ⟨(σ.db a).status.1, (σ.db a).status.2⟩ = .upToDate v

/-- **Quiescence means convergence.** In every state that honest nodes with distinct site ids can
    reach, if no node has anything to pull, then all of them hold the same data in every cell. -/
theorem quiescent_converged {site : N → Bytes} (hsite : Function.Injective site) {σ : Net N}
    {ls : List (Action N)} (hr : Run (Net.Step fun _ : N => True) (Net.init site) ls σ)
    (hq : σ.Quiescent) (a b : N) : (σ.db a).view = (σ.db b).view := by
  refine (WinnerInv.run hr).winner.agree (fun b a k hown => ?_) a b
  obtain ⟨cell, hrow⟩ := hown
  by_cases hba : b = a
  · rw [hba]
  · have hcur : CursorInv site a σ :=
      CursorInv.run trivial (fun n _ hne he => hne (hsite he)) (Net.run_honest hr)
    -- the row is at or below `a`'s status, which is at or below `b`'s cursor for `a`
    obtain ⟨v, hv⟩ := hq b a hba
    obtain ⟨rfl, hle⟩ := beginPull_upToDate hv
    have hrowle := hrow.le_status.trans hle
    show (σ.db a).view k ≤ (σ.db b).view k
    rw [hrow.view_eq]
    refine hcur.taken b k cell hrow (hrowle.trans_eq ?_)
    exact congrArg (σ.db b).trackedPeerVersion (hcur.siteId a)

end Convergence

section Example
attribute [local instance] cellDataOrder

/-- Both nodes write the same cell; each pulls once from the other; the greater write wins. -/
theorem quiescent_converged_two_writers : ∃ σ : Net Bool,
    Run (Net.Step fun _ => True) (Net.init fun n => if n then [1] else [2])
      [.localTx true, .localTx false, .announce true, .announce false, .begin false true,
        .readStatus true, .begin true false, .readStatus false, .select false, .select true,
        .finish false true, .finish true false] σ ∧
    σ.Quiescent ∧
    (σ.db false).view ⟨"t", [], "c"⟩ = ((⟨1, 1, .integer 7⟩ : CellData) : WithBot CellData) ∧
    (σ.db true).view = (σ.db false).view := by
  let site : Bool → Bytes := fun n => if n then [1] else [2]
  let env : Database.TxEnv := ⟨2, none, none, fun _ _ => none, none, none⟩
  obtain ⟨σ, ls, hr, rfl, hq, hv⟩ : ∃ (σ : Net Bool) (ls : List (Action Bool)),
      Run (Net.Step fun _ => True) (Net.init site) ls σ ∧
      ls = [.localTx true, .localTx false, .announce true, .announce false, .begin false true,
        .readStatus true, .begin true false, .readStatus false, .select false, .select true,
        .finish false true, .finish true false] ∧ σ.Quiescent ∧
      (σ.db false).view ⟨"t", [], "c"⟩ = ((⟨1, 1, .integer 7⟩ : CellData) : WithBot CellData) :=
    ⟨_, _, .snoc (.snoc (.snoc (.snoc (.snoc (.snoc (.snoc (.snoc (.snoc (.snoc (.snoc (.snoc .nil
      (.localTx true
        (LocalTx.writeCell 1 ⟨"t", [], "c"⟩ ⟨1, 1, .integer 7⟩ 0 (by decide)
          (WithBot.bot_lt_coe _))))
      (.localTx false
        (LocalTx.writeCell 1 ⟨"t", [], "c"⟩ ⟨1, 1, .null⟩ 0 (by decide) (WithBot.bot_lt_coe _))))
      (.announce true trivial))
      (.announce false trivial))
      (.begin 0 false true ⟨[1], 1⟩ rfl (by decide) rfl))
      (.readStatus 0 rfl rfl trivial))
      (.begin 1 true false ⟨[2], 1⟩ rfl (by decide) rfl))
      (.readStatus 1 rfl rfl trivial))
      (.select 1 rfl rfl trivial))
      (.select 0 rfl rfl trivial))
      (.finish 0 env rfl rfl (by decide)))
      (.finish 1 env rfl rfl (by decide)), rfl,
      by
        intro b a hba
        cases b <;> cases a
        · exact absurd rfl hba
        · exact ⟨_, rfl⟩
        · exact ⟨_, rfl⟩
        · exact absurd rfl hba,
      rfl⟩
  refine ⟨σ, hr, hq, hv, quiescent_converged (fun a b h => ?_) hr hq true false⟩
  cases a <;> cases b <;> simp_all [site]

end Example

end Ddcp
