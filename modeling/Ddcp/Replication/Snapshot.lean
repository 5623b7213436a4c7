import Ddcp.Replication.Progress
import Ddcp.Replication.Provenance

set_option autoImplicit false

/-! # Transactions arrive whole

A pull asks for all rows above a version, and all rows of a transaction have the same one; but rows
are replaced, at the peer by later transactions and by its own pulls, and a pull only gets what is
there when the query runs. What a reader can rely on is this: a node that has one write of a
transaction of `P` has everything that `P` had written by then, except where `P` has since given
its own row up for another node's (`transaction_arrives_whole`).

`Dated` says that `P`'s writes into the cell of that one write carry the transaction's version at
least, so that a node that has taken one has moved its cursor past the transaction; `Covered`, for
any other cell, that whoever has moved the cursor there holds the data or something greater. -/

namespace Ddcp

open Lts

/-! ## What a step can do -/

section Steps
variable {N : Type} [DecidableEq N] [LinearOrder CellData]
variable {honest : N → Prop} {σ σ' : Net N} {l : Action N}

/-- A step leaves a database alone, or it is a transaction there, or the end of a pull. -/
theorem Net.Step.db_cases (hs : Net.Step honest σ l σ') (n : N) :
    σ'.db n = σ.db n ∨ LocalTx (σ.db n) (σ'.db n) ∨
    ∃ i p resp env, σ.pulls i = some p ∧ p.client = n ∧ p.phase = .answered resp ∧
      σ'.db n = (finishPull env p.status resp (σ.db n)).2 := by
  cases hs with
  | @localTx m db' htx =>
      by_cases hn : n = m
      · subst hn
        rw [Net.setDb_db_self]
        exact Or.inr (Or.inl htx)
      · exact Or.inl (Net.setDb_db_of_ne hn _)
  | @finish i p resp env hp hphase henv =>
      change (σ.setDb p.client _).db n = _ ∨ LocalTx _ ((σ.setDb p.client _).db n) ∨
        ∃ i q resp env, _ ∧ _ ∧ _ ∧ (σ.setDb p.client _).db n = _
      by_cases hn : n = p.client
      · subst hn
        rw [Net.setDb_db_self]
        exact Or.inr (Or.inr ⟨i, p, resp, env, hp, rfl, hphase, rfl⟩)
      · exact Or.inl (Net.setDb_db_of_ne hn _)
  | announce => exact Or.inl rfl
  | forgeStatus => exact Or.inl rfl
  | begin => exact Or.inl rfl
  | readStatus => exact Or.inl rfl
  | select => exact Or.inl rfl
  | forgeAnswer => exact Or.inl rfl
  | fail => exact Or.inl rfl
  | crash => exact Or.inl rfl

/-- An answer in flight was there before, or has just been given by its server, honestly or not. -/
theorem Net.Step.answered_cases (hs : Net.Step honest σ l σ') {i : Nat} {p : Pull N}
    {resp : ChangesResponse} (hp : σ'.pulls i = some p) (hphase : p.phase = .answered resp) :
    σ.pulls i = some p ∨ ¬ honest p.server ∨
    (σ'.db = σ.db ∧ ∃ status, resp = answerChanges (σ.db p.server) status p.sinceDbVersion) := by
  cases hs with
  | @select j q status hq _ hn =>
      rcases Net.setPull_some hp with ⟨_, he⟩ | hold
      · obtain rfl := Option.some.inj he
        simp only [PullPhase.answered.injEq] at hphase
        exact Or.inr (Or.inr ⟨rfl, status, hphase.symm⟩)
      · exact Or.inl hold
  | @forgeAnswer j q resp' hq _ hn =>
      rcases Net.setPull_some hp with ⟨_, he⟩ | hold
      · obtain rfl := Option.some.inj he
        exact Or.inr (Or.inl hn)
      · exact Or.inl hold
  | begin j =>
      rcases Net.setPull_some hp with ⟨_, he⟩ | hold
      · obtain rfl := Option.some.inj he
        simp at hphase
      · exact Or.inl hold
  | readStatus j =>
      rcases Net.setPull_some hp with ⟨_, he⟩ | hold
      · obtain rfl := Option.some.inj he
        simp at hphase
      · exact Or.inl hold
  | finish j =>
      rcases Net.setPull_some hp with ⟨_, he⟩ | hold
      · exact absurd he (by simp)
      · exact Or.inl hold
  | fail j =>
      rcases Net.setPull_some hp with ⟨_, he⟩ | hold
      · exact absurd he (by simp)
      · exact Or.inl hold
  | crash n =>
      simp only [Net.dropPulls, Option.filter_eq_some_iff] at hp
      exact Or.inl hp.1
  | localTx => exact Or.inl hp
  | announce => exact Or.inl hp
  | forgeStatus => exact Or.inl hp

end Steps

/-! ## The invariants -/

section Invariants
variable {N : Type} [LinearOrder CellData]

/-- `P` has given its row for the cell `k` up for another node's, which is above `d`. -/
def Net.Overtaken (σ : Net N) (P : N) (k : CellKey) (d : CellData) : Prop :=
  ∃ cell, (σ.db P).cells.lookup k = some cell ∧ cell.siteId ≠ none ∧ d < cell.data

variable (site : N → Bytes) (P : N) (u : Int64) (k : CellKey) (d : CellData)

/-- What `P` has written into `k` from `d` on has the version `u` or a later one. -/
structure Dated (σ : Net N) : Prop where
  clock : u ≤ (σ.db P).clock
  own : ∀ cell, (σ.db P).LocalRow k cell → d ≤ cell.data → u ≤ cell.dbVersion
  sent : ∀ i p resp, σ.pulls i = some p → p.server = P → p.phase = .answered resp →
    ∀ e, (k, e) ∈ Database.writes resp.changes → d ≤ e → u ≤ Database.maxDbVersion resp.changes
  stored : ∀ n cell, (σ.db n).cells.lookup k = some cell → cell.siteId = some (site P) →
    d ≤ cell.data → u ≤ (σ.db n).trackedPeerVersion (site P)

/-- `P` has had `d` in `k` since its version `u`, and so has everyone who has pulled that far. -/
structure Covered (σ : Net N) : Prop where
  own : (d : WithBot CellData) ≤ (σ.db P).view k
  foreign : ∀ cell, (σ.db P).cells.lookup k = some cell → cell.siteId ≠ none → d < cell.data
  held : ∀ n, u ≤ (σ.db n).trackedPeerVersion (site P) → (d : WithBot CellData) ≤ (σ.db n).view k
  sent : ∀ i p resp, σ.pulls i = some p → p.server = P → p.phase = .answered resp →
    u ≤ Database.maxDbVersion resp.changes → (d : WithBot CellData) ≤
      ((σ.db p.client).view ⊔ Registers.joinAll (Database.writes resp.changes)) k

variable {site P u k d} [DecidableEq N] {honest : N → Prop} {σ σ' : Net N} {l : Action N}

omit [DecidableEq N] in
/-- Where a database has something in a cell, there is a row. -/
theorem Database.exists_row {db : Database} (h : (d : WithBot CellData) ≤ db.view k) :
    ∃ cell, db.cells.lookup k = some cell ∧ d ≤ cell.data := by
  cases hl : db.cells.lookup k with
  | none =>
      rw [Database.view_of_lookup_none hl] at h
      exact absurd h (not_le.2 (WithBot.bot_lt_coe d))
  | some cell =>
      rw [Database.view_of_lookup hl] at h
      exact ⟨cell, rfl, WithBot.coe_le_coe.1 h⟩

/-- **The step lemma for `Dated`.** -/
theorem Dated.step (hP : honest P) (hinv : CursorInv site P σ) (h : Dated site P u k d σ)
    (hs : Net.Step honest σ l σ') : Dated site P u k d σ' where
  clock := h.clock.trans (hs.advances P).clock
  own cell hrow hle := by
    rcases (hs.advances P).row k cell hrow with hold | ⟨hnew, _⟩
    · exact h.own cell hold hle
    · exact h.clock.trans hnew.le
  sent i p resp hp hserver hphase e he hle := by
    rcases hs.answered_cases hp hphase with hold | hforged | ⟨_, status, rfl⟩
    · exact h.sent i p resp hold hserver hphase e he hle
    · exact absurd (hserver ▸ hP) hforged
    · obtain ⟨c, hc, hce⟩ := List.mem_map.1 he
      obtain ⟨k', cell, hrow, _, rfl⟩ := mem_answerChanges hc
      obtain ⟨rfl, rfl⟩ := Prod.mk.inj hce
      rw [hserver] at hrow
      rw [Cell.toChange_data] at hle
      exact (h.own cell hrow hle).trans (Database.dbVersion_le_maxDbVersion hc)
  stored n cell hl hfrom hle := by
    have hold : (σ.db n).cells.lookup k = some cell → u ≤ (σ'.db n).trackedPeerVersion (site P) :=
      fun hold => (h.stored n cell hold hfrom hle).trans (hs.cursor_le n (site P))
    rcases hs.db_cases n with hsame | htx | ⟨i, p, resp, env, hp, rfl, hphase, hdb⟩
    · exact hold (hsame ▸ hl)
    · -- what a transaction writes is local
      rcases htx.cells k with hk | ⟨cell', hk, hnone, _⟩
      · exact hold (hk ▸ hl)
      · rw [hl, Option.some.injEq] at hk
        rw [hk, hnone] at hfrom
        exact absurd hfrom (by simp)
    · rcases finishPull_cases env p.status resp (σ.db p.client) with hsame | ⟨hsite, ⟨v, hv⟩, hm⟩
      · exact hold (by rwa [hdb, hsame] at hl)
      · rw [hdb, hm] at hl ⊢
        rcases Database.lookup_merge hl with hl | ⟨hs', hw⟩
        · rw [← hm, ← hdb]
          exact hold hl
        · -- the row came in an answer under `P`'s site id, so `P` gave it
          have hresp : resp.siteId = site P := Option.some.inj (hs'.symm.trans hfrom)
          have hserver : p.server = P := (hinv.pulls i p hp).1.1 (hsite.symm.trans hresp)
          rw [← hresp, Database.trackedPeerVersion_merge_ok hv]
          exact le_max_of_le_right (h.sent i p resp hp hserver hphase cell.data hw hle)

/-- A row that another node's has taken the place of was less. -/
theorem Covered.foreign_finishPull {db : Database} {env : Database.TxEnv} {st : Status}
    {resp : ChangesResponse} (hle : (d : WithBot CellData) ≤ db.view k)
    (hforeign : ∀ cell, db.cells.lookup k = some cell → cell.siteId ≠ none → d < cell.data)
    {cell : Cell} (hl : (finishPull env st resp db).2.cells.lookup k = some cell)
    (hs : cell.siteId ≠ none) : d < cell.data := by
  obtain ⟨old, hold, hd⟩ := Database.exists_row hle
  have hview : (finishPull env st resp db).2.view k = (cell.data : WithBot CellData) :=
    Database.view_of_lookup hl
  rcases finishPull_register env st resp db k with ⟨hsame, hlocal⟩ | ⟨hlt, _⟩
  · by_cases hnone : old.siteId = none
    · -- a row that stays what it is stays local
      obtain ⟨cell', hl', hnone'⟩ := hlocal ⟨old, hold, hnone⟩
      rw [hl, Option.some.injEq] at hl'
      exact absurd (hl' ▸ hnone') hs
    · rw [hview, Database.view_of_lookup hold] at hsame
      exact WithBot.coe_inj.1 hsame ▸ hforeign old hold hnone
  · rw [hview] at hlt
    exact WithBot.coe_lt_coe.1 (lt_of_le_of_lt hle hlt)

omit [LinearOrder CellData] in
/-- An answer that has anything has every local row above the requested version. -/
theorem mem_writes_answerChanges {db : Database} {status : Bytes × Int64} {since : Int64}
    {cell : Cell} (hpos : 0 < Database.maxDbVersion (answerChanges db status since).changes)
    (hrow : db.LocalRow k cell) (hlt : since < cell.dbVersion) :
    (k, cell.data) ∈ Database.writes (answerChanges db status since).changes := by
  unfold answerChanges at hpos ⊢
  split at hpos
  · exact absurd hpos (lt_irrefl 0)
  · rename_i hnot
    rw [if_neg hnot]
    exact List.mem_map.2 ⟨cell.toChange k, Database.mem_select.2 ⟨k, cell, hrow, hlt, rfl⟩,
      Prod.ext rfl (Cell.toChange_data k cell)⟩

/-- **The step lemma for `Covered`**, as long as `P` has not given its row up. -/
theorem Covered.step (hP : honest P) (hinv : CursorInv site P σ) (hinv' : CursorInv site P σ')
    (h : Covered site P u k d σ) (hu : 0 < u) (hs : Net.Step honest σ l σ')
    (hnot : ¬ σ.Overtaken P k d) : Covered site P u k d σ' where
  own := h.own.trans ((hs.advances P).view k)
  foreign cell hl hsome := by
    rcases hs.db_cases P with hsame | htx | ⟨i, p, resp, env, _, _, _, hdb⟩
    · exact h.foreign cell (hsame ▸ hl) hsome
    · rcases htx.cells k with hk | ⟨cell', hk, hnone, _⟩
      · exact h.foreign cell (hk ▸ hl) hsome
      · rw [hl, Option.some.injEq] at hk
        exact absurd (hk ▸ hnone) hsome
    · exact Covered.foreign_finishPull h.own h.foreign (hdb ▸ hl) hsome
  held n hcursor := by
    have hold : u ≤ (σ.db n).trackedPeerVersion (site P) →
        (d : WithBot CellData) ≤ (σ'.db n).view k :=
      fun hold => (h.held n hold).trans ((hs.advances n).view k)
    rcases hs.db_cases n with hsame | htx | ⟨i, p, resp, env, hp, rfl, hphase, hdb⟩
    · exact hold (hsame ▸ hcursor)
    · exact hold (htx.trackedPeerVersion (site P) ▸ hcursor)
    · rcases finishPull_cases env p.status resp (σ.db p.client) with hsame | ⟨hsite, ⟨v, hv⟩, hm⟩
      · exact hold (by rwa [hdb, hsame] at hcursor)
      · by_cases hresp : site P = resp.siteId
        · have hserver : p.server = P := (hinv.pulls i p hp).1.1 (hsite.symm.trans hresp.symm)
          rw [hdb, hm, hresp, Database.trackedPeerVersion_merge_ok hv, ← hresp] at hcursor
          rcases le_max_iff.1 hcursor with hle | hle
          · exact hold hle
          · rw [hdb, hm, Database.view_merge_ok hv]
            exact h.sent i p resp hp hserver hphase hle
        · rw [hdb, hm, Database.trackedPeerVersion_merge_of_ne hresp] at hcursor
          exact hold hcursor
  sent i p resp hp hserver hphase hle := by
    rcases hs.answered_cases hp hphase with hold | hforged | ⟨hdb, status, rfl⟩
    · exact (h.sent i p resp hold hserver hphase hle).trans
        (sup_le_sup_right ((hs.advances p.client).view k) _)
    · exact absurd (hserver ▸ hP) hforged
    · -- the row is still local when the query runs: it is above the cursor, or held already
      obtain ⟨cell, hl, hd⟩ := Database.exists_row h.own
      have hrow : (σ.db P).LocalRow k cell :=
        ⟨hl, by_contra fun hsome => hnot ⟨cell, hl, hsome, h.foreign cell hl hsome⟩⟩
      rw [hserver] at hle ⊢
      by_cases hlt : p.sinceDbVersion < cell.dbVersion
      · have hmem := mem_writes_answerChanges (lt_of_lt_of_le hu hle) hrow hlt
        exact le_sup_of_le_right ((WithBot.coe_le_coe.2 hd).trans (Registers.le_joinAll hmem))
      · have hsince := ((hinv'.pulls i p hp).2 hserver).since_le
        have htaken := hinv'.taken p.client k cell (hdb ▸ hrow) ((not_lt.1 hlt).trans hsince)
        exact le_sup_of_le_left ((WithBot.coe_le_coe.2 hd).trans htaken)

/-! ## After a transaction -/

/-- Whatever is about of `P`'s is not above what `P` has. -/
theorem Attributed.view_run (hP : honest P) (hsite : ∀ n, honest n → n ≠ P → site n ≠ site P)
    {ls : List (Action N)}
    (hr : Run (guarded (Net.Step honest) fun _ l => ¬ ForgesSite site P l) (Net.init site) ls σ) :
    CursorInv site P σ ∧
      Attributed site P (fun _ w => (w.2 : WithBot CellData) ≤ (σ.db P).view w.1) σ := by
  refine hr.invariant (I := fun σ => CursorInv site P σ ∧
    Attributed site P (fun _ w => (w.2 : WithBot CellData) ≤ (σ.db P).view w.1) σ)
    ⟨CursorInv.init, Attributed.init⟩ fun σ l σ' ⟨hinv, h⟩ hs => ⟨?_, ?_⟩
  · refine hinv.step hP hsite hs.2 fun n st hl he => ?_
    subst hl
    exact hs.1 he
  · refine h.step hP hinv hs.2 (fun n w hw => hw.trans ((hs.2.advances P).view w.1)) ?_ ?_
    · intro k cell _ hrow _
      exact hrow.view_eq.ge
    · intro n k cell _ _ _ hw
      exact hw.trans ((hs.2.advances P).view k)

variable {σ₀ σ₁ : Net N} {cell : Cell}

/-- A write of a transaction carries the version that the transaction ends with. -/
theorem Net.Step.written (htx : Net.Step honest σ₀ (.localTx P) σ₁)
    (hrow : (σ₁.db P).LocalRow k cell) (hnew : ¬ (σ₀.db P).LocalRow k cell) :
    cell.dbVersion = (σ₁.db P).clock ∧ (σ₀.db P).view k < (cell.data : WithBot CellData) := by
  cases htx with
  | @localTx _ db' htx =>
      rw [Net.setDb_db_self] at hrow ⊢
      rcases htx.cells k with hk | ⟨cell', hk, _, hv, hlt⟩
      · exact absurd ⟨hk ▸ hrow.1, hrow.2⟩ hnew
      · rw [hrow.1, Option.some.injEq] at hk
        rw [hk]
        exact ⟨hv, hlt⟩

/-- Nobody else notices a transaction. -/
theorem Net.Step.localTx_others (htx : Net.Step honest σ₀ (.localTx P) σ₁) :
    σ₁.pulls = σ₀.pulls ∧ (σ₀.db P).clock < (σ₁.db P).clock ∧
      (∀ n siteId, (σ₁.db n).trackedPeerVersion siteId = (σ₀.db n).trackedPeerVersion siteId) ∧
      ∀ n, n ≠ P → σ₁.db n = σ₀.db n := by
  cases htx with
  | @localTx _ db' htx =>
      refine ⟨rfl, by rw [Net.setDb_db_self]; exact htx.fresh, fun n siteId => ?_, fun n hn =>
        Net.setDb_db_of_ne hn db'⟩
      by_cases hn : n = P
      · subst hn
        rw [Net.setDb_db_self, htx.trackedPeerVersion]
      · rw [Net.setDb_db_of_ne hn]

/-- What a transaction writes is dated with it. -/
theorem Dated.of_written (hinv : CursorInv site P σ₀)
    (h : Attributed site P (fun _ w => (w.2 : WithBot CellData) ≤ (σ₀.db P).view w.1) σ₀)
    (htx : Net.Step honest σ₀ (.localTx P) σ₁) (hrow : (σ₁.db P).LocalRow k cell)
    (hnew : ¬ (σ₀.db P).LocalRow k cell) :
    Dated site P (σ₁.db P).clock k cell.data σ₁ := by
  obtain ⟨hversion, hlt⟩ := htx.written hrow hnew
  obtain ⟨hpulls, _, _, hother⟩ := htx.localTx_others
  -- nothing that was about of `P`'s in this cell was as great
  have hnone : ∀ e : CellData, (e : WithBot CellData) ≤ (σ₀.db P).view k → ¬ cell.data ≤ e :=
    fun e he hle => absurd (lt_of_le_of_lt he hlt) (not_lt.2 (WithBot.coe_le_coe.2 hle))
  refine ⟨le_rfl, fun cell' hrow' _ => ?_, fun i p resp hp hserver hphase e he hle => ?_,
    fun n cell' hl hfrom hle => ?_⟩
  · obtain rfl : cell = cell' := Option.some.inj (hrow.1.symm.trans hrow'.1)
    exact hversion.ge
  · exact absurd hle (hnone e (h.sent i p resp (hpulls ▸ hp) hserver hphase _ he))
  · by_cases hn : n = P
    · subst hn
      obtain rfl : cell = cell' := Option.some.inj (hrow.1.symm.trans hl)
      rw [hrow.2] at hfrom
      exact absurd hfrom (by simp)
    · rw [hother n hn] at hl
      exact absurd hle (hnone _ (h.stored n k cell' hl hfrom))

/-- Nobody has pulled as far as a transaction that has just been made. -/
theorem Covered.of_localRow (hinv : CursorInv site P σ₀) (htx : Net.Step honest σ₀ (.localTx P) σ₁)
    (hrow : (σ₁.db P).LocalRow k cell) : Covered site P (σ₁.db P).clock k cell.data σ₁ := by
  obtain ⟨hpulls, hfresh, hcursor, _⟩ := htx.localTx_others
  refine ⟨hrow.view_eq.ge, fun cell' hl hsome => ?_, fun n hle => ?_,
    fun i p resp hp hserver hphase hle => ?_⟩
  · obtain rfl : cell = cell' := Option.some.inj (hrow.1.symm.trans hl)
    exact absurd hrow.2 hsome
  · rw [hcursor n (site P)] at hle
    exact absurd (hle.trans (hinv.cursor n)) (not_le.2 hfresh)
  · rw [hpulls] at hp
    have hcomplete := ((hinv.pulls i p hp).2 hserver).complete resp hphase
    exact absurd (hle.trans hcomplete.clock) (not_le.2 hfresh)

/-- **Transactions arrive whole.** Take any run of a net in which nobody forges `P`'s site id, a
    transaction of `P` in it, and a node that at the end has one of its writes, or a later write of
    `P`'s in that cell. For every row `P` had of its own when the transaction was made, be it from
    this one or an earlier one, the node then holds this or something greater, or in the meantime
    `P` has given the row up for another node's, which was greater. -/
theorem transaction_arrives_whole (hP : honest P)
    (hsite : ∀ n, honest n → n ≠ P → site n ≠ site P) {ls ls' : List (Action N)}
    (hr : Run (guarded (Net.Step honest) fun _ l => ¬ ForgesSite site P l) (Net.init site) ls σ₀)
    (htx : Net.Step honest σ₀ (.localTx P) σ₁)
    (hr' : Run (guarded (Net.Step honest) fun _ l => ¬ ForgesSite site P l) σ₁ ls' σ)
    (hrow : (σ₁.db P).LocalRow k cell) (hnew : ¬ (σ₀.db P).LocalRow k cell) {n : N} {row : Cell}
    (hl : (σ.db n).cells.lookup k = some row) (hfrom : row.siteId = some (site P))
    (hle : cell.data ≤ row.data) {k' : CellKey} {cell' : Cell}
    (hrow' : (σ₁.db P).LocalRow k' cell') :
    (cell'.data : WithBot CellData) ≤ (σ.db n).view k' ∨
      ∃ ls₁ ls₂ σ₂, ls' = ls₁ ++ ls₂ ∧ Run (Net.Step honest) σ₁ ls₁ σ₂ ∧
        σ₂.Overtaken P k' cell'.data ∧ Run (Net.Step honest) σ₂ ls₂ σ := by
  obtain ⟨hinv, hattr⟩ := Attributed.view_run hP hsite hr
  have hkeep : ∀ {τ τ' : Net N} {l : Action N}, CursorInv site P τ →
      guarded (Net.Step honest) (fun _ l => ¬ ForgesSite site P l) τ l τ' → CursorInv site P τ' :=
    fun {τ τ' l} h hs => h.step hP hsite hs.2 fun n st hl he => by
      subst hl
      exact hs.1 he
  have hinv₁ : CursorInv site P σ₁ := hkeep hinv ⟨id, htx⟩
  have hpos : 0 < (σ₁.db P).clock :=
    lt_of_le_of_lt hinv.clocked.nonneg htx.localTx_others.2.1
  -- the node has one of the writes, so its cursor is not below the transaction
  have hdated : CursorInv site P σ ∧ Dated site P (σ₁.db P).clock k cell.data σ :=
    hr'.invariant (I := fun τ => CursorInv site P τ ∧ Dated site P (σ₁.db P).clock k cell.data τ)
      ⟨hinv₁, Dated.of_written hinv hattr htx hrow hnew⟩
      fun τ l τ' h hs => ⟨hkeep h.1 hs, h.2.step hP h.1 hs.2⟩
  have hcursor := hdated.2.stored n row hl hfrom hle
  rcases hr'.meets_or_guarded (fun τ => τ.Overtaken P k' cell'.data) with
    ⟨ls₁, ls₂, σ₂, rfl, h₁, hover, h₂⟩ | hnever
  · exact Or.inr ⟨ls₁, ls₂, σ₂, rfl, h₁.of_guarded, hover, h₂.of_guarded⟩
  · have hcovered : CursorInv site P σ ∧ Covered site P (σ₁.db P).clock k' cell'.data σ :=
      hnever.invariant
        (I := fun τ => CursorInv site P τ ∧ Covered site P (σ₁.db P).clock k' cell'.data τ)
        ⟨hinv₁, Covered.of_localRow hinv htx hrow'⟩
        fun τ l τ' h hs => ⟨hkeep h.1 hs.2,
          h.2.step hP h.1 (hkeep h.1 hs.2) hpos hs.2.2 hs.1⟩
    exact Or.inl (hcovered.2.held n hcursor)

end Invariants

section Example
attribute [local instance] cellDataOrder

/-- The exception is real. Node 1 writes `b` and asks node 2, which has written `b` as well. Then it
    writes `c`, gets node 2's greater `b`, and announces `c`; node 0 pulls from it, and has `c` and
    nothing in `b`. -/
theorem transaction_arrives_whole_torn : ∃ σ₀ σ₁ σ : Net (Fin 3),
    Run (guarded (Net.Step fun _ => True)
        fun _ l => ¬ ForgesSite (fun n : Fin 3 => [UInt8.ofNat n]) 1 l)
      (Net.init fun n => [UInt8.ofNat n])
      [.localTx 1, .localTx 2, .announce 2, .begin 1 2, .readStatus 2, .select 2] σ₀ ∧
    Net.Step (fun _ => True) σ₀ (.localTx 1) σ₁ ∧
    Run (guarded (Net.Step fun _ => True)
        fun _ l => ¬ ForgesSite (fun n : Fin 3 => [UInt8.ofNat n]) 1 l) σ₁
      [.finish 1 2, .announce 1, .begin 0 1, .readStatus 1, .select 1, .finish 0 1] σ ∧
    (σ₁.db 1).LocalRow ⟨"t", [], "b"⟩ ⟨⟨1, 1, .null⟩, 1, 0, none⟩ ∧
    (σ₁.db 1).LocalRow ⟨"t", [], "c"⟩ ⟨⟨1, 1, .null⟩, 2, 0, none⟩ ∧
    (σ₀.db 1).view ⟨"t", [], "c"⟩ = ⊥ ∧
    (σ.db 0).cells.lookup ⟨"t", [], "c"⟩ = some ⟨⟨1, 1, .null⟩, 1, 0, some [1]⟩ ∧
    (σ.db 0).view ⟨"t", [], "b"⟩ = ⊥ ∧
    ∃ ls₁ ls₂ σ₂,
      [.finish 1 2, .announce 1, .begin 0 1, .readStatus 1, .select 1, .finish 0 1] = ls₁ ++ ls₂ ∧
      Run (Net.Step fun _ => True) σ₁ ls₁ σ₂ ∧
      σ₂.Overtaken 1 ⟨"t", [], "b"⟩ ⟨1, 1, .null⟩ ∧ Run (Net.Step fun _ => True) σ₂ ls₂ σ := by
  let site : Fin 3 → Bytes := fun n => [UInt8.ofNat n]
  let honest : Fin 3 → Prop := fun _ => True
  let env (version : Int64) : Database.TxEnv := ⟨version, none, none, fun _ _ => none, none, none⟩
  obtain ⟨σ₀, σ₁, σ, ls, ls', hr, htx, hr', rfl, rfl, hb, hc, hnew, hrow, hnone⟩ :
      ∃ (σ₀ σ₁ σ : Net (Fin 3)) (ls ls' : List (Action (Fin 3))),
      Run (guarded (Net.Step honest) fun _ l => ¬ ForgesSite site 1 l) (Net.init site) ls σ₀ ∧
      Net.Step honest σ₀ (.localTx 1) σ₁ ∧
      Run (guarded (Net.Step honest) fun _ l => ¬ ForgesSite site 1 l) σ₁ ls' σ ∧
      ls = [.localTx 1, .localTx 2, .announce 2, .begin 1 2, .readStatus 2, .select 2] ∧
      ls' = [.finish 1 2, .announce 1, .begin 0 1, .readStatus 1, .select 1, .finish 0 1] ∧
      (σ₁.db 1).LocalRow ⟨"t", [], "b"⟩ ⟨⟨1, 1, .null⟩, 1, 0, none⟩ ∧
      (σ₁.db 1).LocalRow ⟨"t", [], "c"⟩ ⟨⟨1, 1, .null⟩, 2, 0, none⟩ ∧
      (σ₀.db 1).view ⟨"t", [], "c"⟩ = ⊥ ∧
      (σ.db 0).cells.lookup ⟨"t", [], "c"⟩ = some ⟨⟨1, 1, .null⟩, 1, 0, some [1]⟩ ∧
      (σ.db 0).view ⟨"t", [], "b"⟩ = ⊥ :=
    ⟨_, _, _, _, _, .snoc_guarded (.snoc_guarded (.snoc_guarded (.snoc_guarded (.snoc_guarded
        (.snoc_guarded .nil
      (.localTx 1 (LocalTx.writeCell 1 ⟨"t", [], "b"⟩ ⟨1, 1, .null⟩ 0 (by decide)
        (WithBot.bot_lt_coe _))) id)
      (.localTx 2 (LocalTx.writeCell 1 ⟨"t", [], "b"⟩ ⟨1, 2, .null⟩ 0 (by decide)
        (WithBot.bot_lt_coe _))) id)
      (.announce 2 trivial) id)
      (.begin 0 1 2 ⟨[2], 1⟩ rfl (by decide) rfl) id)
      (.readStatus 0 rfl rfl trivial) id)
      (.select 0 rfl rfl trivial) id,
      .localTx 1 (LocalTx.writeCell 2 ⟨"t", [], "c"⟩ ⟨1, 1, .null⟩ 0 (by decide)
        (WithBot.bot_lt_coe _)),
      .snoc_guarded (.snoc_guarded (.snoc_guarded (.snoc_guarded (.snoc_guarded
        (.snoc_guarded .nil
      (.finish 0 (env 3) rfl rfl (by decide)) id)
      (.announce 1 trivial) id)
      (.begin 0 0 1 ⟨[1], 2⟩ rfl (by decide) rfl) id)
      (.readStatus 0 rfl rfl trivial) id)
      (.select 0 rfl rfl trivial) id)
      (.finish 0 (env 1) rfl rfl (by decide)) id,
      rfl, rfl, ⟨by decide, rfl⟩, ⟨by decide, rfl⟩, rfl, by decide, rfl⟩
  have hsite : ∀ n, honest n → n ≠ 1 → site n ≠ site 1 := by decide
  have hwritten : ¬ (σ₀.db 1).LocalRow ⟨"t", [], "c"⟩ ⟨⟨1, 1, .null⟩, 2, 0, none⟩ := fun h => by
    rw [h.view_eq] at hnew
    exact absurd hnew (WithBot.coe_ne_bot)
  refine ⟨σ₀, σ₁, σ, hr, htx, hr', hb, hc, hnew, hrow, hnone, ?_⟩
  rcases transaction_arrives_whole (trivial : honest 1) hsite hr htx hr' hc hwritten hrow rfl le_rfl
    hb with hle | hover
  · rw [hnone] at hle
    exact absurd hle (not_le.2 (WithBot.bot_lt_coe _))
  · exact hover

end Example

end Ddcp
