import Ddcp.Replication.Isolation
import Ddcp.Replication.Versions

set_option autoImplicit false

/-! # Who wrote a row

A merge stores the rows it takes under the site id of the answer, and an answer has only the
responder's own rows: nobody passes on what it has from somebody else. So the site id of a row names
the node that wrote it. `Attributed` is that invariant for one honest node `P`, with the relation
`H n w` ("`n` has `P`'s write `w`") left open; `Net.Carried` fills in that `P` wrote exactly this in
a transaction of its own, and that the node that holds it has completed a pull from `P` since. -/

namespace Ddcp

open Lts

/-! ## The rows after a merge -/

section Lookup
variable [LinearOrder CellData]

namespace Database

variable {db : Database} {version : Int64} {siteId : Bytes} {k : CellKey} {cell : Cell}

/-- A row after an insert was there before, or is the change. -/
theorem lookup_insertChange {c : Change}
    (h : (db.insertChange version siteId c).cells.lookup k = some cell) :
    db.cells.lookup k = some cell ∨
      (cell.siteId = some siteId ∧ (k, cell.data) = (c.key, c.data)) := by
  rcases insertChange_cases db version siteId c with ⟨he, _⟩ | ⟨he, _⟩
  · exact Or.inl (he ▸ h)
  · rw [he] at h
    by_cases hk : k = c.key
    · subst hk
      rw [AList.lookup_insert, Option.some.injEq] at h
      subst h
      exact Or.inr ⟨rfl, rfl⟩
    · rw [AList.lookup_insert_ne hk] at h
      exact Or.inl h

theorem lookup_insertAll {changes : List Change}
    (h : (db.insertAll version siteId changes).cells.lookup k = some cell) :
    db.cells.lookup k = some cell ∨
      (cell.siteId = some siteId ∧ (k, cell.data) ∈ writes changes) := by
  induction changes generalizing db with
  | nil => exact Or.inl h
  | cons c rest ih =>
      rcases ih h with hold | ⟨hs, hw⟩
      · rcases lookup_insertChange hold with hold | ⟨hs, hw⟩
        · exact Or.inl hold
        · exact Or.inr ⟨hs, hw ▸ List.mem_cons_self⟩
      · exact Or.inr ⟨hs, List.mem_cons_of_mem _ hw⟩

theorem lookup_merge {env : TxEnv} {changes : List Change}
    (h : (db.merge env siteId changes).2.cells.lookup k = some cell) :
    db.cells.lookup k = some cell ∨
      (cell.siteId = some siteId ∧ (k, cell.data) ∈ writes changes) := by
  rcases merge_cases env siteId changes db with ⟨e, he⟩ | he
  · rw [he] at h
    exact Or.inl h
  · rw [he] at h
    exact lookup_insertAll h

end Database

/-- The rows a pull brings carry the peer's site id, and are rows of its answer. -/
theorem lookup_finishPull {env : Database.TxEnv} {st : Status} {resp : ChangesResponse}
    {db : Database} {k : CellKey} {cell : Cell}
    (h : (finishPull env st resp db).2.cells.lookup k = some cell) :
    db.cells.lookup k = some cell ∨
      (cell.siteId = some st.siteId ∧ (k, cell.data) ∈ Database.writes resp.changes) := by
  rcases finishPull_cases env st resp db with hsame | ⟨hs, _, hm⟩
  · rw [hsame] at h
    exact Or.inl h
  · rw [hm, hs] at h
    exact Database.lookup_merge h

end Lookup

/-! ## The invariant -/

section Attributed
variable {N : Type}

/-- Every row of `P`'s own, every row under `P`'s site id at any node, and every row `P` has sent is
    one of `P`'s writes. -/
structure Attributed (site : N → Bytes) (P : N) (H : N → CellKey × CellData → Prop) (σ : Net N) :
    Prop where
  own : ∀ k cell, (σ.db P).LocalRow k cell → H P (k, cell.data)
  stored : ∀ n k cell, (σ.db n).cells.lookup k = some cell → cell.siteId = some (site P) →
    H n (k, cell.data)
  sent : ∀ i p resp, σ.pulls i = some p → p.server = P → p.phase = .answered resp →
    ∀ w ∈ Database.writes resp.changes, H P w

variable {site : N → Bytes} {P : N} {H H' : N → CellKey × CellData → Prop}

theorem Attributed.init : Attributed site P H (Net.init site) where
  own _ _ h := absurd h Database.not_localRow_new
  stored _ _ _ h := absurd h (by simp [Net.init, Database.new])
  sent _ _ _ h := absurd h (by simp [Net.init])

theorem Attributed.mono {σ : Net N} (h : Attributed site P H σ) (hle : ∀ n w, H n w → H' n w) :
    Attributed site P H' σ where
  own k cell hrow := hle _ _ (h.own k cell hrow)
  stored n k cell hl hs := hle _ _ (h.stored n k cell hl hs)
  sent i p resp hp hs hr w hw := hle _ _ (h.sent i p resp hp hs hr w hw)

/-- A pull may be dropped or moved on, as long as the answer put in its place has `P`'s writes. -/
theorem Attributed.setPull {σ : Net N} (h : Attributed site P H σ) (i : Nat) {p : Option (Pull N)}
    (hp : ∀ q resp, p = some q → q.server = P → q.phase = .answered resp →
      ∀ w ∈ Database.writes resp.changes, H P w) : Attributed site P H (σ.setPull i p) where
  own := h.own
  stored := h.stored
  sent j q resp hq hs hr := by
    rcases Net.setPull_some hq with ⟨_, he⟩ | hold
    · exact hp q resp he hs hr
    · exact h.sent j q resp hold hs hr

variable [DecidableEq N]

theorem Attributed.dropPulls {σ : Net N} (h : Attributed site P H σ) (n : N) :
    Attributed site P H (σ.dropPulls n) where
  own := h.own
  stored := h.stored
  sent i p resp hp hs hr := by
    simp only [Net.dropPulls, Option.filter_eq_some_iff] at hp
    exact h.sent i p resp hp.1 hs hr

/-- The invariant survives a change of one database, if every row that is new there and is `P`'s own
    or under `P`'s site id is one of `P`'s writes. -/
theorem Attributed.setDb {σ : Net N} (h : Attributed site P H σ) {n : N} {db' : Database}
    (hown : ∀ k cell, n = P → db'.LocalRow k cell → ¬ (σ.db P).LocalRow k cell →
      H P (k, cell.data))
    (hstored : ∀ k cell, db'.cells.lookup k = some cell → (σ.db n).cells.lookup k ≠ some cell →
      cell.siteId = some (site P) → H n (k, cell.data)) :
    Attributed site P H (σ.setDb n db') where
  own k cell hrow := by
    by_cases hold : (σ.db P).LocalRow k cell
    · exact h.own k cell hold
    · by_cases hn : P = n
      · subst hn
        rw [Net.setDb_db_self] at hrow
        exact hown k cell rfl hrow hold
      · rw [Net.setDb_db_of_ne hn] at hrow
        exact absurd hrow hold
  stored m k cell hl hs := by
    by_cases hm : m = n
    · subst hm
      rw [Net.setDb_db_self] at hl
      by_cases hold : (σ.db m).cells.lookup k = some cell
      · exact h.stored m k cell hold hs
      · exact hstored k cell hl hold hs
    · rw [Net.setDb_db_of_ne hm] at hl
      exact h.stored m k cell hl hs
  sent := h.sent

variable [LinearOrder CellData]

/-- **The step lemma.** A step keeps the invariant, if `P`'s transactions and the pulls from `P`
    are recorded. -/
theorem Attributed.step {honest : N → Prop} (hP : honest P) {σ σ' : Net N} {l : Action N}
    (hinv : CursorInv site P σ) (h : Attributed site P H σ) (hs : Net.Step honest σ l σ')
    (hle : ∀ n w, H n w → H' n w)
    (hwrite : ∀ k cell, l = .localTx P → (σ'.db P).LocalRow k cell →
      ¬ (σ.db P).LocalRow k cell → H' P (k, cell.data))
    (hpull : ∀ n k cell, l = .finish n P → (σ'.db n).cells.lookup k = some cell →
      (σ.db n).cells.lookup k ≠ some cell → H P (k, cell.data) → H' n (k, cell.data)) :
    Attributed site P H' σ' := by
  have h' : Attributed site P H' σ := h.mono hle
  cases hs with
  | @localTx n db' htx =>
      refine h'.setDb (fun k cell hn hrow hnew => ?_) fun k cell hl hnew hsite => ?_
      · subst hn
        exact hwrite k cell rfl (by rwa [Net.setDb_db_self]) hnew
      · -- what a transaction writes is local
        rcases htx.cells k with hk | ⟨cell', hk, hnone, _⟩
        · exact absurd (hk ▸ hl) hnew
        · rw [hl, Option.some.injEq] at hk
          rw [hk, hnone] at hsite
          exact absurd hsite (by simp)
  | announce n hn => exact ⟨h'.own, h'.stored, h'.sent⟩
  | forgeStatus n st hn => exact ⟨h'.own, h'.stored, h'.sent⟩
  | begin i client server st hfree hst hbegin =>
      refine h'.setPull i fun q resp hq _ hr => ?_
      obtain rfl := Option.some.inj hq
      simp at hr
  | readStatus i hp hphase hn =>
      refine h'.setPull i fun q resp hq _ hr => ?_
      obtain rfl := Option.some.inj hq
      simp at hr
  | @select i p status hp hphase hn =>
      refine h'.setPull i fun q resp hq hserver hr w hw => ?_
      obtain rfl := Option.some.inj hq
      obtain rfl : p.server = P := hserver
      simp only [PullPhase.answered.injEq] at hr
      rw [← hr] at hw
      obtain ⟨c, hc, rfl⟩ := List.mem_map.1 hw
      obtain ⟨k, cell, hrow, _, rfl⟩ := mem_answerChanges hc
      rw [Cell.toChange_key, Cell.toChange_data]
      exact h'.own k cell hrow
  | @forgeAnswer i p resp hp hphase hn =>
      refine h'.setPull i fun q resp hq hserver hr => ?_
      obtain rfl := Option.some.inj hq
      obtain rfl : p.server = P := hserver
      exact absurd hP hn
  | @finish i p resp env hp hphase henv =>
      refine (h'.setDb (fun k cell hn hrow hnew => ?_) fun k cell hl hnew hsite => ?_).setPull i
        fun q resp hq => absurd hq (by simp)
      · -- no pull writes a local row
        rcases lookup_finishPull hrow.1 with hold | ⟨hsome, _⟩
        · exact absurd ⟨hn ▸ hold, hrow.2⟩ hnew
        · rw [hrow.2] at hsome
          exact absurd hsome (by simp)
      · rcases lookup_finishPull hl with hold | ⟨hsome, hw⟩
        · exact absurd hold hnew
        · -- the row came in an answer under `P`'s site id, so `P` gave it
          rw [hsite, Option.some.injEq] at hsome
          have hserver : p.server = P := (hinv.pulls i p hp).1.1 hsome.symm
          refine hpull _ k cell (by rw [hserver]) ?_ hnew (h.sent i p resp hp hserver hphase _ hw)
          show ((σ.setDb p.client _).db p.client).cells.lookup k = some cell
          rwa [Net.setDb_db_self]
  | fail i hp => exact h'.setPull i fun q resp hq => absurd hq (by simp)
  | crash n => exact h'.dropPulls n

end Attributed

/-! ## Every row was written by the node it names -/

section Carried
variable {N : Type} [DecidableEq N] [LinearOrder CellData]

/-- Along the run `ls` the node `P` wrote `d` into the cell `k`, in a transaction in which it was
    newer than what `P` held; and `n` is `P`, or has completed a pull from `P` since. -/
def Net.Carried (honest : N → Prop) (site : N → Bytes) (P : N) (ls : List (Action N)) (n : N)
    (k : CellKey) (d : CellData) : Prop :=
  ∃ ls₁ ls₂ σ₁ σ₂, ls = ls₁ ++ .localTx P :: ls₂ ∧
    Run (Net.Step honest) (Net.init site) ls₁ σ₁ ∧ Net.Step honest σ₁ (.localTx P) σ₂ ∧
    (σ₁.db P).view k < (d : WithBot CellData) ∧
    (∃ cell, (σ₂.db P).LocalRow k cell ∧ cell.data = d) ∧ (n = P ∨ .finish n P ∈ ls₂)

variable {honest : N → Prop} {site : N → Bytes} {P : N}

theorem Net.Carried.snoc {ls : List (Action N)} {n : N} {k : CellKey} {d : CellData}
    (h : Net.Carried honest site P ls n k d) (l : Action N) :
    Net.Carried honest site P (ls ++ [l]) n k d := by
  obtain ⟨ls₁, ls₂, σ₁, σ₂, rfl, hr, hs, hlt, hrow, hn⟩ := h
  refine ⟨ls₁, ls₂ ++ [l], σ₁, σ₂, by simp, hr, hs, hlt, hrow, hn.imp_right fun hmem => ?_⟩
  exact List.mem_append_left _ hmem

/-- What `P` wrote is carried by a node that completes a pull from `P`. -/
theorem Net.Carried.pull {ls : List (Action N)} {k : CellKey} {d : CellData}
    (h : Net.Carried honest site P ls P k d) (n : N) :
    Net.Carried honest site P (ls ++ [.finish n P]) n k d := by
  obtain ⟨ls₁, ls₂, σ₁, σ₂, rfl, hr, hs, hlt, hrow, _⟩ := h
  exact ⟨ls₁, ls₂ ++ [.finish n P], σ₁, σ₂, by simp, hr, hs, hlt, hrow, Or.inr (by simp)⟩

/-- A row that is local after a transaction and was not before is written by it. -/
theorem Net.Carried.write {ls : List (Action N)} {σ σ' : Net N}
    (hr : Run (Net.Step honest) (Net.init site) ls σ) (hs : Net.Step honest σ (.localTx P) σ')
    {k : CellKey} {cell : Cell} (hrow : (σ'.db P).LocalRow k cell)
    (hnew : ¬ (σ.db P).LocalRow k cell) :
    Net.Carried honest site P (ls ++ [.localTx P]) P k cell.data := by
  refine ⟨ls, [], σ, σ', rfl, hr, hs, ?_, ⟨cell, hrow, rfl⟩, Or.inl rfl⟩
  cases hs with
  | @localTx _ db' htx =>
      rw [Net.setDb_db_self] at hrow
      rcases htx.cells k with hk | ⟨cell', hk, _, _, hlt⟩
      · exact absurd ⟨hk ▸ hrow.1, hrow.2⟩ hnew
      · rw [hrow.1, Option.some.injEq] at hk
        rwa [hk]

/-- **The run lemma.** -/
theorem Attributed.run (hP : honest P) (hsite : ∀ n, honest n → n ≠ P → site n ≠ site P) {σ : Net N}
    {ls : List (Action N)}
    (hr : Run (guarded (Net.Step honest) fun _ l => ¬ ForgesSite site P l) (Net.init site) ls σ) :
    Attributed site P (fun n w => Net.Carried honest site P ls n w.1 w.2) σ := by
  have hguard : ∀ {σ σ' : Net N} {l : Action N},
      guarded (Net.Step honest) (fun _ l => ¬ ForgesSite site P l) σ l σ' →
      guarded (Net.Step honest) (fun _ l => ∀ n st, l = .forgeStatus n st → st.siteId ≠ site P)
        σ l σ' := fun hs =>
    ⟨fun n st hl he => by subst hl; exact hs.1 he, hs.2⟩
  induction hr with
  | nil => exact Attributed.init
  | @snoc ls σ σ' l hr hs ih =>
      have hinv : CursorInv site P σ := CursorInv.run hP hsite (hr.mono fun _ _ _ => hguard)
      refine ih.step hP hinv hs.2 (fun n w hw => hw.snoc l) (fun k cell hl hrow hnew => ?_)
        fun n k cell hl _ _ hw => ?_
      · subst hl
        exact Net.Carried.write hr.of_guarded hs.2 hrow hnew
      · subst hl
        exact hw.pull n

/-- **A row is a write of the node whose site id it carries.** Whatever the other nodes publish
    under site ids of their own and answer, in every state reached by any interleaving: a row that
    some database holds under the honest node `P`'s site id, and a local row of `P`, has the data
    that `P` itself wrote into that cell in one of its transactions, in which it was the newest `P`
    knew; and a node that holds such a row has completed a pull from `P` since. -/
theorem row_written_by_site (hP : honest P) (hsite : ∀ n, honest n → n ≠ P → site n ≠ site P)
    {σ : Net N} {ls : List (Action N)}
    (hr : Run (guarded (Net.Step honest) fun _ l => ¬ ForgesSite site P l) (Net.init site) ls σ)
    {n : N} {k : CellKey} {cell : Cell} (hrow : (σ.db n).cells.lookup k = some cell)
    (hfrom : cell.siteId = some (site P) ∨ (n = P ∧ cell.siteId = none)) :
    Net.Carried honest site P ls n k cell.data := by
  have h := Attributed.run hP hsite hr
  rcases hfrom with hs | ⟨rfl, hs⟩
  · exact h.stored n k cell hrow hs
  · exact h.own k cell ⟨hrow, hs⟩

end Carried

section Example
attribute [local instance] cellDataOrder

/-- Node 2 answers under another site id than it has published; node 0 has node 1's write. -/
theorem row_written_by_site_mismatched_answer : ∃ (σ : Net (Fin 3)) (ls : List (Action (Fin 3))),
    ls = [.localTx 1, .announce 1, .forgeStatus 2 ⟨[2], 9⟩, .begin 0 2, .forgeAnswer 2,
      .finish 0 2, .begin 0 1, .readStatus 1, .select 1, .finish 0 1] ∧
    Run (guarded (Net.Step fun n : Fin 3 => n ≠ 2)
        fun _ l => ¬ ForgesSite (fun n : Fin 3 => [UInt8.ofNat n]) 1 l)
      (Net.init fun n => [UInt8.ofNat n]) ls σ ∧
    (σ.db 0).cells.lookup ⟨"t", [], "c"⟩ = some ⟨⟨1, 1, .null⟩, 1, 0, some [1]⟩ ∧
    Net.Carried (fun n : Fin 3 => n ≠ 2) (fun n => [UInt8.ofNat n]) 1 ls 0 ⟨"t", [], "c"⟩
      ⟨1, 1, .null⟩ := by
  let site : Fin 3 → Bytes := fun n => [UInt8.ofNat n]
  let honest : Fin 3 → Prop := fun n => n ≠ 2
  let env : Database.TxEnv := ⟨1, none, none, fun _ _ => none, none, none⟩
  obtain ⟨σ, ls, hr, hls, hrow⟩ : ∃ (σ : Net (Fin 3)) (ls : List (Action (Fin 3))),
      Run (guarded (Net.Step honest) fun _ l => ¬ ForgesSite site 1 l) (Net.init site) ls σ ∧
      ls = [.localTx 1, .announce 1, .forgeStatus 2 ⟨[2], 9⟩, .begin 0 2, .forgeAnswer 2,
        .finish 0 2, .begin 0 1, .readStatus 1, .select 1, .finish 0 1] ∧
      (σ.db 0).cells.lookup ⟨"t", [], "c"⟩ = some ⟨⟨1, 1, .null⟩, 1, 0, some [1]⟩ :=
    ⟨_, _, .snoc_guarded (.snoc_guarded (.snoc_guarded (.snoc_guarded (.snoc_guarded
        (.snoc_guarded (.snoc_guarded (.snoc_guarded (.snoc_guarded (.snoc_guarded .nil
      (.localTx 1 (LocalTx.writeCell 1 ⟨"t", [], "c"⟩ ⟨1, 1, .null⟩ 0 (by decide)
        (WithBot.bot_lt_coe _))) id)
      (.announce 1 (by decide)) id)
      (.forgeStatus 2 ⟨[2], 9⟩ (by decide)) (by decide : ([2] : Bytes) ≠ [1]))
      (.begin 0 0 2 ⟨[2], 9⟩ rfl (by decide) rfl) id)
      (.forgeAnswer 0 ⟨[1], [⟨"t", [], "c", .integer 3, 4, 9, 1, 0⟩]⟩ rfl rfl (by decide)) id)
      (.finish 0 env rfl rfl (by decide)) id)
      (.begin 1 0 1 ⟨[1], 1⟩ rfl (by decide) rfl) id)
      (.readStatus 1 rfl rfl (by decide)) id)
      (.select 1 rfl rfl (by decide)) id)
      (.finish 1 env rfl rfl (by decide)) id, rfl, by decide⟩
  have hsite : ∀ n, honest n → n ≠ 1 → site n ≠ site 1 := by decide
  exact ⟨σ, ls, hls, hr, hrow,
    row_written_by_site (by decide : honest 1) hsite hr hrow (Or.inl rfl)⟩

end Example

end Ddcp
