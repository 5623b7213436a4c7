import Ddcp.Replication.Cursor

set_option autoImplicit false

/-! # Cursors and peers that lie

The cursor table is keyed by the site id alone, and the site id a peer publishes is not bound to its
DHT key: `pull_from` only checks that a peer answers under the site id it has published itself. So a
peer may publish another peer's site id and move that peer's cursor (`cursor_forged`). A peer that
publishes any other site id cannot, whatever else it publishes and answers (`cursor_isolated`). -/

namespace Ddcp

open Lts

/-- A status with `P`'s site id, published by another node. -/
def ForgesSite {N : Type} (site : N → Bytes) (P : N) : Action N → Prop
  | .forgeStatus _ st => st.siteId = site P
  | _ => False

section Isolation
variable {N : Type} [DecidableEq N] [LinearOrder CellData]

/-- As long as nobody forges a status with `P`'s site id, `b`'s cursor for `P` is moved only by
    `b`'s pulls from `P`, and everything `P` exports at or below it has been taken by `b`. -/
theorem cursor_isolated {site : N → Bytes} {honest : N → Prop} {P : N} (hP : honest P)
    (hsite : ∀ n, honest n → n ≠ P → site n ≠ site P) {σ : Net N} {ls : List (Action N)}
    (hr : Run (guarded (Net.Step honest) fun _ l => ¬ ForgesSite site P l) (Net.init site) ls σ)
    (b : N) : σ.Taken b P ∧ ∀ l σ', Net.Step honest σ l σ' →
      (σ'.db b).trackedPeerVersion (site P) ≠ (σ.db b).trackedPeerVersion (site P) →
      l = .finish b P := by
  have h : CursorInv site P σ := by
    refine CursorInv.run hP hsite (hr.mono fun σ l σ' hs => ⟨fun n st hl he => ?_, hs.2⟩)
    subst hl
    exact hs.1 he
  refine ⟨fun k cell hrow hv => ?_, fun l σ' hs hmoved => h.cursor_step hs hmoved⟩
  rw [h.siteId P] at hv
  exact h.taken b k cell hrow hv

end Isolation

section Example
attribute [local instance] cellDataOrder

/-- Node 0 pulls from the honest node 1, and from node 2, which publishes a high version under its
    own site id and answers under node 1's. -/
theorem cursor_isolated_mismatched_answer : ∃ σ : Net (Fin 3),
    Run (guarded (Net.Step fun n : Fin 3 => n ≠ 2)
        fun _ l => ¬ ForgesSite (fun n : Fin 3 => [UInt8.ofNat n]) 1 l)
      (Net.init fun n => [UInt8.ofNat n])
      [.localTx 1, .announce 1, .forgeStatus 2 ⟨[2], 9⟩, .begin 0 2, .forgeAnswer 2, .finish 0 2,
        .begin 0 1, .readStatus 1, .select 1, .finish 0 1] σ ∧
    (σ.db 0).trackedPeerVersion [1] = 1 ∧ σ.Taken 0 1 := by
  let site : Fin 3 → Bytes := fun n => [UInt8.ofNat n]
  let honest : Fin 3 → Prop := fun n => n ≠ 2
  let env : Database.TxEnv := ⟨1, none, none, fun _ _ => none, none, none⟩
  obtain ⟨σ, ls, hr, rfl, hv⟩ : ∃ (σ : Net (Fin 3)) (ls : List (Action (Fin 3))),
      Run (guarded (Net.Step honest) fun _ l => ¬ ForgesSite site 1 l) (Net.init site) ls σ ∧
      ls = [.localTx 1, .announce 1, .forgeStatus 2 ⟨[2], 9⟩, .begin 0 2, .forgeAnswer 2,
        .finish 0 2, .begin 0 1, .readStatus 1, .select 1, .finish 0 1] ∧
      (σ.db 0).trackedPeerVersion [1] = 1 :=
    ⟨_, _, .snoc_guarded (.snoc_guarded (.snoc_guarded (.snoc_guarded (.snoc_guarded (.snoc_guarded
        (.snoc_guarded (.snoc_guarded (.snoc_guarded (.snoc_guarded .nil
      (.localTx 1 (LocalTx.writeCell 1 ⟨"t", [], "c"⟩ ⟨1, 1, .null⟩ 0 (by decide)
        (WithBot.bot_lt_coe _))) id)
      (.announce 1 (by decide)) id)
      (.forgeStatus 2 ⟨[2], 9⟩ (by decide)) (by decide : ([2] : Bytes) ≠ [1]))
      (.begin 0 0 2 ⟨[2], 9⟩ rfl (by decide) rfl) id)
      (.forgeAnswer 0 ⟨[1], []⟩ rfl rfl (by decide)) id)
      (.finish 0 env rfl rfl (by decide)) id)
      (.begin 1 0 1 ⟨[1], 1⟩ rfl (by decide) rfl) id)
      (.readStatus 1 rfl rfl (by decide)) id)
      (.select 1 rfl rfl (by decide)) id)
      (.finish 1 env rfl rfl (by decide)) id, rfl, by decide⟩
  have hsite : ∀ n, honest n → n ≠ 1 → site n ≠ site 1 := by decide
  exact ⟨σ, hr, hv, (cursor_isolated (by decide : honest 1) hsite hr 0).1⟩

/-- Node 2 publishes node 1's site id with version 5 and answers with one change of version 5. After
    node 0's pull from node 2 its cursor for node 1 is 5: node 1's write is not taken, and
    `pull_from` with node 1's status finds nothing to do. -/
theorem cursor_forged : ∃ (σ σ' : Net (Fin 3)) (ls : List (Action (Fin 3))) (k : CellKey)
    (cell : Cell),
    Run (Net.Step fun n : Fin 3 => n ≠ 2) (Net.init fun n => [UInt8.ofNat n]) ls σ ∧
    Net.Step (fun n => n ≠ 2) σ (.finish 0 2) σ' ∧
    (σ.db 0).trackedPeerVersion [1] = 0 ∧ (σ'.db 0).trackedPeerVersion [1] = 5 ∧
    (σ'.db 1).LocalRow k cell ∧ cell.dbVersion = 1 ∧ (σ'.db 0).view k = ⊥ ∧
    beginPull (σ'.db 0) ⟨(σ'.db 1).status.1, (σ'.db 1).status.2⟩ = .upToDate 5 := by
  let resp : ChangesResponse := ⟨[1], [⟨"t", [7], "c", .null, 1, 5, 1, 0⟩]⟩
  exact ⟨_, _, _, ⟨"t", [], "c"⟩, ⟨⟨1, 1, .null⟩, 1, 0, none⟩,
    .snoc (.snoc (.snoc (.snoc .nil
      (.localTx 1
        (LocalTx.writeCell 1 ⟨"t", [], "c"⟩ ⟨1, 1, .null⟩ 0 (by decide) (WithBot.bot_lt_coe _))))
      (.forgeStatus 2 ⟨[1], 5⟩ (by decide)))
      (.begin 0 0 2 ⟨[1], 5⟩ rfl (by decide) rfl))
      (.forgeAnswer 0 resp rfl rfl (by decide)),
    .finish (p := ⟨0, 2, ⟨[1], 5⟩, 0, .answered resp⟩) 0
      ⟨1, none, none, fun _ _ => none, none, none⟩ rfl rfl (by decide),
    by decide, by decide, ⟨rfl, rfl⟩, rfl, rfl, by decide⟩

end Example

end Ddcp
