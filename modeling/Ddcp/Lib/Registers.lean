import Mathlib.Order.WithBot
import Mathlib.Order.Lattice
import Mathlib.Data.List.Perm.Basic

set_option autoImplicit false

/-! # Last-writer-wins registers

A replica is a family of registers indexed by keys: each register is empty or holds a value of a
linear order, and a greater value replaces a smaller one. As functions `K → WithBot D` replicas
form a join-semilattice, pointwise; offering a list of writes to a replica is joining it with
`joinAll` of that list, which does not depend on the order or the multiplicity of the writes.

The second half is about many replicas. A replica *owns* a key when the value it holds there is its
own write. `Winner` says that the greatest value of every non-empty register is still owned by some
replica; own writes and adoptions of other replicas' values keep it (`Winner.step`), and once every
replica has taken what the others own, all of them are equal (`Winner.agree`). -/

/-- A family of registers: `⊥` is an empty register. -/
abbrev Registers (K D : Type) := K → WithBot D

namespace Registers

variable {K D : Type} [DecidableEq K]

/-! ## One replica: offering writes -/

/-- One register holding `d`, all others empty. -/
def single (k : K) (d : D) : Registers K D :=
  fun k' => if k' = k then (d : WithBot D) else ⊥

@[simp] theorem single_self (k : K) (d : D) : single k d k = (d : WithBot D) := if_pos rfl

theorem single_of_ne {k k' : K} (h : k' ≠ k) (d : D) : single k d k' = ⊥ := if_neg h

variable [LinearOrder D]

theorem single_le_iff {k : K} {d : D} {s : Registers K D} :
    single k d ≤ s ↔ (d : WithBot D) ≤ s k := by
  constructor
  · intro h
    simpa using h k
  · intro h k'
    by_cases hk : k' = k
    · subst hk; simpa using h
    · rw [single_of_ne hk]; exact bot_le

/-- The join of a list of writes. -/
def joinAll : List (K × D) → Registers K D
  | [] => fun _ => ⊥
  | w :: ws => single w.1 w.2 ⊔ joinAll ws

theorem joinAll_le_iff {ws : List (K × D)} {s : Registers K D} :
    joinAll ws ≤ s ↔ ∀ w ∈ ws, (w.2 : WithBot D) ≤ s w.1 := by
  induction ws with
  | nil => exact ⟨fun _ w hw => absurd hw (by simp), fun _ _ => bot_le⟩
  | cons w ws ih => simp [joinAll, single_le_iff, ih]

theorem le_joinAll {ws : List (K × D)} {w : K × D} (h : w ∈ ws) :
    (w.2 : WithBot D) ≤ joinAll ws w.1 :=
  joinAll_le_iff.1 le_rfl w h

/-- What is above something at a key is a write to that key. -/
theorem lt_joinAll {ws : List (K × D)} {k : K} {d : D} (h : (d : WithBot D) < joinAll ws k) :
    ∃ w ∈ ws, w.1 = k ∧ d < w.2 := by
  by_contra hnone
  have hle : joinAll ws ≤ Function.update (joinAll ws) k (d : WithBot D) := by
    refine joinAll_le_iff.2 fun w hw => ?_
    by_cases hk : w.1 = k
    · rw [hk, Function.update_self]
      exact WithBot.coe_le_coe.2 (not_lt.1 fun hlt => hnone ⟨w, hw, hk, hlt⟩)
    · rw [Function.update_of_ne hk]
      exact le_joinAll hw
  have hk := hle k
  rw [Function.update_self] at hk
  exact absurd h (not_lt.2 hk)

/-! ## Many replicas: the winning write stays owned -/

variable {N : Type}

/-- The greatest value of every non-empty register is owned by some replica. -/
def Winner (view : N → Registers K D) (own : N → K → Prop) : Prop :=
  ∀ n k, view n k ≠ ⊥ → ∃ m, own m k ∧ ∀ n', view n' k ≤ view m k

omit [DecidableEq K] in
theorem Winner.empty (own : N → K → Prop) : Winner (fun _ _ => (⊥ : WithBot D)) own :=
  fun _ _ h => absurd rfl h

variable {view view' : N → Registers K D} {own own' : N → K → Prop}

omit [DecidableEq K] in
/-- How one replica may change: each of its registers is left alone, is written by the replica
    itself with a greater value, or adopts a greater value that is at most another replica's. -/
theorem Winner.step (hw : Winner view own) {n : N}
    (hothers : ∀ m, m ≠ n → view' m = view m ∧ own' m = own m)
    (hn : ∀ k, (view' n k = view n k ∧ (own n k → own' n k)) ∨
      (view n k < view' n k ∧ (own' n k ∨ ∃ m, m ≠ n ∧ view' n k ≤ view m k))) :
    Winner view' own' := by
  classical
  intro n' k hne
  -- the registers at `k` before and after, replica by replica
  have hmono : ∀ m, view m k ≤ view' m k := fun m => by
    by_cases hm : m = n
    · subst hm
      rcases hn k with ⟨h, _⟩ | ⟨h, _⟩
      · exact h.ge
      · exact h.le
    · exact ((congrFun (hothers m hm).1 k).symm).le
  -- a replica that still owns the greatest of the old values
  have hold : ∀ {m : N}, view m k ≠ ⊥ → ∃ w, own w k ∧ ∀ j, view j k ≤ view w k :=
    fun h => hw _ k h
  -- an old winner other than `n` stays a winner when `n` does not overtake it
  have hkeep : ∀ {w : N}, w ≠ n → own w k → (∀ j, view j k ≤ view w k) →
      view' n k ≤ view w k → ∃ m, own' m k ∧ ∀ j, view' j k ≤ view' m k := by
    intro w hwn hown hmax hle
    obtain ⟨hv, ho⟩ := hothers w hwn
    refine ⟨w, by rw [ho]; exact hown, fun j => ?_⟩
    rw [hv]
    by_cases hj : j = n
    · exact hj ▸ hle
    · rw [(hothers j hj).1]; exact hmax j
  rcases hn k with ⟨hsame, hown⟩ | ⟨hlt, hcase⟩
  · -- the register at `k` is untouched everywhere
    have hall : ∀ j, view' j k = view j k := fun j => by
      by_cases hj : j = n
      · exact hj ▸ hsame
      · rw [(hothers j hj).1]
    obtain ⟨w, hwo, hmax⟩ := hold (m := n') (by rw [← hall n']; exact hne)
    refine ⟨w, ?_, fun j => by rw [hall j, hall w]; exact hmax j⟩
    by_cases hwn : w = n
    · subst hwn; exact hown hwo
    · rw [(hothers w hwn).2]; exact hwo
  · rcases hcase with hown | ⟨m, hmn, hle⟩
    · -- `n` wrote: it wins, or the old winner does
      by_cases hmax : ∀ j, view' j k ≤ view' n k
      · exact ⟨n, hown, hmax⟩
      · obtain ⟨j, hj⟩ := not_forall.1 hmax
        have hjn : j ≠ n := fun h => hj (h ▸ le_rfl)
        have hjv : view' j k = view j k := congrFun (hothers j hjn).1 k
        have hlt' : view' n k < view j k := by rw [← hjv]; exact not_le.1 hj
        obtain ⟨w, hwo, hwmax⟩ := hold (m := j) (ne_bot_of_gt hlt')
        have hwn : w ≠ n := fun h => absurd (hwmax j) (by subst h; exact not_le.2 (hlt.trans hlt'))
        exact hkeep hwn hwo hwmax (hlt'.le.trans (hwmax j))
    · -- `n` adopted a value another replica still dominates
      obtain ⟨w, hwo, hwmax⟩ := hold (m := m) (ne_bot_of_gt (hlt.trans_le hle))
      have hwn : w ≠ n := fun h =>
        absurd (hwmax m) (by subst h; exact not_le.2 (hlt.trans_le hle))
      exact hkeep hwn hwo hwmax (hle.trans (hwmax m))

omit [DecidableEq K] in
/-- Once every replica has taken what the others own, all replicas are equal. -/
theorem Winner.agree (hw : Winner view own)
    (htaken : ∀ b a k, own a k → view a k ≤ view b k) (a b : N) : view a = view b := by
  have hle : ∀ a b : N, view a ≤ view b := fun a b k => by
    by_cases h : view a k = ⊥
    · rw [h]; exact bot_le
    · obtain ⟨m, hm, hmax⟩ := hw a k h
      exact (hmax a).trans (htaken b m k hm)
  exact le_antisymm (hle a b) (hle b a)

end Registers
