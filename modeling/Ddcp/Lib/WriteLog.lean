import Ddcp.Lib.Lts
import Ddcp.Lib.Registers
import Mathlib.Logic.Function.Basic
import Mathlib.Order.BoundedOrder.Lattice

set_option autoImplicit false

/-! # Writes that get around

Every node keeps a log of the writes it has made and one of the writes it has seen, each with its
author. A node writes what is news to it. A write goes from its author to another node directly, at
any time, in any company and any number of times; nobody hands on what it has from somebody else.

With registers for replicas, what a node `held` is the join of the writes it has seen; a delivery
joins what it brings (`held_see_self`). -/

open Lts

/-- The writes each node has made, and those it has seen and whose they are. -/
structure WriteLog (N W : Type) where
  wrote : N → List W
  seen : N → List (N × W)

inductive WriteAction (N W : Type) where
  | write (n : N) (ws : List W)
  | deliver (n author : N) (ws : List W)

namespace WriteLog

variable {N W : Type}

def empty : WriteLog N W := ⟨fun _ => [], fun _ => []⟩

variable [DecidableEq N]

def see (σ : WriteLog N W) (n author : N) (ws : List W) : WriteLog N W :=
  { σ with seen := Function.update σ.seen n (ws.map (author, ·) ++ σ.seen n) }

/-- A node sees what it writes. -/
def write (σ : WriteLog N W) (n : N) (ws : List W) : WriteLog N W :=
  { σ.see n n ws with wrote := Function.update σ.wrote n (ws ++ σ.wrote n) }

/-- `newer seen w`: to somebody who has seen these writes, `w` is news. -/
inductive Step (newer : List (N × W) → W → Prop) :
    WriteLog N W → WriteAction N W → WriteLog N W → Prop
  | write {σ : WriteLog N W} (n : N) (ws : List W) (h : ∀ w ∈ ws, newer (σ.seen n) w) :
      Step newer σ (.write n ws) (σ.write n ws)
  | deliver {σ : WriteLog N W} (n author : N) (ws : List W) (h : ∀ w ∈ ws, w ∈ σ.wrote author) :
      Step newer σ (.deliver n author ws) (σ.see n author ws)

variable {σ : WriteLog N W} {n m author : N} {w : W} {ws : List W}

@[simp] theorem see_wrote : (σ.see n author ws).wrote = σ.wrote := rfl

@[simp] theorem write_seen : (σ.write n ws).seen = (σ.see n n ws).seen := rfl

@[simp] theorem see_seen_self :
    (σ.see n author ws).seen n = ws.map (author, ·) ++ σ.seen n := Function.update_self ..

theorem see_seen_of_ne (h : m ≠ n) : (σ.see n author ws).seen m = σ.seen m :=
  Function.update_of_ne h ..

/-- What a delivery adds to the logs of writes seen. -/
theorem mem_see_seen_iff {e : N × W} : e ∈ (σ.see n author ws).seen m ↔
    (m = n ∧ e.1 = author ∧ e.2 ∈ ws) ∨ e ∈ σ.seen m := by
  by_cases hm : m = n
  · subst hm
    rw [see_seen_self, List.mem_append, List.mem_map]
    constructor
    · rintro (⟨w, hw, rfl⟩ | he)
      · exact Or.inl ⟨rfl, rfl, hw⟩
      · exact Or.inr he
    · rintro (⟨_, rfl, hw⟩ | he)
      · exact Or.inl ⟨e.2, hw, rfl⟩
      · exact Or.inr he
  · rw [see_seen_of_ne hm]
    simp [hm]

@[simp] theorem write_wrote_self : (σ.write n ws).wrote n = ws ++ σ.wrote n :=
  Function.update_self ..

theorem write_wrote_of_ne (h : m ≠ n) : (σ.write n ws).wrote m = σ.wrote m :=
  Function.update_of_ne h ..

/-- What a transaction adds to the logs of writes made. -/
theorem mem_write_wrote_iff : w ∈ (σ.write n ws).wrote m ↔ (m = n ∧ w ∈ ws) ∨ w ∈ σ.wrote m := by
  by_cases hm : m = n
  · subst hm
    simp
  · rw [write_wrote_of_ne hm]
    simp [hm]

end WriteLog

/-! ## Registers as replicas -/

namespace Registers

variable {K D : Type} [DecidableEq K] [LinearOrder D]

theorem joinAll_append (ws ws' : List (K × D)) :
    joinAll (ws ++ ws') = joinAll ws ⊔ joinAll ws' := by
  induction ws with
  | nil => exact (bot_sup_eq _).symm
  | cons w ws ih =>
      show single w.1 w.2 ⊔ joinAll (ws ++ ws') = _
      rw [ih, ← sup_assoc]
      rfl

end Registers

namespace WriteLog

variable {N K D : Type} [DecidableEq K] [LinearOrder D]

/-- What a node holds of the writes it has seen. -/
def held (σ : WriteLog N (K × D)) (n : N) : Registers K D :=
  Registers.joinAll ((σ.seen n).map Prod.snd)

/-- A write is news if it is above everything seen for its key. -/
def Newer (seen : List (N × (K × D))) (w : K × D) : Prop :=
  Registers.joinAll (seen.map Prod.snd) w.1 < (w.2 : WithBot D)

variable [DecidableEq N] {σ : WriteLog N (K × D)}

theorem held_see_self (n author : N) (ws : List (K × D)) :
    (σ.see n author ws).held n = Registers.joinAll ws ⊔ σ.held n := by
  rw [held, see_seen_self, List.map_append, Registers.joinAll_append, List.map_map]
  exact congrArg (Registers.joinAll · ⊔ σ.held n) (List.map_id ws)

theorem held_see_of_ne {n m : N} (h : m ≠ n) (author : N) (ws : List (K × D)) :
    (σ.see n author ws).held m = σ.held m := by
  rw [held, see_seen_of_ne h, held]

end WriteLog
