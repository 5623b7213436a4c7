import Mathlib.Logic.Relation
import Ddcp.Lib.Prog

set_option autoImplicit false

/-! # A resource shared with others

`Served answers others w tr w'`: a resource in state `w` answers the calls of the trace `tr` one
after another and is left in `w'`; before each call and after the last, `others` may change it any
number of times. An execution of a program with such a trace is one next to programs that use the
same resource. -/

namespace Prog

open Relation

variable {C : Type} {R : C → Type} {W : Type}

inductive Served (answers : W → (Σ c, R c) → W → Prop) (others : W → W → Prop) :
    W → List (Σ c, R c) → W → Prop
  | nil {w w' : W} (h : ReflTransGen others w w') : Served answers others w [] w'
  | cons {w w₀ w₁ w' : W} {e : Σ c, R c} {tr : List (Σ c, R c)} (hbefore : ReflTransGen others w w₀)
      (hanswer : answers w₀ e w₁) (hrest : Served answers others w₁ tr w') :
      Served answers others w (e :: tr) w'

variable {answers : W → (Σ c, R c) → W → Prop} {others : W → W → Prop} {w w' : W}
  {tr tr₁ tr₂ : List (Σ c, R c)} {e : Σ c, R c}

theorem served_nil_iff : Served answers others w [] w' ↔ ReflTransGen others w w' := by
  constructor
  · intro h
    cases h with
    | nil h => exact h
  · exact .nil

theorem served_cons_iff : Served answers others w (e :: tr) w' ↔ ∃ w₀ w₁,
    ReflTransGen others w w₀ ∧ answers w₀ e w₁ ∧ Served answers others w₁ tr w' := by
  constructor
  · intro h
    cases h with
    | cons h₀ h₁ h₂ => exact ⟨_, _, h₀, h₁, h₂⟩
  · rintro ⟨w₀, w₁, h₀, h₁, h₂⟩
    exact .cons h₀ h₁ h₂

/-- What the others do first belongs to the whole. -/
theorem Served.after {w₀ : W} (h₀ : ReflTransGen others w w₀)
    (h : Served answers others w₀ tr w') : Served answers others w tr w' := by
  cases h with
  | nil h => exact .nil (h₀.trans h)
  | cons h₁ h₂ h₃ => exact .cons (h₀.trans h₁) h₂ h₃

theorem served_append_iff : Served answers others w (tr₁ ++ tr₂) w' ↔ ∃ w₁,
    Served answers others w tr₁ w₁ ∧ Served answers others w₁ tr₂ w' := by
  induction tr₁ generalizing w with
  | nil =>
      constructor
      · intro h
        exact ⟨w, .nil .refl, h⟩
      · rintro ⟨w₁, h₁, h₂⟩
        exact h₂.after (served_nil_iff.1 h₁)
  | cons e tr₁ ih =>
      constructor
      · intro h
        obtain ⟨w₀, w₁, h₀, h₁, h₂⟩ := served_cons_iff.1 h
        obtain ⟨w₂, h₃, h₄⟩ := ih.1 h₂
        exact ⟨w₂, .cons h₀ h₁ h₃, h₄⟩
      · rintro ⟨w₂, h, h₄⟩
        obtain ⟨w₀, w₁, h₀, h₁, h₃⟩ := served_cons_iff.1 h
        exact .cons h₀ h₁ (ih.2 ⟨w₂, h₃, h₄⟩)

theorem Served.mono {answers' : W → (Σ c, R c) → W → Prop} (h : Served answers others w tr w')
    (hle : ∀ w e w', answers w e w' → answers' w e w') : Served answers' others w tr w' := by
  induction h with
  | nil h => exact .nil h
  | cons h₀ h₁ _ ih => exact .cons h₀ (hle _ _ _ h₁) ih

/-- Calls that leave the resource alone. -/
theorem Served.idle (h : Served answers others w tr w')
    (hidle : ∀ e ∈ tr, ∀ w w', answers w e w' → w' = w) : ReflTransGen others w w' := by
  induction h with
  | nil h => exact h
  | cons h₀ h₁ _ ih =>
      obtain rfl := hidle _ List.mem_cons_self _ _ h₁
      exact h₀.trans (ih fun e he => hidle e (List.mem_cons_of_mem _ he))

/-- A resource that no call changes, and nobody else. -/
theorem Served.of_idle (h : ∀ e ∈ tr, answers w e w) : Served answers others w tr w := by
  induction tr with
  | nil => exact .nil .refl
  | cons e tr ih =>
      exact .cons .refl (h e List.mem_cons_self) (ih fun e he => h e (List.mem_cons_of_mem _ he))

end Prog
