import Mathlib.Data.List.Induction
import Mathlib.Order.Basic

set_option autoImplicit false

/-! # Labelled transition systems and their runs

A system is a labelled step relation `S → L → S → Prop`. `Lts.Run` is a finite run with its labels
in the order they were performed; `Lts.guarded` keeps the steps whose source state and label meet a
condition, so that "a run whose steps all meet the condition" is a run of the guarded relation. The
two rules used everywhere are `Run.invariant` (a step-preserved predicate holds along every run)
and `Run.mono` (a run of a smaller relation is a run of a larger one). `Simulates` relates two
systems of which the one is a refinement of the other. -/

namespace Lts

variable {S L : Type}

/-- Finite runs from `s₀`, labels oldest first. -/
inductive Run (step : S → L → S → Prop) (s₀ : S) : List L → S → Prop
  | nil : Run step s₀ [] s₀
  | snoc {ls : List L} {s s' : S} {l : L} :
      Run step s₀ ls s → step s l s' → Run step s₀ (ls ++ [l]) s'

/-- The steps whose source state and label meet a condition. -/
def guarded (step : S → L → S → Prop) (cond : S → L → Prop) : S → L → S → Prop :=
  fun s l s' => cond s l ∧ step s l s'

variable {step : S → L → S → Prop} {s₀ s : S} {ls : List L}

/-- A predicate that holds initially and is preserved by every step holds along every run. -/
theorem Run.invariant {I : S → Prop} (hr : Run step s₀ ls s) (h0 : I s₀)
    (hstep : ∀ s l s', I s → step s l s' → I s') : I s := by
  induction hr with
  | nil => exact h0
  | snoc _ hs ih => exact hstep _ _ _ ih hs

/-- The invariant rule for a predicate that also reads the labels performed so far. -/
theorem Run.history_invariant {I : List L → S → Prop} (hr : Run step s₀ ls s) (h0 : I [] s₀)
    (hstep : ∀ ls s l s', I ls s → step s l s' → I (ls ++ [l]) s') : I ls s := by
  induction hr with
  | nil => exact h0
  | snoc _ hs ih => exact hstep _ _ _ _ ih hs

theorem Run.mono {step' : S → L → S → Prop} (hle : ∀ s l s', step s l s' → step' s l s')
    (hr : Run step s₀ ls s) : Run step' s₀ ls s := by
  induction hr with
  | nil => exact .nil
  | snoc _ hs ih => exact .snoc ih (hle _ _ _ hs)

theorem Run.of_guarded {cond : S → L → Prop} (hr : Run (guarded step cond) s₀ ls s) :
    Run step s₀ ls s :=
  hr.mono fun _ _ _ h => h.2

theorem Run.snoc_guarded {cond : S → L → Prop} {s' : S} {l : L}
    (hr : Run (guarded step cond) s₀ ls s) (hs : step s l s') (hc : cond s l) :
    Run (guarded step cond) s₀ (ls ++ [l]) s' :=
  .snoc hr ⟨hc, hs⟩

theorem Run.trans {s' : S} {ls' : List L} (hr : Run step s₀ ls s) (hr' : Run step s ls' s') :
    Run step s₀ (ls ++ ls') s' := by
  induction hr' with
  | nil => simpa using hr
  | snoc _ hs ih => rw [← List.append_assoc]; exact .snoc ih hs

theorem Run.cons {s' : S} {l : L} (hs : step s₀ l s) (hr : Run step s ls s') :
    Run step s₀ (l :: ls) s' :=
  Run.trans (.snoc .nil hs) hr

/-- The invariant rule for a predicate that only the steps of this run have to preserve. -/
theorem Run.invariant_of_mem {I : S → Prop} (hr : Run step s₀ ls s) (h0 : I s₀)
    (hstep : ∀ s l s', l ∈ ls → I s → step s l s' → I s') : I s := by
  induction hr with
  | nil => exact h0
  | snoc _ hs ih =>
      refine hstep _ _ _ (List.mem_append_right _ List.mem_cons_self) (ih fun s l s' hl => ?_) hs
      exact hstep s l s' (List.mem_append_left _ hl)

/-- A run meets a state with `Q` before its end, or all its steps start from states without. -/
theorem Run.meets_or_guarded (Q : S → Prop) (hr : Run step s₀ ls s) :
    (∃ ls₁ ls₂ s₁, ls = ls₁ ++ ls₂ ∧ Run step s₀ ls₁ s₁ ∧ Q s₁ ∧ Run step s₁ ls₂ s) ∨
    Run (guarded step fun s _ => ¬ Q s) s₀ ls s := by
  induction hr with
  | nil => exact Or.inr .nil
  | @snoc ls s s' l hr hs ih =>
      rcases ih with ⟨ls₁, ls₂, s₁, rfl, h₁, hq, h₂⟩ | hg
      · exact Or.inl ⟨ls₁, ls₂ ++ [l], s₁, by simp, h₁, hq, .snoc h₂ hs⟩
      · by_cases hq : Q s
        · exact Or.inl ⟨ls, [l], s, rfl, hr, hq, .snoc .nil hs⟩
        · exact Or.inr (hg.snoc_guarded hs hq)

theorem Run.split {ls₁ ls₂ : List L} (hr : Run step s₀ (ls₁ ++ ls₂) s) :
    ∃ s₁, Run step s₀ ls₁ s₁ ∧ Run step s₁ ls₂ s := by
  induction ls₂ using List.reverseRecOn generalizing s with
  | nil => exact ⟨s, by simpa using hr, .nil⟩
  | append_singleton ls₂ l ih =>
      rw [← List.append_assoc] at hr
      generalize hls : ls₁ ++ ls₂ ++ [l] = ls at hr
      cases hr with
      | nil => exact absurd hls (by simp)
      | snoc hr hs =>
          obtain ⟨rfl, hl⟩ := List.append_inj' hls rfl
          obtain rfl := List.cons.inj hl |>.1
          obtain ⟨s₁, h₁, h₂⟩ := ih hr
          exact ⟨s₁, h₁, .snoc h₂ hs⟩

/-- The step with a given label in the middle of a run, and what came before and after it. -/
theorem Run.split_at {ls₁ ls₂ : List L} {l : L} (hr : Run step s₀ (ls₁ ++ l :: ls₂) s) :
    ∃ s₁ s₂, Run step s₀ ls₁ s₁ ∧ step s₁ l s₂ ∧ Run step s₂ ls₂ s := by
  rw [List.append_cons] at hr
  obtain ⟨s₂, h₁, h₂⟩ := hr.split
  generalize hls : ls₁ ++ [l] = ls at h₁
  cases h₁ with
  | nil => exact absurd hls (by simp)
  | snoc h₁ hs =>
      obtain ⟨rfl, hl⟩ := List.append_inj' hls rfl
      obtain rfl := List.cons.inj hl |>.1
      exact ⟨_, s₂, h₁, hs, h₂⟩

/-! ## Simulations -/

section Simulation
variable {T K O : Type} {step' : T → K → T → Prop} {obs : L → List O} {obs' : K → List O}
  {R : S → T → Prop}

/-- Every step from related states is matched by a run with the same observations. -/
def Simulates (step : S → L → S → Prop) (step' : T → K → T → Prop) (obs : L → List O)
    (obs' : K → List O) (R : S → T → Prop) : Prop :=
  ∀ s t l s', R s t → step s l s' →
    ∃ ks t', Run step' t ks t' ∧ ks.flatMap obs' = obs l ∧ R s' t'

/-- So is every run. -/
theorem Simulates.run (h : Simulates step step' obs obs' R) {t₀ : T} (h0 : R s₀ t₀)
    (hr : Run step s₀ ls s) :
    ∃ ks t, Run step' t₀ ks t ∧ ks.flatMap obs' = ls.flatMap obs ∧ R s t := by
  induction hr with
  | nil => exact ⟨[], t₀, .nil, rfl, h0⟩
  | snoc _ hs ih =>
      obtain ⟨ks, t, hr, hobs, hR⟩ := ih
      obtain ⟨ks', t', hr', hobs', hR'⟩ := h _ _ _ _ hR hs
      exact ⟨ks ++ ks', t', hr.trans hr', by simp [hobs, hobs'], hR'⟩

end Simulation

end Lts
