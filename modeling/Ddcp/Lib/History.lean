import Ddcp.Lib.Lts

set_option autoImplicit false

/-! # Histories

A history is a list of what has happened, oldest first. `History.Always` says something of every
entry and of the entries before it; `History.Since` says that after every mark something good has
happened. Both have rules for a history that grows at its end. The history of a run is its steps
with the states they are between (`Lts.recorded`). -/

namespace History

variable {E : Type}

/-- `P before e` for every entry `e` and the entries `before` it. -/
def Always (P : List E → E → Prop) (l : List E) : Prop :=
  ∀ before e after, l = before ++ e :: after → P before e

/-- After every mark there is a good entry. -/
def Since (mark good : E → Prop) (l : List E) : Prop :=
  ∀ before e after, l = before ++ e :: after → mark e → ∃ g ∈ after, good g

section Always
variable {P : List E → E → Prop}

theorem always_nil : Always P [] := by
  intro before e after h
  exact absurd h (by simp)

theorem always_cons {a : E} {l : List E} :
    Always P (a :: l) ↔ P [] a ∧ Always (fun before => P (a :: before)) l := by
  constructor
  · intro h
    refine ⟨h [] a l rfl, fun before e after hl => h (a :: before) e after ?_⟩
    rw [hl, List.cons_append]
  · intro h before e after hl
    cases before with
    | nil =>
        obtain ⟨rfl, rfl⟩ := List.cons.inj hl
        exact h.1
    | cons b before =>
        obtain ⟨rfl, hl'⟩ := List.cons.inj hl
        exact h.2 before e after hl'

theorem always_append {l l' : List E} :
    Always P (l ++ l') ↔ Always P l ∧ Always (fun before => P (l ++ before)) l' := by
  induction l generalizing P with
  | nil => simp [always_nil]
  | cons a l ih =>
      rw [List.cons_append, always_cons, always_cons, ih, and_assoc]
      rfl

theorem always_concat {l : List E} {a : E} : Always P (l ++ [a]) ↔ Always P l ∧ P l a := by
  rw [always_append, always_cons, List.append_nil]
  exact and_congr_right fun _ => and_iff_left always_nil

/-- A property that only some entries have to meet holds of a stretch without them. -/
theorem always_of_forall {l : List E} (h : ∀ e ∈ l, ∀ before, P before e) : Always P l := by
  intro before e after hl
  exact h e (by rw [hl]; simp) before

end Always

section Since
variable {mark good : E → Prop}

theorem since_nil : Since mark good [] := by
  intro before e after h
  exact absurd h (by simp)

/-- No further mark, and the old ones followed by something good already or now. -/
theorem Since.append {l l' : List E} (hno : ∀ e ∈ l', ¬ mark e)
    (h : Since mark good l ∨ ∃ g ∈ l', good g) : Since mark good (l ++ l') := by
  intro before e after heq hm
  rcases List.append_eq_append_iff.1 heq with ⟨mid, rfl, hl'⟩ | ⟨mid, rfl, hl'⟩
  · exact absurd hm (hno e (by rw [hl']; simp))
  · cases mid with
    | nil =>
        have he : e ∈ l' := by rw [List.nil_append] at hl'; simp [← hl']
        exact absurd hm (hno e he)
    | cons b mid =>
        obtain ⟨rfl, rfl⟩ := List.cons.inj hl'
        rcases h with h | ⟨g, hg, hgood⟩
        · obtain ⟨g, hg, hgood⟩ := h before e mid rfl hm
          exact ⟨g, List.mem_append_left _ hg, hgood⟩
        · exact ⟨g, List.mem_append_right _ hg, hgood⟩

theorem Since.of_append {l l' : List E} (h : Since mark good (l ++ l')) (hno : ∀ e ∈ l', ¬ good e) :
    Since mark good l := by
  intro before e after heq hm
  obtain ⟨g, hg, hgood⟩ := h before e (after ++ l') (by rw [heq]; simp) hm
  rcases List.mem_append.1 hg with hg | hg
  · exact ⟨g, hg, hgood⟩
  · exact absurd hgood (hno g hg)

end Since

end History

namespace Lts

variable {S L : Type} {step : S → L → S → Prop} {s₀ s s' : S} {ts : List (S × L × S)}

/-- The steps, labelled with the states they are between. -/
def recorded (step : S → L → S → Prop) : S → S × L × S → S → Prop :=
  fun s t s' => step s t.2.1 s' ∧ t = (s, t.2.1, s')

theorem Run.snoc_recorded {l : L} (hr : Run (recorded step) s₀ ts s) (hs : step s l s') :
    Run (recorded step) s₀ (ts ++ [(s, l, s')]) s' := .snoc hr ⟨hs, rfl⟩

/-- The invariant rule for a run whose steps meet a condition on the steps before them. -/
theorem Run.recorded_invariant {P : List (S × L × S) → S × L × S → Prop}
    {I : List (S × L × S) → S → Prop} (hr : Run (recorded step) s₀ ts s)
    (hP : History.Always P ts) (h0 : I [] s₀)
    (hstep : ∀ ts s l s', I ts s → P ts (s, l, s') → step s l s' → I (ts ++ [(s, l, s')]) s') :
    I ts s := by
  induction hr with
  | nil => exact h0
  | @snoc ts s s' t hr hs ih =>
      obtain ⟨hP, hPt⟩ := History.always_concat.1 hP
      obtain ⟨hs, ht⟩ := hs
      rw [ht] at hPt ⊢
      exact hstep ts s t.2.1 s' (ih hP) hPt hs

/-- A run of one system is followed by another, each step by a step that meets `P`. -/
theorem Run.follow (step : S → L → S → Prop) {T K : Type} {step' : T → K → T → Prop}
    {R : List K → T → S → Prop} {P : S × L × S → Prop} {t t' : T} {ks : List K}
    (hr : Run step' t ks t')
    (hstep : ∀ ks t k t' s, step' t k t' → R ks t s →
      ∃ l s', step s l s' ∧ P (s, l, s') ∧ R (ks ++ [k]) t' s') (hR : R [] t s) :
    ∃ ts s', Run (recorded step) s ts s' ∧ (∀ x ∈ ts, P x) ∧ R ks t' s' := by
  induction hr with
  | nil => exact ⟨[], s, .nil, by simp, hR⟩
  | snoc _ hs ih =>
      obtain ⟨ts, s₁, hts, hP, hR₁⟩ := ih
      obtain ⟨l, s₂, hs₂, hP₂, hR₂⟩ := hstep _ _ _ _ _ hs hR₁
      refine ⟨_, s₂, hts.snoc_recorded hs₂, fun x hx => ?_, hR₂⟩
      rcases List.mem_append.1 hx with hx | hx
      · exact hP x hx
      · exact List.mem_singleton.1 hx ▸ hP₂

end Lts
