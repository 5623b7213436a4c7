import Mathlib.Order.Lattice
import Mathlib.Data.List.MinMax

set_option autoImplicit false

/-! # Signed 64-bit integers as a linear order

Versions and cursors are `i64` in the source. `Int64` carries its own `≤`, `<`, `max` and `min`;
here they are collected into Mathlib's `LinearOrder`, so that order lemmas apply to them by name. -/

instance Int64.linearOrder : LinearOrder Int64 where
  le_refl a := by grind
  le_trans a b c h1 h2 := by grind
  lt_iff_le_not_ge a b := by grind
  le_antisymm a b h1 h2 := by grind
  le_total a b := by grind
  toDecidableLE := inferInstance
  toDecidableEq := inferInstance
  toDecidableLT := inferInstance
  min_def a b := rfl
  max_def a b := rfl

/-! ## The greatest element of a list, with a default -/

section MaxD
variable {α : Type} [LinearOrder α]

/-- The running maximum as the source writes it: replace when strictly greater. -/
theorem max_def_gt (a b : α) : max a b = if b > a then b else a := by
  by_cases h : a < b
  · rw [max_eq_right h.le, if_pos h]
  · rw [max_eq_left (not_lt.1 h), if_neg h]

/-- The maximum of a list and a floor, folded from the left as a running maximum. -/
def List.maxFrom (floor : α) (l : List α) : α :=
  l.foldl max floor

@[simp] theorem List.maxFrom_nil (floor : α) : List.maxFrom floor [] = floor := rfl

@[simp] theorem List.maxFrom_cons (floor a : α) (l : List α) :
    List.maxFrom floor (a :: l) = List.maxFrom (max floor a) l := rfl

theorem List.maxFrom_le_iff {floor b : α} {l : List α} :
    List.maxFrom floor l ≤ b ↔ floor ≤ b ∧ ∀ a ∈ l, a ≤ b := by
  induction l generalizing floor with
  | nil => simp
  | cons a l ih => simp [ih, and_assoc]

theorem List.floor_le_maxFrom (floor : α) (l : List α) : floor ≤ List.maxFrom floor l :=
  (List.maxFrom_le_iff.1 le_rfl).1

theorem List.le_maxFrom {floor a : α} {l : List α} (h : a ∈ l) : a ≤ List.maxFrom floor l :=
  (List.maxFrom_le_iff.1 le_rfl).2 a h

theorem List.max_maxFrom (a floor : α) (l : List α) :
    max a (List.maxFrom floor l) = List.maxFrom (max a floor) l := by
  induction l generalizing floor with
  | nil => rfl
  | cons b l ih => rw [List.maxFrom_cons, List.maxFrom_cons, ih, max_assoc]

theorem List.le_maxFrom_iff {floor b : α} {l : List α} :
    b ≤ List.maxFrom floor l ↔ b ≤ floor ∨ ∃ a ∈ l, b ≤ a := by
  induction l generalizing floor with
  | nil => simp
  | cons a l ih => simp [ih, or_assoc]

theorem List.max?_getD_le_iff {d b : α} {l : List α} (hd : d ≤ b) :
    l.max?.getD d ≤ b ↔ ∀ a ∈ l, a ≤ b := by
  cases h : l.max? with
  | none =>
      rw [List.max?_eq_none_iff.1 h]
      simpa using hd
  | some m =>
      simpa using List.max?_le_iff h

theorem List.le_max?_getD {d a : α} {l : List α} (h : a ∈ l) : a ≤ l.max?.getD d := by
  cases hm : l.max? with
  | none => rw [List.max?_eq_none_iff.1 hm] at h; simp at h
  | some m => exact (List.max?_le_iff hm).1 le_rfl a h

theorem List.max?_getD_mem {d : α} {l : List α} (h : l ≠ []) : l.max?.getD d ∈ l := by
  cases hm : l.max? with
  | none => exact absurd (List.max?_eq_none_iff.1 hm) h
  | some m => exact List.max?_mem hm

/-- The greatest element depends only on which elements the list has. -/
theorem List.max?_getD_congr {d : α} {l l' : List α} (h : ∀ a, a ∈ l ↔ a ∈ l') :
    l.max?.getD d = l'.max?.getD d := by
  by_cases hl : l = []
  · have hl' : l' = [] := List.eq_nil_iff_forall_not_mem.2 fun a ha => by
      simpa [hl] using (h a).2 ha
    rw [hl, hl']
  · have hl' : l' ≠ [] := fun hnil => hl (List.eq_nil_iff_forall_not_mem.2 fun a ha => by
      simpa [hnil] using (h a).1 ha)
    exact le_antisymm (List.le_max?_getD ((h _).1 (List.max?_getD_mem hl)))
      (List.le_max?_getD ((h _).2 (List.max?_getD_mem hl')))

end MaxD
