import Mathlib.Data.List.AList

set_option autoImplicit false

/-! # Looking up a replaced value

What `AList.lookup` finds after `AList.replace`. -/

variable {α : Type} {β : α → Type} [DecidableEq α]

theorem List.kreplace_cons_self {a : α} {b b' : β a} {l : List (Sigma β)} :
    List.kreplace a b (⟨a, b'⟩ :: l) = ⟨a, b⟩ :: l := by
  unfold List.kreplace
  rw [List.lookmap_cons_some _ _ (b := ⟨a, b⟩) (by simp)]

theorem List.kreplace_cons_ne {a : α} {b : β a} {e : Sigma β} {l : List (Sigma β)}
    (h : a ≠ e.1) : List.kreplace a b (e :: l) = e :: List.kreplace a b l := by
  unfold List.kreplace
  rw [List.lookmap_cons_none _ _ (by simp [h])]

theorem List.dlookup_kreplace_self {a : α} {b : β a} {l : List (Sigma β)} (h : a ∈ l.keys) :
    List.dlookup a (List.kreplace a b l) = some b := by
  induction l with
  | nil => exact absurd h (by simp)
  | cons e l ih =>
      obtain ⟨a', b'⟩ := e
      by_cases heq : a = a'
      · subst heq
        rw [List.kreplace_cons_self, List.dlookup_cons_eq]
      · have hmem : a ∈ l.keys := by
          rw [List.keys_cons, List.mem_cons] at h
          exact h.resolve_left heq
        rw [List.kreplace_cons_ne heq, List.dlookup_cons_ne _ _ heq, ih hmem]

theorem List.dlookup_kreplace_ne {a a' : α} {b : β a} {l : List (Sigma β)} (h : a' ≠ a) :
    List.dlookup a' (List.kreplace a b l) = List.dlookup a' l := by
  induction l with
  | nil => rfl
  | cons e l ih =>
      obtain ⟨k, v⟩ := e
      by_cases heq : a = k
      · subst heq
        rw [List.kreplace_cons_self, List.dlookup_cons_ne _ _ h, List.dlookup_cons_ne _ _ h]
      · rw [List.kreplace_cons_ne heq]
        by_cases hk : a' = k
        · subst hk
          rw [List.dlookup_cons_eq, List.dlookup_cons_eq]
        · rw [List.dlookup_cons_ne _ _ hk, List.dlookup_cons_ne _ _ hk, ih]

theorem List.kreplace_append_cons {a : α} {b b' : β a} {pre post : List (Sigma β)}
    (h : a ∉ pre.keys) : List.kreplace a b (pre ++ ⟨a, b'⟩ :: post) = pre ++ ⟨a, b⟩ :: post := by
  induction pre with
  | nil => exact List.kreplace_cons_self
  | cons e pre ih =>
      rw [List.keys_cons, List.mem_cons, not_or] at h
      rw [List.cons_append, List.kreplace_cons_ne h.1, ih h.2, List.cons_append]

namespace AList

theorem entries_replace {a : α} {b : β a} {s : AList β} {pre post : List (Sigma β)}
    (h : s.entries = pre ++ ⟨a, b⟩ :: post) (b' : β a) :
    (s.replace a b').entries = pre ++ ⟨a, b'⟩ :: post := by
  have hnodup : (pre ++ ⟨a, b⟩ :: post).NodupKeys := h ▸ s.nodupKeys
  have hpre : a ∉ pre.keys := fun ha => by
    rw [List.NodupKeys, List.keys_append, List.keys_cons] at hnodup
    exact List.nodup_append.1 hnodup |>.2.2 a ha a List.mem_cons_self rfl
  exact (congrArg (List.kreplace a b') h).trans (List.kreplace_append_cons hpre)

theorem lookup_replace_self {a : α} {b : β a} {s : AList β} (h : a ∈ s) :
    (s.replace a b).lookup a = some b :=
  List.dlookup_kreplace_self h

theorem lookup_replace_ne {a a' : α} {b : β a} {s : AList β} (h : a' ≠ a) :
    (s.replace a b).lookup a' = s.lookup a' :=
  List.dlookup_kreplace_ne h

end AList
