import Mathlib.Data.Multiset.OrderedMonoid
import Mathlib.Logic.Function.Basic
import Ddcp.Lib.History

set_option autoImplicit false

/-! # Handles that are given out and given back

An environment gives out handles and takes them back, and may give a handle that it got back again.
`Handles` says of every event which handles it gives and which it returns. Whether a handle may be
used is a matter of the whole history (`Live`); what one holder has changes with its own events
(`after`). Several holders share the environment, so what one of them returns is dead in the hands
of the others as well: what they hold stays live as long as a holder only returns a handle that it
alone holds, and as often as it holds it (`AllLive.event`). -/

open History

/-- Which handles an event gives and returns. No event does both to one handle. -/
structure Handles (E I : Type) where
  gives : E → Multiset I
  returns : E → Multiset I
  apart : ∀ e i, i ∈ gives e → i ∉ returns e

namespace Handles

variable {E I P : Type} (H : Handles E I)

/-- Given again after every return. -/
def Live (l : List E) (i : I) : Prop := Since (i ∈ H.returns ·) (i ∈ H.gives ·) l

/-- Everything that is held is live. -/
def AllLive (holds : P → Multiset I) (l : List E) : Prop := ∀ p i, i ∈ holds p → H.Live l i

variable {H} {l : List E} {i : I} {e : E} {holds : P → Multiset I}

theorem Live.nil : H.Live [] i := since_nil

theorem Live.concat (h : H.Live l i) (hno : i ∉ H.returns e) : H.Live (l ++ [e]) i := by
  refine Since.append (fun e' he' => ?_) (Or.inl h)
  rw [List.mem_singleton.1 he']
  exact hno

theorem live_of_gives (h : i ∈ H.gives e) : H.Live (l ++ [e]) i := by
  refine Since.append (fun e' he' => ?_) (Or.inr ⟨e, List.mem_singleton_self e, h⟩)
  rw [List.mem_singleton.1 he']
  exact H.apart e i h

theorem not_live_of_returns (h : i ∈ H.returns e) : ¬ H.Live (l ++ [e]) i := by
  intro hlive
  obtain ⟨g, hg, _⟩ := hlive l e [] rfl h
  exact absurd hg (by simp)

theorem AllLive.of_mem (h : H.AllLive holds l) {holds' : P → Multiset I}
    (hle : ∀ p i, i ∈ holds' p → ∃ q, i ∈ holds q) : H.AllLive holds' l := by
  intro p i hi
  obtain ⟨q, hq⟩ := hle p i hi
  exact h q i hq

variable [DecidableEq I]

variable (H) in
/-- What is held after an event. -/
def after (held : Multiset I) (e : E) : Multiset I := held - H.returns e + H.gives e

theorem mem_after_iff {held : Multiset I} : i ∈ H.after held e ↔
    (H.returns e).count i < held.count i ∨ i ∈ H.gives e := by
  rw [after, Multiset.mem_add, Multiset.mem_sub]

theorem after_mono {held held' : Multiset I} (h : held ≤ held') :
    H.after held e ≤ H.after held' e := by
  rw [Multiset.le_iff_count] at h ⊢
  intro i
  have hi := h i
  simp only [after, Multiset.count_add, Multiset.count_sub]
  omega

/-- An event that returns nothing only adds to what is held. -/
theorem le_after {held : Multiset I} (h : H.returns e = 0) : held ≤ H.after held e := by
  rw [after, h, Multiset.sub_zero]
  exact Multiset.le_add_right _ _

/-- **One event** of one holder: what it returns it has no more often than it returns it, and nobody
    else has it. -/
theorem AllLive.event [DecidableEq P] (h : H.AllLive holds l) (p : P)
    (hmine : ∀ i ∈ H.returns e, (holds p).count i ≤ (H.returns e).count i)
    (hothers : ∀ i ∈ H.returns e, ∀ q, q ≠ p → i ∉ holds q) :
    H.AllLive (Function.update holds p (H.after (holds p) e)) (l ++ [e]) := by
  intro q i hi
  by_cases hq : q = p
  · subst hq
    rw [Function.update_self, mem_after_iff] at hi
    rcases hi with hlt | hgives
    · -- it is still held, so it has not been returned
      have hheld : i ∈ holds q := Multiset.count_pos.1 (by omega)
      refine (h q i hheld).concat fun hret => ?_
      have hle := hmine i hret
      omega
    · exact live_of_gives hgives
  · rw [Function.update_of_ne hq] at hi
    exact (h q i hi).concat fun hret => hothers i hret q hq hi

end Handles
