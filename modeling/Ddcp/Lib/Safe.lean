import Ddcp.Lib.Prog

set_option autoImplicit false

/-! # Programs next to others

A program that is stepped next to others gets its answers from a state it shares with them. What can
be said of it alone is what it does as long as its answers are allowed ones: `Prog.Safe` is such a
condition, kept by every step (`Safe.step`) and composed along a program (`Safe.bind`). -/

/-- What a program has to keep to. -/
structure Discipline (C : Type) (R : C → Type) where
  /-- The answers it is promised. -/
  allowed : (Σ c, R c) → Prop
  /-- The calls it may make. -/
  may : C → Prop
  /-- The call it has to make right after another. -/
  must : C → Option C

namespace Prog

variable {C : Type} {R : C → Type} {α β : Type} {D : Discipline C R}

@[simp] theorem next_pure (a : α) : (pure a : Prog C R α).next = none := rfl

@[simp] theorem next_call (c : C) (k : R c → Prog C R α) : (call c k).next = some c := rfl

/-- With allowed answers, `p` keeps to the discipline and its result is as `Q` says. -/
def Safe (D : Discipline C R) (Q : α → Prop) : Prog C R α → Prop
  | pure a => Q a
  | call c k => D.may c ∧ ∀ r, D.allowed ⟨c, r⟩ →
      (∀ d, D.must c = some d → (k r).next = some d) ∧ Safe D Q (k r)

theorem Safe.step {Q : α → Prop} {p p' : Prog C R α} {e : Σ c, R c} (h : Safe D Q p)
    (hs : Step p e p') (ha : D.allowed e) :
    (∀ d, D.must e.1 = some d → p'.next = some d) ∧ Safe D Q p' := by
  cases hs with
  | call c k r => exact h.2 r ha

theorem Safe.may {Q : α → Prop} {p : Prog C R α} {c : C} (h : Safe D Q p)
    (hc : p.next = some c) : D.may c := by
  cases p with
  | pure a => exact absurd hc (by simp)
  | call c' k =>
      obtain rfl : c' = c := Option.some.inj hc
      exact h.1

theorem Step.next {p p' : Prog C R α} {e : Σ c, R c} (hs : Step p e p') : p.next = some e.1 := by
  cases hs with
  | call c k r => rfl

theorem next_bind {p : Prog C R α} {f : α → Prog C R β} {c : C} (h : p.next = some c) :
    (p.bind f).next = some c := by
  cases p with
  | pure a => exact absurd h (by simp)
  | call c' k => exact h

theorem Safe.bind {P : α → Prop} {Q : β → Prop} {p : Prog C R α} {f : α → Prog C R β}
    (hp : Safe D P p) (hf : ∀ a, P a → Safe D Q (f a)) : Safe D Q (p.bind f) := by
  induction p with
  | pure a => exact hf a hp
  | call c k ih =>
      refine ⟨hp.1, fun r hr => ⟨fun d hd => next_bind ((hp.2 r hr).1 d hd), ?_⟩⟩
      exact ih r (hp.2 r hr).2

theorem Safe.mono {P Q : α → Prop} {p : Prog C R α} (hp : Safe D P p) (h : ∀ a, P a → Q a) :
    Safe D Q p := by
  induction p with
  | pure a => exact h a hp
  | call c k ih => exact ⟨hp.1, fun r hr => ⟨(hp.2 r hr).1, ih r (hp.2 r hr).2⟩⟩

/-! ### Which calls are made at all -/

/-- Whatever the answers, every call satisfies `P`. -/
def Only (P : C → Prop) (p : Prog C R α) : Prop := ∀ tr a, Exec p tr a → ∀ e ∈ tr, P e.1

theorem Only.mono {P P' : C → Prop} {p : Prog C R α} (h : Only P p) (hle : ∀ c, P c → P' c) :
    Only P' p := fun tr a hx e he => hle _ (h tr a hx e he)

theorem Step.exec {p p' : Prog C R α} {e : Σ c, R c} (hs : Step p e p') {tr : List (Σ c, R c)}
    {a : α} (h : Exec p' tr a) : Exec p (e :: tr) a := by
  cases hs with
  | call c k r => exact .call h

theorem exists_exec [∀ c, Nonempty (R c)] (p : Prog C R α) : ∃ tr a, Exec p tr a :=
  ⟨_, _, exec_trace (fun _ (w : Unit) => (Classical.choice inferInstance, w)) p ()⟩

theorem Only.step [∀ c, Nonempty (R c)] {P : C → Prop} {p p' : Prog C R α} {e : Σ c, R c}
    (h : Only P p) (hs : Step p e p') : P e.1 ∧ Only P p' := by
  obtain ⟨tr, a, hx⟩ := exists_exec p'
  refine ⟨h _ _ (hs.exec hx) e List.mem_cons_self, fun tr a hx e' he' => ?_⟩
  exact h _ _ (hs.exec hx) e' (List.mem_cons_of_mem _ he')

end Prog

namespace Method

variable {C : Type} {R : C → Type} {ε σ τ α β : Type} {D : Discipline C R} {s : σ}

theorem Within.only {f : σ → τ} {P : C → Prop} {x : Method C R ε σ α}
    (h : Within (frame f P) x) : Prog.Only P (x s) := by
  intro tr r hx
  exact (h s tr r.1 r.2 hx).2

/-- The same of a method, from a state; `Q` says of its end and of the state it leaves. -/
def Safe (D : Discipline C R) (x : Method C R ε σ α) (s : σ) (Q : Except ε α → σ → Prop) : Prop :=
  Prog.Safe D (fun p => Q p.1 p.2) (x s)

theorem Safe.pure {a : α} {Q : Except ε α → σ → Prop} (h : Q (.ok a) s) :
    Safe D (pure a : Method C R ε σ α) s Q := h

theorem Safe.throw {e : ε} {Q : Except ε α → σ → Prop} (h : Q (.error e) s) :
    Safe D (throw e : Method C R ε σ α) s Q := h

theorem Safe.get_bind {f : σ → Method C R ε σ β} {Q : Except ε β → σ → Prop}
    (h : Safe D (f s) s Q) : Safe D (get >>= f) s Q := h

theorem Safe.modify_bind {g : σ → σ} {f : PUnit → Method C R ε σ β} {Q : Except ε β → σ → Prop}
    (h : Safe D (f ⟨⟩) (g s) Q) : Safe D (modify g >>= f) s Q := h

theorem Safe.modify {g : σ → σ} {Q : Except ε PUnit → σ → Prop} (h : Q (.ok ⟨⟩) (g s)) :
    Safe D (modify g : Method C R ε σ PUnit) s Q := h

theorem Safe.bind {x : Method C R ε σ α} {f : α → Method C R ε σ β}
    {P : Except ε α → σ → Prop} {Q : Except ε β → σ → Prop} (hx : Safe D x s P)
    (hok : ∀ a s₁, P (.ok a) s₁ → Safe D (f a) s₁ Q)
    (herr : ∀ e s₁, P (.error e) s₁ → Q (.error e) s₁) : Safe D (x >>= f) s Q := by
  have h : Prog.Safe D (fun p => Q p.1 p.2) (Prog.bind (x s) fun p =>
      (ExceptT.bindCont f p.1) p.2) := by
    refine Prog.Safe.bind hx fun p hp => ?_
    obtain ⟨r, s₁⟩ := p
    cases r with
    | ok a => exact hok a s₁ hp
    | error e => exact herr e s₁ hp
  exact h

theorem Safe.zoom {get : τ → σ} {set : τ → σ → τ} {x : Method C R ε σ α} {t : τ}
    {Q : Except ε α → τ → Prop} (hx : Safe D x (get t) fun r s' => Q r (set t s')) :
    Safe D (zoom get set x) t Q := by
  have h : Prog.Safe D (fun p => Q p.1 p.2) (Prog.bind (x (get t)) fun p =>
      Prog.pure (p.1, set t p.2)) := Prog.Safe.bind hx fun p hp => hp
  exact h

/-- An invariant `I` of each round is one of the loop; `E` is what a failing round ends with. -/
theorem Safe.forM {l : List α} {f : α → Method C R ε σ PUnit} {I : σ → Prop} {E : ε → σ → Prop}
    (h0 : I s) (hf : ∀ a s, I s → Safe D (f a) s fun r s' =>
      (∀ u, r = .ok u → I s') ∧ ∀ e, r = .error e → E e s') :
    Safe D (l.forM f) s fun r s' => (∀ u, r = .ok u → I s') ∧ ∀ e, r = .error e → E e s' := by
  induction l generalizing s with
  | nil => exact Safe.pure ⟨fun _ _ => h0, fun e he => absurd he (by simp)⟩
  | cons a l ih =>
      refine (hf a s h0).bind (fun u s₁ h => ih (h.1 u rfl)) fun e s₁ h => ⟨fun u hu => ?_, ?_⟩
      · exact absurd hu (by simp)
      · intro e' he
        exact Except.error.inj he ▸ h.2 e rfl

end Method
