import Mathlib.Tactic.TypeStar

set_option autoImplicit false

/-! # Programs that call an environment

`Prog C R α` is a computation that returns an `α` and may call its environment on the way: `c : C`
names a call and `R c` is the type of its answers. What the environment does is not part of the
program. A program can be run against a handler (`run`, `trace`), executed with any answers at all,
giving a trace (`Exec`), or stepped one call at a time next to other programs (`Step`).

`Method C R ε σ α` is a method: it also reads and writes a state `σ` and may end early with an `ε`,
keeping the state it has reached. -/

section MapError
variable {ε ε' α : Type} {f : ε → ε'}

@[simp] theorem Except.mapError_ok (a : α) : (Except.ok a).mapError f = .ok a := rfl

@[simp] theorem Except.mapError_error (e : ε) :
    (Except.error e : Except ε α).mapError f = .error (f e) := rfl

/-- What is returned without an error was there before the error was mapped. -/
theorem Except.mapError_eq_ok_iff {x : Except ε α} {a : α} :
    x.mapError f = .ok a ↔ x = .ok a := by
  cases x with
  | ok b => simp
  | error e => simp

end MapError

/-- A computation with calls `c : C`, each answered by an `R c`. -/
inductive Prog (C : Type) (R : C → Type) (α : Type) where
  | pure (a : α)
  | call (c : C) (k : R c → Prog C R α)

namespace Prog

variable {C : Type} {R : C → Type} {α β γ W : Type}

def bind : Prog C R α → (α → Prog C R β) → Prog C R β
  | pure a, f => f a
  | call c k, f => call c fun r => (k r).bind f

instance : Monad (Prog C R) where
  pure := pure
  bind := bind

/-- The program that performs one call and returns the answer. -/
def perform (c : C) : Prog C R (R c) := call c pure

@[simp] theorem pure_bind' (a : α) (f : α → Prog C R β) : (pure a).bind f = f a := rfl

@[simp] theorem call_bind (c : C) (k : R c → Prog C R α) (f : α → Prog C R β) :
    (call c k).bind f = call c fun r => (k r).bind f := rfl

theorem bind_pure' (p : Prog C R α) : p.bind pure = p := by
  induction p with
  | pure a => rfl
  | call c k ih => exact congrArg (call c) (funext ih)

theorem bind_assoc' (p : Prog C R α) (f : α → Prog C R β) (g : β → Prog C R γ) :
    (p.bind f).bind g = p.bind fun a => (f a).bind g := by
  induction p with
  | pure a => rfl
  | call c k ih => exact congrArg (call c) (funext ih)

instance : LawfulMonad (Prog C R) :=
  LawfulMonad.mk' (Prog C R) bind_pure' (fun _ _ => rfl) bind_assoc'

/-! ## Running against a handler -/

/-- Run against a handler that answers each call and updates a world `W`. -/
def run (h : (c : C) → W → R c × W) : Prog C R α → W → α × W
  | pure a, w => (a, w)
  | call c k, w => (k (h c w).1).run h (h c w).2

variable (h : (c : C) → W → R c × W)

@[simp] theorem run_pure (a : α) (w : W) : (pure a : Prog C R α).run h w = (a, w) := rfl

@[simp] theorem run_call (c : C) (k : R c → Prog C R α) (w : W) :
    (call c k).run h w = (k (h c w).1).run h (h c w).2 := rfl

/-- The calls made in a run, with the handler's answers. -/
def trace (h : (c : C) → W → R c × W) : Prog C R α → W → List (Σ c, R c)
  | pure _, _ => []
  | call c k, w => ⟨c, (h c w).1⟩ :: (k (h c w).1).trace h (h c w).2

/-! ## All executions -/

/-- `Exec p tr a`: with the answers in `tr`, the program `p` makes the calls in `tr` and
    returns `a`. -/
inductive Exec : Prog C R α → List (Σ c, R c) → α → Prop
  | pure (a : α) : Exec (pure a) [] a
  | call {c : C} {k : R c → Prog C R α} {r : R c} {tr : List (Σ c, R c)} {a : α} :
      Exec (k r) tr a → Exec (call c k) (⟨c, r⟩ :: tr) a

theorem exec_pure_iff {a b : α} {tr : List (Σ c, R c)} :
    Exec (pure a : Prog C R α) tr b ↔ tr = [] ∧ b = a := by
  constructor
  · intro h
    cases h
    exact ⟨rfl, rfl⟩
  · rintro ⟨rfl, rfl⟩
    exact .pure b

theorem exec_call_iff {c : C} {k : R c → Prog C R α} {tr : List (Σ c, R c)} {a : α} :
    Exec (call c k) tr a ↔ ∃ r tr', tr = ⟨c, r⟩ :: tr' ∧ Exec (k r) tr' a := by
  constructor
  · intro h
    cases h with
    | call h => exact ⟨_, _, rfl, h⟩
  · rintro ⟨r, tr', rfl, h⟩
    exact .call h

theorem exec_bind_iff {p : Prog C R α} {f : α → Prog C R β} {tr : List (Σ c, R c)} {b : β} :
    Exec (p.bind f) tr b ↔
      ∃ tr₁ a tr₂, tr = tr₁ ++ tr₂ ∧ Exec p tr₁ a ∧ Exec (f a) tr₂ b := by
  induction p generalizing tr with
  | pure a =>
      constructor
      · intro h
        exact ⟨[], a, tr, rfl, .pure a, h⟩
      · rintro ⟨tr₁, a', tr₂, rfl, h₁, h₂⟩
        obtain ⟨rfl, rfl⟩ := exec_pure_iff.1 h₁
        exact h₂
  | call c k ih =>
      constructor
      · intro h
        obtain ⟨r, tr', rfl, hk⟩ := exec_call_iff.1 h
        obtain ⟨tr₁, a, tr₂, rfl, h₁, h₂⟩ := (ih r).1 hk
        exact ⟨⟨c, r⟩ :: tr₁, a, tr₂, rfl, .call h₁, h₂⟩
      · rintro ⟨tr₁, a, tr₂, rfl, h₁, h₂⟩
        obtain ⟨r, tr', rfl, hk⟩ := exec_call_iff.1 h₁
        exact .call ((ih r).2 ⟨tr', a, tr₂, rfl, hk, h₂⟩)

/-- The same where the second part makes no calls. -/
theorem exec_bind_pure_iff {p : Prog C R α} {f : α → β} {tr : List (Σ c, R c)} {b : β} :
    Exec (p.bind fun a => .pure (f a)) tr b ↔ ∃ a, Exec p tr a ∧ b = f a := by
  rw [exec_bind_iff]
  constructor
  · rintro ⟨tr₁, a, tr₂, rfl, h₁, h₂⟩
    obtain ⟨rfl, rfl⟩ := exec_pure_iff.1 h₂
    exact ⟨a, by rw [List.append_nil]; exact h₁, rfl⟩
  · rintro ⟨a, h, rfl⟩
    exact ⟨tr, a, [], (List.append_nil tr).symm, h, .pure _⟩

/-- A run is one of the executions. -/
theorem exec_trace (h : (c : C) → W → R c × W) (p : Prog C R α) (w : W) :
    Exec p (p.trace h w) (p.run h w).1 := by
  induction p generalizing w with
  | pure a => exact .pure a
  | call c k ih => exact .call (ih (h c w).1 (h c w).2)

/-- A handler that keeps nothing answers each call of a run by itself. -/
theorem trace_answers {answer : (c : C) → R c} {p : Prog C R α} {w : W} {e : Σ c, R c}
    (he : e ∈ p.trace (fun c w => (answer c, w)) w) : e.2 = answer e.1 := by
  induction p with
  | pure a => exact absurd he (by simp [trace])
  | call c k ih =>
      rcases List.mem_cons.1 he with rfl | he
      · rfl
      · exact ih _ he

/-! ## One call at a time -/

/-- The call a program is about to make. -/
def next : Prog C R α → Option C
  | pure _ => none
  | call c _ => some c

/-- One call and its answer. -/
inductive Step : Prog C R α → (Σ c, R c) → Prog C R α → Prop
  | call (c : C) (k : R c → Prog C R α) (r : R c) : Step (call c k) ⟨c, r⟩ (k r)

end Prog

/-! ## Methods -/

/-- A method on a state `σ` that may end early with an `ε`. -/
abbrev Method (C : Type) (R : C → Type) (ε σ α : Type) := ExceptT ε (StateT σ (Prog C R)) α

namespace Method

variable {C : Type} {R : C → Type} {ε ε' σ τ α β W : Type}

/-- One call. -/
def perform (c : C) : Method C R ε σ (R c) := fun s => do
  let r ← Prog.perform c
  pure (.ok r, s)

/-- A method on a part of the state. -/
def zoom (get : τ → σ) (set : τ → σ → τ) (x : Method C R ε σ α) : Method C R ε τ α := fun t => do
  let (r, s) ← x (get t)
  pure (r, set t s)

/-- Hand some of the early ends over to the caller as values; the others still end the caller. -/
def attempt (caught : ε → Option ε') (x : Method C R ε σ α) :
    Method C R ε σ (Except ε' α) := fun s => do
  let (r, s') ← x s
  match r with
  | .ok a => pure (.ok (.ok a), s')
  | .error e =>
      match caught e with
      | some e' => pure (.ok (.error e'), s')
      | none => pure (.error e, s')

/-- What `attempt` makes of the end of a method. -/
def settle (caught : ε → Option ε') : Except ε α → Except ε (Except ε' α)
  | .ok a => .ok (.ok a)
  | .error e =>
      match caught e with
      | some e' => .ok (.error e')
      | none => .error e

theorem settle_some {caught : ε → Option ε'} {e : ε} {e' : ε'} (h : caught e = some e') :
    settle caught (.error e : Except ε α) = .ok (.error e') := by
  simp [settle, h]

theorem settle_none {caught : ε → Option ε'} {e : ε} (h : caught e = none) :
    settle caught (.error e : Except ε α) = .error e := by
  simp [settle, h]

theorem attempt_apply (caught : ε → Option ε') (x : Method C R ε σ α) (s : σ) :
    attempt caught x s = (x s).bind fun p => .pure (settle caught p.1, p.2) := by
  refine congrArg (Prog.bind (x s)) (funext fun p => ?_)
  obtain ⟨r, s'⟩ := p
  cases r with
  | ok a => rfl
  | error e => cases hc : caught e <;> simp [hc, settle] <;> rfl

/-- Run a method against a handler. -/
def runOn (h : (c : C) → W → R c × W) (x : Method C R ε σ α) (s : σ) (w : W) :
    (Except ε α × σ) × W :=
  Prog.run h (x s) w

/-- The calls made in such a run. -/
def traceOn (h : (c : C) → W → R c × W) (x : Method C R ε σ α) (s : σ) (w : W) :
    List (Σ c, R c) :=
  Prog.trace h (x s) w

/-- Execute a method from a state, with any answers. -/
def Exec (x : Method C R ε σ α) (s : σ) (tr : List (Σ c, R c)) (r : Except ε α) (s' : σ) : Prop :=
  Prog.Exec (x s) tr (r, s')

section Exec
variable {s s' : σ} {tr : List (Σ c, R c)}

theorem exec_pure_iff {a : α} {r : Except ε α} :
    Exec (pure a : Method C R ε σ α) s tr r s' ↔ tr = [] ∧ r = .ok a ∧ s' = s := by
  refine Prog.exec_pure_iff.trans (and_congr_right fun _ => ?_)
  rw [Prod.mk.injEq]

theorem exec_throw_iff {e : ε} {r : Except ε α} :
    Exec (throw e : Method C R ε σ α) s tr r s' ↔ tr = [] ∧ r = .error e ∧ s' = s := by
  refine Prog.exec_pure_iff.trans (and_congr_right fun _ => ?_)
  rw [Prod.mk.injEq]

theorem exec_get_iff {r : Except ε σ} :
    Exec (get : Method C R ε σ σ) s tr r s' ↔ tr = [] ∧ r = .ok s ∧ s' = s := by
  refine Prog.exec_pure_iff.trans (and_congr_right fun _ => ?_)
  rw [Prod.mk.injEq]

theorem exec_modify_iff {f : σ → σ} {r : Except ε PUnit} :
    Exec (modify f : Method C R ε σ PUnit) s tr r s' ↔ tr = [] ∧ r = .ok ⟨⟩ ∧ s' = f s := by
  refine Prog.exec_pure_iff.trans (and_congr_right fun _ => ?_)
  rw [Prod.mk.injEq]

theorem exec_perform_iff {c : C} {r : Except ε (R c)} :
    Exec (perform c : Method C R ε σ (R c)) s tr r s' ↔
      ∃ a, tr = [⟨c, a⟩] ∧ r = .ok a ∧ s' = s := by
  have hb : Exec (perform c : Method C R ε σ (R c)) s tr r s' ↔
      Prog.Exec (Prog.call c fun a => Prog.pure ((.ok a : Except ε (R c)), s)) tr (r, s') := Iff.rfl
  rw [hb, Prog.exec_call_iff]
  constructor
  · rintro ⟨a, tr', rfl, hk⟩
    obtain ⟨rfl, heq⟩ := Prog.exec_pure_iff.1 hk
    rw [Prod.mk.injEq] at heq
    exact ⟨a, rfl, heq⟩
  · rintro ⟨a, rfl, rfl, rfl⟩
    exact ⟨a, [], rfl, .pure _⟩

theorem exec_traceOn (h : (c : C) → W → R c × W) (x : Method C R ε σ α) (s : σ) (w : W) :
    Exec x s (traceOn h x s w) (runOn h x s w).1.1 (runOn h x s w).1.2 :=
  Prog.exec_trace h (x s) w

/-- A sequence ends where its first part ends early, or goes on with the second part. -/
theorem exec_bind_iff {x : Method C R ε σ α} {f : α → Method C R ε σ β} {r : Except ε β} :
    Exec (x >>= f) s tr r s' ↔
      (∃ e, r = .error e ∧ Exec x s tr (.error e) s') ∨
      ∃ tr₁ tr₂ a s₁, tr = tr₁ ++ tr₂ ∧ Exec x s tr₁ (.ok a) s₁ ∧ Exec (f a) s₁ tr₂ r s' := by
  have hb : Exec (x >>= f) s tr r s' ↔ Prog.Exec (Prog.bind (x s) fun p =>
      (ExceptT.bindCont f p.1) p.2) tr (r, s') := Iff.rfl
  rw [hb, Prog.exec_bind_iff]
  constructor
  · rintro ⟨tr₁, ⟨r₁, s₁⟩, tr₂, rfl, h₁, h₂⟩
    cases r₁ with
    | ok a => exact Or.inr ⟨tr₁, tr₂, a, s₁, rfl, h₁, h₂⟩
    | error e =>
        obtain ⟨rfl, h⟩ := Prog.exec_pure_iff.1 h₂
        rw [Prod.mk.injEq] at h
        obtain ⟨rfl, rfl⟩ := h
        exact Or.inl ⟨e, rfl, by rw [List.append_nil]; exact h₁⟩
  · rintro (⟨e, rfl, h⟩ | ⟨tr₁, tr₂, a, s₁, rfl, h₁, h₂⟩)
    · exact ⟨tr, (.error e, s'), [], (List.append_nil tr).symm, h, .pure _⟩
    · exact ⟨tr₁, (.ok a, s₁), tr₂, rfl, h₁, h₂⟩

/-- The first part returns, and the second part goes on. -/
theorem exec_bind_of_ok {x : Method C R ε σ α} {f : α → Method C R ε σ β} {a : α} {s₁ : σ}
    {r : Except ε β} {tr₁ tr₂ : List (Σ c, R c)} (h₁ : Exec x s tr₁ (.ok a) s₁)
    (h₂ : Exec (f a) s₁ tr₂ r s') : Exec (x >>= f) s (tr₁ ++ tr₂) r s' :=
  exec_bind_iff.2 (Or.inr ⟨tr₁, tr₂, a, s₁, rfl, h₁, h₂⟩)

/-- A sequence that returns has returned from both parts. -/
theorem exec_bind_ok_iff {x : Method C R ε σ α} {f : α → Method C R ε σ β} {b : β} :
    Exec (x >>= f) s tr (.ok b) s' ↔
      ∃ tr₁ tr₂ a s₁, tr = tr₁ ++ tr₂ ∧ Exec x s tr₁ (.ok a) s₁ ∧ Exec (f a) s₁ tr₂ (.ok b) s' := by
  rw [exec_bind_iff]
  constructor
  · rintro (⟨e, he, _⟩ | h)
    · exact absurd he (by simp)
    · exact h
  · exact Or.inr

theorem exec_get_bind_iff {f : σ → Method C R ε σ α} {r : Except ε α} :
    Exec (get >>= f) s tr r s' ↔ Exec (f s) s tr r s' := Iff.rfl

theorem exec_modify_bind_iff {g : σ → σ} {f : PUnit → Method C R ε σ α} {r : Except ε α} :
    Exec (modify g >>= f) s tr r s' ↔ Exec (f ⟨⟩) (g s) tr r s' := Iff.rfl

theorem exec_zoom_iff {get : τ → σ} {set : τ → σ → τ} {x : Method C R ε σ α} {t t' : τ}
    {r : Except ε α} :
    Exec (zoom get set x) t tr r t' ↔ ∃ s', Exec x (get t) tr r s' ∧ t' = set t s' := by
  have hb : Exec (zoom get set x) t tr r t' ↔ Prog.Exec (Prog.bind (x (get t)) fun p =>
      Prog.pure (p.1, set t p.2)) tr (r, t') := Iff.rfl
  rw [hb, Prog.exec_bind_pure_iff]
  constructor
  · rintro ⟨⟨r₁, s₁⟩, h, heq⟩
    obtain ⟨rfl, rfl⟩ := Prod.mk.inj heq
    exact ⟨s₁, h, rfl⟩
  · rintro ⟨s₁, h, rfl⟩
    exact ⟨(r, s₁), h, rfl⟩

theorem exec_attempt_iff {caught : ε → Option ε'} {x : Method C R ε σ α}
    {r : Except ε (Except ε' α)} :
    Exec (attempt caught x) s tr r s' ↔
      (∃ a, r = .ok (.ok a) ∧ Exec x s tr (.ok a) s') ∨
      (∃ e e', caught e = some e' ∧ r = .ok (.error e') ∧ Exec x s tr (.error e) s') ∨
      ∃ e, caught e = none ∧ r = .error e ∧ Exec x s tr (.error e) s' := by
  have hb : Exec (attempt caught x) s tr r s' ↔
      ∃ r₁, Exec x s tr r₁ s' ∧ r = settle caught r₁ := by
    unfold Exec
    rw [attempt_apply, Prog.exec_bind_pure_iff]
    constructor
    · rintro ⟨⟨r₁, s₁⟩, h, heq⟩
      obtain ⟨rfl, rfl⟩ := Prod.mk.inj heq
      exact ⟨r₁, h, rfl⟩
    · rintro ⟨r₁, h, rfl⟩
      exact ⟨(r₁, s'), h, rfl⟩
  rw [hb]
  constructor
  · rintro ⟨r₁, h, rfl⟩
    cases r₁ with
    | ok a => exact Or.inl ⟨a, rfl, h⟩
    | error e =>
        cases hc : caught e with
        | some e' => exact Or.inr (Or.inl ⟨e, e', hc, settle_some hc, h⟩)
        | none => exact Or.inr (Or.inr ⟨e, hc, settle_none hc, h⟩)
  · rintro (⟨a, rfl, h⟩ | ⟨e, e', hc, rfl, h⟩ | ⟨e, hc, rfl, h⟩)
    · exact ⟨.ok a, h, rfl⟩
    · exact ⟨.error e, h, (settle_some hc).symm⟩
    · exact ⟨.error e, h, (settle_none hc).symm⟩

/-- What is attempted is executed, and it has returned where the attempt hands over a value. -/
theorem exec_attempt {caught : ε → Option ε'} {x : Method C R ε σ α} {r : Except ε (Except ε' α)}
    (h : Exec (attempt caught x) s tr r s') :
    ∃ r₁, Exec x s tr r₁ s' ∧ ∀ a, r = .ok (.ok a) → r₁ = .ok a := by
  rcases exec_attempt_iff.1 h with ⟨a, rfl, hx⟩ | ⟨e, e', _, rfl, hx⟩ | ⟨e, _, rfl, hx⟩
  · refine ⟨.ok a, hx, fun a' ha => ?_⟩
    rw [Except.ok.inj (Except.ok.inj ha)]
  · exact ⟨.error e, hx, by simp⟩
  · exact ⟨.error e, hx, by simp⟩

end Exec

/-! ## Early ends and the answers that cause them -/

/-- In every execution, `x` ends with `stop` if and only if some answer it got is `bad`. -/
def EndsIff (x : Method C R ε σ α) (stop : ε) (bad : (Σ c, R c) → Prop) : Prop :=
  ∀ s tr r s', Exec x s tr r s' → (r = .error stop ↔ ∃ e ∈ tr, bad e)

section EndsIff
variable {stop : ε} {bad : (Σ c, R c) → Prop}

theorem EndsIff.pure (a : α) : EndsIff (pure a : Method C R ε σ α) stop bad := by
  intro s tr r s' h
  obtain ⟨rfl, rfl, rfl⟩ := exec_pure_iff.1 h
  simp

theorem EndsIff.throw {e : ε} (he : e ≠ stop) :
    EndsIff (throw e : Method C R ε σ α) stop bad := by
  intro s tr r s' h
  obtain ⟨rfl, rfl, rfl⟩ := exec_throw_iff.1 h
  simp [he]

theorem EndsIff.get : EndsIff (get : Method C R ε σ σ) stop bad := by
  intro s tr r s' h
  obtain ⟨rfl, rfl, rfl⟩ := exec_get_iff.1 h
  simp

theorem EndsIff.modify (f : σ → σ) : EndsIff (modify f : Method C R ε σ PUnit) stop bad := by
  intro s tr r s' h
  obtain ⟨rfl, rfl, rfl⟩ := exec_modify_iff.1 h
  simp

theorem EndsIff.perform {c : C} (hc : ∀ a, ¬ bad ⟨c, a⟩) :
    EndsIff (perform c : Method C R ε σ (R c)) stop bad := by
  intro s tr r s' h
  obtain ⟨a, rfl, rfl, rfl⟩ := exec_perform_iff.1 h
  simp [hc]

theorem EndsIff.bind {x : Method C R ε σ α} {f : α → Method C R ε σ β}
    (hx : EndsIff x stop bad) (hf : ∀ a, EndsIff (f a) stop bad) :
    EndsIff (x >>= f) stop bad := by
  intro s tr r s' h
  rcases exec_bind_iff.1 h with ⟨e, rfl, h₁⟩ | ⟨tr₁, tr₂, a, s₁, rfl, h₁, h₂⟩
  · have hiff := hx _ _ _ _ h₁
    rw [Except.error.injEq] at hiff ⊢
    exact hiff
  · -- the first part went through, so none of its answers is bad
    have hgood : ¬ ∃ e ∈ tr₁, bad e := fun hb => by simpa using (hx _ _ _ _ h₁).2 hb
    rw [hf a _ _ _ _ h₂]
    constructor
    · rintro ⟨e, he, hb⟩
      exact ⟨e, List.mem_append_right _ he, hb⟩
    · rintro ⟨e, he, hb⟩
      rcases List.mem_append.1 he with h₁ | h₂
      · exact absurd ⟨e, h₁, hb⟩ hgood
      · exact ⟨e, h₂, hb⟩

theorem EndsIff.zoom {get : τ → σ} {set : τ → σ → τ} {x : Method C R ε σ α}
    (hx : EndsIff x stop bad) : EndsIff (zoom get set x) stop bad := by
  intro t tr r t' h
  obtain ⟨s', h, _⟩ := exec_zoom_iff.1 h
  exact hx _ _ _ _ h

/-- Catching other ends does not matter. -/
theorem EndsIff.attempt {caught : ε → Option ε'} {x : Method C R ε σ α}
    (hx : EndsIff x stop bad) (hc : caught stop = none) :
    EndsIff (attempt caught x) stop bad := by
  intro s tr r s' h
  rcases exec_attempt_iff.1 h with ⟨a, rfl, h₁⟩ | ⟨e, e', hc', rfl, h₁⟩ | ⟨e, _, rfl, h₁⟩
  · rw [← hx _ _ _ _ h₁]
    simp
  · have hne : e ≠ stop := fun he => by rw [he, hc] at hc'; simp at hc'
    rw [← hx _ _ _ _ h₁]
    simp [hne]
  · rw [← hx _ _ _ _ h₁]
    simp

theorem EndsIff.forM {l : List α} {f : α → Method C R ε σ PUnit}
    (hf : ∀ a, EndsIff (f a) stop bad) : EndsIff (l.forM f) stop bad := by
  induction l with
  | nil => exact EndsIff.pure _
  | cons a l ih => exact (hf a).bind fun _ => ih

end EndsIff

/-! ## What every execution does -/

/-- A relation between a state, the calls made and the state reached that sequences keep. -/
structure Composable (J : σ → List (Σ c, R c) → σ → Prop) : Prop where
  nil : ∀ s, J s [] s
  append : ∀ {s s₁ s₂ tr₁ tr₂}, J s tr₁ s₁ → J s₁ tr₂ s₂ → J s (tr₁ ++ tr₂) s₂

/-- Every execution of `x`, however it ends, is as `J` says. -/
def Within (J : σ → List (Σ c, R c) → σ → Prop) (x : Method C R ε σ α) : Prop :=
  ∀ s tr r s', Exec x s tr r s' → J s tr s'

section Within
variable {J : σ → List (Σ c, R c) → σ → Prop}

theorem Within.pure (hJ : Composable J) (a : α) : Within J (pure a : Method C R ε σ α) := by
  intro s tr r s' h
  obtain ⟨rfl, _, rfl⟩ := exec_pure_iff.1 h
  exact hJ.nil s'

theorem Within.throw (hJ : Composable J) (e : ε) :
    Within J (throw e : Method C R ε σ α) := by
  intro s tr r s' h
  obtain ⟨rfl, _, rfl⟩ := exec_throw_iff.1 h
  exact hJ.nil s'

theorem Within.get (hJ : Composable J) : Within J (get : Method C R ε σ σ) := by
  intro s tr r s' h
  obtain ⟨rfl, _, rfl⟩ := exec_get_iff.1 h
  exact hJ.nil s'

theorem Within.modify {g : σ → σ} (hg : ∀ s, J s [] (g s)) :
    Within J (modify g : Method C R ε σ PUnit) := by
  intro s tr r s' h
  obtain ⟨rfl, _, rfl⟩ := exec_modify_iff.1 h
  exact hg s

theorem Within.perform {c : C} (hc : ∀ s a, J s [⟨c, a⟩] s) :
    Within J (perform c : Method C R ε σ (R c)) := by
  intro s tr r s' h
  obtain ⟨a, rfl, _, rfl⟩ := exec_perform_iff.1 h
  exact hc s' a

theorem Within.bind (hJ : Composable J) {x : Method C R ε σ α} {k : α → Method C R ε σ β}
    (hx : Within J x) (hk : ∀ a, Within J (k a)) : Within J (x >>= k) := by
  intro s tr r s' h
  rcases exec_bind_iff.1 h with ⟨e, _, h₁⟩ | ⟨tr₁, tr₂, a, s₁, rfl, h₁, h₂⟩
  · exact hx _ _ _ _ h₁
  · exact hJ.append (hx _ _ _ _ h₁) (hk a _ _ _ _ h₂)

theorem Within.attempt {caught : ε → Option ε'} {x : Method C R ε σ α} (hx : Within J x) :
    Within J (attempt caught x) := by
  intro s tr r s' h
  obtain ⟨r₁, h₁, _⟩ := exec_attempt h
  exact hx s tr r₁ s' h₁

theorem Within.forM (hJ : Composable J) {l : List α} {k : α → Method C R ε σ PUnit}
    (hk : ∀ a, Within J (k a)) : Within J (l.forM k) := by
  induction l with
  | nil => exact Within.pure hJ _
  | cons a l ih => exact (hk a).bind hJ fun _ => ih

theorem Within.zoom {get : τ → σ} {set : τ → σ → τ} {J' : τ → List (Σ c, R c) → τ → Prop}
    (hset : ∀ t tr s', J (get t) tr s' → J' t tr (set t s')) {x : Method C R ε σ α}
    (hx : Within J x) : Within J' (zoom get set x) := by
  intro t tr r t' h
  obtain ⟨s', h₁, rfl⟩ := exec_zoom_iff.1 h
  exact hset _ _ _ (hx _ _ _ _ h₁)

/-- `f` of the state stays as it is, and every call is one of `calls`. -/
def frame (f : σ → τ) (calls : C → Prop) : σ → List (Σ c, R c) → σ → Prop :=
  fun s tr s' => f s' = f s ∧ ∀ e ∈ tr, calls e.1

theorem composable_frame (f : σ → τ) (calls : C → Prop) :
    Composable (frame f calls : σ → List (Σ c, R c) → σ → Prop) where
  nil s := ⟨rfl, by simp⟩
  append h₁ h₂ := ⟨h₂.1.trans h₁.1, fun e he =>
    (List.mem_append.1 he).elim (h₁.2 e) (h₂.2 e)⟩

end Within

/-! ## What holds when the answers are good -/

/-- From `s`, every execution in which all answers are `good` returns normally, as `Q` says of the
    calls made, the value returned and the state reached. -/
def Ensures (good : (Σ c, R c) → Prop) (x : Method C R ε σ α) (s : σ)
    (Q : List (Σ c, R c) → α → σ → Prop) : Prop :=
  ∀ tr r s', Exec x s tr r s' → (∀ e ∈ tr, good e) → ∃ a, r = .ok a ∧ Q tr a s'

section Ensures
variable {good : (Σ c, R c) → Prop} {s : σ} {Q : List (Σ c, R c) → α → σ → Prop}

theorem Ensures.pure {a : α} (h : Q [] a s) :
    Ensures good (pure a : Method C R ε σ α) s Q := by
  intro tr r s' hx _
  obtain ⟨rfl, rfl, rfl⟩ := exec_pure_iff.1 hx
  exact ⟨a, rfl, h⟩

theorem Ensures.get {Q : List (Σ c, R c) → σ → σ → Prop} (h : Q [] s s) :
    Ensures good (get : Method C R ε σ σ) s Q := by
  intro tr r s' hx _
  obtain ⟨rfl, rfl, rfl⟩ := exec_get_iff.1 hx
  exact ⟨s', rfl, h⟩

theorem Ensures.modify {g : σ → σ} {Q : List (Σ c, R c) → PUnit → σ → Prop} (h : Q [] ⟨⟩ (g s)) :
    Ensures good (modify g : Method C R ε σ PUnit) s Q := by
  intro tr r s' hx _
  obtain ⟨rfl, rfl, rfl⟩ := exec_modify_iff.1 hx
  exact ⟨⟨⟩, rfl, h⟩

theorem Ensures.perform {c : C} {Q : List (Σ c, R c) → R c → σ → Prop}
    (h : ∀ a, good ⟨c, a⟩ → Q [⟨c, a⟩] a s) :
    Ensures good (perform c : Method C R ε σ (R c)) s Q := by
  intro tr r s' hx hgood
  obtain ⟨a, rfl, rfl, rfl⟩ := exec_perform_iff.1 hx
  exact ⟨a, rfl, h a (hgood _ (List.mem_singleton_self _))⟩

theorem Ensures.bind {x : Method C R ε σ α} {f : α → Method C R ε σ β}
    {P : List (Σ c, R c) → α → σ → Prop} {Q : List (Σ c, R c) → β → σ → Prop}
    (hx : Ensures good x s P)
    (hf : ∀ tr a s₁, P tr a s₁ → Ensures good (f a) s₁ fun tr' => Q (tr ++ tr')) :
    Ensures good (x >>= f) s Q := by
  intro tr r s' h hgood
  rcases exec_bind_iff.1 h with ⟨e, rfl, h₁⟩ | ⟨tr₁, tr₂, a, s₁, rfl, h₁, h₂⟩
  · obtain ⟨a, ha, _⟩ := hx _ _ _ h₁ hgood
    exact absurd ha (by simp)
  · obtain ⟨a', ha, hP⟩ := hx _ _ _ h₁ fun e he => hgood e (List.mem_append_left _ he)
    obtain rfl := Except.ok.inj ha
    exact hf _ _ _ hP _ _ _ h₂ fun e he => hgood e (List.mem_append_right _ he)

theorem Ensures.zoom {get : τ → σ} {set : τ → σ → τ} {x : Method C R ε σ α} {t : τ}
    {Q : List (Σ c, R c) → α → τ → Prop}
    (hx : Ensures good x (get t) fun tr a s' => Q tr a (set t s')) :
    Ensures good (zoom get set x) t Q := by
  intro tr r t' h hgood
  obtain ⟨s', h₁, rfl⟩ := exec_zoom_iff.1 h
  exact hx _ _ _ h₁ hgood

/-- Nothing to hand over. -/
theorem Ensures.attempt {caught : ε → Option ε'} {x : Method C R ε σ α} (hx : Ensures good x s Q) :
    Ensures good (attempt caught x) s fun tr r s' => ∃ a, r = .ok a ∧ Q tr a s' := by
  intro tr r s' h hgood
  rcases exec_attempt_iff.1 h with ⟨a, rfl, h₁⟩ | ⟨e, _, _, _, h₁⟩ | ⟨e, _, _, h₁⟩
  · obtain ⟨a', ha, hQ⟩ := hx _ _ _ h₁ hgood
    obtain rfl := Except.ok.inj ha
    exact ⟨.ok a, rfl, a, rfl, hQ⟩
  · obtain ⟨_, ha, _⟩ := hx _ _ _ h₁ hgood
    exact absurd ha (by simp)
  · obtain ⟨_, ha, _⟩ := hx _ _ _ h₁ hgood
    exact absurd ha (by simp)

theorem Ensures.mono {x : Method C R ε σ α} {P : List (Σ c, R c) → α → σ → Prop}
    (hx : Ensures good x s P) (h : ∀ tr a s', P tr a s' → Q tr a s') : Ensures good x s Q := by
  intro tr r s' hexec hgood
  obtain ⟨a, ha, hP⟩ := hx _ _ _ hexec hgood
  exact ⟨a, ha, h _ _ _ hP⟩

end Ensures

end Method
