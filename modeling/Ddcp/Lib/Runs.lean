import Ddcp.Lib.Safe

set_option autoImplicit false

/-! # Runs against a fixed handler

How runs and their calls compose (`runOn_bind`, `traceOn_bind` and so on). A program whose calls a
handler answers without looking at its world runs in the same way in every world
(`Prog.run_of_only`). -/

namespace Prog

variable {C : Type} {R : C → Type} {α β W : Type} {h : (c : C) → W → R c × W}

theorem run_bind (p : Prog C R α) (f : α → Prog C R β) (w : W) :
    (p.bind f).run h w = (f (p.run h w).1).run h (p.run h w).2 := by
  induction p generalizing w with
  | pure a => rfl
  | call c k ih => exact ih _ _

theorem trace_bind (p : Prog C R α) (f : α → Prog C R β) (w : W) :
    (p.bind f).trace h w = p.trace h w ++ (f (p.run h w).1).trace h (p.run h w).2 := by
  induction p generalizing w with
  | pure a => rfl
  | call c k ih => exact congrArg (List.cons _) (ih (h c w).1 (h c w).2)

theorem Only.head {P : C → Prop} {c : C} {k : R c → Prog C R α} (hp : Only P (call c k))
    (r : R c) {tr : List (Σ c, R c)} {a : α} (hx : Exec (k r) tr a) :
    P c ∧ ∀ e ∈ tr, P e.1 := by
  have hall := hp _ _ (.call hx)
  exact ⟨hall ⟨c, r⟩ List.mem_cons_self, fun e he => hall e (List.mem_cons_of_mem _ he)⟩

/-- Calls that are answered whatever the world is, and leave it as it is, make a run that does. -/
theorem run_of_only {P : C → Prop} (hh : ∀ c, P c → ∀ w w', (h c w).1 = (h c w').1 ∧ (h c w).2 = w)
    {p : Prog C R α} (hp : Only P p) (w w' : W) :
    (p.run h w).1 = (p.run h w').1 ∧ (p.run h w).2 = w := by
  induction p generalizing w w' with
  | pure a => exact ⟨rfl, rfl⟩
  | call c k ih =>
      have hc : P c := (hp.head (h c w).1 (exec_trace h _ w)).1
      have hk : ∀ r, Only P (k r) := fun r tr a hx => (hp.head r hx).2
      obtain ⟨hans, hworld⟩ := hh c hc w w'
      have hworld' := (hh c hc w' w).2
      rw [run_call, run_call, hworld, hworld', hans]
      exact ih _ (hk _) w w'

end Prog

namespace Method

variable {C : Type} {R : C → Type} {ε ε' σ τ α β W : Type} {h : (c : C) → W → R c × W}

/-! ## What a run returns -/

section RunOn
variable {s : σ} {w : W}

@[simp] theorem runOn_pure (a : α) :
    runOn h (pure a : Method C R ε σ α) s w = ((.ok a, s), w) := rfl

@[simp] theorem runOn_throw (e : ε) :
    runOn h (throw e : Method C R ε σ α) s w = ((.error e, s), w) := rfl

@[simp] theorem runOn_get : runOn h (get : Method C R ε σ σ) s w = ((.ok s, s), w) := rfl

@[simp] theorem runOn_modify (f : σ → σ) :
    runOn h (modify f : Method C R ε σ PUnit) s w = ((.ok ⟨⟩, f s), w) := rfl

@[simp] theorem runOn_perform (c : C) :
    runOn h (perform c : Method C R ε σ (R c)) s w = ((.ok (h c w).1, s), (h c w).2) := rfl

theorem runOn_bind (x : Method C R ε σ α) (f : α → Method C R ε σ β) :
    runOn h (x >>= f) s w =
      match runOn h x s w with
      | ((.ok a, s'), w') => runOn h (f a) s' w'
      | ((.error e, s'), w') => ((.error e, s'), w') := by
  have hb : runOn h (x >>= f) s w = Prog.run h (Prog.bind (x s) fun p =>
      (ExceptT.bindCont f p.1) p.2) w := rfl
  rw [hb, Prog.run_bind]
  unfold runOn
  obtain ⟨⟨r, s'⟩, w'⟩ := Prog.run h (x s) w
  cases r <;> rfl

@[simp] theorem runOn_get_bind (f : σ → Method C R ε σ β) :
    runOn h (get >>= f) s w = runOn h (f s) s w := rfl

@[simp] theorem runOn_modify_bind (g : σ → σ) (f : PUnit → Method C R ε σ β) :
    runOn h (modify g >>= f) s w = runOn h (f ⟨⟩) (g s) w := rfl

theorem runOn_zoom (get : τ → σ) (set : τ → σ → τ) (x : Method C R ε σ α) (t : τ) :
    runOn h (zoom get set x) t w =
      (((runOn h x (get t) w).1.1, set t (runOn h x (get t) w).1.2), (runOn h x (get t) w).2) := by
  have hb : runOn h (zoom get set x) t w = Prog.run h (Prog.bind (x (get t)) fun p =>
      Prog.pure (p.1, set t p.2)) w := rfl
  rw [hb, Prog.run_bind]
  rfl

theorem runOn_attempt (caught : ε → Option ε') (x : Method C R ε σ α) :
    runOn h (attempt caught x) s w =
      ((settle caught (runOn h x s w).1.1, (runOn h x s w).1.2), (runOn h x s w).2) := by
  unfold runOn
  rw [attempt_apply, Prog.run_bind]
  rfl

end RunOn

/-! ## The calls of a run -/

section TraceOn
variable {s : σ} {w : W}

@[simp] theorem traceOn_pure (a : α) : traceOn h (pure a : Method C R ε σ α) s w = [] := rfl

@[simp] theorem traceOn_throw (e : ε) : traceOn h (throw e : Method C R ε σ α) s w = [] := rfl

@[simp] theorem traceOn_get : traceOn h (get : Method C R ε σ σ) s w = [] := rfl

@[simp] theorem traceOn_get_bind (f : σ → Method C R ε σ β) :
    traceOn h (get >>= f) s w = traceOn h (f s) s w := rfl

theorem traceOn_bind (x : Method C R ε σ α) (f : α → Method C R ε σ β) :
    traceOn h (x >>= f) s w = traceOn h x s w ++
      match runOn h x s w with
      | ((.ok a, s'), w') => traceOn h (f a) s' w'
      | ((.error _, _), _) => [] := by
  have hb : traceOn h (x >>= f) s w = Prog.trace h (Prog.bind (x s) fun p =>
      (ExceptT.bindCont f p.1) p.2) w := rfl
  rw [hb, Prog.trace_bind]
  unfold runOn
  obtain ⟨⟨r, s'⟩, w'⟩ := Prog.run h (x s) w
  cases r <;> rfl

theorem traceOn_bind_pure (x : Method C R ε σ α) (f : α → β) :
    traceOn h (x >>= fun a => pure (f a)) s w = traceOn h x s w := by
  rw [traceOn_bind]
  obtain ⟨⟨r, s'⟩, w'⟩ := runOn h x s w
  cases r <;> exact List.append_nil _

theorem traceOn_zoom (get : τ → σ) (set : τ → σ → τ) (x : Method C R ε σ α) (t : τ) :
    traceOn h (zoom get set x) t w = traceOn h x (get t) w := by
  have hb : traceOn h (zoom get set x) t w = Prog.trace h (Prog.bind (x (get t)) fun p =>
      Prog.pure (p.1, set t p.2)) w := rfl
  rw [hb, Prog.trace_bind]
  exact List.append_nil _

theorem traceOn_attempt (caught : ε → Option ε') (x : Method C R ε σ α) :
    traceOn h (attempt caught x) s w = traceOn h x s w := by
  unfold traceOn
  rw [attempt_apply, Prog.trace_bind]
  exact List.append_nil _

/-- When what is attempted returns normally, the calls of the rest follow. -/
theorem traceOn_attempt_bind {caught : ε → Option ε'} {x : Method C R ε σ α} {a : α} {s' : σ}
    {w' : W} (f : Except ε' α → Method C R ε σ β) (hx : runOn h x s w = ((.ok a, s'), w')) :
    traceOn h (attempt caught x >>= f) s w =
      traceOn h x s w ++ traceOn h (f (.ok a)) s' w' := by
  rw [traceOn_bind, traceOn_attempt, runOn_attempt, hx]
  rfl

end TraceOn

end Method
