import Ddcp.Lib.Prog
import Mathlib.Logic.Equiv.Defs

set_option autoImplicit false

/-! # Programs in a larger program

A program that makes the calls `C` is part of one that makes the calls `C'`, when each call of `C`
is one of `C'` with the same answers (`Embedding`). Its executions are then those of the part, call
by call (`exec_embed_iff`). -/

structure Embedding (C : Type) (R : C → Type) (C' : Type) (R' : C' → Type) where
  call : C → C'
  ret (c : C) : R' (call c) ≃ R c

namespace Embedding
variable {C C' : Type} {R : C → Type} {R' : C' → Type}

def event (E : Embedding C R C' R') (e : Σ c, R c) : Σ c, R' c :=
  ⟨E.call e.1, (E.ret e.1).symm e.2⟩

end Embedding

namespace Prog
variable {C C' : Type} {R : C → Type} {R' : C' → Type} {α : Type}

def embed (E : Embedding C R C' R') : Prog C R α → Prog C' R' α
  | pure a => .pure a
  | call c k => .call (E.call c) fun r => (k (E.ret c r)).embed E

theorem exec_embed_iff {E : Embedding C R C' R'} {p : Prog C R α} {tr : List (Σ c, R' c)} {a : α} :
    Exec (p.embed E) tr a ↔ ∃ tr₀, tr = tr₀.map E.event ∧ Exec p tr₀ a := by
  induction p generalizing tr with
  | pure b =>
      constructor
      · intro h
        obtain ⟨rfl, rfl⟩ := exec_pure_iff.1 h
        exact ⟨[], rfl, .pure _⟩
      · rintro ⟨tr₀, rfl, h⟩
        obtain ⟨rfl, rfl⟩ := exec_pure_iff.1 h
        exact .pure _
  | call c k ih =>
      constructor
      · intro h
        obtain ⟨r, tr', rfl, hk⟩ := exec_call_iff.1 h
        obtain ⟨tr₀, rfl, h₀⟩ := (ih _).1 hk
        refine ⟨⟨c, E.ret c r⟩ :: tr₀, ?_, .call h₀⟩
        simp [Embedding.event]
      · rintro ⟨tr₀, rfl, h⟩
        obtain ⟨r, tr', rfl, hk⟩ := exec_call_iff.1 h
        have hk' : Exec ((k (E.ret c ((E.ret c).symm r))).embed E) (tr'.map E.event) a := by
          rw [Equiv.apply_symm_apply]
          exact (ih r).2 ⟨tr', rfl, hk⟩
        exact .call hk'

/-- What has been answered decides how a program goes on: of two executions that begin alike, none
    stops while the other goes on. -/
theorem Exec.eq_of_prefix {p : Prog C R α} {tr tr' l l' : List (Σ c, R c)} {a b : α}
    (h : Exec p tr a) (h' : Exec p tr' b) (heq : tr ++ l = tr' ++ l') : tr = tr' ∧ a = b := by
  induction h generalizing tr' with
  | pure a =>
      obtain ⟨rfl, rfl⟩ := exec_pure_iff.1 h'
      exact ⟨rfl, rfl⟩
  | call hk ih =>
      obtain ⟨r, tr'', rfl, hk'⟩ := exec_call_iff.1 h'
      obtain ⟨he, htl⟩ := List.cons.inj heq
      cases he
      obtain ⟨rfl, rfl⟩ := ih hk' htl
      exact ⟨rfl, rfl⟩

end Prog

namespace Method
variable {C C' : Type} {R : C → Type} {R' : C' → Type} {ε ε' σ α : Type}

/-- The same for a method, whose errors are mapped. -/
def embed (E : Embedding C R C' R') (f : ε → ε') (x : Method C R ε σ α) : Method C' R' ε' σ α :=
  fun s => do
    let p ← (x s).embed E
    Prog.pure (p.1.mapError f, p.2)

theorem exec_embed_iff {E : Embedding C R C' R'} {f : ε → ε'} {x : Method C R ε σ α} {s s' : σ}
    {tr : List (Σ c, R' c)} {r : Except ε' α} :
    Exec (x.embed E f) s tr r s' ↔
      ∃ tr₀ r₀, tr = tr₀.map E.event ∧ Exec x s tr₀ r₀ s' ∧ r = r₀.mapError f := by
  have hbind : Exec (x.embed E f) s tr r s' ↔
      ∃ p, Prog.Exec ((x s).embed E) tr p ∧ (r, s') = (p.1.mapError f, p.2) :=
    Prog.exec_bind_pure_iff
  rw [hbind]
  constructor
  · rintro ⟨⟨r₀, s₀⟩, hx, heq⟩
    obtain ⟨rfl, rfl⟩ := Prod.mk.inj heq
    obtain ⟨tr₀, rfl, h₀⟩ := Prog.exec_embed_iff.1 hx
    exact ⟨tr₀, r₀, rfl, h₀, rfl⟩
  · rintro ⟨tr₀, r₀, rfl, h₀, rfl⟩
    exact ⟨(r₀, s'), Prog.exec_embed_iff.2 ⟨tr₀, rfl, h₀⟩, rfl⟩

/-- The calls of the part are calls of the whole. -/
theorem Within.embed {E : Embedding C R C' R'} {f : ε → ε'} {x : Method C R ε σ α}
    {τ : Type} {g : σ → τ} {P : C → Prop} {P' : C' → Prop} (h : Within (frame g P) x)
    (hP : ∀ c, P c → P' (E.call c)) : Within (frame g P') (x.embed E f) := by
  intro s tr r s' hx
  obtain ⟨tr₀, r₀, rfl, h₀, rfl⟩ := exec_embed_iff.1 hx
  obtain ⟨hg, hcalls⟩ := h _ _ _ _ h₀
  refine ⟨hg, fun e he => ?_⟩
  obtain ⟨e₀, he₀, rfl⟩ := List.mem_map.1 he
  exact hP _ (hcalls e₀ he₀)

theorem EndsIff.embed {E : Embedding C R C' R'} {f : ε → ε'} {x : Method C R ε σ α} {stop : ε}
    {stop' : ε'} {bad : (Σ c, R c) → Prop} {bad' : (Σ c, R' c) → Prop} (h : EndsIff x stop bad)
    (hf : ∀ e, f e = stop' ↔ e = stop) (hbad : ∀ e, bad' (E.event e) ↔ bad e) :
    EndsIff (x.embed E f) stop' bad' := by
  intro s tr r s' hx
  obtain ⟨tr₀, r₀, rfl, h₀, rfl⟩ := exec_embed_iff.1 hx
  have hstop : r₀.mapError f = .error stop' ↔ r₀ = .error stop := by
    cases r₀ with
    | ok a => exact iff_of_false (fun h => by cases h) (fun h => by cases h)
    | error e =>
        have he : (Except.error (f e) : Except ε' α) = .error stop' ↔ e = stop := by
          rw [Except.error.injEq, hf]
        rw [Except.error.injEq]
        exact he
  rw [hstop, h _ _ _ _ h₀]
  constructor
  · rintro ⟨e, he, hb⟩
    exact ⟨E.event e, List.mem_map.2 ⟨e, he, rfl⟩, (hbad e).2 hb⟩
  · rintro ⟨e', he', hb⟩
    obtain ⟨e, he, rfl⟩ := List.mem_map.1 he'
    exact ⟨e, he, (hbad e).1 hb⟩

end Method
