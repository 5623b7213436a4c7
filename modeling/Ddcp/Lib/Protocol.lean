import Ddcp.Lib.Lts
import Ddcp.Lib.Safe

set_option autoImplicit false

/-! # Programs that keep a protocol

What a program may ask of its environment depends on what it has been told before. A `Protocol` has
states; in each it says which calls may be made, which answers are promised, and to which states a
call and its answer lead. There may be several: which of them the program means only shows in what
it does later. `Follows P fin p q` says that `p` keeps to it from the state `q` on, whatever
promised answers it gets, and ends as `fin` says. It is kept by every step (`Follows.step`), so that
it can be part of an invariant of a system in which many programs take their steps in any order. -/

structure Protocol (C : Type) (R : C → Type) (Q : Type) where
  may : Q → C → Prop
  promised : Q → (Σ c, R c) → Prop
  next : Q → (Σ c, R c) → Q → Prop

namespace Prog

variable {C : Type} {R : C → Type} {Q α β : Type} {P : Protocol C R Q}

def Follows (P : Protocol C R Q) (fin : Q → α → Prop) : Prog C R α → Q → Prop
  | pure a, q => fin q a
  | call c k, q => P.may q c ∧ ∀ r, P.promised q ⟨c, r⟩ →
      ∃ q', P.next q ⟨c, r⟩ q' ∧ Follows P fin (k r) q'

theorem Follows.step {fin : Q → α → Prop} {p p' : Prog C R α} {q : Q} {e : Σ c, R c}
    (h : Follows P fin p q) (hs : Step p e p') (he : P.promised q e) :
    ∃ q', P.next q e q' ∧ Follows P fin p' q' := by
  cases hs with
  | call c k r => exact h.2 r he

theorem Follows.may {fin : Q → α → Prop} {p : Prog C R α} {q : Q} {c : C} (h : Follows P fin p q)
    (hc : p.next = some c) : P.may q c := by
  cases p with
  | pure a => exact absurd hc (by simp [next])
  | call c' k =>
      obtain rfl : c' = c := Option.some.inj hc
      exact h.1

theorem Follows.bind {M : Q → α → Prop} {fin : Q → β → Prop} {p : Prog C R α}
    {f : α → Prog C R β} {q : Q} (hp : Follows P M p q)
    (hf : ∀ a q', M q' a → Follows P fin (f a) q') : Follows P fin (p.bind f) q := by
  induction p generalizing q with
  | pure a => exact hf a q hp
  | call c k ih =>
      refine ⟨hp.1, fun r hr => ?_⟩
      obtain ⟨q', hnext, hk⟩ := hp.2 r hr
      exact ⟨q', hnext, ih r hk⟩

theorem Follows.mono {fin fin' : Q → α → Prop} {p : Prog C R α} {q : Q} (hp : Follows P fin p q)
    (h : ∀ q' a, fin q' a → fin' q' a) : Follows P fin' p q := by
  induction p generalizing q with
  | pure a => exact h q a hp
  | call c k ih =>
      refine ⟨hp.1, fun r hr => ?_⟩
      obtain ⟨q', hnext, hk⟩ := hp.2 r hr
      exact ⟨q', hnext, ih r hk⟩

/-- An execution is a run of steps to the end. -/
theorem Exec.run {p : Prog C R α} {tr : List (Σ c, R c)} {a : α} (h : Exec p tr a) :
    Lts.Run Step p tr (Prog.pure a) := by
  induction h with
  | pure a => exact .nil
  | call _ ih => exact .cons (.call _ _ _) ih

theorem Exec.eq_pure {p : Prog C R α} {a : α} (h : Exec p [] a) : p = Prog.pure a := by
  cases h
  rfl

theorem Exec.after_run {p p' : Prog C R α} {tr tr' : List (Σ c, R c)} {a : α}
    (hr : Lts.Run Step p tr p') (h : Exec p' tr' a) : Exec p (tr ++ tr') a := by
  induction hr generalizing tr' with
  | nil => exact h
  | @snoc tr p₁ p₂ e hr hs ih =>
      rw [List.append_assoc]
      exact ih (hs.exec h)

/-- What every step of the protocol keeps or adds to, the program does. -/
theorem Follows.along {le : Q → Q → Prop} (hrefl : ∀ q, le q q)
    (htrans : ∀ q q₁ q₂, le q q₁ → le q₁ q₂ → le q q₂)
    (hnext : ∀ q e q', P.next q e q' → le q q') {fin : Q → α → Prop} {p : Prog C R α} {q : Q}
    (hp : Follows P fin p q) : Follows P (fun q' a => fin q' a ∧ le q q') p q := by
  induction p generalizing q with
  | pure a => exact ⟨hp, hrefl q⟩
  | call c k ih =>
      refine ⟨hp.1, fun r hr => ?_⟩
      obtain ⟨q₁, hq₁, hk⟩ := hp.2 r hr
      refine ⟨q₁, hq₁, (ih r hk).mono fun q' a h => ⟨h.1, ?_⟩⟩
      exact htrans q q₁ q' (hnext q _ q₁ hq₁) h.2

end Prog

/-! ## Methods -/

namespace Method

variable {C : Type} {R : C → Type} {Q ε ε' σ τ α β : Type} {P : Protocol C R Q}

/-- The same of a method from a state; `fin` says of its end, the state it leaves, and where the
    protocol then stands. -/
def Follows (P : Protocol C R Q) (x : Method C R ε σ α) (s : σ) (q : Q)
    (fin : Except ε α → σ → Q → Prop) : Prop :=
  Prog.Follows P (fun q p => fin p.1 p.2 q) (x s) q

section Follows
variable {s : σ} {q : Q}

theorem Follows.pure {a : α} {fin : Except ε α → σ → Q → Prop} (h : fin (.ok a) s q) :
    Follows P (pure a : Method C R ε σ α) s q fin := h

theorem Follows.throw {e : ε} {fin : Except ε α → σ → Q → Prop} (h : fin (.error e) s q) :
    Follows P (throw e : Method C R ε σ α) s q fin := h

theorem Follows.get_bind {f : σ → Method C R ε σ β} {fin : Except ε β → σ → Q → Prop}
    (h : Follows P (f s) s q fin) : Follows P (get >>= f) s q fin := h

theorem Follows.modify_bind {g : σ → σ} {f : PUnit → Method C R ε σ β}
    {fin : Except ε β → σ → Q → Prop} (h : Follows P (f ⟨⟩) (g s) q fin) :
    Follows P (modify g >>= f) s q fin := h

theorem Follows.modify {g : σ → σ} {fin : Except ε PUnit → σ → Q → Prop}
    (h : fin (.ok ⟨⟩) (g s) q) : Follows P (modify g : Method C R ε σ PUnit) s q fin := h

theorem Follows.perform {c : C} {fin : Except ε (R c) → σ → Q → Prop} (hmay : P.may q c)
    (h : ∀ r, P.promised q ⟨c, r⟩ → ∃ q', P.next q ⟨c, r⟩ q' ∧ fin (.ok r) s q') :
    Follows P (perform c : Method C R ε σ (R c)) s q fin :=
  ⟨hmay, h⟩

theorem Follows.mono {x : Method C R ε σ α} {fin fin' : Except ε α → σ → Q → Prop}
    (hx : Follows P x s q fin) (h : ∀ r s' q', fin r s' q' → fin' r s' q') :
    Follows P x s q fin' :=
  Prog.Follows.mono hx fun q' p => h p.1 p.2 q'

theorem Follows.bind {x : Method C R ε σ α} {f : α → Method C R ε σ β}
    {M : Except ε α → σ → Q → Prop} {fin : Except ε β → σ → Q → Prop}
    (hx : Follows P x s q M)
    (hok : ∀ a s₁ q₁, M (.ok a) s₁ q₁ → Follows P (f a) s₁ q₁ fin)
    (herr : ∀ e s₁ q₁, M (.error e) s₁ q₁ → fin (.error e) s₁ q₁) :
    Follows P (x >>= f) s q fin := by
  have h : Prog.Follows P (fun q p => fin p.1 p.2 q) (Prog.bind (x s) fun p =>
      (ExceptT.bindCont f p.1) p.2) q := by
    refine Prog.Follows.bind hx fun p q' hp => ?_
    obtain ⟨r, s₁⟩ := p
    cases r with
    | ok a => exact hok a s₁ q' hp
    | error e => exact herr e s₁ q' hp
  exact h

theorem Follows.zoom {get : τ → σ} {set : τ → σ → τ} {x : Method C R ε σ α} {t : τ}
    {fin : Except ε α → τ → Q → Prop}
    (hx : Follows P x (get t) q fun r s' q' => fin r (set t s') q') :
    Follows P (zoom get set x) t q fin := by
  have h : Prog.Follows P (fun q p => fin p.1 p.2 q) (Prog.bind (x (get t)) fun p =>
      Prog.pure (p.1, set t p.2)) q := Prog.Follows.bind hx fun p q' hp => hp
  exact h

theorem Follows.attempt {caught : ε → Option ε'} {x : Method C R ε σ α}
    {fin : Except ε (Except ε' α) → σ → Q → Prop}
    (hx : Follows P x s q fun r s' q' => fin (settle caught r) s' q') :
    Follows P (attempt caught x) s q fin := by
  unfold Follows
  rw [attempt_apply]
  exact Prog.Follows.bind hx fun p q' hp => hp

/-- What each round keeps, the loop keeps, however it ends. -/
theorem Follows.forM {l : List α} {f : α → Method C R ε σ PUnit} {I : σ → Q → Prop} (h0 : I s q)
    (hf : ∀ a ∈ l, ∀ s q, I s q → Follows P (f a) s q fun _ s' q' => I s' q') :
    Follows P (l.forM f) s q fun _ s' q' => I s' q' := by
  induction l generalizing s q with
  | nil => exact Follows.pure h0
  | cons a l ih =>
      refine (hf a List.mem_cons_self s q h0).bind (fun u s₁ q₁ h => ?_) fun e s₁ q₁ h => h
      exact ih h fun b hb => hf b (List.mem_cons_of_mem _ hb)

end Follows

end Method
