import Ddcp.Lib.Shared

set_option autoImplicit false

/-! # Programs that may be cut off

A program that works on a durable state `W` can end between any two of its calls. `Prog.Keeps` is a
triple for such programs: from `w`, whatever the environment answers, `I` holds of the durable state
before every call and at the end, and `Q` of the result at the end. So `I` is what the next program
finds, wherever this one was cut off (`Keeps.now` after any `Keeps.step`). -/

namespace Prog

variable {C : Type} {R : C → Type} {α β W : Type}

section Keeps
variable (answers : W → (Σ c, R c) → W → Prop) (I : W → Prop)

def Keeps (Q : α → W → Prop) : Prog C R α → W → Prop
  | pure a, w => I w ∧ Q a w
  | call c k, w => I w ∧ ∀ r w', answers w ⟨c, r⟩ w' → Keeps Q (k r) w'

end Keeps

variable {answers : W → (Σ c, R c) → W → Prop} {I : W → Prop} {Q : α → W → Prop}
  {p p' : Prog C R α} {w w' : W}

theorem Keeps.now (h : Keeps answers I Q p w) : I w := by
  cases p with
  | pure a => exact h.1
  | call c k => exact h.1

theorem Keeps.step {e : Σ c, R c} (h : Keeps answers I Q p w) (hs : Step p e p')
    (ha : answers w e w') : Keeps answers I Q p' w' := by
  cases hs with
  | call c k r => exact h.2 r w' ha

theorem Keeps.mono {Q' : α → W → Prop} (h : Keeps answers I Q p w)
    (hQ : ∀ a w, I w → Q a w → Q' a w) : Keeps answers I Q' p w := by
  induction p generalizing w with
  | pure a => exact ⟨h.1, hQ a w h.1 h.2⟩
  | call c k ih => exact ⟨h.1, fun r w' ha => ih r (h.2 r w' ha)⟩

theorem Keeps.bind {Q' : β → W → Prop} {f : α → Prog C R β} (h : Keeps answers I Q p w)
    (hf : ∀ a w, I w → Q a w → Keeps answers I Q' (f a) w) : Keeps answers I Q' (p.bind f) w := by
  induction p generalizing w with
  | pure a => exact hf a w h.1 h.2
  | call c k ih => exact ⟨h.1, fun r w' ha => ih r (h.2 r w' ha)⟩

/-- Nobody else. -/
def alone : W → W → Prop := fun _ _ => False

theorem alone_iff : Relation.ReflTransGen (alone : W → W → Prop) w w' ↔ w' = w := by
  constructor
  · intro h
    cases h with
    | refl => rfl
    | tail _ h => exact h.elim
  · rintro rfl
    exact .refl

section Alone
variable {e : Σ c, R c} {tr : List (Σ c, R c)}

theorem served_alone_nil_iff : Served answers alone w [] w' ↔ w' = w :=
  served_nil_iff.trans alone_iff

theorem served_alone_cons_iff : Served answers alone w (e :: tr) w' ↔
    ∃ w₁, answers w e w₁ ∧ Served answers alone w₁ tr w' := by
  rw [served_cons_iff]
  constructor
  · rintro ⟨w₀, w₁, h₀, h₁, h₂⟩
    obtain rfl := alone_iff.1 h₀
    exact ⟨w₁, h₁, h₂⟩
  · rintro ⟨w₁, h₁, h₂⟩
    exact ⟨w, w₁, .refl, h₁, h₂⟩

theorem served_alone_one_iff : Served answers alone w [e] w' ↔ answers w e w' := by
  rw [served_alone_cons_iff]
  constructor
  · rintro ⟨w₁, h₁, h₂⟩
    exact served_alone_nil_iff.1 h₂ ▸ h₁
  · intro h
    exact ⟨w', h, served_alone_nil_iff.2 rfl⟩

end Alone

/-- What an execution that is not cut off ends with. -/
theorem Keeps.exec {tr : List (Σ c, R c)} {a : α} (h : Keeps answers I Q p w) (hx : Exec p tr a)
    (hw : Served answers alone w tr w') : I w' ∧ Q a w' := by
  induction hx generalizing w with
  | pure a =>
      obtain rfl := served_alone_nil_iff.1 hw
      exact h
  | call _ ih =>
      obtain ⟨w₁, h₁, h₂⟩ := served_alone_cons_iff.1 hw
      exact ih (h.2 _ _ h₁) h₂

/-- What an execution that is cut off leaves. -/
theorem Keeps.exec_cut {tr rest : List (Σ c, R c)} {a : α} (h : Keeps answers I Q p w)
    (hx : Exec p (tr ++ rest) a) (hw : Served answers alone w tr w') : I w' := by
  induction tr generalizing p w with
  | nil =>
      obtain rfl := served_alone_nil_iff.1 hw
      exact h.now
  | cons e tr ih =>
      obtain ⟨w₁, h₁, h₂⟩ := served_alone_cons_iff.1 hw
      cases hx with
      | call hk => exact ih (h.2 _ _ h₁) hk h₂

/-- An environment that can answer every call lets the program run to its end. -/
theorem Keeps.exists_exec (h : Keeps answers I Q p w)
    (hanswers : ∀ w c, I w → ∃ r w', answers w ⟨c, r⟩ w') :
    ∃ tr a w', Exec p tr a ∧ Served answers alone w tr w' ∧ Q a w' := by
  induction p generalizing w with
  | pure a => exact ⟨[], a, w, .pure a, .nil .refl, h.2⟩
  | call c k ih =>
      obtain ⟨r, w₁, ha⟩ := hanswers w c h.1
      obtain ⟨tr, a, w', hx, hw, hQ⟩ := ih r (h.2 r w₁ ha)
      exact ⟨⟨c, r⟩ :: tr, a, w', .call hx, .cons .refl ha hw, hQ⟩

end Prog

namespace Method

variable {C : Type} {R : C → Type} {ε σ α β W : Type}

/-- The same of a method, from a state; `Q` says of its end and of the state it leaves. -/
def Keeps (answers : W → (Σ c, R c) → W → Prop) (I : W → Prop) (x : Method C R ε σ α) (s : σ)
    (w : W) (Q : Except ε α → σ → W → Prop) : Prop :=
  Prog.Keeps answers I (fun p => Q p.1 p.2) (x s) w

variable {answers : W → (Σ c, R c) → W → Prop} {I : W → Prop} {x : Method C R ε σ α} {s : σ} {w : W}
  {Q : Except ε α → σ → W → Prop}

theorem Keeps.pure {a : α} (hI : I w) (h : Q (.ok a) s w) :
    Keeps answers I (pure a : Method C R ε σ α) s w Q := ⟨hI, h⟩

theorem Keeps.throw {e : ε} (hI : I w) (h : Q (.error e) s w) :
    Keeps answers I (throw e : Method C R ε σ α) s w Q := ⟨hI, h⟩

theorem Keeps.get_bind {f : σ → Method C R ε σ α} (h : Keeps answers I (f s) s w Q) :
    Keeps answers I (get >>= f) s w Q := h

theorem Keeps.modify_bind {g : σ → σ} {f : PUnit → Method C R ε σ α}
    (h : Keeps answers I (f ⟨⟩) (g s) w Q) : Keeps answers I (modify g >>= f) s w Q := h

theorem Keeps.modify {g : σ → σ} {Q : Except ε PUnit → σ → W → Prop} (hI : I w)
    (h : Q (.ok ⟨⟩) (g s) w) : Keeps answers I (modify g : Method C R ε σ PUnit) s w Q := ⟨hI, h⟩

theorem Keeps.perform {c : C} {Q : Except ε (R c) → σ → W → Prop} (hI : I w)
    (h : ∀ r w', answers w ⟨c, r⟩ w' → I w' ∧ Q (.ok r) s w') :
    Keeps answers I (perform c : Method C R ε σ (R c)) s w Q := ⟨hI, h⟩

theorem Keeps.now (h : Keeps answers I x s w Q) : I w := Prog.Keeps.now h

theorem Keeps.mono {Q' : Except ε α → σ → W → Prop} (h : Keeps answers I x s w Q)
    (hQ : ∀ r s w, I w → Q r s w → Q' r s w) : Keeps answers I x s w Q' :=
  Prog.Keeps.mono h fun p w hI hp => hQ p.1 p.2 w hI hp

theorem Keeps.bind {f : α → Method C R ε σ β} {Q' : Except ε β → σ → W → Prop}
    (h : Keeps answers I x s w Q)
    (hok : ∀ a s w, I w → Q (.ok a) s w → Keeps answers I (f a) s w Q')
    (herr : ∀ e s w, I w → Q (.error e) s w → Q' (.error e) s w) :
    Keeps answers I (x >>= f) s w Q' := by
  have hbind : Prog.Keeps answers I (fun p => Q' p.1 p.2) (Prog.bind (x s) fun p =>
      (ExceptT.bindCont f p.1) p.2) w := by
    refine Prog.Keeps.bind h fun p w hI hp => ?_
    obtain ⟨r, s₁⟩ := p
    cases r with
    | ok a => exact hok a s₁ w hI hp
    | error e => exact ⟨hI, herr e s₁ w hI hp⟩
  exact hbind

theorem Keeps.exec {tr : List (Σ c, R c)} {r : Except ε α} {s' : σ} {w' : W}
    (h : Keeps answers I x s w Q) (hx : Exec x s tr r s')
    (hw : Prog.Served answers Prog.alone w tr w') : I w' ∧ Q r s' w' := by
  have hprog : Prog.Keeps answers I (fun p => Q p.1 p.2) (x s) w := h
  exact hprog.exec hx hw

theorem Keeps.exists_exec (h : Keeps answers I x s w Q)
    (hanswers : ∀ w c, I w → ∃ r w', answers w ⟨c, r⟩ w') :
    ∃ tr r s' w', Exec x s tr r s' ∧ Prog.Served answers Prog.alone w tr w' ∧ Q r s' w' := by
  obtain ⟨tr, ⟨r, s'⟩, w', hx, hw, hQ⟩ := Prog.Keeps.exists_exec h hanswers
  exact ⟨tr, r, s', w', hx, hw, hQ⟩

end Method
