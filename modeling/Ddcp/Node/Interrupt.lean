import Ddcp.Lib.Protocol
import Ddcp.Node.Replies
import Ddcp.Node.Shutdown

set_option autoImplicit false

/-! # The interrupt

When a shutdown is ordered. It depends on what is going on when the interrupt arrives
(`NoneAtWork`) and on the order of the steps from then on (`InOrder`): the loops find the token
cancelled at their next `select!`, and `serve` happens to return after both have had that turn. A
responder that is at work when the interrupt arrives is waited for by nobody. -/

namespace Ddcp

open Method Lts History

/-! ## Steps in order -/

/-- A step of the process, with the states before and after it. -/
abbrev ProcessStep := Process × ProcessAction × Process

/-- At its `select!`, or at the end of a round that has panicked. -/
def Loop.AtRest {β : Type} : Loop β → Prop
  | .idle _ | .busy (.pure (.error .panic, _)) => True
  | _ => False

/-- The loop has had a turn at rest since the interrupt, unless it had ended before it. -/
def HadTurn {β : Type} (a : Actor) (loop : Process → Loop β) (before : List ProcessStep) : Prop :=
  ∃ t ∈ before, (t.2.1 = .task a ∧ t.1.cancelled = true ∧ (loop t.1).AtRest) ∨
    (t.2.1 = .interrupt ∧ loop t.1 = .ended)

/-- Once the token is cancelled, the loop does not begin another round. -/
def NoNewRound {β : Type} (loop : Process → Loop β) (t : ProcessStep) : Prop :=
  t.1.cancelled = true → ∀ s p, loop t.1 = .idle s → loop t.2.2 ≠ .busy p

/-- The interrupter ends by the interrupt, the loops take the cancelled branch of their `select!`,
    and `serve` returns when both have had a turn there. -/
structure InOrder (before : List ProcessStep) (t : ProcessStep) : Prop where
  interrupted : t.2.1 ≠ .signalError
  puller : NoNewRound Process.puller t
  server : NoNewRound Process.server t
  turns : t.2.1 = .serveReturns →
    HadTurn .puller Process.puller before ∧ HadTurn .server Process.server before

section Work
variable [Capnp] [CryptoSystem]

/-- No responder has an operation on the database ahead of it, nor has one that the server is about
    to spawn. -/
structure NoneAtWork (σ : Process) : Prop where
  responders : ∀ p ∈ σ.responders, p.Only fun c => ¬ IsDb c
  round : ∀ p, σ.server = .busy p → ∀ tr r s, Prog.Exec p tr (.ok (some r), s) →
    ((r.run : Act Unit Unit) ()).Only fun c => ¬ IsDb c

/-- A step in order, and the interrupt when nobody is at work. -/
structure Orderly (before : List ProcessStep) (t : ProcessStep) : Prop extends InOrder before t where
  noneAtWork : t.2.1 = .interrupt → NoneAtWork t.1

end Work

/-! ## Turns -/

section Turns
variable {β : Type} {a : Actor} {f : Process → Loop β} {before : List ProcessStep}

theorem hadTurn_concat {t : ProcessStep} : HadTurn a f (before ++ [t]) ↔ HadTurn a f before ∨
    (t.2.1 = .task a ∧ t.1.cancelled = true ∧ (f t.1).AtRest) ∨
      (t.2.1 = .interrupt ∧ f t.1 = .ended) := by
  unfold HadTurn
  simp [or_and_right, exists_or]

theorem HadTurn.append (h : HadTurn a f before) (after : List ProcessStep) :
    HadTurn a f (before ++ after) := by
  obtain ⟨t, ht, hturn⟩ := h
  exact ⟨t, List.mem_append_left _ ht, hturn⟩

/-- A loop at rest that begins no round ends. -/
theorem Loop.Step.ended_of_atRest {rounds : DDCP → Prog Call Ret (Except Abort β × DDCP) → Prop}
    {stops : Prop} {l l' : Loop β} {es : List Event} {rs : List β}
    (h : Loop.Step rounds stops l es rs l') (hrest : l.AtRest)
    (hno : ∀ s p, l = .idle s → l' ≠ .busy p) : l' = .ended := by
  cases h with
  | start hp => exact absurd rfl (hno _ _ rfl)
  | call hs => cases hs; exact hrest.elim
  | done => exact hrest.elim
  | failed => exact hrest.elim
  | panicked => rfl
  | stop h => rfl

/-- A loop that has had its turn has ended. -/
theorem ended_of_hadTurn {t : ProcessStep} (hturn : HadTurn a f (before ++ [t]))
    (hold : HadTurn a f before → f t.1 = .ended)
    (hkeep : f t.1 = .ended → f t.2.2 = .ended)
    (hrest : t.2.1 = .task a → t.1.cancelled = true → (f t.1).AtRest → f t.2.2 = .ended) :
    f t.2.2 = .ended := by
  rcases hadTurn_concat.1 hturn with h | ⟨htask, hc, hr⟩ | ⟨_, hended⟩
  · exact hkeep (hold h)
  · exact hrest htask hc hr
  · exact hkeep hended

end Turns

/-! ## Runs in order -/

section Orderly
variable [Capnp] [CryptoSystem] {σ : Process}

theorem NoneAtWork.step_server (h : NoneAtWork σ) {es : List Event} {rs : List (Option Responder)}
    {l : Loop (Option Responder)} {log : List (Actor × Event)}
    (hl : Loop.Step (Process.serverRounds σ.peerByKey) True σ.server es rs l)
    (hno : ∀ s p, σ.server = .idle s → l ≠ .busy p) :
    NoneAtWork { σ with
      server := l
      responders := σ.responders ++ Process.spawned rs
      log := log } := by
  generalize hserver : σ.server = server at hl
  cases hl with
  | @start s p hp => exact absurd rfl (hno s p hserver)
  | @call p p' e hs =>
      refine ⟨?_, fun q hq tr r s hx => ?_⟩
      · simpa [Process.spawned] using h.responders
      · obtain rfl := Loop.busy.inj hq
        exact h.round p hserver _ r s (hs.exec hx)
  | @done b s =>
      refine ⟨fun p hp => ?_, fun q hq => absurd hq (by simp)⟩
      rcases List.mem_append.1 hp with hp | hp
      · exact h.responders p hp
      · -- the responder that this round has spawned
        cases b with
        | none => exact absurd hp (by simp [Process.spawned])
        | some r =>
            obtain rfl := List.mem_singleton.1 hp
            exact h.round _ hserver [] r s (.pure _)
  | failed => exact ⟨by simpa [Process.spawned] using h.responders, fun q hq => absurd hq (by simp)⟩
  | panicked =>
      exact ⟨by simpa [Process.spawned] using h.responders, fun q hq => absurd hq (by simp)⟩
  | stop => exact ⟨by simpa [Process.spawned] using h.responders, fun q hq => absurd hq (by simp)⟩

theorem NoneAtWork.step_responder (h : NoneAtWork σ)
    {ps ps' : List (Prog Call Ret (Except Abort Unit × Unit))}
    {p p' : Prog Call Ret (Except Abort Unit × Unit)} {e : Event} {log : List (Actor × Event)}
    (hps : σ.responders = ps ++ p :: ps') (hs : Prog.Step p e p') :
    NoneAtWork { σ with responders := ps ++ p' :: ps', log := log } := by
  have hall := h.responders
  rw [hps] at hall
  refine ⟨fun q hq => ?_, h.round⟩
  rcases List.mem_append.1 hq with hq | hq
  · exact hall q (List.mem_append_left _ hq)
  · rcases List.mem_cons.1 hq with rfl | hq
    · exact ((hall p (by simp)).step hs).2
    · exact hall q (List.mem_append_right _ (List.mem_cons_of_mem _ hq))

/-- Once the interrupt has arrived nobody is at work, and a loop that has had its turn is over. -/
structure OrderInv (before : List ProcessStep) (σ : Process) : Prop where
  cancelled : σ.interrupterEnded = true → σ.cancelled = true
  noneAtWork : σ.cancelled = true → NoneAtWork σ
  puller : HadTurn .puller Process.puller before → σ.puller = .ended
  server : HadTurn .server Process.server before → σ.server = .ended

theorem OrderInv.step {before : List ProcessStep} {l : ProcessAction} {σ' : Process}
    (h : OrderInv before σ) (ho : Orderly before (σ, l, σ')) (hs : Process.Step σ l σ') :
    OrderInv (before ++ [(σ, l, σ')]) σ' := by
  have hpuller := fun hkeep hrest hturn =>
    ended_of_hadTurn (t := (σ, l, σ')) (f := Process.puller) (a := .puller) hturn h.puller hkeep
      hrest
  have hserver := fun hkeep hrest hturn =>
    ended_of_hadTurn (t := (σ, l, σ')) (f := Process.server) (a := .server) hturn h.server hkeep
      hrest
  cases hs with
  | puller hl =>
      exact {
        cancelled := h.cancelled
        noneAtWork := fun hc => ⟨(h.noneAtWork hc).responders, (h.noneAtWork hc).round⟩
        puller := hpuller (fun hended => absurd hended hl.not_ended) fun _ hc hrest =>
          hl.ended_of_atRest hrest (ho.puller hc)
        server := hserver id fun htask => absurd htask (by simp) }
  | server hl =>
      exact {
        cancelled := h.cancelled
        noneAtWork := fun hc => (h.noneAtWork hc).step_server hl (ho.server hc)
        puller := hpuller id fun htask => absurd htask (by simp)
        server := hserver (fun hended => absurd hended hl.not_ended) fun _ hc hrest =>
          hl.ended_of_atRest hrest (ho.server hc) }
  | responder hps hstep =>
      exact {
        cancelled := h.cancelled
        noneAtWork := fun hc => (h.noneAtWork hc).step_responder hps hstep
        puller := hpuller id fun htask => absurd htask (by simp)
        server := hserver id fun htask => absurd htask (by simp) }
  | interrupt =>
      have hnone := ho.noneAtWork rfl
      exact {
        cancelled := fun _ => rfl
        noneAtWork := fun _ => ⟨hnone.responders, hnone.round⟩
        puller := hpuller id fun htask => absurd htask (by simp)
        server := hserver id fun htask => absurd htask (by simp) }
  | signalError => exact absurd rfl ho.interrupted
  | serveReturns hm hi =>
      exact {
        cancelled := h.cancelled
        noneAtWork := fun hc => ⟨(h.noneAtWork hc).responders, (h.noneAtWork hc).round⟩
        puller := hpuller id fun htask => absurd htask (by simp)
        server := hserver id fun htask => absurd htask (by simp) }
  | main hm hstep =>
      exact {
        cancelled := h.cancelled
        noneAtWork := fun hc => ⟨(h.noneAtWork hc).responders, (h.noneAtWork hc).round⟩
        puller := hpuller id fun htask => absurd htask (by simp)
        server := hserver id fun htask => absurd htask (by simp) }
  | exit hm =>
      exact {
        cancelled := h.cancelled
        noneAtWork := fun _ => ⟨by simp, fun p hp => absurd hp (by simp)⟩
        puller := fun _ => rfl
        server := fun _ => rfl }

/-- In such a run `serve` returns when its tasks are over. -/
theorem OrderInv.tasksOver {before : List ProcessStep} {l : ProcessAction} {σ' : Process}
    (h : OrderInv before σ) (ho : Orderly before (σ, l, σ')) (hs : Process.Step σ l σ') :
    TasksOver σ l := by
  cases hs with
  | serveReturns hm hi =>
      obtain ⟨hpuller, hserver⟩ := ho.turns rfl
      exact ⟨h.puller hpuller, h.server hserver, (h.noneAtWork (h.cancelled hi)).responders⟩
  | _ => exact trivial

/-- A run all of whose steps are in order is one in which `serve` returns when its tasks are over. -/
theorem guarded_of_orderly {ddcp : DDCP} {ts : List ProcessStep}
    (hr : Run (recorded Process.Step) (Process.start ddcp) ts σ) (ho : Always Orderly ts) :
    ∃ ls, Run (guarded Process.Step TasksOver) (Process.start ddcp) ls σ := by
  have h0 : OrderInv [] (Process.start ddcp) := {
    cancelled := fun h => absurd h (by simp [Process.start])
    noneAtWork := fun h => absurd h (by simp [Process.start])
    puller := fun ⟨t, ht, _⟩ => absurd ht List.not_mem_nil
    server := fun ⟨t, ht, _⟩ => absurd ht List.not_mem_nil }
  have hinv := hr.recorded_invariant (I := fun ts σ => OrderInv ts σ ∧
    ∃ ls, Run (guarded Process.Step TasksOver) (Process.start ddcp) ls σ) ho ⟨h0, [], .nil⟩ ?_
  · exact hinv.2
  · rintro ts σ l σ' ⟨hinv, ls, hls⟩ ho hs
    exact ⟨hinv.step ho hs, _, hls.snoc_guarded hs (hinv.tasksOver ho hs)⟩

end Orderly

/-! ## Nobody waits for a responder -/

/-- A step in order that neither ends the interrupter nor lets `serve` return. -/
structure Calm (t : ProcessStep) : Prop where
  interrupted : t.2.1 ≠ .signalError
  waits : t.2.1 ≠ .serveReturns
  puller : NoNewRound Process.puller t
  server : NoNewRound Process.server t

theorem Calm.inOrder {t : ProcessStep} (h : Calm t) (before : List ProcessStep) :
    InOrder before t := ⟨h.interrupted, h.puller, h.server, fun ht => absurd ht h.waits⟩

/-- Calm steps around one in order. -/
theorem always_inOrder {before ts ts' : List ProcessStep} {t : ProcessStep}
    (hts : ∀ t ∈ ts, Calm t) (ht : InOrder (before ++ ts) t) (hts' : ∀ t ∈ ts', Calm t) :
    Always (fun b => InOrder (before ++ b)) (ts ++ t :: ts') := by
  refine always_append.2 ⟨always_of_forall fun t ht _ => (hts t ht).inOrder _, ?_⟩
  exact always_cons.2 ⟨by rwa [List.append_nil],
    always_of_forall fun t ht _ => (hts' t ht).inOrder _⟩

theorem noNewRound_of_eq {β : Type} {loop : Process → Loop β} {t : ProcessStep}
    (h : loop t.2.2 = loop t.1) : NoNewRound loop t := by
  intro _ s p hidle
  rw [h, hidle]
  simp

/-- A responder has an operation on the database ahead of it. -/
def AtWork (σ : Process) : Prop := ∃ p ∈ σ.responders, ¬ p.Only fun c => ¬ IsDb c

section Finish
variable {β : Type}

/-- A loop with no round to begin takes every other step of it. -/
theorem Loop.Step.of_ending {R : DDCP → Prog Call Ret (Except Abort β × DDCP) → Prop}
    {stops : Prop} {l l' : Loop β} {es : List Event} {rs : List β} (hstops : stops)
    (h : Loop.Step (fun _ _ => False) True l es rs l') :
    Loop.Step R stops l es rs l' ∧ ∀ s p, l = .idle s → l' ≠ .busy p := by
  cases h with
  | start hp => exact hp.elim
  | call hs => exact ⟨.call hs, by simp⟩
  | done => exact ⟨.done, by simp⟩
  | failed => exact ⟨.failed, by simp⟩
  | panicked => exact ⟨.panicked, by simp⟩
  | stop => exact ⟨.stop hstops, by simp⟩

theorem Loop.AtRest.exists_step {l : Loop β} (h : l.AtRest) :
    ∃ es rs l', Loop.Step (fun _ _ => False) True l es rs l' := by
  unfold Loop.AtRest at h
  split at h
  · exact ⟨_, _, _, .stop trivial⟩
  · exact ⟨_, _, _, .panicked⟩
  · exact h.elim

variable [Capnp] [CryptoSystem] {a : Actor} {loop : Process → Loop β} {R : Process → Prop}

/-- A run of calm steps, in which the loop has its turn, to a state with `R`. -/
def TakesTurn (a : Actor) (loop : Process → Loop β) (R : Process → Prop) (σ : Process) : Prop :=
  ∃ ts σ', Run (recorded Process.Step) σ ts σ' ∧ (∀ t ∈ ts, Calm t) ∧ R σ' ∧ HadTurn a loop ts

theorem TakesTurn.of_run {σ σ' : Process} {ts : List ProcessStep}
    (hr : Run (recorded Process.Step) σ ts σ') (hcalm : ∀ t ∈ ts, Calm t)
    (h : TakesTurn a loop R σ') : TakesTurn a loop R σ := by
  obtain ⟨ts', σ'', hr', hcalm', hR, t, ht, hturn⟩ := h
  refine ⟨ts ++ ts', σ'', hr.trans hr', fun t ht => ?_, hR, t, List.mem_append_right _ ht, hturn⟩
  exact (List.mem_append.1 ht).elim (hcalm t) (hcalm' t)

/-- A loop that is let run on comes to the end of its round, and to its turn. -/
theorem takesTurn_of_step (hcancel : ∀ σ, R σ → σ.cancelled = true)
    (hstep : ∀ σ es rs l, R σ → Loop.Step (fun _ _ => False) True (loop σ) es rs l →
      ∃ σ', Process.Step σ (.task a) σ' ∧ Calm (σ, .task a, σ') ∧ loop σ' = l ∧ R σ')
    {σ : Process} (hR : R σ) (hne : loop σ ≠ .ended) : TakesTurn a loop R σ := by
  have hrest : ∀ σ, R σ → (loop σ).AtRest → TakesTurn a loop R σ := by
    intro σ hR hrest
    obtain ⟨es, rs, l, hl⟩ := hrest.exists_step
    obtain ⟨σ', hs, hcalm, _, hR'⟩ := hstep σ es rs l hR hl
    refine ⟨_, σ', Run.snoc_recorded .nil hs, ?_, hR', _, List.mem_cons_self,
      Or.inl ⟨rfl, hcancel σ hR, hrest⟩⟩
    intro t ht
    exact List.mem_singleton.1 ht ▸ hcalm
  cases hloop : loop σ with
  | ended => exact absurd hloop hne
  | idle s => exact hrest σ hR (by rw [hloop]; exact trivial)
  | busy p =>
      -- the calls of the round, and its end
      obtain ⟨tr, r, hx⟩ := Prog.exists_exec p
      obtain ⟨ts, σ₁, hr, hcalm, hloop₁, hR₁⟩ := hx.run.follow Process.Step
        (R := fun _ p σ => loop σ = .busy p ∧ R σ) (P := Calm) (fun _ p e p' σ hs ⟨hp, hR⟩ => by
          obtain ⟨σ', hs', hcalm, hp', hR'⟩ := hstep σ [e] [] (.busy p') hR (hp ▸ .call hs)
          exact ⟨_, σ', hs', hcalm, hp', hR'⟩) ⟨hloop, hR⟩
      refine TakesTurn.of_run hr hcalm ?_
      obtain ⟨r, s⟩ := r
      have hend : ∀ rs l, Loop.Step (fun _ _ => False) True (loop σ₁) [] rs (.idle l) →
          TakesTurn a loop R σ₁ := by
        intro rs l hl
        obtain ⟨σ₂, hs, hcalm, hidle, hR₂⟩ := hstep σ₁ _ _ _ hR₁ hl
        refine TakesTurn.of_run (Run.snoc_recorded .nil hs) (fun t ht => ?_)
          (hrest σ₂ hR₂ (by rw [hidle]; exact trivial))
        exact List.mem_singleton.1 ht ▸ hcalm
      cases r with
      | ok b => exact hend [b] s (hloop₁ ▸ .done)
      | error e =>
          cases e with
          | err e => exact hend [] s (hloop₁ ▸ .failed)
          | panic => exact hrest σ₁ hR₁ (by rw [hloop₁]; exact trivial)

end Finish

section Exposed
variable [Capnp] [CryptoSystem] {σ : Process}

/-- The interrupt has arrived, `serve` has not returned, and a responder is at work. -/
structure Exposed (σ : Process) : Prop where
  main : σ.main = .serving
  cancelled : σ.cancelled = true
  interrupterEnded : σ.interrupterEnded = true
  atWork : AtWork σ

theorem Exposed.takesTurn_puller (h : Exposed σ) (hne : σ.puller ≠ .ended) :
    TakesTurn .puller Process.puller (fun σ' => Exposed σ' ∧ σ'.server = σ.server) σ := by
  refine takesTurn_of_step (fun _ h => h.1.cancelled) ?_ ⟨h, rfl⟩ hne
  rintro σ₁ es rs l ⟨h₁, hserver⟩ hl
  obtain ⟨hl', hno⟩ := hl.of_ending (R := fun s p => p = DDCP.pullerTick s) h₁.cancelled
  refine ⟨_, .puller hl', ?_, rfl, ⟨h₁.main, h₁.cancelled, h₁.interrupterEnded, h₁.atWork⟩, hserver⟩
  exact ⟨by simp, by simp, fun _ => hno, noNewRound_of_eq rfl⟩

theorem Exposed.takesTurn_server (h : Exposed σ) (hne : σ.server ≠ .ended) :
    TakesTurn .server Process.server Exposed σ := by
  refine takesTurn_of_step (fun _ h => h.cancelled) ?_ h hne
  intro σ₁ es rs l h₁ hl
  obtain ⟨hl', hno⟩ := hl.of_ending (R := Process.serverRounds σ₁.peerByKey) trivial
  obtain ⟨p, hp, hwork⟩ := h₁.atWork
  refine ⟨_, .server hl', ?_, rfl, h₁.main, h₁.cancelled, h₁.interrupterEnded, p,
    List.mem_append_left _ hp, hwork⟩
  exact ⟨by simp, by simp, noNewRound_of_eq rfl, fun _ => hno⟩

/-- A responder that is about to be spawned is. -/
theorem exposed_of_round {p : Prog Call Ret (Except Abort (Option Responder) × DDCP)}
    (hm : σ.main = .serving) (hc : σ.cancelled = true) (hi : σ.interrupterEnded = true)
    (hp : σ.server = .busy p) {tr : List Event} {r : Responder} {s : DDCP}
    (hx : Prog.Exec p tr (.ok (some r), s))
    (hr : ¬ ((r.run : Act Unit Unit) ()).Only fun c => ¬ IsDb c) :
    ∃ ts σ', Run (recorded Process.Step) σ ts σ' ∧ (∀ t ∈ ts, Calm t) ∧ Exposed σ' ∧
      σ'.puller = σ.puller ∧ σ'.server ≠ .ended := by
  obtain ⟨ts, σ₁, hrun, hcalm, hserver, hm₁, hc₁, hi₁, hpuller⟩ := hx.run.follow
    Process.Step (P := Calm) (s := σ) (R := fun _ p σ₁ => σ₁.server = .busy p ∧
      σ₁.main = .serving ∧ σ₁.cancelled = true ∧ σ₁.interrupterEnded = true ∧
      σ₁.puller = σ.puller) (fun _ p e p' σ₁ hs ⟨hp, hm, hc, hi, hpuller⟩ => by
        have hcall : Loop.Step (Process.serverRounds σ₁.peerByKey) True σ₁.server [e] []
            (.busy p') := hp ▸ .call hs
        refine ⟨_, _, .server hcall, ?_, rfl, hm, hc, hi, hpuller⟩
        exact ⟨by simp, by simp, noNewRound_of_eq rfl, fun _ s q hidle =>
          absurd (hp.symm.trans hidle) (by simp)⟩) ⟨hp, hm, hc, hi, rfl⟩
  have hdone : Loop.Step (Process.serverRounds σ₁.peerByKey) True σ₁.server [] [some r]
      (.idle s) := hserver ▸ .done
  refine ⟨_, _, hrun.snoc_recorded (.server hdone), fun t ht => ?_, ⟨hm₁, hc₁, hi₁, _,
    List.mem_append_right _ (List.mem_singleton_self _), hr⟩, hpuller, by simp⟩
  rcases List.mem_append.1 ht with ht | ht
  · exact hcalm t ht
  · rw [List.mem_singleton.1 ht]
    exact ⟨by simp, by simp, noNewRound_of_eq rfl, fun _ s q _ => by simp⟩

/-- From there the responder may use the database after it has been finalized. -/
theorem Exposed.finalized_under (h : Exposed σ) : ∃ σ₁ ts σ₂,
    Process.Step σ .serveReturns σ₁ ∧ Run (recorded Process.Step) σ₁ ts σ₂ ∧
      (∀ t ∈ ts, Calm t) ∧ ¬ ShutdownOrdered σ₂ := by
  obtain ⟨p, hp, hwork⟩ := h.atWork
  obtain ⟨ps, ps', hps⟩ := List.append_of_mem hp
  -- the cleanup
  obtain ⟨closes, ⟨r₀, c⟩, hclose⟩ := Prog.exists_exec (Conclave.close σ.self.conclave)
  have hcleanup : Exec DDCP.cleanup σ.self _ (.ok ()) ⟨c⟩ :=
    exec_cleanup_iff.2 ⟨closes, r₀, .ok (), hclose, rfl, rfl⟩
  let σ₁ : Process := { σ with main := .cleaning (DDCP.cleanup σ.self) }
  obtain ⟨ts, σ₂, hrun, hcalm, hmain, hres, hlog⟩ := hcleanup.run.follow
    Process.Step (P := Calm) (s := σ₁) (R := fun es q σ₂ => σ₂.main = .cleaning q ∧
      σ₂.responders = ps ++ p :: ps' ∧ σ₂.log = σ.log ++ es.map (.main, ·))
    (fun es q e q' σ₂ hs ⟨hm, hres, hlog⟩ => by
      refine ⟨_, _, .main hm hs, ?_, rfl, hres, ?_⟩
      · exact ⟨by simp, by simp, noNewRound_of_eq rfl, noNewRound_of_eq rfl⟩
      · simp [hlog]) ⟨rfl, hps, by simp [σ₁]⟩
  -- the responder, up to its operation on the database
  unfold Prog.Only at hwork
  push Not at hwork
  obtain ⟨tr, r, hx, e, he, hdb⟩ := hwork
  obtain ⟨before, after, rfl⟩ := List.append_of_mem he
  rw [List.append_cons] at hx
  obtain ⟨q, hq, _⟩ := hx.run.split
  obtain ⟨ts', σ₃, hrun', hcalm', _, hlog'⟩ := hq.follow Process.Step (P := Calm)
    (s := σ₂) (R := fun es q σ₃ => σ₃.responders = ps ++ q :: ps' ∧
      σ₃.log = σ₂.log ++ es.map (.responder, ·)) (fun es q e q' σ₃ hs ⟨hres, hlog⟩ => by
        refine ⟨_, _, .responder hres hs, ?_, rfl, ?_⟩
        · exact ⟨by simp, by simp, noNewRound_of_eq rfl, noNewRound_of_eq rfl⟩
        · simp [hlog]) ⟨hres, by simp⟩
  refine ⟨σ₁, ts ++ ts', σ₃, .serveReturns h.main h.interrupterEnded, hrun.trans hrun', ?_, ?_⟩
  · intro t ht
    exact (List.mem_append.1 ht).elim (hcalm t) (hcalm' t)
  · intro hordered
    refine hordered.finalizeLast (σ₂.log ++ before.map (.responder, ·)) (.responder, e) [] ?_ hdb
      (.main, ⟨.db .finalize, .ok ()⟩) ?_ rfl
    · rw [hlog', List.map_append, List.append_assoc]
      rfl
    · rw [hlog]
      simp

/-- The two loops have their turns, if they have not ended. -/
theorem Exposed.turns (h : Exposed σ) : ∃ ts σ',
    Run (recorded Process.Step) σ ts σ' ∧ (∀ t ∈ ts, Calm t) ∧ Exposed σ' ∧
      (σ.puller ≠ .ended → HadTurn .puller Process.puller ts) ∧
      (σ.server ≠ .ended → HadTurn .server Process.server ts) := by
  obtain ⟨ts₁, σ₁, hr₁, hcalm₁, h₁, hserver, hturn₁⟩ : ∃ ts₁ σ₁,
      Run (recorded Process.Step) σ ts₁ σ₁ ∧ (∀ t ∈ ts₁, Calm t) ∧ Exposed σ₁ ∧
        σ₁.server = σ.server ∧ (σ.puller ≠ .ended → HadTurn .puller Process.puller ts₁) := by
    by_cases hp : σ.puller = .ended
    · exact ⟨[], σ, .nil, by simp, h, rfl, fun hne => absurd hp hne⟩
    · obtain ⟨ts₁, σ₁, hr, hcalm, hR, hturn⟩ := h.takesTurn_puller hp
      exact ⟨ts₁, σ₁, hr, hcalm, hR.1, hR.2, fun _ => hturn⟩
  by_cases hs : σ₁.server = .ended
  · exact ⟨ts₁, σ₁, hr₁, hcalm₁, h₁, hturn₁, fun hne => absurd (hserver.symm.trans hs) hne⟩
  · obtain ⟨ts₂, σ₂, hr₂, hcalm₂, h₂, t, ht, hturn₂⟩ := h₁.takesTurn_server hs
    refine ⟨ts₁ ++ ts₂, σ₂, hr₁.trans hr₂, fun t ht => ?_, h₂, fun hne => (hturn₁ hne).append _,
      fun _ => ⟨t, List.mem_append_right _ ht, hturn₂⟩⟩
    exact (List.mem_append.1 ht).elim (hcalm₁ t) (hcalm₂ t)

/-- After the interrupt the process comes to be exposed, if somebody is at work. -/
theorem exists_exposed (hm : σ.main = .serving) (hwork : ¬ NoneAtWork σ) : ∃ ts σ',
    Run (recorded Process.Step) { σ with cancelled := true, interrupterEnded := true } ts σ' ∧
      (∀ t ∈ ts, Calm t) ∧ Exposed σ' ∧ σ'.puller = σ.puller ∧
      (σ'.server = .ended → σ.server = .ended) := by
  by_cases hres : AtWork σ
  · exact ⟨[], _, .nil, by simp, ⟨hm, rfl, rfl, hres⟩, rfl, id⟩
  have hround : ∃ p, σ.server = .busy p ∧ ∃ tr r s, Prog.Exec p tr (.ok (some r), s) ∧
      ¬ ((r.run : Act Unit Unit) ()).Only fun c => ¬ IsDb c := by
    by_contra hno
    refine hwork ⟨fun p hp => ?_, fun p hp tr r s hx => ?_⟩
    · by_contra honly
      exact hres ⟨p, hp, honly⟩
    · by_contra honly
      exact hno ⟨p, hp, tr, r, s, hx, honly⟩
  obtain ⟨p, hp, tr, r, s, hx, hr⟩ := hround
  obtain ⟨ts, σ', hrun, hcalm, hexp, hpuller, hserver⟩ := exposed_of_round
    (σ := { σ with cancelled := true, interrupterEnded := true }) hm rfl rfl hp hx hr
  exact ⟨ts, σ', hrun, hcalm, hexp, hpuller, fun hended => absurd hended hserver⟩

/-- A process in which somebody is at work when the interrupt arrives may go on in order and use the
    database after it has been finalized. -/
theorem exists_finalized_under (hm : σ.main = .serving) (hwork : ¬ NoneAtWork σ)
    (before : List ProcessStep) : ∃ σ₀ ts σ',
      Run (recorded Process.Step) σ ((σ, .interrupt, σ₀) :: ts) σ' ∧
      Always (fun b => InOrder (before ++ b)) ((σ, .interrupt, σ₀) :: ts) ∧
      ¬ ShutdownOrdered σ' := by
  obtain ⟨ts₁, σ₁, hr₁, hcalm₁, h₁, hpuller₁, hserver₁⟩ := exists_exposed hm hwork
  obtain ⟨ts₂, σ₂, hr₂, hcalm₂, h₂, hpuller₂, hserver₂⟩ := h₁.turns
  obtain ⟨σ₃, ts₃, σ₄, hs, hr₃, hcalm₃, hnot⟩ := h₂.finalized_under
  let σ₀ : Process := { σ with cancelled := true, interrupterEnded := true }
  let interrupt : ProcessStep := (σ, .interrupt, σ₀)
  have hcalm : ∀ t ∈ interrupt :: (ts₁ ++ ts₂), Calm t := by
    intro t ht
    rcases List.mem_cons.1 ht with rfl | ht
    · exact ⟨by simp [interrupt], by simp [interrupt], noNewRound_of_eq rfl, noNewRound_of_eq rfl⟩
    · exact (List.mem_append.1 ht).elim (hcalm₁ t) (hcalm₂ t)
  -- a loop that has ended before the interrupt need not have a turn
  have hturn : ∀ {β : Type} {a : Actor} {loop : Process → Loop β},
      (loop σ ≠ .ended → HadTurn a loop ts₂) →
        HadTurn a loop (before ++ interrupt :: (ts₁ ++ ts₂)) := by
    intro β a loop h
    by_cases hended : loop σ = .ended
    · exact ⟨interrupt, by simp, Or.inr ⟨rfl, hended⟩⟩
    · obtain ⟨t, ht, hturn⟩ := h hended
      exact ⟨t, by simp [ht], hturn⟩
  refine ⟨σ₀, (ts₁ ++ ts₂) ++ (σ₂, .serveReturns, σ₃) :: ts₃, σ₄, ?_, ?_, hnot⟩
  · have hinterrupt : Run (recorded Process.Step) σ [interrupt] σ₀ :=
      Run.snoc_recorded .nil .interrupt
    exact hinterrupt.trans ((hr₁.trans hr₂).trans (Run.cons ⟨hs, rfl⟩ hr₃))
  · refine always_inOrder hcalm ⟨by simp, noNewRound_of_eq ?_, noNewRound_of_eq ?_, fun _ => ?_⟩ hcalm₃
    · cases hs
      rfl
    · cases hs
      rfl
    · exact ⟨hturn fun hne => hpuller₂ (hpuller₁ ▸ hne), hturn fun hne => hserver₂ (mt hserver₁ hne)⟩

/-- **Shutdown is ordered** in every run in order in which nobody is at work when the interrupt
    arrives; and from every state in which somebody is, a run may go on in order and not be. -/
theorem shutdown_ordered (ddcp : DDCP) :
    (∀ ts σ, Run (recorded Process.Step) (Process.start ddcp) ts σ → Always Orderly ts →
      ShutdownOrdered σ) ∧
    ∀ ts σ, Run (recorded Process.Step) (Process.start ddcp) ts σ → σ.main = .serving →
      ¬ NoneAtWork σ → ∃ σ₀ ts' σ',
        Run (recorded Process.Step) (Process.start ddcp) (ts ++ (σ, .interrupt, σ₀) :: ts') σ' ∧
        Always (fun before => InOrder (ts ++ before)) ((σ, .interrupt, σ₀) :: ts') ∧
        ¬ ShutdownOrdered σ' := by
  refine ⟨fun ts σ hr ho => ?_, fun ts σ hr hm hwork => ?_⟩
  · obtain ⟨ls, hls⟩ := guarded_of_orderly hr ho
    exact ordered_of_tasksOver hls
  · obtain ⟨σ₀, ts', σ', hr', ho, hnot⟩ := exists_finalized_under hm hwork ts
    exact ⟨σ₀, ts', σ', hr.trans hr', ho, hnot⟩

end Exposed

section Example
attribute [local instance] plainCapnp plainCrypto

/-- A node without peers, records and routes. -/
def bareNode : DDCP where
  conclave := ⟨⟨⟨[], []⟩, ⟨[], ⟨[], []⟩⟩, none, none⟩, ∅⟩

def shutdownEvent : Event := ⟨.shutdown, ()⟩

def finalizeEvent : Event := ⟨.db .finalize, .ok ()⟩

theorem snoc_orderly {ddcp : DDCP} {ts : List ProcessStep} {σ σ' : Process} {l : ProcessAction}
    (h : Run (recorded Process.Step) (Process.start ddcp) ts σ ∧ Always Orderly ts)
    (hs : Process.Step σ l σ') (ho : Orderly ts (σ, l, σ')) :
    Run (recorded Process.Step) (Process.start ddcp) (ts ++ [(σ, l, σ')]) σ' ∧
      Always Orderly (ts ++ [(σ, l, σ')]) :=
  ⟨h.1.snoc_recorded hs, always_concat.2 ⟨h.2, ho⟩⟩

/-- The server handles an update for which it is about to spawn a responder. -/
theorem not_noneAtWork_handling {σ : Process} (hs : σ.server = .busy (DDCP.serverUpdate
    (nodeKnowing (some peerStatus)).peerByKey (.appCall 0 statusMessage)
    (nodeKnowing (some peerStatus)))) : ¬ NoneAtWork σ := by
  intro h
  have hr : (nodeKnowing (some peerStatus)).responderFor (nodeKnowing (some peerStatus)).peerByKey 0
      statusMessage = .ok (some knownResponder) := by
    have hmessage : decode Envelope statusMessage = .ok statusResponder.envelope :=
      plainCapnp_decode_encode (Envelope.ofObj_toObj _)
    simp only [DDCP.responderFor, hmessage]
    rfl
  have hhandle : Exec (DDCP.handleUpdate (nodeKnowing (some peerStatus)).peerByKey
      (.appCall 0 statusMessage)) (nodeKnowing (some peerStatus)) [] (.ok (some knownResponder))
      (nodeKnowing (some peerStatus)) := exec_handleAppCall_iff.2 ⟨rfl, hr.symm, rfl⟩
  have hround : Exec (DDCP.serverUpdate (nodeKnowing (some peerStatus)).peerByKey
      (.appCall 0 statusMessage)) (nodeKnowing (some peerStatus)) [] (.ok (some knownResponder))
      (nodeKnowing (some peerStatus)) :=
    exec_bind_of_ok (exec_attempt_iff.2 (Or.inl ⟨_, rfl, hhandle⟩)) (exec_pure_iff.2 ⟨rfl, rfl, rfl⟩)
  have honly := h.round _ hs [] knownResponder _ hround
  exact honly _ _ exec_knownResponder ⟨.db .status, .ok ([7], 0)⟩ (.tail _ (.head _)) trivial

/-- Both loops see the interrupt before `serve` returns; and it arrives while the server handles an
    `app_call`. -/
theorem shutdown_ordered_idle :
    (∃ ts σ, Run (recorded Process.Step) (Process.start bareNode) ts σ ∧ Always Orderly ts ∧
      σ.log = [(.main, shutdownEvent), (.main, finalizeEvent)] ∧ ShutdownOrdered σ) ∧
    ∃ ts σ, Run (recorded Process.Step) (Process.start (nodeKnowing (some peerStatus))) ts σ ∧
      Always InOrder ts ∧ ¬ ShutdownOrdered σ := by
  constructor
  · have h₀ : Run (recorded Process.Step) (Process.start bareNode) [] (Process.start bareNode) ∧
        Always Orderly [] := ⟨.nil, always_nil⟩
    have h₁ := snoc_orderly h₀ .interrupt
      ⟨⟨by simp, noNewRound_of_eq rfl, noNewRound_of_eq rfl, by simp⟩, fun _ =>
        ⟨by simp [Process.start], fun p hp => absurd hp (by simp [Process.start])⟩⟩
    have h₂ := snoc_orderly h₁ (.puller (.stop rfl))
      ⟨⟨by simp, fun _ _ _ _ => by simp, noNewRound_of_eq rfl, by simp⟩, by simp⟩
    have h₃ := snoc_orderly h₂ (.server (.stop trivial))
      ⟨⟨by simp, noNewRound_of_eq rfl, fun _ _ _ _ => by simp, by simp⟩, by simp⟩
    have h₄ := snoc_orderly h₃ (.serveReturns rfl rfl)
      ⟨⟨by simp, noNewRound_of_eq rfl, noNewRound_of_eq rfl, fun _ =>
        ⟨⟨_, .tail _ (.head _), Or.inl ⟨rfl, rfl, trivial⟩⟩,
          ⟨_, .tail _ (.tail _ (.head _)), Or.inl ⟨rfl, rfl, trivial⟩⟩⟩⟩, by simp⟩
    have h₅ := snoc_orderly h₄ (.main (e := shutdownEvent) rfl (.call _ _ _))
      ⟨⟨by simp, noNewRound_of_eq rfl, noNewRound_of_eq rfl, by simp⟩, by simp⟩
    have h₆ := snoc_orderly h₅ (.main (e := finalizeEvent) rfl (.call _ _ _))
      ⟨⟨by simp, noNewRound_of_eq rfl, noNewRound_of_eq rfl, by simp⟩, by simp⟩
    exact ⟨_, _, h₆.1, h₆.2, rfl, (shutdown_ordered bareNode).1 _ _ h₆.1 h₆.2⟩
  · have hstart : Process.Step (Process.start (nodeKnowing (some peerStatus))) (.task .server) _ :=
      .server (.start (Or.inr ⟨.appCall 0 statusMessage, rfl⟩))
    have hr := Run.snoc_recorded .nil hstart
    obtain ⟨σ₀, ts, σ, hrun, ho, hnot⟩ := (shutdown_ordered (nodeKnowing (some peerStatus))).2 _ _ hr
      rfl (not_noneAtWork_handling rfl)
    refine ⟨_, σ, hrun, always_append.2 ⟨always_concat.2 ⟨always_nil, ?_⟩, ho⟩, hnot⟩
    have hearly : ∀ {β : Type} {loop : Process → Loop β} {σ' : Process}, NoNewRound loop
        (Process.start (nodeKnowing (some peerStatus)), .task .server, σ') :=
      fun hc => absurd hc (by simp [Process.start])
    exact ⟨by simp, hearly, hearly, by simp⟩

/-- A tick of the server reads the status after the database has been finalized. -/
theorem finalized_under_server : ∃ ls σ, Run Process.Step (Process.start bareNode) ls σ ∧
    σ.log = [(.main, shutdownEvent), (.main, finalizeEvent), (.server, ⟨.db .status, .ok ([], 0)⟩)] ∧
    ¬ ShutdownOrdered σ := by
  have h₀ : Run Process.Step (Process.start bareNode) [] _ := .nil
  have h₁ := h₀.snoc (.server (.start (Or.inl rfl)))
  have h₂ := h₁.snoc .interrupt
  have h₃ := h₂.snoc (.serveReturns rfl rfl)
  have h₄ := h₃.snoc (.main (e := shutdownEvent) rfl (.call _ _ _))
  have h₅ := h₄.snoc (.main (e := finalizeEvent) rfl (.call _ _ _))
  have h₆ := h₅.snoc (.server (.call (e := ⟨.db .status, .ok ([], 0)⟩) (.call _ _ _)))
  refine ⟨_, _, h₆, rfl, fun h => ?_⟩
  have hlast := h.finalizeLast [(.main, shutdownEvent), (.main, finalizeEvent)] _ [] rfl trivial
  exact hlast (.main, finalizeEvent) (by simp) rfl

end Example

end Ddcp
