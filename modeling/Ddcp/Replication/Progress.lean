import Ddcp.Replication.Convergence
import Ddcp.Replication.Rounds
import Ddcp.Replication.Versions
import Mathlib.Data.Fintype.Prod

set_option autoImplicit false

/-! # One round of pulls is enough

Quiescence is not something a node can see, so the question is how it comes about. Once the
application has stopped writing, a pull that begins afterwards and ends well leaves its client
current with its server (`Net.Covers`): the server's rows can only become fewer, the status it reads
is not below them, and so its answer has every row above the cursor. Being current is kept by every
later step. So when every node has done this with every other, once, in any order and whatever else
went on, failed or crashed meanwhile, nobody has anything left to pull (`round_converges`). And a
round can be had in every reachable state: whatever has gone wrong before, no node is ever stuck
(`round_possible`). -/

namespace Ddcp

open Lts

section Quiet
variable {N : Type} [DecidableEq N] [LinearOrder CellData]
variable {honest : N → Prop} {σ σ' : Net N} {l : Action N}

theorem Net.Step.advances (hs : Net.Step honest σ l σ') (n : N) :
    Advances (σ.db n) (σ'.db n) := by
  cases hs with
  | localTx m htx => exact Net.setDb_advances htx.advances n
  | @finish i p resp env hp hphase henv =>
      exact Net.setDb_advances (finishPull_advances env p.status resp (σ.db p.client)) n
  | announce => exact Advances.refl _
  | forgeStatus => exact Advances.refl _
  | begin => exact Advances.refl _
  | readStatus => exact Advances.refl _
  | select => exact Advances.refl _
  | forgeAnswer => exact Advances.refl _
  | fail => exact Advances.refl _
  | crash => exact Advances.refl _

/-- Only a transaction of the node writes a local row. -/
theorem Net.Step.localRow_of (hs : Net.Step honest σ l σ') {n : N} (hl : l ≠ .localTx n)
    {k : CellKey} {cell : Cell} (hrow : (σ'.db n).LocalRow k cell) :
    (σ.db n).LocalRow k cell := by
  cases hs with
  | localTx m htx =>
      rwa [Net.setDb_db_of_ne fun hn => hl (by rw [hn])] at hrow
  | @finish i p resp env hp hphase henv =>
      change ((σ.setDb p.client _).db n).LocalRow k cell at hrow
      by_cases hn : n = p.client
      · subst hn
        rw [Net.setDb_db_self] at hrow
        rcases finishPull_cases env p.status resp (σ.db p.client) with hsame | ⟨_, _, hm⟩
        · rwa [hsame] at hrow
        · rw [hm] at hrow
          exact hrow.of_merge
      · rwa [Net.setDb_db_of_ne hn] at hrow
  | announce => exact hrow
  | forgeStatus => exact hrow
  | begin => exact hrow
  | readStatus => exact hrow
  | select => exact hrow
  | forgeAnswer => exact hrow
  | fail => exact hrow
  | crash => exact hrow

theorem Net.Step.status_le (hs : Net.Step honest σ l σ') {n : N} (hl : l ≠ .localTx n)
    (hn : Clocked (σ.db n)) : (σ'.db n).status.2 ≤ (σ.db n).status.2 :=
  (Database.status_le_iff hn.status_nonneg).2 fun _ _ hrow => (hs.localRow_of hl hrow).le_status

/-! ## Being current -/

omit [DecidableEq N] [LinearOrder CellData] in
/-- `b` has nothing to pull from `a`. -/
def Net.Current (σ : Net N) (b a : N) : Prop :=
  (σ.db a).status.2 ≤ (σ.db b).trackedPeerVersion (σ.db a).siteId

omit [DecidableEq N] [LinearOrder CellData] in
theorem Net.current_iff {b a : N} : σ.Current b a ↔
    ∃ v, beginPull (σ.db b) ⟨(σ.db a).status.1, (σ.db a).status.2⟩ = .upToDate v := by
  constructor
  · intro h
    exact ⟨_, if_pos h⟩
  · rintro ⟨v, hv⟩
    obtain ⟨rfl, hle⟩ := beginPull_upToDate hv
    exact hle

/-- Being current is kept by every step except a transaction of the peer. -/
theorem Net.Current.step {b a : N} (h : σ.Current b a) (hs : Net.Step honest σ l σ')
    (hl : l ≠ .localTx a) (ha : Clocked (σ.db a)) : σ'.Current b a := by
  unfold Net.Current
  rw [(hs.advances a).siteId]
  exact (hs.status_le hl ha).trans (h.trans (hs.cursor_le b _))

/-! ## A pull that began after the last transaction -/

omit [DecidableEq N] [LinearOrder CellData] in
/-- What the pull in the slot `i` will leave: nothing of its server above the cursor. -/
structure Net.Covers (σ : Net N) (i : Nat) : Prop where
  statusRead : ∀ p status, σ.pulls i = some p → p.phase = .statusRead status →
    (σ.db p.server).status.2 ≤ status.2
  answered : ∀ p resp, σ.pulls i = some p → p.phase = .answered resp →
    (σ.db p.server).status.2 ≤ max p.sinceDbVersion (Database.maxDbVersion resp.changes)

omit [DecidableEq N] [LinearOrder CellData] in
theorem Net.Covers.of_free {i : Nat} (h : σ.pulls i = none) : σ.Covers i where
  statusRead _ _ hp := absurd hp (by simp [h])
  answered _ _ hp := absurd hp (by simp [h])

omit [LinearOrder CellData] in
/-- An answer reaches the database's status, if the status read before it does. -/
theorem status_le_answerChanges {db : Database} {status : Bytes × Int64} (since : Int64)
    (h : db.status.2 ≤ status.2) : db.status.2 ≤
      max since (Database.maxDbVersion (answerChanges db status since).changes) := by
  have hnonneg : 0 ≤ max since (Database.maxDbVersion (answerChanges db status since).changes) :=
    le_max_of_le_right (Database.maxDbVersion_nonneg _)
  refine (Database.status_le_iff hnonneg).2 fun k cell hrow => ?_
  by_cases hsince : cell.dbVersion ≤ since
  · exact le_max_of_le_left hsince
  · -- the row is above the cursor, so the status read is, and the row is selected
    have hlt := not_le.1 hsince
    have hmem : cell.toChange k ∈ (answerChanges db status since).changes := by
      unfold answerChanges
      rw [if_neg (not_le.2 (hlt.trans_le (hrow.le_status.trans h)))]
      exact Database.mem_select.2 ⟨k, cell, hrow, hlt, rfl⟩
    exact le_max_of_le_right (Database.dbVersion_le_maxDbVersion hmem)

omit [DecidableEq N] [LinearOrder CellData] in
/-- What a slot holds after it has been set. -/
theorem Net.Covers.setPull {i j : Nat} {p : Option (Pull N)} (h : σ.Covers i)
    (hstatus : ∀ q status, p = some q → q.phase = .statusRead status →
      (σ.db q.server).status.2 ≤ status.2)
    (hanswer : i = j → ∀ q resp, p = some q → q.phase = .answered resp →
      (σ.db q.server).status.2 ≤ max q.sinceDbVersion (Database.maxDbVersion resp.changes)) :
    (σ.setPull j p).Covers i where
  statusRead q status hq hr := by
    rcases Net.setPull_some hq with ⟨_, he⟩ | hold
    · exact hstatus q status he hr
    · exact h.statusRead q status hold hr
  answered q resp hq hr := by
    rcases Net.setPull_some hq with ⟨hj, he⟩ | hold
    · exact hanswer hj q resp he hr
    · exact h.answered q resp hold hr

omit [DecidableEq N] [LinearOrder CellData] in
/-- It stays so while the servers' statuses do not rise. -/
theorem Net.Covers.mono {i : Nat} (h : σ.Covers i) (hpulls : ∀ p, σ'.pulls i = some p →
    σ.pulls i = some p) (hle : ∀ n, (σ'.db n).status.2 ≤ (σ.db n).status.2) : σ'.Covers i where
  statusRead p status hp hr := (hle _).trans (h.statusRead p status (hpulls p hp) hr)
  answered p resp hp hr := (hle _).trans (h.answered p resp (hpulls p hp) hr)

/-- **The step lemma.** -/
theorem Net.Covers.step {i : Nat} (h : σ.Covers i) (hs : Net.Step (fun _ => True) σ l σ')
    (hl : ∀ n, l ≠ .localTx n) (hclock : ∀ n, Clocked (σ.db n)) : σ'.Covers i := by
  have hle : ∀ n, (σ'.db n).status.2 ≤ (σ.db n).status.2 := fun n =>
    hs.status_le (hl n) (hclock n)
  cases hs with
  | localTx n htx => exact absurd rfl (hl n)
  | announce => exact ⟨h.statusRead, h.answered⟩
  | forgeStatus n st hn => exact absurd trivial hn
  | begin j client server st hfree hst hbegin =>
      refine h.setPull (fun q status hq hr => ?_) fun _ q resp hq hr => ?_ <;>
        obtain rfl := Option.some.inj hq <;> simp at hr
  | @readStatus j p hp hphase hn =>
      refine h.setPull (fun q status hq hr => ?_) fun _ q resp hq hr => ?_ <;>
        obtain rfl := Option.some.inj hq
      · simp only [PullPhase.statusRead.injEq] at hr
        exact hr ▸ le_rfl
      · simp at hr
  | @select j p status hp hphase hn =>
      refine h.setPull (fun q status' hq hr => ?_) fun hj q resp hq hr => ?_ <;>
        obtain rfl := Option.some.inj hq
      · simp at hr
      · subst hj
        simp only [PullPhase.answered.injEq] at hr
        rw [← hr]
        exact status_le_answerChanges _ (h.statusRead p status hp hphase)
  | forgeAnswer j resp hp hphase hn => exact absurd trivial hn
  | @finish j p resp env hp hphase henv =>
      refine h.mono (fun q hq => ?_) hle
      rcases Net.setPull_some hq with ⟨_, he⟩ | hold
      · exact absurd he (by simp)
      · exact hold
  | fail j hp =>
      refine h.mono (fun q hq => ?_) hle
      rcases Net.setPull_some hq with ⟨_, he⟩ | hold
      · exact absurd he (by simp)
      · exact hold
  | crash n =>
      refine h.mono (fun q hq => ?_) hle
      simp only [Net.dropPulls, Option.filter_eq_some_iff] at hq
      exact hq.1

/-- A pull that covers and ends well leaves its client current. -/
theorem Net.Covers.finish {site : N → Bytes} {i : Nat} {p : Pull N} {resp : ChangesResponse}
    {env : Database.TxEnv} {pulled : Bool} {v : Int64} {db' : Database} (h : σ.Covers i)
    (hinv : CursorInv site p.server σ) (hsince : p.sinceDbVersion ≤
      (σ.db p.client).trackedPeerVersion p.status.siteId) (hne : p.client ≠ p.server)
    (hp : σ.pulls i = some p) (hphase : p.phase = .answered resp)
    (hfinish : finishPull env p.status resp (σ.db p.client) = (.ok (pulled, v), db')) :
    ((σ.setDb p.client db').setPull i none).Current p.client p.server := by
  obtain ⟨hresp, hmerge⟩ := finishPull_ok_merge hfinish
  have hsite : p.status.siteId = (σ.db p.server).siteId := by
    rw [hinv.siteId, ((hinv.pulls i p hp).1.2 rfl)]
  have hv : ((σ.db p.client).merge env resp.siteId resp.changes).1 = .ok v := by rw [hmerge]
  have hcursor := Database.trackedPeerVersion_merge_ok hv
  rw [hmerge, hresp, hsite] at hcursor
  rw [hsite] at hsince
  show ((σ.setDb p.client db').db p.server).status.2 ≤
    ((σ.setDb p.client db').db p.client).trackedPeerVersion ((σ.setDb p.client db').db
      p.server).siteId
  rw [Net.setDb_db_of_ne hne.symm, Net.setDb_db_self, hcursor]
  exact (h.answered p resp hp hphase).trans (max_le_max_right _ hsince)

end Quiet

/-! ## A round -/

section Round
variable {N : Type} [DecidableEq N] [LinearOrder CellData]

/-- The steps of honest nodes while no application writes. -/
def Net.QuietStep : Net N → Action N → Net N → Prop :=
  guarded (Net.Step fun _ => True) fun _ l => ∀ n, l ≠ .localTx n

/-- In a run without transactions from `σ₀` to `σ` the node `b` has caught up with `a`: it found
    nothing to pull, or ended a pull that began in this run. -/
inductive Net.CaughtUp (σ₀ σ : Net N) (b a : N) : Prop
  | current {ls₁ ls₂ : List (Action N)} {σ₁ : Net N} {v : Int64}
      (hbefore : Run Net.QuietStep σ₀ ls₁ σ₁)
      (hbegin : beginPull (σ₁.db b) ⟨(σ₁.db a).status.1, (σ₁.db a).status.2⟩ = .upToDate v)
      (hafter : Run Net.QuietStep σ₁ ls₂ σ)
  | pulled {ls₁ ls₂ ls₃ : List (Action N)} {σ₁ σ₂ : Net N} (i : Nat) {p : Pull N}
      {resp : ChangesResponse} {env : Database.TxEnv} {v : Int64} {db' : Database}
      (hbefore : Run Net.QuietStep σ₀ ls₁ σ₁) (hfree : σ₁.pulls i = none)
      (hduring : Run Net.QuietStep σ₁ ls₂ σ₂) (hp : σ₂.pulls i = some p)
      (hclient : p.client = b) (hserver : p.server = a) (hphase : p.phase = .answered resp)
      (henv : (σ₂.db p.client).clock < env.version)
      (hfinish : finishPull env p.status resp (σ₂.db p.client) = (.ok (true, v), db'))
      (hafter : Run Net.QuietStep ((σ₂.setDb p.client db').setPull i none) ls₃ σ)

variable {site : N → Bytes} {σ₀ σ : Net N} {ls₀ ls : List (Action N)}

theorem Net.QuietStep.run_step (hr : Run Net.QuietStep σ₀ ls σ) :
    Run (Net.Step fun _ => True) σ₀ ls σ := hr.of_guarded

theorem CursorInv.run_honest (hsite : Function.Injective site)
    (hr : Run (Net.Step fun _ : N => True) (Net.init site) ls σ) (P : N) : CursorInv site P σ :=
  CursorInv.run trivial (fun _ _ hne he => hne (hsite he)) (Net.run_honest hr)

/-- Being current lasts as long as no application writes. -/
theorem Net.Current.run (hsite : Function.Injective site)
    (hr₀ : Run (Net.Step fun _ : N => True) (Net.init site) ls₀ σ₀)
    (hr : Run Net.QuietStep σ₀ ls σ) {b a : N} (h : σ₀.Current b a) : σ.Current b a := by
  induction hr with
  | nil => exact h
  | snoc hr hs ih =>
      have hreach := hr₀.trans (Net.QuietStep.run_step hr)
      exact ih.step hs.2 (hs.1 a) (CursorInv.run_honest hsite hreach a).clocked

/-- A slot that was free covers whatever pull it comes to hold. -/
theorem Net.Covers.run (hsite : Function.Injective site)
    (hr₀ : Run (Net.Step fun _ : N => True) (Net.init site) ls₀ σ₀)
    (hr : Run Net.QuietStep σ₀ ls σ) {i : Nat} (h : σ₀.Covers i) : σ.Covers i := by
  induction hr with
  | nil => exact h
  | snoc hr hs ih =>
      have hreach := hr₀.trans (Net.QuietStep.run_step hr)
      exact ih.step hs.2 hs.1 fun n => (CursorInv.run_honest hsite hreach n).clocked

/-- Having caught up means being current in the end. -/
theorem Net.CaughtUp.current_at_end (hsite : Function.Injective site)
    (hr₀ : Run (Net.Step fun _ : N => True) (Net.init site) ls₀ σ₀) {b a : N} (hne : b ≠ a)
    (h : Net.CaughtUp σ₀ σ b a) : σ.Current b a := by
  cases h with
  | @current ls₁ ls₂ σ₁ v hbefore hbegin hafter =>
      have hreach := hr₀.trans (Net.QuietStep.run_step hbefore)
      exact Net.Current.run hsite hreach hafter (Net.current_iff.2 ⟨v, hbegin⟩)
  | @pulled ls₁ ls₂ ls₃ σ₁ σ₂ i p resp env v db' hbefore hfree hduring hp hclient hserver hphase
      henv hfinish hafter =>
      subst hclient hserver
      have hreach₁ := hr₀.trans (Net.QuietStep.run_step hbefore)
      have hreach₂ := hreach₁.trans (Net.QuietStep.run_step hduring)
      have hcovers := Net.Covers.run hsite hreach₁ hduring (Net.Covers.of_free hfree)
      have hcurrent := hcovers.finish (CursorInv.run_honest hsite hreach₂ p.server)
        (Net.since_le_cursor hreach₂ hp) hne hp hphase hfinish
      have hstep : Net.Step (fun _ => True) σ₂ (.finish p.client p.server)
          ((σ₂.setDb p.client db').setPull i none) := by
        have hs : Net.Step (fun _ => True) σ₂ (.finish p.client p.server)
            ((σ₂.setDb p.client (finishPull env p.status resp (σ₂.db p.client)).2).setPull i none) :=
          .finish i env hp hphase henv
        rwa [hfinish] at hs
      exact Net.Current.run hsite (.snoc hreach₂ hstep) hafter hcurrent

/-- Where everybody is current with everybody, all hold the same. -/
theorem Net.agree_of_current (hsite : Function.Injective site)
    (hr : Run (Net.Step fun _ : N => True) (Net.init site) ls σ)
    (hcurrent : ∀ b a, b ≠ a → σ.Current b a) (a b : N) : (σ.db a).view = (σ.db b).view := by
  refine (WinnerInv.run hr).winner.agree (fun b a k hown => ?_) a b
  obtain ⟨cell, hrow⟩ := hown
  by_cases hba : b = a
  · rw [hba]
  · have hcur := CursorInv.run_honest hsite hr a
    show (σ.db a).view k ≤ (σ.db b).view k
    rw [hrow.view_eq]
    refine hcur.taken b k cell hrow ?_
    rw [← hcur.siteId a]
    exact hrow.le_status.trans (hcurrent b a hba)

/-- **One round of pulls is enough.** From any state that honest nodes with distinct site ids can
    reach, take any run in which no application writes. If in it every node has caught up with every
    other, then in the end nobody has anything to pull, and every database holds in every cell the
    greatest data that any database held there when the run began, and nothing else. -/
theorem round_converges (hsite : Function.Injective site)
    (hr₀ : Run (Net.Step fun _ : N => True) (Net.init site) ls₀ σ₀)
    (hr : Run Net.QuietStep σ₀ ls σ) (hround : ∀ b a, b ≠ a → Net.CaughtUp σ₀ σ b a) :
    σ.Quiescent ∧ ∀ n k, (∀ m, (σ₀.db m).view k ≤ (σ.db n).view k) ∧
      ∃ m, (σ.db n).view k = (σ₀.db m).view k := by
  have hcurrent : ∀ b a, b ≠ a → σ.Current b a := fun b a hne =>
    (hround b a hne).current_at_end hsite hr₀ hne
  have hreach := hr₀.trans (Net.QuietStep.run_step hr)
  have hagree := Net.agree_of_current hsite hreach hcurrent
  have hmono : ∀ m k, (σ₀.db m).view k ≤ (σ.db m).view k := fun m k =>
    hr.invariant (I := fun σ => (σ₀.db m).view ≤ (σ.db m).view) le_rfl
      (fun _ _ _ ih hs => ih.trans (hs.2.advances m).view) k
  refine ⟨fun b a hne => Net.current_iff.1 (hcurrent b a hne), fun n k => ⟨fun m => ?_, ?_⟩⟩
  · rw [hagree n m]
    exact hmono m k
  · by_cases hbot : (σ.db n).view k = ⊥
    · refine ⟨n, hbot.trans (le_bot_iff.1 ?_).symm⟩
      exact (hmono n k).trans_eq hbot
    · -- the greatest data is some node's own row, and no own row is newer than the run
      obtain ⟨m, ⟨cell, hrow⟩, _⟩ := (WinnerInv.run hreach).winner n k hbot
      have hrow₀ : (σ₀.db m).LocalRow k cell :=
        hr.invariant (I := fun σ => (σ.db m).LocalRow k cell → (σ₀.db m).LocalRow k cell) id
          (fun _ _ _ ih hs h => ih (hs.2.localRow_of (hs.1 m) h)) hrow
      exact ⟨m, by rw [hagree n m, hrow.view_eq, hrow₀.view_eq]⟩

end Round

/-! ## A round is always possible -/

namespace Database
variable [LinearOrder CellData] {db : Database}

theorem clock_insertAll_le (version : Int64) (siteId : Bytes) (changes : List Change) :
    (db.insertAll version siteId changes).clock ≤ max db.clock version := by
  induction changes generalizing db with
  | nil => exact le_max_left _ _
  | cons c rest ih =>
      refine (@ih (db.insertChange version siteId c)).trans (max_le ?_ (le_max_right _ _))
      rcases insertChange_cases db version siteId c with ⟨h, _⟩ | ⟨h, _⟩
      · rw [h]
        exact le_max_left _ _
      · rw [h]

theorem clock_merge_le (env : TxEnv) (siteId : Bytes) (changes : List Change) :
    (db.merge env siteId changes).2.clock ≤ max db.clock env.version := by
  rcases merge_cases env siteId changes db with ⟨e, h⟩ | h
  · rw [h]
    exact le_max_left _ _
  · rw [h]
    exact clock_insertAll_le env.version siteId changes

end Database

/-- A pull ends well when SQLite has no error to report. -/
theorem finishPull_calm [LinearOrder CellData] {st : Status} {resp : ChangesResponse}
    (hsite : resp.siteId = st.siteId) (version : Int64) (db : Database) :
    ∃ v db', finishPull (calmTx version) st resp db = (.ok (true, v), db') ∧
      db'.clock ≤ max db.clock version := by
  have hcalm : (calmTx version).FailsOn fun _ => false :=
    ⟨rfl, rfl, fun _ _ => by simp [calmTx], rfl, rfl⟩
  obtain ⟨v, hv⟩ := (Database.merge_failsOn hcalm resp.siteId resp.changes db).2 (by simp)
  refine ⟨v, (db.merge (calmTx version) resp.siteId resp.changes).2, ?_, ?_⟩
  · unfold finishPull
    rw [if_neg (not_not.2 hsite)]
    split <;> rename_i h <;> rw [h] at hv ⊢
    · rw [Except.ok.inj hv]
    · exact absurd hv (by simp)
  · exact Database.clock_merge_le (calmTx version) resp.siteId resp.changes

section Room
variable {v : Int64}

theorem Int64.toInt_add_one (h : v.toInt + 1 < 2 ^ 63) : (v + 1).toInt = v.toInt + 1 := by
  rw [Int64.toInt_add]
  have := v.le_toInt
  rw [Int.bmod_eq_of_le] <;> simp <;> omega

theorem Int64.lt_add_one (h : v.toInt + 1 < 2 ^ 63) : v < v + 1 := by
  rw [Int64.lt_iff_toInt_lt, Int64.toInt_add_one h]
  omega

end Room

section Possible
variable {N : Type} [DecidableEq N] [LinearOrder CellData]
variable {site : N → Bytes} {σ₀ σ σ' : Net N} {ls₀ ls ls' : List (Action N)} {b a : N}

theorem Net.CaughtUp.extend (hr : Run Net.QuietStep σ₀ ls σ) (h : Net.CaughtUp σ σ' b a)
    {σ'' : Net N} (hr' : Run Net.QuietStep σ' ls' σ'') : Net.CaughtUp σ₀ σ'' b a := by
  cases h with
  | current hbefore hbegin hafter => exact .current (hr.trans hbefore) hbegin (hafter.trans hr')
  | pulled i hbefore hfree hduring hp hclient hserver hphase henv hfinish hafter =>
      exact .pulled i (hr.trans hbefore) hfree hduring hp hclient hserver hphase henv hfinish
        (hafter.trans hr')

/-- One node can catch up with one other, at the cost of at most one version. -/
theorem Net.exists_pull (hfree : σ.pulls 0 = none)
    (hroom : (σ.db b).clock.toInt + 1 < 2 ^ 63) :
    ∃ ls σ', Run Net.QuietStep σ ls σ' ∧ σ'.pulls 0 = none ∧ Net.CaughtUp σ σ' b a ∧
      ∀ n, (σ'.db n).clock.toInt ≤ (σ.db n).clock.toInt + 1 := by
  let st : Status := ⟨(σ.db a).status.1, (σ.db a).status.2⟩
  have hannounce : Run Net.QuietStep σ [.announce a] (σ.publish a st) :=
    .snoc .nil ⟨fun n => by simp, .announce a trivial⟩
  have hst : st ∈ (σ.publish a st).published a := by simp [Net.publish]
  cases hbegin : beginPull (σ.db b) st with
  | upToDate v =>
      refine ⟨_, _, hannounce, hfree, .current .nil hbegin hannounce, fun n => ?_⟩
      show (σ.db n).clock.toInt ≤ _
      omega
  | request since =>
      -- announce, ask, be answered, merge
      let σ₁ := σ.publish a st
      let p : Pull N := ⟨b, a, st, since, .requested⟩
      let p₁ : Pull N := { p with phase := .statusRead (σ.db a).status }
      let resp := answerChanges (σ.db a) (σ.db a).status since
      let p₂ : Pull N := { p with phase := .answered resp }
      have hbegun : Net.Step (fun _ => True) σ₁ (.begin b a) (σ₁.setPull 0 (some p)) :=
        .begin 0 b a st hfree hst hbegin
      have hread : Net.Step (fun _ => True) (σ₁.setPull 0 (some p)) (.readStatus a)
          (σ₁.setPull 0 (some p₁)) := by
        have hs : Net.Step (fun _ => True) (σ₁.setPull 0 (some p)) (.readStatus a)
            ((σ₁.setPull 0 (some p)).setPull 0 (some p₁)) :=
          .readStatus 0 (Net.setPull_pulls_self ..) rfl trivial
        rwa [Net.setPull_setPull] at hs
      have hselected : Net.Step (fun _ => True) (σ₁.setPull 0 (some p₁)) (.select a)
          (σ₁.setPull 0 (some p₂)) := by
        have hs : Net.Step (fun _ => True) (σ₁.setPull 0 (some p₁)) (.select a)
            ((σ₁.setPull 0 (some p₁)).setPull 0 (some p₂)) :=
          .select 0 (Net.setPull_pulls_self ..) rfl trivial
        rwa [Net.setPull_setPull] at hs
      have hsite : resp.siteId = st.siteId := answerChanges_siteId ..
      obtain ⟨v, db', hfinish, hclock⟩ := finishPull_calm hsite ((σ.db b).clock + 1) (σ.db b)
      have hduring : Run Net.QuietStep σ [.announce a, .begin b a, .readStatus a, .select a]
          (σ₁.setPull 0 (some p₂)) :=
        .snoc (.snoc (.snoc hannounce ⟨fun n => by simp, hbegun⟩) ⟨fun n => by simp, hread⟩)
          ⟨fun n => by simp, hselected⟩
      have henv : ((σ₁.setPull 0 (some p₂)).db p₂.client).clock <
          (calmTx ((σ.db b).clock + 1)).version := Int64.lt_add_one hroom
      have hended : Net.Step (fun _ => True) (σ₁.setPull 0 (some p₂)) (.finish b a)
          (((σ₁.setPull 0 (some p₂)).setDb b db').setPull 0 none) := by
        have hs : Net.Step (fun _ => True) (σ₁.setPull 0 (some p₂)) (.finish b a)
            (((σ₁.setPull 0 (some p₂)).setDb b
              (finishPull (calmTx ((σ.db b).clock + 1)) st resp (σ.db b)).2).setPull 0 none) :=
          .finish 0 (calmTx ((σ.db b).clock + 1)) (Net.setPull_pulls_self ..) rfl henv
        rwa [hfinish] at hs
      have hcaught : Net.CaughtUp σ (((σ₁.setPull 0 (some p₂)).setDb b db').setPull 0 none) b a :=
        .pulled 0 .nil hfree hduring (Net.setPull_pulls_self ..) rfl rfl rfl henv hfinish .nil
      refine ⟨_, _, .snoc hduring ⟨fun n => by simp, hended⟩, Net.setPull_pulls_self .., hcaught,
        fun n => ?_⟩
      show (((σ₁.setPull 0 (some p₂)).setDb b db').db n).clock.toInt ≤ _
      by_cases hn : n = b
      · subst hn
        rw [Net.setDb_db_self]
        rw [max_eq_right (Int64.lt_add_one hroom).le] at hclock
        exact (Int64.le_iff_toInt_le.1 hclock).trans (Int64.toInt_add_one hroom).le
      · rw [Net.setDb_db_of_ne hn]
        show (σ.db n).clock.toInt ≤ _
        omega

/-- So can any number of nodes, one after the other. -/
theorem Net.exists_pulls (pairs : List (N × N)) (hfree : σ₀.pulls 0 = none)
    (hroom : ∀ n, (σ₀.db n).clock.toInt + pairs.length < 2 ^ 63) :
    ∃ ls σ, Run Net.QuietStep σ₀ ls σ ∧ ∀ e ∈ pairs, Net.CaughtUp σ₀ σ e.1 e.2 := by
  induction pairs generalizing σ₀ with
  | nil => exact ⟨[], σ₀, .nil, fun e he => absurd he (by simp)⟩
  | cons e rest ih =>
      simp only [List.length_cons] at hroom
      obtain ⟨ls, σ, hr, hfree', hcaught, hclock⟩ := Net.exists_pull (b := e.1) (a := e.2) hfree
        (by have := hroom e.1; omega)
      obtain ⟨ls', σ', hr', hrest⟩ := ih hfree' fun n => by
        have := hroom n
        have := hclock n
        omega
      refine ⟨ls ++ ls', σ', hr.trans hr', fun e' he' => ?_⟩
      rcases List.mem_cons.1 he' with rfl | he'
      · exact .extend .nil hcaught hr'
      · exact .extend hr (hrest e' he') .nil

end Possible

section Example
attribute [local instance] cellDataOrder

def siteOf (b : Bool) : Bytes := if b then [1] else [2]

theorem siteOf_injective : Function.Injective siteOf := fun a b h => by
  cases a <;> cases b <;> simp_all [siteOf]

/-- Both nodes have written the same cell; `true` has the greater data. -/
theorem two_writers : ∃ σ₀ : Net Bool,
    Run (Net.Step fun _ => True) (Net.init siteOf) [.localTx true, .localTx false] σ₀ ∧
    σ₀.pulls 0 = none ∧ (∀ n, (σ₀.db n).clock = 1) ∧
    (σ₀.db true).view ⟨"t", [], "c"⟩ = ((⟨1, 1, .integer 7⟩ : CellData) : WithBot CellData) ∧
    (σ₀.db false).view ⟨"t", [], "c"⟩ = ((⟨1, 1, .null⟩ : CellData) : WithBot CellData) :=
  ⟨_, .cons (.localTx true (LocalTx.writeCell 1 ⟨"t", [], "c"⟩ ⟨1, 1, .integer 7⟩ 0 (by decide)
      (WithBot.bot_lt_coe _)))
    (.cons (.localTx false (LocalTx.writeCell 1 ⟨"t", [], "c"⟩ ⟨1, 1, .null⟩ 0 (by decide)
      (WithBot.bot_lt_coe _))) .nil),
    rfl, fun n => by cases n <;> rfl, rfl, rfl⟩

/-- Each pulls once from the other. -/
theorem round_converges_two_writers : ∃ (σ₀ σ : Net Bool) (ls : List (Action Bool)),
    Run (Net.Step fun _ => True) (Net.init siteOf) [.localTx true, .localTx false] σ₀ ∧
    Run Net.QuietStep σ₀ ls σ ∧ Net.CaughtUp σ₀ σ false true ∧ Net.CaughtUp σ₀ σ true false ∧
    (σ₀.db false).view ⟨"t", [], "c"⟩ = ((⟨1, 1, .null⟩ : CellData) : WithBot CellData) ∧
    σ.Quiescent ∧
    ((⟨1, 1, .integer 7⟩ : CellData) : WithBot CellData) ≤ (σ.db false).view ⟨"t", [], "c"⟩ := by
  obtain ⟨σ₀, hr₀, hfree, hclock, hview, hless⟩ := two_writers
  obtain ⟨ls, σ, hr, hcaught⟩ := Net.exists_pulls [(false, true), (true, false)] hfree fun n => by
    rw [hclock]
    decide
  have hft : Net.CaughtUp σ₀ σ false true := hcaught (false, true) (by simp)
  have htf : Net.CaughtUp σ₀ σ true false := hcaught (true, false) (by simp)
  have h := round_converges siteOf_injective hr₀ hr fun b a hne => by
    cases b <;> cases a
    · exact absurd rfl hne
    · exact hft
    · exact htf
    · exact absurd rfl hne
  exact ⟨σ₀, σ, ls, hr₀, hr, hft, htf, hless, h.1, hview ▸ (h.2 false _).1 true⟩

end Example

end Ddcp
