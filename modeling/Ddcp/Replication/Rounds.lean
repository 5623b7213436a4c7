import Ddcp.Lib.Crash
import Ddcp.Replication.Cursor
import Ddcp.Replication.Programs

set_option autoImplicit false

/-! # A round of pulls

One pass over the peers, each with a database and a published status that stay as they are. What a
pull takes from its peer depends on the local database only through the cursor of that peer, which
the other pulls do not move; and on the data all of them are joins. So the order of the peers does
not matter, and a second round finds nothing to take (`pull_order_irrelevant`). -/

namespace Ddcp

/-- A peer that stays as it is, with a status it has once published. -/
structure FixedPeer where
  db : Database
  status : Status
  siteId_eq : status.siteId = db.siteId

/-- Its answer to a request: what `DB::changes` returns. -/
def FixedPeer.answer (p : FixedPeer) (sinceDbVersion : Int64) : ChangesResponse where
  siteId := (p.db.changes sinceDbVersion).1
  changes := (p.db.changes sinceDbVersion).2

theorem FixedPeer.answer_siteId (p : FixedPeer) (sinceDbVersion : Int64) :
    (p.answer sinceDbVersion).siteId = p.status.siteId :=
  (Database.changes_siteId p.db sinceDbVersion).trans p.siteId_eq.symm

/-- A merge under `env` fails exactly on the lists that have one of these changes. -/
structure Database.TxEnv.FailsOn (env : Database.TxEnv) (fails : Change → Bool) : Prop where
  begin : env.beginErr = none
  prepare : env.prepareErr = none
  insert : ∀ i c, env.insertErr i c = none ↔ fails c = false
  upsert : env.upsertErr = none
  commit : env.commitErr = none

section Round
variable [LinearOrder CellData]

/-- `pull_from`, with the peer's answer. -/
def pullFixed (env : Database.TxEnv) (p : FixedPeer) (db : Database) : Database :=
  match beginPull db p.status with
  | .upToDate _ => db
  | .request since => (finishPull env p.status (p.answer since) db).2

/-- The pulls from a list of peers, one after another. -/
def pullRound : List (Database.TxEnv × FixedPeer) → Database → Database
  | [], db => db
  | (env, p) :: rest, db => pullRound rest (pullFixed env p db)

/-! ## One pull -/

omit [LinearOrder CellData] in
/-- What a pull merges, given the cursor. -/
def FixedPeer.merged (p : FixedPeer) (fails : Change → Bool) (cursor : Int64) :
    Option (List Change) :=
  if p.status.dbVersion ≤ cursor then none
  else if (p.answer cursor).changes.any fails then none
  else some (p.answer cursor).changes

omit [LinearOrder CellData] in
/-- The cursor after a pull. -/
def FixedPeer.cursorAfter (p : FixedPeer) (fails : Change → Bool) (cursor : Int64) : Int64 :=
  match p.merged fails cursor with
  | none => cursor
  | some changes => max cursor (Database.maxDbVersion changes)

theorem Database.mergeInserts_failsOn {env : Database.TxEnv} {fails : Change → Bool}
    (henv : env.FailsOn fails) (siteId : Bytes) (changes : List Change) (i : Nat)
    (acc : Database × Int64) :
    (∃ acc', Database.mergeInserts env siteId changes i acc = .ok acc') ↔
      changes.any fails = false := by
  induction changes generalizing i acc with
  | nil => simp [Database.mergeInserts]
  | cons c rest ih =>
      obtain ⟨tx, m⟩ := acc
      rw [Database.mergeInserts]
      cases hc : fails c with
      | false => simp [(henv.insert i c).2 hc, hc, ih]
      | true =>
          obtain ⟨e, he⟩ : ∃ e, env.insertErr i c = some e := by
            rw [← Option.ne_none_iff_exists']
            intro hnone
            exact absurd ((henv.insert i c).1 hnone) (by simp [hc])
          simp [he, hc]

theorem Database.merge_failsOn {env : Database.TxEnv} {fails : Change → Bool}
    (henv : env.FailsOn fails) (siteId : Bytes) (changes : List Change) (db : Database) :
    (∃ v, (db.merge env siteId changes).1 = .ok v) ↔ changes.any fails = false := by
  rw [← Database.mergeInserts_failsOn henv siteId changes 0 (db, 0)]
  unfold Database.merge Database.mergeTx
  rw [henv.begin, henv.prepare, henv.upsert, henv.commit]
  cases Database.mergeInserts env siteId changes 0 (db, 0) <;> simp

section Pull
variable {env : Database.TxEnv} {fails : Change → Bool} {p : FixedPeer} {db : Database}

/-- What a pull does: nothing, or a merge that succeeds. -/
theorem pullFixed_cases (henv : env.FailsOn fails) (p : FixedPeer) (db : Database) :
    (p.merged fails (db.trackedPeerVersion p.db.siteId) = none ∧ pullFixed env p db = db) ∨
    ∃ changes v, p.merged fails (db.trackedPeerVersion p.db.siteId) = some changes ∧
      (db.merge env p.db.siteId changes).1 = .ok v ∧
      pullFixed env p db = (db.merge env p.db.siteId changes).2 := by
  have hcursor : db.trackedPeerVersion p.status.siteId = db.trackedPeerVersion p.db.siteId := by
    rw [p.siteId_eq]
  by_cases hle : p.status.dbVersion ≤ db.trackedPeerVersion p.db.siteId
  · have hbegin : beginPull db p.status = .upToDate (db.trackedPeerVersion p.db.siteId) := by
      unfold beginPull
      rw [hcursor, if_pos hle]
    refine Or.inl ⟨if_pos hle, ?_⟩
    unfold pullFixed
    rw [hbegin]
  have hbegin : beginPull db p.status = .request (db.trackedPeerVersion p.db.siteId) := by
    unfold beginPull
    rw [hcursor, if_neg hle]
  generalize db.trackedPeerVersion p.db.siteId = cursor at hle hbegin ⊢
  have hmerged : p.merged fails cursor = if (p.answer cursor).changes.any fails then none
      else some (p.answer cursor).changes := if_neg hle
  -- the answer carries the peer's site id, so the pull ends with the merge
  have hpull : pullFixed env p db = (db.merge env p.db.siteId (p.answer cursor).changes).2 := by
    unfold pullFixed
    rw [hbegin]
    exact (finishPull_snd (p.answer_siteId cursor)).trans (by
      rw [p.answer_siteId cursor, p.siteId_eq])
  have hok := Database.merge_failsOn henv p.db.siteId (p.answer cursor).changes db
  cases hany : (p.answer cursor).changes.any fails with
  | false =>
      obtain ⟨v, hv⟩ := hok.2 hany
      exact Or.inr ⟨_, v, by rw [hmerged, if_neg (by simp [hany])], hv, hpull⟩
  | true =>
      refine Or.inl ⟨by rw [hmerged, if_pos hany], ?_⟩
      cases hm : (db.merge env p.db.siteId (p.answer cursor).changes).1 with
      | ok v => exact absurd (hok.1 ⟨v, hm⟩) (by simp [hany])
      | error e => rw [hpull, Database.merge_error hm]

/-- On the data a pull is a join, of something that depends on the cursor only. -/
theorem view_pullFixed (henv : env.FailsOn fails) : (pullFixed env p db).view = db.view ⊔
    Registers.joinAll (Database.writes
      ((p.merged fails (db.trackedPeerVersion p.db.siteId)).getD [])) := by
  rcases pullFixed_cases henv p db with ⟨hmerged, hpull⟩ | ⟨changes, v, hmerged, hv, hpull⟩
  · rw [hpull, hmerged]
    exact (sup_bot_eq _).symm
  · rw [hpull, hmerged, Database.view_merge_ok hv]
    rfl

theorem trackedPeerVersion_pullFixed_self (henv : env.FailsOn fails) :
    (pullFixed env p db).trackedPeerVersion p.db.siteId =
      p.cursorAfter fails (db.trackedPeerVersion p.db.siteId) := by
  unfold FixedPeer.cursorAfter
  rcases pullFixed_cases henv p db with ⟨hmerged, hpull⟩ | ⟨changes, v, hmerged, hv, hpull⟩
  · rw [hpull, hmerged]
  · rw [hpull, hmerged, Database.trackedPeerVersion_merge_ok hv]

theorem trackedPeerVersion_pullFixed_of_ne (henv : env.FailsOn fails) {siteId : Bytes}
    (hne : siteId ≠ p.db.siteId) :
    (pullFixed env p db).trackedPeerVersion siteId = db.trackedPeerVersion siteId := by
  rcases pullFixed_cases henv p db with ⟨_, hpull⟩ | ⟨changes, v, _, _, hpull⟩
  · rw [hpull]
  · rw [hpull, Database.trackedPeerVersion_merge_of_ne hne]

/-- The program: when its `changes` returns the peer's answer and nobody else uses the database,
    `pull_from` does what `pullFixed` does, unless a call of it fails and nothing happens. -/
theorem exec_pullFrom_fixed [Capnp] [CryptoSystem] {σ : Type} {good : Event → Prop} {c : Conclave}
    {peer : Peer} {peerStatus : NodeStatus} {s s' : σ} {tr : List Event}
    {r : Except Abort (Bool × Int64)} {db' : Database} (hstatus : peerStatus.status = p.status)
    (hanswer : ∀ since tr resp, (∀ e ∈ tr, good e) →
      Method.Exec (c.changes peer since) s tr (.ok resp) s → resp = p.answer since)
    (h : Method.Exec (DDCP.pullFrom c peer peerStatus) s tr r s') (hgood : ∀ e ∈ tr, good e)
    (hdb : Prog.Served Database.Answers Prog.alone db tr db') :
    db' = db ∨ ∃ env, db' = pullFixed env p db := by
  cases exec_pullFrom h hgood hdb with
  | unread e h₀ => exact Or.inl (Prog.alone_iff.1 h₀)
  | upToDate h₀ hbegin h₁ => exact Or.inl ((Prog.alone_iff.1 h₁).trans (Prog.alone_iff.1 h₀))
  | failed h₀ hbegin _ hexec h₁ => exact Or.inl ((Prog.alone_iff.1 h₁).trans (Prog.alone_iff.1 h₀))
  | @finished db₀ db₁ db₂ _ since _ resp env _ h₀ hbegin hgood hexec h₁ henv hfinish h₂ =>
      obtain rfl := Prog.alone_iff.1 h₀
      obtain rfl := Prog.alone_iff.1 h₁
      obtain rfl := hanswer since _ resp hgood hexec
      rw [hstatus] at hbegin hfinish
      refine Or.inr ⟨env, ?_⟩
      unfold pullFixed
      rw [hbegin, Prog.alone_iff.1 h₂]
      exact (congrArg Prod.snd hfinish).symm

end Pull

/-! ## A round -/

section Rounds
variable {fails : Change → Bool} {ps : List (Database.TxEnv × FixedPeer)} {db : Database}

/-- The data after a round: the old data and what the pulls merge, all of them with the cursors
    from before the round. -/
theorem view_pullRound_le_iff (hfails : ∀ e ∈ ps, e.1.FailsOn fails)
    (hsites : (ps.map fun e => e.2.db.siteId).Nodup) {s : Registers CellKey CellData} :
    (pullRound ps db).view ≤ s ↔ db.view ≤ s ∧ ∀ e ∈ ps, Registers.joinAll (Database.writes
      ((e.2.merged fails (db.trackedPeerVersion e.2.db.siteId)).getD [])) ≤ s := by
  induction ps generalizing db with
  | nil => simp [pullRound]
  | cons e rest ih =>
      obtain ⟨env, p⟩ := e
      rw [List.map_cons, List.nodup_cons] at hsites
      have henv := hfails _ List.mem_cons_self
      have hrest : ∀ e ∈ rest, (pullFixed env p db).trackedPeerVersion e.2.db.siteId =
          db.trackedPeerVersion e.2.db.siteId := by
        intro e he
        refine trackedPeerVersion_pullFixed_of_ne henv fun heq => hsites.1 ?_
        exact List.mem_map.2 ⟨e, he, heq⟩
      rw [pullRound, ih (fun e he => hfails e (List.mem_cons_of_mem _ he)) hsites.2,
        view_pullFixed henv, sup_le_iff, List.forall_mem_cons, and_assoc]
      refine and_congr_right fun _ => and_congr_right fun _ => forall₂_congr fun e he => ?_
      rw [hrest e he]

/-- The cursors after a round. -/
theorem trackedPeerVersion_pullRound (hfails : ∀ e ∈ ps, e.1.FailsOn fails)
    (hsites : (ps.map fun e => e.2.db.siteId).Nodup) :
    (∀ e ∈ ps, (pullRound ps db).trackedPeerVersion e.2.db.siteId =
      e.2.cursorAfter fails (db.trackedPeerVersion e.2.db.siteId)) ∧
    ∀ siteId, (∀ e ∈ ps, siteId ≠ e.2.db.siteId) →
      (pullRound ps db).trackedPeerVersion siteId = db.trackedPeerVersion siteId := by
  induction ps generalizing db with
  | nil => exact ⟨fun e he => absurd he (by simp), fun _ _ => rfl⟩
  | cons e rest ih =>
      obtain ⟨env, p⟩ := e
      rw [List.map_cons, List.nodup_cons] at hsites
      have henv := hfails _ List.mem_cons_self
      have hnot : ∀ e ∈ rest, p.db.siteId ≠ e.2.db.siteId := by
        intro e he heq
        exact hsites.1 (List.mem_map.2 ⟨e, he, heq.symm⟩)
      obtain ⟨hin, hout⟩ := @ih (pullFixed env p db)
        (fun e he => hfails e (List.mem_cons_of_mem _ he)) hsites.2
      refine ⟨fun e he => ?_, fun siteId hne => ?_⟩
      · rw [pullRound]
        rcases List.mem_cons.1 he with rfl | he
        · rw [hout _ hnot, trackedPeerVersion_pullFixed_self henv]
        · rw [hin e he, trackedPeerVersion_pullFixed_of_ne henv (hnot e he).symm]
      · rw [pullRound, hout _ fun e he => hne e (List.mem_cons_of_mem _ he),
          trackedPeerVersion_pullFixed_of_ne henv (hne _ List.mem_cons_self)]

/-! ## A second round -/

/-- A pull finds nothing to take. -/
def FixedPeer.Settled (p : FixedPeer) (fails : Change → Bool) (db : Database) : Prop :=
  p.merged fails (db.trackedPeerVersion p.db.siteId) = none ∨
    (p.merged fails (db.trackedPeerVersion p.db.siteId) = some [] ∧
      0 ≤ db.trackedPeerVersion p.db.siteId)

omit [LinearOrder CellData] in
/-- With the cursor that a pull leaves, the next pull finds nothing. -/
theorem FixedPeer.merged_cursorAfter (p : FixedPeer) (fails : Change → Bool) (cursor : Int64) :
    p.merged fails (p.cursorAfter fails cursor) = none ∨
      (p.merged fails (p.cursorAfter fails cursor) = some [] ∧ 0 ≤ p.cursorAfter fails cursor) := by
  cases hm : p.merged fails cursor with
  | none =>
      refine Or.inl ?_
      rw [FixedPeer.cursorAfter, hm]
      exact hm
  | some changes =>
      have hafter : p.cursorAfter fails cursor = max cursor (Database.maxDbVersion changes) := by
        rw [FixedPeer.cursorAfter, hm]
      have hnonneg : 0 ≤ p.cursorAfter fails cursor := by
        rw [hafter]
        exact le_max_of_le_right (Database.maxDbVersion_nonneg changes)
      have hchanges : (p.answer cursor).changes = changes := by
        unfold FixedPeer.merged at hm
        split_ifs at hm
        exact Option.some.inj hm
      -- a row above the new cursor is above the old one, so it was in the first answer
      have hempty : (p.answer (p.cursorAfter fails cursor)).changes = [] := by
        refine List.eq_nil_iff_forall_not_mem.2 fun c hc => ?_
        obtain ⟨k, cell, hrow, hlt, rfl⟩ := Database.mem_changes.1 hc
        rw [hafter] at hlt
        have hmem : cell.toChange k ∈ changes := hchanges ▸ Database.mem_changes.2
          ⟨k, cell, hrow, lt_of_le_of_lt (le_max_left _ _) hlt, rfl⟩
        have hle : cell.dbVersion ≤ Database.maxDbVersion changes :=
          Database.dbVersion_le_maxDbVersion hmem
        exact absurd (hle.trans (le_max_right _ _)) (not_le.2 hlt)
      by_cases hle : p.status.dbVersion ≤ p.cursorAfter fails cursor
      · exact Or.inl (if_pos hle)
      · refine Or.inr ⟨?_, hnonneg⟩
        unfold FixedPeer.merged
        rw [if_neg hle, hempty]
        rfl

theorem FixedPeer.Settled.pullFixed {env : Database.TxEnv} (henv : env.FailsOn fails)
    {p : FixedPeer} (h : p.Settled fails db) : (pullFixed env p db).cells = db.cells ∧
      ∀ siteId, (pullFixed env p db).trackedPeerVersion siteId = db.trackedPeerVersion siteId := by
  rcases pullFixed_cases henv p db with ⟨_, hpull⟩ | ⟨changes, v, hmerged, hv, hpull⟩
  · rw [hpull]
    exact ⟨rfl, fun _ => rfl⟩
  rcases h with hnone | ⟨hsome, hnonneg⟩
  · rw [hnone] at hmerged
    exact absurd hmerged (by simp)
  obtain rfl : changes = [] := Option.some.inj (hmerged.symm.trans hsome)
  rw [hpull]
  refine ⟨by rw [(Database.merge_ok hv).2]; rfl, fun siteId => ?_⟩
  by_cases hsite : siteId = p.db.siteId
  · subst hsite
    rw [Database.trackedPeerVersion_merge_ok hv]
    exact max_eq_left hnonneg
  · exact Database.trackedPeerVersion_merge_of_ne hsite

theorem pullRound_settled (hfails : ∀ e ∈ ps, e.1.FailsOn fails)
    (hsettled : ∀ e ∈ ps, e.2.Settled fails db) : (pullRound ps db).cells = db.cells ∧
      ∀ siteId, (pullRound ps db).trackedPeerVersion siteId = db.trackedPeerVersion siteId := by
  induction ps generalizing db with
  | nil => exact ⟨rfl, fun _ => rfl⟩
  | cons e rest ih =>
      obtain ⟨env, p⟩ := e
      obtain ⟨hcells, htracked⟩ :=
        (hsettled _ List.mem_cons_self).pullFixed (hfails _ List.mem_cons_self)
      have hrest : ∀ e ∈ rest, e.2.Settled fails (pullFixed env p db) := by
        intro e he
        unfold FixedPeer.Settled
        rw [htracked]
        exact hsettled e (List.mem_cons_of_mem _ he)
      obtain ⟨hcells', htracked'⟩ := ih (fun e he => hfails e (List.mem_cons_of_mem _ he)) hrest
      exact ⟨hcells'.trans hcells, fun siteId => (htracked' siteId).trans (htracked siteId)⟩

omit [LinearOrder CellData] in
theorem forall_peer_congr {qs : List (Database.TxEnv × FixedPeer)}
    (hperm : (ps.map Prod.snd).Perm (qs.map Prod.snd)) (P : FixedPeer → Prop) :
    (∀ e ∈ ps, P e.2) ↔ ∀ e ∈ qs, P e.2 := by
  have h : ∀ l : List (Database.TxEnv × FixedPeer),
      (∀ e ∈ l, P e.2) ↔ ∀ p ∈ l.map Prod.snd, P p := fun l => List.forall_mem_map.symm
  rw [h, h]
  exact forall_congr' fun p => by rw [hperm.mem_iff]

/-- **The order of the peers does not matter, and a round need not be repeated.** Two rounds over
    the same peers in any two orders end with the same data and the same cursors; and after either,
    another round in any order changes no cell and no cursor. A merge may fail, for a reason that
    depends on the change only. -/
theorem pull_order_irrelevant {ps qs rs : List (Database.TxEnv × FixedPeer)} (db : Database)
    (hqs : (ps.map Prod.snd).Perm (qs.map Prod.snd))
    (hrs : (ps.map Prod.snd).Perm (rs.map Prod.snd))
    (hsites : (ps.map fun e => e.2.db.siteId).Nodup)
    (hfails : ∀ e ∈ ps ++ qs ++ rs, e.1.FailsOn fails) :
    ((pullRound ps db).view = (pullRound qs db).view ∧
      ∀ siteId, (pullRound ps db).trackedPeerVersion siteId =
        (pullRound qs db).trackedPeerVersion siteId) ∧
    (pullRound rs (pullRound ps db)).cells = (pullRound ps db).cells ∧
      ∀ siteId, (pullRound rs (pullRound ps db)).trackedPeerVersion siteId =
        (pullRound ps db).trackedPeerVersion siteId := by
  have hps : ∀ e ∈ ps, e.1.FailsOn fails := fun e he => hfails e (by simp [he])
  have hqs' : ∀ e ∈ qs, e.1.FailsOn fails := fun e he => hfails e (by simp [he])
  have hrs' : ∀ e ∈ rs, e.1.FailsOn fails := fun e he => hfails e (by simp [he])
  have hsitesq : (qs.map fun e => e.2.db.siteId).Nodup := by
    have hperm := (hqs.map fun p => p.db.siteId).nodup_iff
    simp only [List.map_map] at hperm
    exact hperm.1 hsites
  refine ⟨⟨eq_of_forall_ge_iff fun s => ?_, fun siteId => ?_⟩, ?_⟩
  · rw [view_pullRound_le_iff hps hsites, view_pullRound_le_iff hqs' hsitesq]
    refine and_congr_right fun _ => ?_
    exact forall_peer_congr hqs fun p => Registers.joinAll (Database.writes
      ((p.merged fails (db.trackedPeerVersion p.db.siteId)).getD [])) ≤ s
  · obtain ⟨hin, hout⟩ := @trackedPeerVersion_pullRound _ _ ps db hps hsites
    obtain ⟨hin', hout'⟩ := @trackedPeerVersion_pullRound _ _ qs db hqs' hsitesq
    by_cases hmem : ∀ e ∈ ps, siteId ≠ e.2.db.siteId
    · rw [hout siteId hmem, hout' siteId]
      exact (forall_peer_congr hqs fun p => siteId ≠ p.db.siteId).1 hmem
    · obtain ⟨e, he, rfl⟩ : ∃ e ∈ ps, siteId = e.2.db.siteId := by simpa using hmem
      obtain ⟨e', he', heq⟩ := List.mem_map.1 (hqs.subset (List.mem_map_of_mem he))
      rw [hin e he, ← heq, hin' e' he']
  · refine pullRound_settled hrs' ?_
    refine (forall_peer_congr hrs fun p => p.Settled fails (pullRound ps db)).1 fun e he => ?_
    unfold FixedPeer.Settled
    rw [(trackedPeerVersion_pullRound hps hsites).1 e he]
    exact e.2.merged_cursorAfter fails _

end Rounds

end Round

section Example
attribute [local instance] cellDataOrder

/-- A peer whose only row is its own write of `x`. -/
def writerOf (siteId : Bytes) (colVersion : Int64) : FixedPeer where
  db := (Database.new siteId).writeCell 1 ⟨"t", [], "x"⟩ ⟨1, colVersion, .null⟩ 0
  status := ⟨siteId, 1⟩
  siteId_eq := rfl

/-- Two peers that wrote the same cell, pulled in both orders, and then once more. -/
theorem pull_order_irrelevant_conflict : ∃ ps : List (Database.TxEnv × FixedPeer),
    ps.map Prod.snd = [writerOf [1] 1, writerOf [2] 2] ∧
    (pullRound ps (Database.new [3])).view ⟨"t", [], "x"⟩ =
      ((⟨1, 2, .null⟩ : CellData) : WithBot CellData) ∧
    (pullRound ps (Database.new [3])).view = (pullRound ps.reverse (Database.new [3])).view ∧
    (pullRound ps (pullRound ps (Database.new [3]))).cells =
      (pullRound ps (Database.new [3])).cells := by
  let env : Database.TxEnv := ⟨1, none, none, fun _ _ => none, none, none⟩
  let ps : List (Database.TxEnv × FixedPeer) := [(env, writerOf [1] 1), (env, writerOf [2] 2)]
  have henv : env.FailsOn fun _ => false := ⟨rfl, rfl, fun _ _ => by simp [env], rfl, rfl⟩
  have hps : ∀ e ∈ ps, e.1 = env := by simp [ps]
  have hfails : ∀ e ∈ ps ++ ps.reverse ++ ps, e.1.FailsOn fun _ => false := by
    intro e he
    have hmem : e ∈ ps := by simpa using he
    rw [hps e hmem]
    exact henv
  have hperm : (ps.map Prod.snd).Perm (ps.reverse.map Prod.snd) :=
    (List.reverse_perm ps).symm.map Prod.snd
  have h := pull_order_irrelevant (Database.new [3]) hperm (List.Perm.refl (ps.map Prod.snd))
    (by decide) hfails
  exact ⟨ps, rfl, by decide, h.1.1, h.2.1⟩

end Example

end Ddcp
