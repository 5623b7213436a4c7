import Ddcp.Lib.Shared
import Ddcp.Node.Proofs
import Ddcp.Replication.Net

set_option autoImplicit false

/-! # The programs behind the steps

The steps of `Net.Step` and of `Wire.Step` are phases of the programs of a node. Here each program
is executed on a database that answers its calls (`Database.Answers`) and that other tasks change
between them: `pull_from` is `beginPull` on the database it finds first, then `changes`, then
`finishPull` on the database it finds then (`exec_pullFrom`), and a responder answers with
`answerChanges` (`exec_respond_changes`). -/

namespace Ddcp

open Method Relation
open Prog (Served served_nil_iff served_cons_iff served_append_iff)

/-- What is known of a peer from its published status. -/
def NodeStatus.status (ns : NodeStatus) : Status := ⟨ns.siteId, ns.dbVersion⟩

variable {σ : Type}

section Answers
variable [LinearOrder CellData]

/-- The answers of a database. A call that reads may also fail; the ways in which a merge fails are
    in its environment. -/
def Database.Answers (db : Database) : Event → Database → Prop
  | ⟨.db .status, a⟩, db' => (a = .ok db.status ∨ ∃ e, a = .error e) ∧ db' = db
  | ⟨.db (.select since), a⟩, db' => (a = .ok (db.select since) ∨ ∃ e, a = .error e) ∧ db' = db
  | ⟨.db (.trackedPeerVersion siteId), a⟩, db' =>
      (a = .ok (db.trackedPeerVersion siteId) ∨ ∃ e, a = .error e) ∧ db' = db
  | ⟨.db (.merge siteId changes), a⟩, db' =>
      ∃ env : Database.TxEnv, db.clock < env.version ∧ (a, db') = db.merge env siteId changes
  | _, db' => db' = db

variable {others : Database → Database → Prop} {db db' : Database} {tr : List Event}

/-- While `changes` runs, only others change the database. -/
theorem served_changes [Capnp] [CryptoSystem] {c : Conclave} {peer : Peer} {since : Int64}
    {s s' : σ} {r : Except Abort ChangesResponse}
    (h : Exec (c.changes peer since : Act σ ChangesResponse) s tr r s')
    (hdb : Served Database.Answers others db tr db') : ReflTransGen others db db' ∧ s' = s := by
  obtain ⟨hs, hcalls⟩ := within_changes (fun _ => id) c peer since _ _ _ _ h
  refine ⟨hdb.idle ?_, hs⟩
  rintro ⟨call, a⟩ he w w' hanswer
  have hcall : ChangesCall call := hcalls _ he
  cases call with
  | db c => exact absurd hcall id
  | veilid c => exact hanswer
  | randomNonce => exact hanswer
  | shutdown => exact hanswer

/-- One call of the database. -/
theorem served_db {c : DbCall} {s s' : σ} {r : Except Abort c.Val}
    (h : Exec (Act.db c : Act σ c.Val) s tr r s')
    (hdb : Served Database.Answers others db tr db') : s' = s ∧ ∃ db₀ db₁ a,
      ReflTransGen others db db₀ ∧ db₀.Answers ⟨.db c, a⟩ db₁ ∧ ReflTransGen others db₁ db' ∧
      r = a.mapError fun e => .err (.db e) := by
  obtain ⟨a, rfl, rfl, rfl⟩ := Act.exec_db_iff.1 h
  obtain ⟨db₀, db₁, hbefore, hanswer, hafter⟩ := served_cons_iff.1 hdb
  exact ⟨rfl, db₀, db₁, a, hbefore, hanswer, served_nil_iff.1 hafter, rfl⟩

end Answers

/-! ## Pulling -/

section Pull
variable [LinearOrder CellData] [Capnp] [CryptoSystem]

/-- How `pull_from` ends, from the database it starts on to the one it leaves, when all answers it
    gets are `good`. -/
inductive PulledFrom (others : Database → Database → Prop) (good : Event → Prop) (c : Conclave)
    (peer : Peer) (peerStatus : NodeStatus) (s : σ) :
    Database → Except Abort (Bool × Int64) → Database → Prop
  /-- The cursor cannot be read. -/
  | unread {db db' : Database} (e : DbError) (h : ReflTransGen others db db') :
      PulledFrom others good c peer peerStatus s db (.error (.err (.db e))) db'
  | upToDate {db db₀ db' : Database} {v : Int64} (h₀ : ReflTransGen others db db₀)
      (hbegin : beginPull db₀ peerStatus.status = .upToDate v) (h : ReflTransGen others db₀ db') :
      PulledFrom others good c peer peerStatus s db (.ok (false, v)) db'
  /-- `changes` fails. -/
  | failed {db db₀ db' : Database} {since : Int64} {tr : List Event} {e : Abort}
      (h₀ : ReflTransGen others db db₀)
      (hbegin : beginPull db₀ peerStatus.status = .request since)
      (hgood : ∀ e ∈ tr, good e) (hexec : Exec (c.changes peer since) s tr (.error e) s)
      (h : ReflTransGen others db₀ db') :
      PulledFrom others good c peer peerStatus s db (.error e) db'
  | finished {db db₀ db₁ db₂ db' : Database} {since : Int64} {tr : List Event}
      {resp : ChangesResponse} {env : Database.TxEnv} {r : Except Error (Bool × Int64)}
      (h₀ : ReflTransGen others db db₀)
      (hbegin : beginPull db₀ peerStatus.status = .request since)
      (hgood : ∀ e ∈ tr, good e) (hexec : Exec (c.changes peer since) s tr (.ok resp) s)
      (h₁ : ReflTransGen others db₀ db₁)
      (henv : resp.siteId = peerStatus.siteId → db₁.clock < env.version)
      (hfinish : finishPull env peerStatus.status resp db₁ = (r, db₂))
      (h : ReflTransGen others db₂ db') :
      PulledFrom others good c peer peerStatus s db (r.mapError .err) db'

omit [Capnp] [CryptoSystem] in
theorem finishPull_of_merge {env : Database.TxEnv} {st : Status} {resp : ChangesResponse}
    {db db' : Database} {a : Except DbError Int64} (hsite : resp.siteId = st.siteId)
    (hmerge : (a, db') = db.merge env resp.siteId resp.changes) :
    finishPull env st resp db = ((a.mapError Error.db).map (true, ·), db') := by
  unfold finishPull
  rw [if_neg (not_not.2 hsite), ← hmerge]
  cases a <;> rfl

omit [Capnp] [CryptoSystem] in
/-- The end of `pull_from`, once the site id has been checked. -/
theorem served_merge {others : Database → Database → Prop} {st : Status} {resp : ChangesResponse}
    {s s' : σ} {tr : List Event} {r : Except Abort (Bool × Int64)} {db db' : Database}
    (hsite : resp.siteId = st.siteId)
    (h : Exec (do
      let mergeVersion ← Act.db (.merge resp.siteId resp.changes)
      return (true, mergeVersion)) s tr r s')
    (hdb : Served Database.Answers others db tr db') : ∃ (db₁ db₂ : Database)
      (env : Database.TxEnv) (r' : Except Error (Bool × Int64)),
      ReflTransGen others db db₁ ∧ db₁.clock < env.version ∧
      finishPull env st resp db₁ = (r', db₂) ∧ ReflTransGen others db₂ db' ∧
      r = r'.mapError .err := by
  rcases exec_bind_iff.1 h with ⟨e, rfl, h₁⟩ | ⟨tr₁, tr₂, v, s₁, rfl, h₁, h₂⟩
  · obtain ⟨-, db₁, db₂, a, hbefore, ⟨env, henv, hmerge⟩, hafter, ha⟩ := served_db h₁ hdb
    refine ⟨db₁, db₂, env, _, hbefore, henv, finishPull_of_merge hsite hmerge, hafter, ?_⟩
    cases a with
    | ok v => exact absurd ha (by simp)
    | error e' => rw [Except.error.inj ha]; rfl
  · obtain ⟨db₃, hmerged, hlast⟩ := served_append_iff.1 hdb
    obtain ⟨-, db₁, db₂, a, hbefore, ⟨env, henv, hmerge⟩, hafter, ha⟩ := served_db h₁ hmerged
    obtain ⟨rfl, rfl, -⟩ := exec_pure_iff.1 h₂
    refine ⟨db₁, db₂, env, _, hbefore, henv, finishPull_of_merge hsite hmerge,
      hafter.trans (served_nil_iff.1 hlast), ?_⟩
    rw [Except.mapError_eq_ok_iff.1 ha.symm]
    rfl

/-- **The phases of `pull_from`**, on a database that others change meanwhile. -/
theorem exec_pullFrom {others : Database → Database → Prop} {good : Event → Prop} {c : Conclave}
    {peer : Peer} {peerStatus : NodeStatus} {s s' : σ} {tr : List Event}
    {r : Except Abort (Bool × Int64)} {db db' : Database}
    (h : Exec (DDCP.pullFrom c peer peerStatus) s tr r s') (hgood : ∀ e ∈ tr, good e)
    (hdb : Served Database.Answers others db tr db') :
    PulledFrom others good c peer peerStatus s db r db' := by
  unfold DDCP.pullFrom at h
  rcases exec_bind_iff.1 h with ⟨e, rfl, h₁⟩ | ⟨tr₁, tr₂, v, s₁, rfl, h₁, h₂⟩
  · obtain ⟨-, _, db₀, a, hbefore, ⟨-, rfl⟩, hafter, ha⟩ := served_db h₁ hdb
    cases a with
    | ok v => exact absurd ha (by simp)
    | error e' =>
        obtain rfl := Except.error.inj ha
        exact .unread e' (hbefore.trans hafter)
  obtain ⟨db', hcursor, hrest⟩ := served_append_iff.1 hdb
  obtain ⟨rfl, _, db₀, a, hbefore, ⟨hv, rfl⟩, hbetween, ha⟩ := served_db h₁ hcursor
  rcases hv with rfl | ⟨e, rfl⟩
  swap
  · exact absurd ha (by simp)
  obtain rfl := Except.ok.inj ha
  replace hrest := hrest.after hbetween
  -- the cursor has been read in `db₀`
  by_cases hle : peerStatus.dbVersion ≤ db₀.trackedPeerVersion peerStatus.siteId
  · rw [if_pos hle] at h₂
    obtain ⟨rfl, rfl, rfl⟩ := exec_pure_iff.1 h₂
    exact .upToDate hbefore (if_pos hle) (served_nil_iff.1 hrest)
  rw [if_neg hle] at h₂
  have hbegin : beginPull db₀ peerStatus.status =
      .request (db₀.trackedPeerVersion peerStatus.siteId) := if_neg hle
  rcases exec_bind_iff.1 h₂ with ⟨e, rfl, h₃⟩ | ⟨tr₃, tr₄, resp, s₂, rfl, h₃, h₄⟩
  · obtain ⟨hothers, rfl⟩ := served_changes h₃ hrest
    exact .failed hbefore hbegin (fun e he => hgood e (List.mem_append_right _ he)) h₃ hothers
  have hgood₃ : ∀ e ∈ tr₃, good e := fun e he =>
    hgood e (List.mem_append_right _ (List.mem_append_left _ he))
  obtain ⟨db₁, hchanges, hlast⟩ := served_append_iff.1 hrest
  obtain ⟨hothers, rfl⟩ := served_changes h₃ hchanges
  by_cases hsite : resp.siteId ≠ peerStatus.siteId
  · rw [if_pos hsite] at h₄
    obtain ⟨rfl, rfl, rfl⟩ := exec_throw_iff.1 h₄
    have hfinish : ∀ env, finishPull env peerStatus.status resp db₁ =
        (.error (otherErr "mismatched site_id"), db₁) := fun env => if_pos hsite
    exact .finished hbefore hbegin hgood₃ h₃ hothers (absurd · hsite)
      (hfinish ⟨0, none, none, fun _ _ => none, none, none⟩) (served_nil_iff.1 hlast)
  rw [if_neg hsite] at h₄
  obtain ⟨db₂, db₃, env, r', hmore, henv, hfinish, hend, rfl⟩ :=
    served_merge (not_not.1 hsite : _ = peerStatus.status.siteId) h₄ hlast
  exact .finished hbefore hbegin hgood₃ h₃ (hothers.trans hmore) (fun _ => henv) hfinish hend

end Pull

/-! ## The request and the answer -/

section Messages
variable [Capnp] [CryptoSystem] {s s' : σ} {tr : List Event}

variable [LinearOrder CellData] {others : Database → Database → Prop} {db db' : Database}

omit [Capnp] [CryptoSystem] in
/-- `DB::changes`, when it succeeds, on a database that others change between its two calls. -/
theorem exec_dbChanges_ok {since : Int64} {res : Bytes × List Change}
    (h : Exec (dbChanges since : Act σ (Bytes × List Change)) s tr (.ok res) s')
    (hdb : Served Database.Answers others db tr db') : ∃ db₀ db₁,
      ReflTransGen others db db₀ ∧ ReflTransGen others db₀ db₁ ∧ ReflTransGen others db₁ db' ∧
      answerChanges db₁ db₀.status since = ⟨res.1, res.2⟩ := by
  obtain ⟨tr₁, tr₂, status, s₁, rfl, h₁, h₂⟩ := exec_bind_ok_iff.1 h
  obtain ⟨db₂, hstatus, hrest⟩ := served_append_iff.1 hdb
  obtain ⟨-, _, db₀, a, hbefore, ⟨hv, rfl⟩, hbetween, ha⟩ := served_db h₁ hstatus
  rcases hv with rfl | ⟨e, rfl⟩
  swap
  · exact absurd ha (by simp)
  obtain rfl := Except.ok.inj ha
  by_cases hle : since ≥ db₀.status.2
  · have hdone : Exec (pure (db₀.status.1, []) : Act σ (Bytes × List Change)) s₁ tr₂
        (.ok res) s' := by
      simpa only [hle, if_true] using h₂
    obtain ⟨rfl, hres, -⟩ := exec_pure_iff.1 hdone
    obtain rfl := Except.ok.inj hres
    exact ⟨db₀, db₀, hbefore, .refl, hbetween.trans (served_nil_iff.1 hrest), if_pos hle⟩
  · have hselect : Exec (do
        let changes ← Act.db (.select since)
        return (db₀.status.1, changes)) s₁ tr₂ (.ok res) s' := by
      simpa only [hle, if_false] using h₂
    obtain ⟨tr₃, tr₄, changes, s₂, rfl, h₃, h₄⟩ := exec_bind_ok_iff.1 hselect
    obtain ⟨db₃, hselected, hlast⟩ := served_append_iff.1 hrest
    obtain ⟨-, _, db₁, a, hmore, ⟨hv, rfl⟩, hafter, ha⟩ := served_db h₃ hselected
    rcases hv with rfl | ⟨e, rfl⟩
    swap
    · exact absurd ha (by simp)
    obtain rfl := Except.ok.inj ha
    obtain ⟨rfl, hres, -⟩ := exec_pure_iff.1 h₄
    obtain rfl := Except.ok.inj hres
    exact ⟨db₀, db₁, hbefore, hbetween.trans hmore, hafter.trans (served_nil_iff.1 hlast),
      if_neg hle⟩

/-- **The phases of a responder**, asked for changes: it answers with `answerChanges`. -/
theorem exec_respond_changes {r : Responder} {crypto : Crypto} {since : Int64}
    (hreq : crypto.decode Request r.envelope.contents = .ok (.changes since))
    (h : Exec (r.respond crypto : Act σ Unit) s tr (.ok ()) s')
    (hdb : Served Database.Answers others db tr db') : ∃ db₀ db₁ contents,
      ReflTransGen others db db₀ ∧ ReflTransGen others db₀ db₁ ∧ ReflTransGen others db₁ db' ∧
      crypto.Seals (encode (Response.changes (answerChanges db₁ db₀.status since))) contents ∧
      ⟨.veilid (.appCallReply r.callId (encode (Envelope.mk r.sender contents))), .ok ()⟩ ∈ tr := by
  obtain ⟨tr₁, tr₂, request, s₁, rfl, hdecode, h₁⟩ := exec_bind_ok_iff.1 h
  obtain ⟨rfl, hrequest, rfl⟩ := Act.exec_lift_iff.1 hdecode
  obtain rfl := Except.ok.inj (hrequest.trans hreq)
  obtain ⟨tr₃, tr₄, contents, s₂, rfl, hanswer, hreply⟩ := exec_bind_ok_iff.1 h₁
  obtain ⟨tr₅, tr₆, ⟨siteId, changes⟩, s₃, rfl, hchanges, hencode⟩ := exec_bind_ok_iff.1 hanswer
  obtain ⟨hseals, -, nonce, rfl⟩ := Crypto.exec_encode_ok hencode
  obtain ⟨rfl, -⟩ := Act.exec_veilid_ok_iff.1 hreply
  obtain ⟨db₂, hanswered, hlast⟩ := served_append_iff.1 (List.nil_append _ ▸ hdb)
  obtain ⟨db₃, hserved, hsealed⟩ := served_append_iff.1 hanswered
  obtain ⟨db₀, db₁, h₀, h₁, h₂, heq⟩ := exec_dbChanges_ok hchanges hserved
  -- sealing and replying leave the database alone
  have hseal : ReflTransGen others db₃ db₂ := hsealed.idle fun e he w w' hw => by
    rw [List.mem_singleton.1 he] at hw
    exact hw
  have hsend : ReflTransGen others db₂ db' := hlast.idle fun e he w w' hw => by
    rw [List.mem_singleton.1 he] at hw
    exact hw
  refine ⟨db₀, db₁, contents, h₀, h₁, (h₂.trans hseal).trans hsend, heq ▸ hseals, ?_⟩
  simp

end Messages

end Ddcp
