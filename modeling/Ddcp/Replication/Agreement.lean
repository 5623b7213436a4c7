import Ddcp.Db.CellOrder
import Ddcp.Ident.Proofs
import Ddcp.Replication.Cursor
import Ddcp.Replication.Wire

set_option autoImplicit false

/-! # What a merged response answers

Neither the direction nor the request is part of what is sealed, and a message of one type can be
read as the other. Of the confusions this allows, the tags of the two unions and the site id stop
those at the client (`merged_answer`): what it merges is an answer of the peer, and not a request, a
status or an answer of its own. They do not stop those at the responder: a list of changes reads as
a request for all changes, which does no harm, and a node answers its own request when it is sent
back to it, from a version that is not the client's (`reflected_request_merged`). -/

namespace Ddcp

open Lts

theorem Side.eq_or_other (n m : Side) : m = n ∨ m = n.other := by
  cases n <;> cases m <;> simp [Side.other]

/-! ## One message read as another -/

/-- The tree of a sealed message. -/
def Sealed.toObj : Sealed → Obj
  | .request sinceDbVersion => (Request.changes sinceDbVersion).toObj
  | .status resp => (Response.status resp).toObj
  | .answer _ resp _ => (Response.changes resp).toObj

/-- A message that reads as a request for changes: a request, or an answer. -/
theorem Sealed.read_request {m : Sealed} {since : Int64}
    (h : Decodable.ofObj m.toObj = .ok (Request.changes since)) :
    m = .request since ∨ ∃ since' resp asked, m = .answer since' resp asked ∧ since = 0 := by
  cases m with
  | request since' =>
      have heq := (Request.ofObj_toObj (.changes since')).symm.trans h
      simp only [Except.ok.injEq, Request.changes.injEq] at heq
      exact Or.inl (by rw [heq])
  | status resp =>
      have heq := (Request.ofObj_response_status resp).symm.trans h
      exact absurd heq (by simp)
  | answer since' resp asked =>
      have heq := (Request.ofObj_response_changes resp).symm.trans h
      simp only [Except.ok.injEq, Request.changes.injEq] at heq
      exact Or.inr ⟨since', resp, asked, rfl, heq.symm⟩

/-- A message that reads as a list of changes: an answer, or a request, which has no site id. -/
theorem Sealed.read_response {m : Sealed} {resp : ChangesResponse}
    (h : Decodable.ofObj m.toObj = .ok (Response.changes resp)) :
    resp = ⟨[], []⟩ ∨ ∃ since asked, m = .answer since resp asked := by
  cases m with
  | request since =>
      have heq := (Response.ofObj_request_changes since).symm.trans h
      simp only [Except.ok.injEq, Response.changes.injEq] at heq
      exact Or.inl heq.symm
  | status r =>
      have heq := (Response.ofObj_toObj (.status r)).symm.trans h
      exact absurd heq (by simp)
  | answer since r asked =>
      have heq := (Response.ofObj_toObj (.changes r)).symm.trans h
      simp only [Except.ok.injEq, Response.changes.injEq] at heq
      exact Or.inr ⟨since, asked, by rw [heq]⟩

/-! ## Opening -/

section Opening
variable [Capnp] [CryptoSystem] {K : Pairing} {IsKeyPair : KeyPair → Prop}

omit [Capnp] in
/-- Both nodes compute the same key. -/
theorem sharedKey_eq (hl : CryptoSystem.Lawful IsKeyPair) (hkeys : ∀ n, IsKeyPair (K.keys n).value)
    (n m : Side) : (K.crypto n).sharedKey = (K.crypto m).sharedKey := by
  rcases Side.eq_or_other n m with rfl | rfl
  · rfl
  · cases n <;> exact hl.dh_symm _ _ (hkeys _) (hkeys _)

omit [Capnp] in
/-- What one of the two has sealed opens, at either node, to what was sealed. -/
theorem opens_of_seals (hl : CryptoSystem.Lawful IsKeyPair)
    (hkeys : ∀ n, IsKeyPair (K.keys n).value) {n m : Side} {plain plain' contents : Bytes}
    (hseals : (K.crypto m).Seals plain contents) (hopens : (K.crypto n).Opens contents plain') :
    plain' = plain := by
  obtain ⟨key, nonce, message, hkey, henc, rfl⟩ := hseals
  obtain ⟨nonce', rest, key', hsplit, hkey', hdec⟩ := hopens
  -- the nonces are of one length
  obtain ⟨hnonce, rfl⟩ := List.append_inj hsplit (by rw [nonce.length_eq, nonce'.length_eq])
  obtain rfl : nonce = nonce' := by
    obtain ⟨bytes, _⟩ := nonce
    obtain ⟨bytes', _⟩ := nonce'
    obtain rfl : bytes = bytes' := hnonce
    rfl
  rw [sharedKey_eq hl hkeys n m, hkey] at hkey'
  obtain rfl := Except.ok.inj hkey'
  rw [hl.decrypt_encrypt _ _ _ _ henc] at hdec
  exact (Except.ok.inj hdec).symm

omit [CryptoSystem] in
theorem Sealed.plain_eq (m : Sealed) : m.plain = Capnp.write m.toObj := by
  cases m <;> rfl

/-- What decodes from the contents of a sealed message decodes from its tree. -/
theorem decode_sealed (hl : CryptoSystem.Lawful IsKeyPair) (hkeys : ∀ n, IsKeyPair (K.keys n).value)
    (hc : Capnp.Lawful) {α : Type} [Decodable α] {n : Side} {x : α} {e : SealedBy}
    (hseals : (K.crypto e.sealer).Seals e.message.plain e.contents)
    (hdecode : (K.crypto n).decode α e.contents = .ok x) :
    Decodable.ofObj e.message.toObj = .ok x := by
  obtain ⟨nonce, rest, key, plain, hsplit, hkey, hdec, hplain⟩ := Crypto.decode_ok hdecode
  obtain rfl := opens_of_seals hl hkeys hseals ⟨nonce, rest, key, hsplit, hkey, hdec⟩
  rw [Sealed.plain_eq] at hplain
  exact decode_write_ok hc hplain

end Opening

/-! ## The invariant -/

section Agreement
variable {K : Pairing}

/-- The contents `asked` that an answer from `since` answers: a request, or an answer read so. -/
def Wire.Asked (σ : Wire) (since : Int64) (asked : Bytes) : Prop :=
  ∃ q ∈ σ.log, q.contents = asked ∧ (q.message = .request since ∨
    ∃ since' resp asked', q.message = .answer since' resp asked' ∧ since = 0)

variable [Capnp] [CryptoSystem]

/-- What holds of a sealed message. -/
structure SealedInv (K : Pairing) (σ : Wire) (e : SealedBy) : Prop where
  seals : (K.crypto e.sealer).Seals e.message.plain e.contents
  request : ∀ since, e.message = .request since →
    since ≤ (σ.db e.sealer).trackedPeerVersion (K.site e.sealer.other)
  answer : ∀ since resp asked, e.message = .answer since resp asked →
    resp.siteId = K.site e.sealer ∧ Complete (σ.db e.sealer) since resp ∧ σ.Asked since asked

structure WireInv (K : Pairing) (σ : Wire) : Prop where
  siteId : ∀ n, (σ.db n).siteId = K.site n
  clocked : ∀ n, Clocked (σ.db n)
  log : ∀ e ∈ σ.log, SealedInv K σ e
  serving : ∀ i r, σ.serving i = some r →
    r.status.1 = K.site r.server ∧ σ.Asked r.sinceDbVersion r.asked
  pull : ∀ n st since, σ.pull n = some (st, since) → st.siteId = K.site n.other ∧
    ∀ e ∈ σ.log, e.sealer = n → ∀ since', e.message = .request since' → since' ≤ since

omit [Capnp] [CryptoSystem] in
theorem Wire.Asked.mono {σ σ' : Wire} (hlog : ∀ e ∈ σ.log, e ∈ σ'.log) {since : Int64}
    {asked : Bytes} (h : σ.Asked since asked) : σ'.Asked since asked := by
  obtain ⟨q, hq, hrest⟩ := h
  exact ⟨q, hlog q hq, hrest⟩

variable [LinearOrder CellData]

/-- It goes on to hold as databases advance, cursors rise and the log grows. -/
theorem SealedInv.mono {σ σ' : Wire} {e : SealedBy} (h : SealedInv K σ e)
    (hadv : Advances (σ.db e.sealer) (σ'.db e.sealer))
    (hcursor : ∀ s, (σ.db e.sealer).trackedPeerVersion s ≤ (σ'.db e.sealer).trackedPeerVersion s)
    (hlog : ∀ e ∈ σ.log, e ∈ σ'.log) : SealedInv K σ' e where
  seals := h.seals
  request since hm := (h.request since hm).trans (hcursor _)
  answer since resp asked hm := by
    obtain ⟨hsite, hcomplete, hasked⟩ := h.answer since resp asked hm
    exact ⟨hsite, hcomplete.advance hadv, hasked.mono hlog⟩

omit [LinearOrder CellData] in
theorem WireInv.init : WireInv K (Wire.init K) where
  siteId _ := rfl
  clocked n := Clocked.new (K.site n)
  log _ he := absurd he (by simp [Wire.init])
  serving _ _ hr := absurd hr (by simp [Wire.init])
  pull _ _ _ hp := absurd hp (by simp [Wire.init])

theorem WireInv.setDb {σ : Wire} (h : WireInv K σ) {n : Side} {db' : Database}
    (hadv : Advances (σ.db n) db')
    (hcursor : ∀ s, (σ.db n).trackedPeerVersion s ≤ db'.trackedPeerVersion s) :
    WireInv K (σ.setDb n db') := by
  have hself : (σ.setDb n db').db n = db' := Function.update_self ..
  have hne : ∀ m, m ≠ n → (σ.setDb n db').db m = σ.db m := fun m hm =>
    Function.update_of_ne hm ..
  have hall : ∀ m, Advances (σ.db m) ((σ.setDb n db').db m) ∧
      ∀ s, (σ.db m).trackedPeerVersion s ≤ ((σ.setDb n db').db m).trackedPeerVersion s := by
    intro m
    by_cases hm : m = n
    · subst hm
      rw [hself]
      exact ⟨hadv, hcursor⟩
    · rw [hne m hm]
      exact ⟨Advances.refl _, fun _ => le_rfl⟩
  exact {
    siteId := fun m => (hall m).1.siteId.trans (h.siteId m)
    clocked := fun m => (h.clocked m).advance (hall m).1
    log := fun e he => (h.log e he).mono (hall _).1 (hall _).2 fun _ => id
    serving := h.serving
    pull := h.pull }

omit [LinearOrder CellData] in
theorem WireInv.setPull {σ : Wire} (h : WireInv K σ) {n : Side} {p : Option (Status × Int64)}
    (hp : ∀ st since, p = some (st, since) → st.siteId = K.site n.other ∧
      ∀ e ∈ σ.log, e.sealer = n → ∀ since', e.message = .request since' → since' ≤ since) :
    WireInv K (σ.setPull n p) :=
  { h with
    log := fun e he => ⟨(h.log e he).seals, (h.log e he).request, (h.log e he).answer⟩
    pull := fun m st since hm => by
      by_cases hmn : m = n
      · subst hmn
        exact hp st since (by simpa [Wire.setPull] using hm)
      · exact h.pull m st since (by simpa [Wire.setPull, Function.update_of_ne hmn] using hm) }

omit [LinearOrder CellData] in
theorem WireInv.setServing {σ : Wire} (h : WireInv K σ) {i : Nat} {s : Option Serving}
    (hs : ∀ r, s = some r → r.status.1 = K.site r.server ∧ σ.Asked r.sinceDbVersion r.asked) :
    WireInv K (σ.setServing i s) :=
  { h with
    log := fun e he => ⟨(h.log e he).seals, (h.log e he).request, (h.log e he).answer⟩
    serving := fun j r hj => by
      by_cases hji : j = i
      · subst hji
        exact hs r (by simpa [Wire.setServing] using hj)
      · exact h.serving j r (by simpa [Wire.setServing, Function.update_of_ne hji] using hj) }

theorem WireInv.seal {σ : Wire} (h : WireInv K σ) {e : SealedBy} (he : SealedInv K (σ.seal e) e)
    (hpull : ∀ st since since', σ.pull e.sealer = some (st, since) →
      e.message = .request since' → since' ≤ since) : WireInv K (σ.seal e) := by
  have hlog : ∀ e' ∈ σ.log, e' ∈ (σ.seal e).log := fun e' he' => List.mem_cons_of_mem e he'
  exact {
    siteId := h.siteId
    clocked := h.clocked
    log := fun e' he' => by
      rcases List.mem_cons.1 he' with rfl | he'
      · exact he
      · exact (h.log e' he').mono (Advances.refl _) (fun _ => le_rfl) hlog
    serving := fun i r hr => ⟨(h.serving i r hr).1, (h.serving i r hr).2.mono hlog⟩
    pull := fun n st since hp => by
      refine ⟨(h.pull n st since hp).1, fun e' he' hn since' hm => ?_⟩
      rcases List.mem_cons.1 he' with rfl | he'
      · exact hpull st since since' (hn ▸ hp) hm
      · exact (h.pull n st since hp).2 e' he' hn since' hm }

variable {IsKeyPair : KeyPair → Prop}

omit [LinearOrder CellData] in
/-- What a node decodes from genuine contents decodes from a sealed message. -/
theorem WireInv.decode (hl : CryptoSystem.Lawful IsKeyPair)
    (hkeys : ∀ n, IsKeyPair (K.keys n).value) (hc : Capnp.Lawful) {σ : Wire} (h : WireInv K σ)
    {α : Type} [Decodable α] {n : Side} {contents : Bytes} {x : α}
    (hdecode : (K.crypto n).decode α contents = .ok x) :
    (σ.Genuine K contents → ∃ e ∈ σ.log, e.contents = contents) ∧
      ∀ e ∈ σ.log, e.contents = contents → Decodable.ofObj e.message.toObj = .ok x := by
  constructor
  · intro hgenuine
    obtain ⟨nonce, rest, key, plain, hsplit, hkey, hdec, _⟩ := Crypto.decode_ok hdecode
    exact hgenuine n plain ⟨nonce, rest, key, hsplit, hkey, hdec⟩
  · rintro e he rfl
    exact decode_sealed hl hkeys hc (h.log e he).seals hdecode

/-- **The step lemma.** -/
theorem WireInv.step (hl : CryptoSystem.Lawful IsKeyPair)
    (hkeys : ∀ n, IsKeyPair (K.keys n).value) (hc : Capnp.Lawful) {σ σ' : Wire} {l : WireAction}
    (h : WireInv K σ) (hs : Wire.Step K σ l σ') : WireInv K σ' := by
  cases hs with
  | localTx n htx =>
      exact h.setDb htx.advances fun s => (htx.trackedPeerVersion s).ge
  | mergeOther n env siteId changes henv =>
      exact h.setDb (Database.merge_advances env siteId changes _) fun s =>
        Database.trackedPeerVersion_le_merge _
  | @begin n st since contents hfree hst hbegin hseal =>
      have hsince : since = (σ.db n).trackedPeerVersion (K.site n.other) :=
        hst ▸ (beginPull_request hbegin).1
      have hpull : WireInv K (σ.setPull n (some (st, since))) := by
        refine h.setPull fun st' since' hp => ?_
        obtain ⟨rfl, rfl⟩ := Prod.mk.inj (Option.some.inj hp)
        refine ⟨hst, fun e he hn since' hm => ?_⟩
        subst hn
        exact hsince ▸ (h.log e he).request since' hm
      refine hpull.seal ⟨hseal, fun since' hm => ?_, fun _ _ _ hm => absurd hm (by simp)⟩ ?_
      · obtain rfl := Sealed.request.inj hm
        exact hsince.le
      · intro st' since' since'' hp hm
        obtain rfl := Sealed.request.inj hm
        have hself : (σ.setPull n (some (st, since))).pull n = some (st, since) :=
          Function.update_self ..
        obtain ⟨rfl, rfl⟩ := Prod.mk.inj (Option.some.inj (hself.symm.trans hp))
        exact le_rfl
  | @call server i message envelope since hfree henv hsender hgenuine hreq =>
      refine h.setServing fun r hr => ?_
      obtain rfl := Option.some.inj hr
      refine ⟨h.siteId server, ?_⟩
      obtain ⟨hex, hall⟩ := h.decode hl hkeys hc hreq
      obtain ⟨e, he, hcontents⟩ := hex hgenuine
      exact ⟨e, he, hcontents, Sealed.read_request (hall e he hcontents)⟩
  | @callStatus server message contents envelope henv hsender hgenuine hreq hseal =>
      refine h.seal ⟨hseal, fun _ hm => absurd hm (by simp), fun _ _ _ hm => absurd hm (by simp)⟩ ?_
      intro _ _ _ _ hm
      exact absurd hm (by simp)
  | @answer i r contents resp hr hresp hseal =>
      obtain ⟨hstatus, hasked⟩ := h.serving i r hr
      have hdrop : WireInv K (σ.setServing i none) := h.setServing fun _ hs => absurd hs (by simp)
      refine hdrop.seal ⟨hseal, fun _ hm => absurd hm (by simp), ?_⟩ fun _ _ _ _ hm =>
        absurd hm (by simp)
      intro since' resp' asked' hm
      obtain ⟨rfl, rfl, rfl⟩ := Sealed.answer.inj hm
      subst hresp
      refine ⟨(answerChanges_siteId _ _ _).trans hstatus, (h.clocked r.server).complete _ _, ?_⟩
      exact hasked.mono fun e he => List.mem_cons_of_mem _ he
  | @reply n st since message envelope resp env hpull henv hgenuine hresp hversion =>
      refine (h.setDb (finishPull_advances env st resp _) fun s => ?_).setPull fun _ _ hp =>
        absurd hp (by simp)
      rcases finishPull_cases env st resp (σ.db n) with hsame | ⟨_, _, hm⟩
      · rw [hsame]
      · rw [hm]
        exact Database.trackedPeerVersion_le_merge _
  | fail n => exact h.setPull fun _ _ hp => absurd hp (by simp)
  | drop i => exact h.setServing fun _ hs => absurd hs (by simp)

/-- **The run lemma.** -/
theorem WireInv.run (hl : CryptoSystem.Lawful IsKeyPair)
    (hkeys : ∀ n, IsKeyPair (K.keys n).value) (hc : Capnp.Lawful) {σ : Wire}
    {ls : List WireAction} (hr : Run (Wire.Step K) (Wire.init K) ls σ) : WireInv K σ :=
  hr.invariant WireInv.init fun _ _ _ h hs => h.step hl hkeys hc hs

/-! ## What is merged -/

omit [Capnp] [CryptoSystem] [LinearOrder CellData] in
/-- The contents are a request of `n` from `since`. -/
def Wire.RequestBy (σ : Wire) (n : Side) (since : Int64) (contents : Bytes) : Prop :=
  ∃ q ∈ σ.log, q.contents = contents ∧ q.sealer = n ∧ q.message = .request since

omit [Capnp] [CryptoSystem] [LinearOrder CellData] in
/-- The contents are an answer. -/
def Wire.AnswerOnWire (σ : Wire) (contents : Bytes) : Prop :=
  ∃ q ∈ σ.log, q.contents = contents ∧ ∃ since resp asked, q.message = .answer since resp asked

omit [Capnp] [CryptoSystem] in
theorem finishPull_ok {env : Database.TxEnv} {st : Status} {resp : ChangesResponse} {db : Database}
    {r : Bool × Int64} (h : (finishPull env st resp db).1 = .ok r) : resp.siteId = st.siteId := by
  by_contra hne
  unfold finishPull at h
  rw [if_pos hne] at h
  exact absurd h (by simp)

/-- A pull that merges a response ends with the peer's site id in it. -/
theorem Wire.Step.merged {σ σ' : Wire} {n : Side} {s v : Int64} {contents : Bytes}
    {resp : ChangesResponse}
    (hs : Wire.Step K σ (.reply n s contents resp (.ok (true, v))) σ') :
    ∃ st : Status, σ.pull n = some (st, s) ∧ resp.siteId = st.siteId ∧ σ.Genuine K contents ∧
      (K.crypto n).decode Response contents = .ok (.changes resp) := by
  obtain ⟨l, hl⟩ : ∃ l, l = WireAction.reply n s contents resp (.ok (true, v)) := ⟨_, rfl⟩
  rw [← hl] at hs
  cases hs with
  | @reply n' st since message envelope resp' env hpull henv hgenuine hresp hversion =>
      obtain ⟨rfl, rfl, rfl, rfl, hresult⟩ := WireAction.reply.inj hl
      exact ⟨st, hpull, finishPull_ok hresult, hgenuine, (decodeReply_ok_iff henv).1 hresp⟩
  | _ => exact absurd hl (by simp)

/-- **What a merged response answers.** In every run of the two nodes against the network, when a
    pull that began with the cursor `s` merges a response, the contents it was given are an answer
    of the peer and nothing else that was sealed. The peer has answered either its own request, sent
    back to it, or a request that the client made from `s` or below, or a list of changes that it
    read as a request; in the last two cases the response has every local change of the peer above
    `s` and up to its own greatest version. -/
theorem merged_answer (hl : CryptoSystem.Lawful IsKeyPair)
    (hkeys : ∀ n, IsKeyPair (K.keys n).value) (hc : Capnp.Lawful)
    (hsite : K.site .left ≠ K.site .right) (hne : ∀ n, K.site n ≠ []) {σ σ' : Wire}
    {ls : List WireAction} (hr : Run (Wire.Step K) (Wire.init K) ls σ) {n : Side} {s v : Int64}
    {contents : Bytes} {resp : ChangesResponse}
    (hs : Wire.Step K σ (.reply n s contents resp (.ok (true, v))) σ') :
    (∃ e ∈ σ.log, e.contents = contents) ∧
    ∀ e ∈ σ.log, e.contents = contents → e.sealer = n.other ∧
      ∃ since asked, e.message = .answer since resp asked ∧
        (σ.RequestBy n.other since asked ∨
          (σ.RequestBy n since asked ∧ since ≤ s ∨ σ.AnswerOnWire asked ∧ since = 0) ∧
            ∀ k cell, (σ.db n.other).LocalRow k cell → s < cell.dbVersion →
              cell.dbVersion ≤ Database.maxDbVersion resp.changes →
              (k, cell.data) ∈ Database.writes resp.changes) := by
  have h : WireInv K σ := WireInv.run hl hkeys hc hr
  obtain ⟨st, hpull, hst, hgenuine, hdecode⟩ := hs.merged
  obtain ⟨hstSite, hrequests⟩ := h.pull n st s hpull
  obtain ⟨hex, hall⟩ := h.decode hl hkeys hc hdecode
  refine ⟨hex hgenuine, fun e he hcontents => ?_⟩
  -- the site id is not empty, so this is not a request
  have hresp : resp.siteId = K.site n.other := hst.trans hstSite
  have hread := Sealed.read_response (hall e he hcontents)
  rcases hread with rfl | ⟨since, asked, hm⟩
  · exact absurd hresp.symm (hne n.other)
  obtain ⟨hsealer, hcomplete, q, hq, hqc, hqm⟩ := (h.log e he).answer since resp asked hm
  -- nor is it an answer of the client
  have hother : e.sealer = n.other := by
    rcases Side.eq_or_other n e.sealer with heq | heq
    · have hboth : K.site n = K.site n.other := by rw [← hresp, hsealer, heq]
      cases n with
      | left => exact absurd hboth hsite
      | right => exact absurd hboth.symm hsite
    · exact heq
  refine ⟨hother, since, asked, hm, ?_⟩
  rw [hother] at hcomplete
  rcases hqm with hqm | ⟨since', resp', asked', hqm, rfl⟩
  · rcases Side.eq_or_other n q.sealer with heq | heq
    · have hle : since ≤ s := hrequests q hq heq since hqm
      refine Or.inr ⟨Or.inl ⟨⟨q, hq, hqc, heq, hqm⟩, hle⟩, fun k cell hrow hlt hmax => ?_⟩
      exact hcomplete.rows k cell hrow (lt_of_le_of_lt hle hlt) hmax
    · exact Or.inl ⟨q, hq, hqc, heq, hqm⟩
  · refine Or.inr ⟨Or.inr ⟨⟨q, hq, hqc, since', resp', asked', hqm⟩, rfl⟩, ?_⟩
    intro k cell hrow _ hmax
    exact hcomplete.rows k cell hrow ((h.clocked n.other).version k cell hrow).1 hmax

end Agreement

section Example
attribute [local instance] plainCapnp plainCrypto cellDataOrder

def pairing : Pairing where
  site
    | .left => [1]
    | .right => [2]
  dhtKey
    | .left => ⟨[], [1]⟩
    | .right => ⟨[], [2]⟩
  keys
    | .left => ⟨[], ⟨[5], [5]⟩⟩
    | .right => ⟨[], ⟨[7], [7]⟩⟩

def sealedContents (m : Sealed) : Bytes :=
  calmNonce.bytes ++ ([12] ++ calmNonce.bytes ++ m.plain)

/-- The envelope in which `n` sends a sealed message. -/
def wireMessage (n : Side) (m : Sealed) : Envelope :=
  ⟨PlainCrypto.keyToString (pairing.dhtKey n), sealedContents m⟩

theorem seals_sealedContents (n : Side) (m : Sealed) :
    (pairing.crypto n).Seals m.plain (sealedContents m) := by
  cases n <;> exact ⟨[12], calmNonce, _, rfl, rfl, rfl⟩

theorem decode_sealedContents {α : Type} [Decodable α] (n : Side) (m : Sealed) {x : α}
    (h : Decodable.ofObj m.toObj = .ok x) :
    (pairing.crypto n).decode α (sealedContents m) = .ok x := by
  have hplain : decode α m.plain = .ok x := by
    rw [Sealed.plain_eq, decode, plainCapnp_read_write]
    exact h
  have hopen : (pairing.crypto n).decode α (sealedContents m) =
      (decode α m.plain).mapError fun e => .err (.crypto (.proto e)) := by
    cases n
    · exact Crypto.decode_of_seals (p := pairing.keys .right) plainCrypto_lawful rfl rfl
        (seals_sealedContents .right m)
    · exact Crypto.decode_of_seals (p := pairing.keys .left) plainCrypto_lawful rfl rfl
        (seals_sealedContents .left m)
  rw [hopen, hplain]
  rfl

theorem decode_wireMessage (n : Side) (m : Sealed) :
    decode Envelope (encode (wireMessage n m)) = .ok (wireMessage n m) :=
  plainCapnp_decode_encode (Envelope.ofObj_toObj _)

/-- A transaction that writes one new cell. -/
theorem step_write {σ : Wire} (n : Side) (cid : String) (version : Int64)
    (hv : (σ.db n).clock < version) (hnew : (σ.db n).view ⟨"t", [], cid⟩ = ⊥) :
    Wire.Step pairing σ (.localTx n)
      (σ.setDb n ((σ.db n).writeCell version ⟨"t", [], cid⟩ ⟨1, 1, .null⟩ 0)) :=
  .localTx n (LocalTx.writeCell version _ _ 0 hv (by rw [hnew]; exact WithBot.bot_lt_coe _))

/-- The network passes on a sealed message as one of the other node's. -/
theorem step_call {σ : Wire} (server : Side) (i : Nat) {m : Sealed} {since : Int64}
    (hfree : σ.serving i = none) (hmem : ∃ e ∈ σ.log, e.contents = sealedContents m)
    (hread : Decodable.ofObj m.toObj = .ok (Request.changes since)) :
    Wire.Step pairing σ (.call server (encode (wireMessage server.other m)))
      (σ.setServing i (some ⟨server, since, sealedContents m, (σ.db server).status⟩)) :=
  .call server i hfree (decode_wireMessage server.other m) rfl (fun _ _ _ => hmem)
    (decode_sealedContents server m hread)

/-- The network passes on a sealed message as the answer to a pull. -/
theorem step_reply {σ : Wire} (n : Side) (st : Status) {s : Int64} {m : Sealed}
    {resp : ChangesResponse} (version : Int64) (hpull : σ.pull n = some (st, s))
    (hmem : ∃ e ∈ σ.log, e.contents = sealedContents m)
    (hread : Decodable.ofObj m.toObj = .ok (Response.changes resp))
    (hversion : (σ.db n).clock < version) :
    Wire.Step pairing σ
      (.reply n s (sealedContents m) resp (finishPull ⟨version, none, none, fun _ _ => none, none,
        none⟩ st resp (σ.db n)).1)
      ((σ.setDb n (finishPull ⟨version, none, none, fun _ _ => none, none, none⟩ st resp
        (σ.db n)).2).setPull n none) :=
  .reply n ⟨version, none, none, fun _ _ => none, none, none⟩ hpull (decode_wireMessage n.other m)
    (fun _ _ _ => hmem)
    ((decodeReply_ok_iff (decode_wireMessage n.other m)).2 (decode_sealedContents n m hread))
    hversion

theorem step_begin {σ : Wire} (n : Side) (st : Status) (since : Int64) (hfree : σ.pull n = none)
    (hst : st.siteId = pairing.site n.other) (hbegin : beginPull (σ.db n) st = .request since) :
    Wire.Step pairing σ (.begin n since) ((σ.setPull n (some (st, since))).seal
      ⟨n, .request since, sealedContents (.request since)⟩) :=
  .begin n st hfree hst hbegin (seals_sealedContents n _)

theorem step_answer {σ : Wire} (i : Nat) {r : Serving} (resp : ChangesResponse)
    (hr : σ.serving i = some r)
    (hresp : resp = answerChanges (σ.db r.server) r.status r.sinceDbVersion) :
    Wire.Step pairing σ (.answer r.server) ((σ.setServing i none).seal
      ⟨r.server, .answer r.sinceDbVersion resp r.asked,
        sealedContents (.answer r.sinceDbVersion resp r.asked)⟩) :=
  .answer i hr hresp (seals_sealedContents r.server _)

/-- The right node's first write, pulled by the left. -/
theorem merged_answer_one_pull : ∃ (σ σ' : Wire) (ls : List WireAction) (contents : Bytes)
    (e : SealedBy), Run (Wire.Step pairing) (Wire.init pairing) ls σ ∧
    Wire.Step pairing σ (.reply .left 0 contents ⟨[2], [⟨"t", [], "x", .null, 1, 1, 1, 0⟩]⟩
      (.ok (true, 1))) σ' ∧ e ∈ σ.log ∧ e.contents = contents ∧ e.sealer = .right := by
  let resp : ChangesResponse := ⟨[2], [⟨"t", [], "x", .null, 1, 1, 1, 0⟩]⟩
  let m : Sealed := .answer 0 resp (sealedContents (.request 0))
  obtain ⟨σ, σ', ls, hr, hs⟩ : ∃ (σ σ' : Wire) (ls : List WireAction),
      Run (Wire.Step pairing) (Wire.init pairing) ls σ ∧
      Wire.Step pairing σ (.reply .left 0 (sealedContents m) resp (.ok (true, 1))) σ' :=
    ⟨_, _, _, .snoc (.snoc (.snoc (.snoc .nil
      (step_write .right "x" 1 (by decide) rfl))
      (step_begin .left ⟨[2], 1⟩ 0 rfl rfl (by decide)))
      (step_call .right 0 (m := .request 0) rfl ⟨_, List.mem_cons_self, rfl⟩
        (Request.ofObj_toObj (.changes 0))))
      (step_answer 0 resp rfl rfl),
    step_reply .left ⟨[2], 1⟩ 1 rfl ⟨_, List.mem_cons_self, rfl⟩
      (Response.ofObj_toObj (.changes resp)) (by decide)⟩
  obtain ⟨⟨e, he, hcontents⟩, hall⟩ := merged_answer (K := pairing) plainCrypto_lawful
    (fun n => by cases n <;> rfl) plainCapnp_lawful (by decide) (fun n => by cases n <;> decide)
    hr hs
  exact ⟨σ, σ', ls, _, e, hr, hs, he, hcontents, (hall e he hcontents).1⟩

/-! ### A request sent back -/

/-- The left node's answer to the right's first request. -/
def leftAnswer : Sealed :=
  .answer 0 ⟨[1], [⟨"t", [], "a", .null, 1, 1, 1, 0⟩]⟩ (sealedContents (.request 0))

def reflectedResp : ChangesResponse := ⟨[2], [⟨"t", [], "y", .null, 1, 3, 1, 0⟩]⟩

/-- The right node's answer to its own second request. -/
def reflectedAnswer : Sealed := .answer 1 reflectedResp (sealedContents (.request 1))

/-- The right node has written `x`, the left `a`, and the right has pulled `a`; then both write
    again, the right `y`. The right's second pull gets no reply; its request, from version 1, is
    sent back to it as one of the left's, and its answer, `y` alone, is given to the left's first
    pull, which began with version 0. -/
theorem reflected_run : ∃ (σ σ' : Wire) (ls : List WireAction),
    Run (Wire.Step pairing) (Wire.init pairing) ls σ ∧
    Wire.Step pairing σ
      (.reply .left 0 (sealedContents reflectedAnswer) reflectedResp (.ok (true, 3))) σ' ∧
    σ.log = [⟨.left, .request 0, sealedContents (.request 0)⟩,
      ⟨.right, reflectedAnswer, sealedContents reflectedAnswer⟩,
      ⟨.right, .request 1, sealedContents (.request 1)⟩,
      ⟨.left, leftAnswer, sealedContents leftAnswer⟩,
      ⟨.right, .request 0, sealedContents (.request 0)⟩] ∧
    ∃ k cell, (σ'.db .right).LocalRow k cell ∧ 0 < cell.dbVersion ∧
      cell.dbVersion ≤ Database.maxDbVersion reflectedResp.changes ∧
      (k, cell.data) ∉ Database.writes reflectedResp.changes ∧ (σ'.db .left).view k = ⊥ :=
  ⟨_, _, _, .snoc (.snoc (.snoc (.snoc (.snoc (.snoc (.snoc (.snoc (.snoc (.snoc (.snoc (.snoc
      (.snoc .nil
      (step_write .right "x" 1 (by decide) rfl))
      (step_write .left "a" 1 (by decide) rfl))
      (step_begin .right ⟨[1], 1⟩ 0 rfl rfl (by decide)))
      (step_call .left 0 (m := .request 0) rfl ⟨_, List.mem_cons_self, rfl⟩
        (Request.ofObj_toObj (.changes 0))))
      (step_answer 0 _ rfl rfl))
      (step_reply .right ⟨[1], 1⟩ 2 rfl ⟨_, List.mem_cons_self, rfl⟩
        (Response.ofObj_toObj (.changes _)) (by decide)))
      (step_write .left "b" 2 (by decide) rfl))
      (step_write .right "y" 3 (by decide) rfl))
      (step_begin .right ⟨[1], 2⟩ 1 rfl rfl (by decide)))
      (.fail .right))
      (step_call .right 0 (m := .request 1) rfl ⟨_, List.mem_cons_self, rfl⟩
        (Request.ofObj_toObj (.changes 1))))
      (step_answer 0 reflectedResp rfl rfl))
      (step_begin .left ⟨[2], 3⟩ 0 rfl rfl (by decide)),
    step_reply .left ⟨[2], 3⟩ 3 rfl ⟨_, List.mem_cons_of_mem _ List.mem_cons_self, rfl⟩
      (Response.ofObj_toObj (.changes reflectedResp)) (by decide),
    rfl, ⟨"t", [], "x"⟩, ⟨⟨1, 1, .null⟩, 1, 0, none⟩, ⟨rfl, rfl⟩, by decide, by decide,
    by decide, rfl⟩

/-- The left node merges the answer, although no answer with these changes has been made to a
    request of its own, and does not get the right node's first write. -/
theorem reflected_request_merged : ∃ (σ σ' : Wire) (ls : List WireAction) (contents : Bytes)
    (resp : ChangesResponse),
    Run (Wire.Step pairing) (Wire.init pairing) ls σ ∧
    Wire.Step pairing σ (.reply .left 0 contents resp (.ok (true, 3))) σ' ∧
    (¬ ∃ e ∈ σ.log, ∃ since asked, e.message = .answer since resp asked ∧
      σ.RequestBy .left since asked) ∧
    ∃ k cell, (σ'.db .right).LocalRow k cell ∧ 0 < cell.dbVersion ∧
      cell.dbVersion ≤ Database.maxDbVersion resp.changes ∧
      (k, cell.data) ∉ Database.writes resp.changes ∧ (σ'.db .left).view k = ⊥ := by
  obtain ⟨σ, σ', ls, hr, hs, hlog, hlost⟩ := reflected_run
  -- every request of the left node is from 0, and every answer with `y` is from 1
  have hrequest : ∀ q ∈ σ.log, q.sealer = .left → ∀ since, q.message = .request since →
      since = 0 := by
    rw [hlog]
    simp [reflectedAnswer, leftAnswer]
  have hanswer : ∀ e ∈ σ.log, ∀ since asked, e.message = .answer since reflectedResp asked →
      since = 1 := by
    rw [hlog]
    simp [reflectedAnswer, reflectedResp, leftAnswer]
  refine ⟨σ, σ', ls, _, _, hr, hs, ?_, hlost⟩
  rintro ⟨e, he, since, asked, hm, q, hq, -, hqs, hqm⟩
  have h0 : since = 0 := hrequest q hq hqs since hqm
  have h1 : since = 1 := hanswer e he since asked hm
  exact absurd (h0.symm.trans h1) (by decide)

end Example

end Ddcp
