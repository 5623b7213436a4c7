import Ddcp.Ident.Remotes

set_option autoImplicit false

/-! # Commands on remotes that fail

`remote_add` writes the table before it touches the map, and fails after the write only when reading
back does. `remote_remove` drops the entry from the map before it opens the table, so that whatever
fails there leaves the name gone from the process and still in the table. -/

namespace Ddcp

open Method

/-- Any call may fail; one that fails has not taken effect. -/
def anyFaults : StoreWorld.Faults := ⟨fun _ => True, False⟩

def Failed (e : IdentEvent) : Prop := ∃ err, e.2 = .error err

section Served
variable {w w' : StoreWorld} {c : IdentCall} {tr : List IdentEvent}

theorem served_failed {e : VeilidAPIError}
    (h : Prog.Served (StoreWorld.Answers anyFaults) Prog.alone w [⟨c, .error e⟩] w') : w' = w := by
  have h₁ : StoreWorld.Answers anyFaults w ⟨c, .error e⟩ w' := Prog.served_alone_one_iff.1 h
  exact h₁.2.elim id fun h => h.1.elim

theorem served_done {v : c.Val}
    (h : Prog.Served (StoreWorld.Answers anyFaults) Prog.alone w (⟨c, .ok v⟩ :: tr) w') :
    ∃ w₁, w.Does c v w₁ ∧ Prog.Served (StoreWorld.Answers anyFaults) Prog.alone w₁ tr w' :=
  Prog.served_alone_cons_iff.1 h

/-- A call that only looks. -/
theorem served_idle {v : c.Val} (hc : StoreWorld.Idle c)
    (h : Prog.Served (StoreWorld.Answers anyFaults) Prog.alone w (⟨c, .ok v⟩ :: tr) w') :
    Prog.Served (StoreWorld.Answers anyFaults) Prog.alone w tr w' := by
  obtain ⟨w₁, h₁, h₂⟩ := served_done h
  rwa [hc _ _ _ h₁] at h₂

end Served

/-- What a failing command should leave as it was. -/
def Unchanged {α : Type} (w : StoreWorld) (c : Conclave) (r : Except Error α) (c' : Conclave)
    (w' : StoreWorld) : Prop :=
  ∀ e, r = .error e → c'.remotes = c.remotes ∧ w'.remote = w.remote

section Add
variable [CryptoSystem]

/-- The read-back of an add does not fail, or the address is of the key already in the table. -/
def AddKept (w : StoreWorld) (name addr : String) (tr : List IdentEvent) : Prop :=
  (∀ e ∈ tr, e.1 = .loadJson .conclaveRemotes TABLE_STORE_REMOTES_COLUMN_DHT_KEY (asBytes name) →
    ¬ Failed e) ∨
  ∃ key, CryptoSystem.keyFromStr addr = .ok key ∧ w.remote (asBytes name) = some (.typedKey key)

/-- Where an add can end: before it reads back, with an error and without having written; or with
    what it reads back. -/
theorem exec_remoteAdd_cases {name addr : String} {c c' : Conclave} {tr : List IdentEvent}
    {r : Except Error Unit} (h : Exec (remoteAdd name addr) c tr r c') :
    ((∃ e, r = .error e) ∧ c' = c ∧
      (∀ e ∈ tr, e.1 ≠ .loadJson .conclaveRemotes TABLE_STORE_REMOTES_COLUMN_DHT_KEY (asBytes name)) ∧
      ∀ w w', Prog.Served (StoreWorld.Answers anyFaults) Prog.alone w tr w' → w' = w) ∨
    ∃ key a, CryptoSystem.keyFromStr addr = .ok key ∧ tr = [⟨.tableStore, .ok ()⟩,
      ⟨.open .conclaveRemotes TABLE_STORE_REMOTES_N_COLUMNS, .ok ()⟩,
      ⟨.storeJson .conclaveRemotes TABLE_STORE_REMOTES_COLUMN_DHT_KEY (asBytes name) (.typedKey key),
        .ok ()⟩,
      ⟨.loadJson .conclaveRemotes TABLE_STORE_REMOTES_COLUMN_DHT_KEY (asBytes name), a⟩] ∧
      (∀ e, a = .error e → r = .error (.veilidAPI e) ∧ c' = c) ∧
      (a = .ok (some (.typedKey key)) → r = .ok ()) := by
  unfold remoteAdd Peer.new Peer.openDb Peer.load at h
  simp only [bind_assoc] at h
  rcases Ident.exec_call_bind_iff.1 h with ⟨e, rfl, rfl, rfl⟩ | ⟨⟨⟩, tr₁, rfl, h₁⟩
  · exact Or.inl ⟨⟨_, rfl⟩, rfl, by simp, fun w w' hw => served_failed hw⟩
  rcases Ident.exec_call_bind_iff.1 h₁ with ⟨e, rfl, rfl, rfl⟩ | ⟨⟨⟩, tr₂, rfl, h₂⟩
  · refine Or.inl ⟨⟨_, rfl⟩, rfl, by simp, fun w w' hw => ?_⟩
    have hw₁ := served_idle StoreWorld.idle_tableStore hw
    exact served_failed hw₁
  rcases Ident.exec_lift_bind_iff.1 h₂ with ⟨e, _, rfl, rfl, rfl⟩ | ⟨key, hkey, h₃⟩
  · refine Or.inl ⟨⟨_, rfl⟩, rfl, by simp, fun w w' hw => ?_⟩
    have hw₁ := served_idle StoreWorld.idle_tableStore hw
    have hw₂ := served_idle (StoreWorld.idle_open _ _) hw₁
    exact Prog.served_alone_nil_iff.1 hw₂
  rcases Ident.exec_call_bind_iff.1 h₃ with ⟨e, rfl, rfl, rfl⟩ | ⟨⟨⟩, tr₄, rfl, h₄⟩
  · refine Or.inl ⟨⟨_, rfl⟩, rfl, by simp, fun w w' hw => ?_⟩
    have hw₁ := served_idle StoreWorld.idle_tableStore hw
    have hw₂ := served_idle (StoreWorld.idle_open _ _) hw₁
    exact served_failed hw₂
  -- the key has been written; what is left is to read it back
  have haddr : CryptoSystem.keyFromStr addr = .ok key := Except.mapError_eq_ok_iff.1 hkey
  rcases Ident.exec_call_bind_iff.1 h₄ with ⟨e, rfl, rfl, rfl⟩ | ⟨v, tr₅, rfl, h₅⟩
  · refine Or.inr ⟨key, .error e, haddr, rfl, fun e' he => ?_, by simp⟩
    rw [Except.error.inj he]
    exact ⟨rfl, rfl⟩
  rcases Ident.exec_lift_bind_iff.1 h₅ with ⟨e, hv, rfl, rfl, rfl⟩ | ⟨key?, hv, h₆⟩
  · exact Or.inr ⟨key, .ok v, haddr, rfl, by simp, fun hok => by
      rw [Except.ok.inj hok] at hv
      exact absurd hv (by simp [Ident.asTypedKey])⟩
  cases key? with
  | none =>
      obtain ⟨rfl, rfl, rfl⟩ := exec_throw_iff.1 h₆
      exact Or.inr ⟨key, .ok v, haddr, rfl, by simp, fun hok => by
        rw [Except.ok.inj hok] at hv
        exact absurd hv (by simp [Ident.asTypedKey])⟩
  | some key' =>
      obtain ⟨rfl, rfl, rfl⟩ := exec_modify_iff.1 h₆
      exact Or.inr ⟨key, .ok v, haddr, rfl, by simp, fun _ => rfl⟩

omit [CryptoSystem] in
theorem remote_putRemote_eq_iff {w : StoreWorld} {name : String} {key : TypedKey} :
    (w.putRemote name (some key)).remote = w.remote ↔
      w.remote (asBytes name) = some (.typedKey key) := by
  constructor
  · intro h
    rw [← h]
    exact StoreWorld.remote_putRemote_self name _
  · intro h
    funext k
    by_cases hk : k = asBytes name
    · rw [hk, h]
      exact StoreWorld.remote_putRemote_self name _
    · exact StoreWorld.remote_putRemote_of_ne hk _

theorem remoteAdd_unchanged_iff {name addr : String} {c c' : Conclave} {w w' : StoreWorld}
    {tr : List IdentEvent} {r : Except Error Unit} (h : Exec (remoteAdd name addr) c tr r c')
    (hw : Prog.Served (StoreWorld.Answers anyFaults) Prog.alone w tr w') :
    Unchanged w c r c' w' ↔ AddKept w name addr tr := by
  rcases exec_remoteAdd_cases h with ⟨_, rfl, hload, hsame⟩ | ⟨key, a, haddr, rfl, herr, hok⟩
  · obtain rfl := hsame w w' hw
    exact ⟨fun _ => Or.inl fun e he hl => absurd hl (hload e he), fun _ e _ => ⟨rfl, rfl⟩⟩
  have hw₁ := served_idle StoreWorld.idle_tableStore hw
  have hw₂ := served_idle (StoreWorld.idle_open _ _) hw₁
  obtain ⟨w₃, hput, hw₃⟩ := served_done hw₂
  obtain rfl : w₃ = w.putRemote name (some key) := hput
  cases a with
  | ok v =>
      obtain ⟨w₄, ⟨rfl, hv⟩, hw₄⟩ := served_done hw₃
      have hr := hok (congrArg _ (hv.trans (StoreWorld.remote_putRemote_self name _)))
      refine ⟨fun _ => Or.inl ?_, fun _ e he => absurd (hr.symm.trans he) (by simp)⟩
      rintro e he hload ⟨err, hfail⟩
      simp only [List.mem_cons, List.not_mem_nil, or_false] at he
      rcases he with rfl | rfl | rfl | rfl <;> simp at hload hfail
  | error e =>
      obtain ⟨hr, rfl⟩ := herr e rfl
      obtain rfl := served_failed hw₃
      constructor
      · intro hunchanged
        exact Or.inr ⟨key, haddr, remote_putRemote_eq_iff.1 (hunchanged _ hr).2⟩
      · rintro (hload | ⟨key', haddr', hkey⟩) err _
        · exact absurd ⟨e, rfl⟩ (hload ⟨_, .error e⟩ (by simp) rfl)
        · obtain rfl := Except.ok.inj (haddr.symm.trans haddr')
          exact ⟨rfl, remote_putRemote_eq_iff.2 hkey⟩

end Add

section Remove

/-- A remove finds nothing to remove, or nothing fails in it. -/
def RemoveKept (c : Conclave) (name : String) (tr : List IdentEvent) : Prop :=
  c.remotes.lookup name = none ∨ ∀ e ∈ tr, ¬ Failed e

/-- A remove of a known name takes it out of the map, and fails exactly when a call of it does. -/
theorem exec_remoteRemove_known {name : String} {c c' : Conclave} {tr : List IdentEvent}
    {r : Except Error Bool} {p : Peer} (hp : c.remotes.lookup name = some p)
    (h : Exec (remoteRemove name) c tr r c') :
    c'.remotes = c.remotes.erase name ∧ ((∃ e, r = .error e) ↔ ∃ e ∈ tr, Failed e) := by
  have hprog : Exec (do
      modify fun c => { c with remotes := c.remotes.erase name }
      p.remove
      return true : Ident Conclave Bool) c tr r c' := by
    unfold remoteRemove Conclave.removePeer at h
    have hmatch := exec_get_bind_iff.1 h
    rw [hp] at hmatch
    exact hmatch
  have hrest : Exec (p.remove >>= fun _ => pure true : Ident Conclave Bool)
      { c with remotes := c.remotes.erase name } tr r c' := hprog
  unfold Peer.remove Peer.openDb at hrest
  simp only [bind_assoc] at hrest
  rcases Ident.exec_call_bind_iff.1 hrest with ⟨e, rfl, rfl, rfl⟩ | ⟨⟨⟩, tr₁, rfl, h₁⟩
  · exact ⟨rfl, by simp [Failed]⟩
  rcases Ident.exec_call_bind_iff.1 h₁ with ⟨e, rfl, rfl, rfl⟩ | ⟨⟨⟩, tr₂, rfl, h₂⟩
  · exact ⟨rfl, by simp [Failed]⟩
  rcases Ident.exec_call_bind_iff.1 h₂ with ⟨e, rfl, rfl, rfl⟩ | ⟨⟨⟩, tr₃, rfl, h₃⟩
  · exact ⟨rfl, by simp [Failed]⟩
  · obtain ⟨rfl, rfl, rfl⟩ := exec_pure_iff.1 h₃
    exact ⟨rfl, by simp [Failed]⟩

theorem remoteRemove_unchanged_iff {name : String} {c c' : Conclave} {w w' : StoreWorld}
    {tr : List IdentEvent} {r : Except Error Bool} (h : Exec (remoteRemove name) c tr r c') :
    Unchanged w c r c' w' ↔ RemoveKept c name tr := by
  cases hp : c.remotes.lookup name with
  | none =>
      unfold remoteRemove Conclave.removePeer at h
      have hmatch := exec_get_bind_iff.1 h
      rw [hp] at hmatch
      obtain ⟨rfl, rfl, rfl⟩ := exec_pure_iff.1 hmatch
      exact ⟨fun _ => Or.inl hp, fun _ e he => absurd he (by simp)⟩
  | some p =>
      obtain ⟨hc', hfail⟩ := exec_remoteRemove_known hp h
      constructor
      · intro hunchanged
        refine Or.inr fun e he hfailed => ?_
        obtain ⟨err, hr⟩ := hfail.2 ⟨e, he, hfailed⟩
        -- the map has lost the name
        have hsame := (hunchanged err hr).1
        rw [hc'] at hsame
        have hnone := AList.lookup_erase (s := c.remotes) (a := name)
        rw [hsame, hp] at hnone
        exact absurd hnone (by simp)
      · rintro (hnone | hok) err hr
        · exact absurd (hp.symm.trans hnone) (by simp)
        · obtain ⟨e, he, hfailed⟩ := hfail.1 ⟨err, hr⟩
          exact absurd hfailed (hok e he)

end Remove

/-- **When a failed command changes nothing.** Whatever the map and the table, and whichever calls
    fail. An add that fails leaves both as they were exactly when its read-back does not fail, or
    its address is that of the key already there; a remove exactly when the name is unknown or
    nothing fails in it. -/
theorem failed_unchanged_iff [CryptoSystem] (c : Conclave) (w : StoreWorld) (name : String) :
    (∀ addr tr r c' w', Exec (remoteAdd name addr) c tr r c' →
      Prog.Served (StoreWorld.Answers anyFaults) Prog.alone w tr w' →
      (Unchanged w c r c' w' ↔ AddKept w name addr tr)) ∧
    ∀ tr r c' w', Exec (remoteRemove name) c tr r c' →
      Prog.Served (StoreWorld.Answers anyFaults) Prog.alone w tr w' →
      (Unchanged w c r c' w' ↔ RemoveKept c name tr) :=
  ⟨fun _ _ _ _ _ h hw => remoteAdd_unchanged_iff h hw,
    fun _ _ _ _ h _ => remoteRemove_unchanged_iff h⟩

section Example

/-- The table store cannot be opened, and the remote is gone from the process. -/
theorem failed_remove_forgets : ∃ (c c' : Conclave) (w w' : StoreWorld) (tr : List IdentEvent)
    (e : Error), Exec (remoteRemove "a") c tr (.error e) c' ∧
    Prog.Served (StoreWorld.Answers anyFaults) Prog.alone w tr w' ∧
    (c.remotes.lookup "a").isSome ∧ (c'.remotes.lookup "a") = none ∧
    (w'.remote (asBytes "a")).isSome := by
  let key : TypedKey := ⟨CRYPTO_KIND_VLD0, [7]⟩
  let c : Conclave :=
    { firstConclave with remotes := firstConclave.remotes.insert "a" ⟨"a", key, none, none, none⟩ }
  refine ⟨c, { c with remotes := c.remotes.erase "a" }, StoreWorld.empty.putRemote "a" (some key), _,
    [⟨.tableStore, .error .shutdown⟩], _, .call (.pure _),
    .cons .refl ⟨trivial, Or.inl rfl⟩ (.nil .refl), ?_, ?_, ?_⟩
  · rfl
  · exact AList.lookup_erase _ _
  · rw [StoreWorld.remote_putRemote_self]
    rfl

end Example

end Ddcp
