import Ddcp.Ident.Startup
import Ddcp.Lib.Lts

set_option autoImplicit false

/-! # The remotes of a process and those a restart loads

A process keeps its remotes twice: as a map in memory and as a table in the store. As long as the
table store works, both are the map that the commands describe (`Tracks`); a command that fails
halfway can leave the two apart. -/

namespace Ddcp

open Method Lts

/-- The remotes a user has set up: the DHT key of each name. -/
abbrev RemoteMap := String → Option TypedKey

theorem asBytes_injective : Function.Injective asBytes := fun s t h => by
  have hs : Bytes.toStr (asBytes s) = .ok s := Bytes.toStr_utf8 s
  have ht : Bytes.toStr (asBytes t) = .ok t := Bytes.toStr_utf8 t
  rw [h, ht] at hs
  exact (Except.ok.inj hs).symm

theorem Bytes.eq_of_toStr {b : Bytes} {s : String} (h : Bytes.toStr b = .ok s) : b = asBytes s := by
  unfold Bytes.toStr String.fromUTF8? at h
  split at h
  · rename_i s' hs
    obtain rfl := Except.ok.inj h
    split at hs
    · obtain rfl := Option.some.inj hs
      rfl
    · exact absurd hs (by simp)
  · exact absurd h (by simp)

namespace StoreWorld

/-- What the table holds under a key. -/
def remote (w : StoreWorld) (key : Bytes) : Option Json :=
  w.cell .conclaveRemotes TABLE_STORE_REMOTES_COLUMN_DHT_KEY key

/-- The table is `m`, name by name, and has no other keys. -/
structure Tracks (w : StoreWorld) (m : RemoteMap) : Prop where
  name : ∀ name, w.remote (asBytes name) = (m name).map Json.typedKey
  key : ∀ key v, w.remote key = some v → ∃ name, key = asBytes name

/-- The table after one entry has been set or deleted. -/
def putRemote (w : StoreWorld) (name : String) (value : Option TypedKey) : StoreWorld :=
  w.put .conclaveRemotes TABLE_STORE_REMOTES_COLUMN_DHT_KEY (asBytes name)
    (value.map Json.typedKey)

variable {w : StoreWorld} {m : RemoteMap}

theorem remote_putRemote_self (name : String) (value : Option TypedKey) :
    (w.putRemote name value).remote (asBytes name) = value.map Json.typedKey := cell_put_self

theorem remote_putRemote_of_ne {name : String} {key : Bytes} (h : key ≠ asBytes name)
    (value : Option TypedKey) : (w.putRemote name value).remote key = w.remote key :=
  cell_put_of_ne fun hk => h hk.2.2

theorem Tracks.putRemote (h : w.Tracks m) (name : String) (value : Option TypedKey) :
    (w.putRemote name value).Tracks (Function.update m name value) where
  name other := by
    by_cases hname : other = name
    · subst hname
      rw [remote_putRemote_self, Function.update_self]
    · rw [remote_putRemote_of_ne fun hk => hname (asBytes_injective hk),
        Function.update_of_ne hname, h.name]
  key key v hv := by
    by_cases hkey : key = asBytes name
    · exact ⟨name, hkey⟩
    · rw [remote_putRemote_of_ne hkey] at hv
      exact h.key key v hv

theorem Tracks.congr {w' : StoreWorld} (h : w.Tracks m)
    (hw : w'.cell .conclaveRemotes = w.cell .conclaveRemotes) : w'.Tracks m := by
  have hremote : ∀ key, w'.remote key = w.remote key := fun key => congrFun (congrFun hw _) key
  exact ⟨fun name => (hremote _).trans (h.name name),
    fun key v hv => h.key key v (hremote key ▸ hv)⟩

end StoreWorld

/-- The map in memory has nothing but entries of `m`, each under its name. -/
def Peer.Within (m : RemoteMap) (remotes : AList fun _ : String => Peer) : Prop :=
  ∀ name p, remotes.lookup name = some p → p.name = name ∧ m name = some p.dhtKey

/-- It has all of them. -/
structure Peer.Tracks (m : RemoteMap) (remotes : AList fun _ : String => Peer) : Prop where
  within : Peer.Within m remotes
  total : ∀ name key, m name = some key → (remotes.lookup name).isSome

namespace Peer.Tracks
variable {m : RemoteMap} {remotes : AList fun _ : String => Peer}

theorem lookup (h : Peer.Tracks m remotes) (name : String) :
    (remotes.lookup name).map Peer.dhtKey = m name := by
  cases hl : remotes.lookup name with
  | some p => exact ((h.within name p hl).2).symm
  | none =>
      cases hm : m name with
      | none => rfl
      | some key => exact absurd (h.total name key hm) (by simp [hl])

theorem insert (h : Peer.Tracks m remotes) {p : Peer} {key : TypedKey} (hkey : p.dhtKey = key) :
    Peer.Tracks (Function.update m p.name (some key)) (remotes.insert p.name p) where
  within name q hq := by
    by_cases hname : name = p.name
    · subst hname
      rw [AList.lookup_insert] at hq
      obtain rfl := Option.some.inj hq
      exact ⟨rfl, by rw [Function.update_self, hkey]⟩
    · rw [AList.lookup_insert_ne hname] at hq
      rw [Function.update_of_ne hname]
      exact h.within name q hq
  total name key' hname := by
    by_cases hp : name = p.name
    · subst hp
      rw [AList.lookup_insert]
      rfl
    · rw [Function.update_of_ne hp] at hname
      rw [AList.lookup_insert_ne hp]
      exact h.total name key' hname

theorem erase (h : Peer.Tracks m remotes) (name : String) :
    Peer.Tracks (Function.update m name none) (remotes.erase name) where
  within other p hp := by
    by_cases hname : other = name
    · subst hname
      rw [AList.lookup_erase] at hp
      exact absurd hp (by simp)
    · rw [AList.lookup_erase_ne hname] at hp
      rw [Function.update_of_ne hname]
      exact h.within other p hp
  total other key hother := by
    by_cases hname : other = name
    · subst hname
      rw [Function.update_self] at hother
      exact absurd hother (by simp)
    · rw [Function.update_of_ne hname] at hother
      rw [AList.lookup_erase_ne hname]
      exact h.total other key hother

end Peer.Tracks

/-! ## What a startup loads and what the commands do, whatever fails -/

def IdentCall.IsDht : IdentCall → Prop
  | .createDhtRecord _ => True
  | .closeDhtRecord _ => True
  | .openDhtRecord _ _ => True
  | _ => False

/-- The table store does not fail; the network may. -/
def dhtFaults : StoreWorld.Faults := ⟨IdentCall.IsDht, True⟩

/-- The table store may fail. -/
def StoreWorld.Faults.Store (faults : StoreWorld.Faults) : Prop :=
  ∃ c : IdentCall, ¬ c.IsDht ∧ faults.mayFail c

theorem not_store_dhtFaults : ¬ dhtFaults.Store := fun ⟨_, hstore, hdht⟩ => hstore hdht

/-- The map has nothing but entries of the table, each under its name. -/
def Peer.LoadedFrom (w : StoreWorld) (remotes : AList fun _ : String => Peer) : Prop :=
  ∀ name p, remotes.lookup name = some p →
    p.name = name ∧ w.remote (asBytes name) = some (.typedKey p.dhtKey)

theorem Peer.LoadedFrom.insert {w : StoreWorld} {remotes : AList fun _ : String => Peer}
    (h : Peer.LoadedFrom w remotes) {name : String} {key : TypedKey}
    (hremote : w.remote (asBytes name) = some (.typedKey key)) :
    Peer.LoadedFrom w (remotes.insert name ⟨name, key, none, none, none⟩) := by
  intro other p hp
  by_cases hn : other = name
  · subst hn
    rw [AList.lookup_insert] at hp
    obtain rfl := Option.some.inj hp
    exact ⟨rfl, hremote⟩
  · rw [AList.lookup_insert_ne hn] at hp
    exact h other p hp

/-- It has all of them. -/
structure Peer.Loaded (w : StoreWorld) (remotes : AList fun _ : String => Peer) : Prop where
  within : Peer.LoadedFrom w remotes
  total : ∀ name key, w.remote (asBytes name) = some (.typedKey key) →
    (remotes.lookup name).isSome

theorem Peer.Loaded.tracks {w : StoreWorld} {m : RemoteMap}
    {remotes : AList fun _ : String => Peer} (h : Peer.Loaded w remotes) (hw : w.Tracks m) :
    Peer.Tracks m remotes where
  within name p hp := by
    obtain ⟨hname, hremote⟩ := h.within name p hp
    rw [hw.name] at hremote
    obtain ⟨key, hm, hkey⟩ := Option.map_eq_some_iff.1 hremote
    obtain rfl := Json.typedKey.inj hkey
    exact ⟨hname, hm⟩
  total name key hm := by
    refine h.total name key ?_
    rw [hw.name, hm]
    rfl

theorem Peer.Loaded.lookup {w : StoreWorld} {remotes : AList fun _ : String => Peer}
    (h : Peer.Loaded w remotes) {name : String} {key : TypedKey}
    (hkey : w.remote (asBytes name) = some (.typedKey key)) :
    (remotes.lookup name).map Peer.dhtKey = some key := by
  obtain ⟨p, hp⟩ := Option.isSome_iff_exists.1 (h.total name key hkey)
  obtain ⟨_, hremote⟩ := h.within name p hp
  obtain rfl := Json.typedKey.inj (Option.some.inj (hremote.symm.trans hkey))
  rw [hp]
  rfl

section Commands
variable {σ : Type} {s : σ} {w : StoreWorld} {I : StoreWorld → Prop} {m : RemoteMap}
  {faults : StoreWorld.Faults}

theorem Peer.keeps_load {name : String} {dbKey : Bytes} (hI : I w) :
    Keeps (StoreWorld.Answers faults) I (Peer.load name dbKey : Ident σ _) s w
      fun r s' w' => s' = s ∧ w' = w ∧
        (∀ p, r = .ok p → ∃ key, w.remote dbKey = some (.typedKey key) ∧
          p = ⟨name, key, none, none, none⟩) ∧
        ∀ e, r = .error e → faults.Store ∨ ∀ key, w.remote dbKey ≠ some (.typedKey key) := by
  unfold Peer.load
  refine Ident.keeps_idle_bind (StoreWorld.idle_loadJson _ _ _) hI (fun e h => ?_) fun v hv => ?_
  · exact ⟨rfl, rfl, by simp, fun _ _ => Or.inl ⟨_, id, h⟩⟩
  -- the value is that of the table
  obtain rfl : v = w.remote dbKey := hv.2
  refine Ident.keeps_lift_bind hI (fun e he => ?_) fun key? hkey => ?_
  · refine ⟨rfl, rfl, by simp, fun _ _ => Or.inr fun key hremote => ?_⟩
    exact absurd (he.symm.trans (Ident.asTypedKey_eq_some_iff.2 hremote)) (by simp)
  cases key? with
  | none =>
      refine Keeps.throw hI ⟨rfl, rfl, by simp, fun _ _ => Or.inr fun key hremote => ?_⟩
      exact absurd (hkey.symm.trans (Ident.asTypedKey_eq_some_iff.2 hremote)) (by simp)
  | some key =>
      refine Keeps.pure hI ⟨rfl, rfl, fun p hp => ⟨key, ?_, (Except.ok.inj hp).symm⟩, by simp⟩
      exact Ident.asTypedKey_eq_some_iff.1 hkey

/-- The loop of `load_all`: it loads the entries under these keys, or one of them cannot be. -/
theorem Peer.keeps_loadKeys_loaded (hI : I w) (keys : List Bytes)
    (remotes : AList fun _ : String => Peer) (hr : Peer.LoadedFrom w remotes) :
    Keeps (StoreWorld.Answers faults) I (Peer.loadKeys keys remotes : Ident σ _) s w
      fun r _ w' => w' = w ∧
        (∀ all, r = .ok all → Peer.LoadedFrom w all ∧
          ∀ name, asBytes name ∈ keys ∨ (remotes.lookup name).isSome → (all.lookup name).isSome) ∧
        ∀ e, r = .error e → faults.Store ∨ ∃ key ∈ keys, ∀ name k, key = asBytes name →
          w.remote key ≠ some (.typedKey k) := by
  induction keys generalizing remotes with
  | nil =>
      refine Keeps.pure hI ⟨rfl, fun all hall => ?_, by simp⟩
      obtain rfl := Except.ok.inj hall
      exact ⟨hr, fun name h => h.resolve_left (by simp)⟩
  | cons dbKey rest ih =>
      unfold Peer.loadKeys
      refine Ident.keeps_lift_bind hI (fun e he => ?_) fun remoteName hname => ?_
      · refine ⟨rfl, by simp, fun _ _ => Or.inr ⟨dbKey, List.mem_cons_self, fun name k hkey => ?_⟩⟩
        have hstr : Bytes.toStr dbKey = .ok name := hkey ▸ Bytes.toStr_utf8 name
        exact absurd ((congrArg _ hstr).symm.trans he) (by simp)
      obtain rfl : dbKey = asBytes remoteName :=
        Bytes.eq_of_toStr (Except.mapError_eq_ok_iff.1 hname)
      refine (Peer.keeps_load hI).bind (fun peer s₁ w₁ _ h => ?_) fun e s₁ w₁ _ h => ?_
      swap
      · obtain ⟨_, rfl, _, hfail⟩ := h
        refine ⟨rfl, by simp, fun _ _ => (hfail e rfl).imp_right fun hno => ?_⟩
        exact ⟨_, List.mem_cons_self, fun _ k _ => hno k⟩
      obtain ⟨rfl, rfl, hpeer, _⟩ := h
      obtain ⟨dhtKey, hremote, rfl⟩ := hpeer peer rfl
      refine (ih _ (hr.insert hremote)).mono ?_
      rintro r s' w' _ ⟨rfl, hok, hfail⟩
      refine ⟨rfl, fun all hall => ?_, fun e he => ?_⟩
      · obtain ⟨hall', htotal⟩ := hok all hall
        refine ⟨hall', fun name h => htotal name ?_⟩
        by_cases hn : name = remoteName
        · subst hn
          exact Or.inr (by rw [AList.lookup_insert]; rfl)
        · rw [AList.lookup_insert_ne hn]
          refine h.imp_left fun hmem => (List.mem_cons.1 hmem).resolve_left fun he => ?_
          exact hn (asBytes_injective he)
      · refine (hfail e he).imp_right ?_
        rintro ⟨key, hkey, hno⟩
        exact ⟨key, List.mem_cons_of_mem _ hkey, hno⟩

/-- `load_all` makes the map that the table is, when it returns. -/
theorem Peer.keeps_loadAll_loaded (hI : I w) :
    Keeps (StoreWorld.Answers faults) I (Peer.loadAll : Ident σ _) s w
      fun r _ w' => w' = w ∧ (∀ all, r = .ok all → Peer.Loaded w all) ∧
        ∀ e m, r = .error e → w.Tracks m → faults.Store := by
  unfold Peer.loadAll
  refine Peer.keeps_openDb_bind hI (fun e h => ⟨rfl, by simp, fun _ _ _ _ => ?_⟩) ?_
  · exact h.elim (fun h => ⟨_, id, h⟩) fun h => ⟨_, id, h⟩
  refine Ident.keeps_idle_bind (StoreWorld.idle_getKeys _ _) hI (fun e h => ?_) fun keys hkeys => ?_
  · exact ⟨rfl, by simp, fun _ _ _ _ => ⟨_, id, h⟩⟩
  refine (Peer.keeps_loadKeys_loaded hI keys ∅ fun _ _ h => absurd h (by simp)).mono ?_
  rintro r s' w' _ ⟨rfl, hok, hfail⟩
  refine ⟨rfl, fun all hall => ?_, fun e m he hw => (hfail e he).elim id fun hno => ?_⟩
  · obtain ⟨hwithin, htotal⟩ := hok all hall
    refine ⟨hwithin, fun name key hkey => htotal name (Or.inl ((hkeys.2.2 _).2 ?_))⟩
    exact Option.isSome_iff_exists.2 ⟨_, hkey⟩
  · -- every key of the table is a name with a DHT key
    obtain ⟨key, hkey, hno⟩ := hno
    obtain ⟨v, hv⟩ := Option.isSome_iff_exists.1 ((hkeys.2.2 key).1 hkey)
    obtain ⟨name, rfl⟩ := hw.key key v hv
    obtain ⟨dhtKey, _, rfl⟩ := Option.map_eq_some_iff.1 ((hw.name name).symm.trans hv)
    exact absurd hv (hno name dhtKey rfl)

/-- `load_all` returns while the table store works. -/
theorem Peer.keeps_loadAll_tracks (hI : I w) (hw : w.Tracks m) :
    Keeps (StoreWorld.Answers dhtFaults) I (Peer.loadAll : Ident σ _) s w
      fun r _ w' => w' = w ∧ ∃ remotes, r = .ok remotes ∧ Peer.Tracks m remotes := by
  refine (Peer.keeps_loadAll_loaded hI).mono ?_
  rintro r _ w' _ ⟨rfl, hok, hfail⟩
  cases r with
  | ok remotes => exact ⟨rfl, remotes, rfl, (hok remotes rfl).tracks hw⟩
  | error e => exact absurd (hfail e m rfl hw) not_store_dhtFaults

variable [CryptoSystem]

theorem Peer.keeps_new (name addr : String) :
    Keeps (StoreWorld.Answers faults) (fun _ => True) (Peer.new name addr : Ident σ _) s w
      fun r s' w' => s' = s ∧
        ((∃ key, CryptoSystem.keyFromStr addr = .ok key ∧
            r = .ok ⟨name, key, none, none, none⟩ ∧ w' = w.putRemote name (some key)) ∨
          (∃ e, CryptoSystem.keyFromStr addr = .error e ∧ r = .error (.veilidAPI e) ∧ w' = w) ∨
          faults.Store ∧ (∃ e, r = .error e) ∧
            (w' = w ∨ ∃ key, w' = w.putRemote name (some key))) := by
  have hstore : ∀ {c : IdentCall} {w' : StoreWorld} {e : Error}, ¬ c.IsDht → faults.mayFail c →
      (w' = w ∨ ∃ key, w' = w.putRemote name (some key)) → faults.Store ∧
        (∃ e', (.error e : Except Error Peer) = .error e') ∧
        (w' = w ∨ ∃ key, w' = w.putRemote name (some key)) := fun hc hfail hw' =>
    ⟨⟨_, hc, hfail⟩, ⟨_, rfl⟩, hw'⟩
  unfold Peer.new
  refine Peer.keeps_openDb_bind trivial (fun e h => ⟨rfl, Or.inr (Or.inr ?_)⟩) ?_
  · exact h.elim (fun h => hstore id h (Or.inl rfl)) fun h => hstore id h (Or.inl rfl)
  cases haddr : CryptoSystem.keyFromStr addr with
  | error e => exact Keeps.throw trivial ⟨rfl, Or.inr (Or.inl ⟨e, rfl, rfl, rfl⟩)⟩
  | ok key =>
      refine Ident.keeps_lift_bind trivial (fun e he => absurd he (by simp))
        fun key' hkey => ?_
      obtain rfl : key = key' := Except.ok.inj hkey
      refine Ident.keeps_call_bind trivial (fun e w' hfail hw' => ?_) fun _ w' hw' => ?_
      · refine ⟨trivial, rfl, Or.inr (Or.inr (hstore id hfail ?_))⟩
        exact hw'.imp_right fun ⟨_, _, hdoes⟩ => ⟨key, hdoes⟩
      obtain rfl : w' = w.putRemote name (some key) := hw'
      have hself : (w.putRemote name (some key)).remote (asBytes name) = some (.typedKey key) :=
        StoreWorld.remote_putRemote_self name _
      refine (Peer.keeps_load trivial).mono ?_
      rintro r s' w' _ ⟨rfl, rfl, hok, hfail⟩
      refine ⟨rfl, ?_⟩
      cases r with
      | ok p =>
          obtain ⟨key', hremote, rfl⟩ := hok p rfl
          obtain rfl := Json.typedKey.inj (Option.some.inj (hself.symm.trans hremote))
          exact Or.inl ⟨key, rfl, rfl, rfl⟩
      | error e =>
          have hfault := (hfail e rfl).resolve_right fun hno => hno key hself
          exact Or.inr (Or.inr ⟨hfault, ⟨e, rfl⟩, Or.inr ⟨key, rfl⟩⟩)

/-- `remote_add` sets the name's entry on both sides, or rejects an address that does not parse, or
    fails with the table store, and then the entry may be in the table. -/
theorem keeps_remoteAdd (name addr : String) (c : Conclave) :
    Keeps (StoreWorld.Answers faults) (fun _ => True) (remoteAdd name addr) c w
      fun r c' w' => (∃ key, CryptoSystem.keyFromStr addr = .ok key ∧ r = .ok () ∧
          c' = { c with remotes := c.remotes.insert name ⟨name, key, none, none, none⟩ } ∧
          w' = w.putRemote name (some key)) ∨
        (∃ e, CryptoSystem.keyFromStr addr = .error e ∧ r = .error (.veilidAPI e) ∧ c' = c ∧
          w' = w) ∨
        faults.Store ∧ (∃ e, r = .error e) ∧ c' = c ∧
          (w' = w ∨ ∃ key, w' = w.putRemote name (some key)) := by
  unfold remoteAdd
  refine (Peer.keeps_new name addr).bind (fun p c₁ w₁ _ h => ?_) fun e c₁ w₁ _ h => ?_
  · obtain ⟨rfl, ⟨key, haddr, hp, rfl⟩ | ⟨e, _, hp, _⟩ | ⟨_, ⟨_, hp⟩, _⟩⟩ := h
    · obtain rfl := Except.ok.inj hp
      exact Keeps.modify trivial (Or.inl ⟨key, haddr, rfl, rfl, rfl⟩)
    · exact absurd hp (by simp)
    · exact absurd hp (by simp)
  · obtain ⟨rfl, ⟨key, _, hp, _⟩ | ⟨e', haddr, hp, rfl⟩ | ⟨hfault, _, hw₁⟩⟩ := h
    · exact absurd hp (by simp)
    · obtain rfl := Except.error.inj hp
      exact Or.inr (Or.inl ⟨e', haddr, rfl, rfl, rfl⟩)
    · exact Or.inr (Or.inr ⟨hfault, ⟨e, rfl⟩, rfl, hw₁⟩)

omit [CryptoSystem] in
/-- `remote_remove` deletes the entry on both sides, or finds none, or fails with the table store,
    and then the entry has left the map and may be in the table. -/
theorem keeps_remoteRemove (name : String) (c : Conclave) :
    Keeps (StoreWorld.Answers faults) (fun _ => True) (remoteRemove name) c w
      fun r c' w' => (∃ p, c.remotes.lookup name = some p ∧ r = .ok true ∧
          c' = { c with remotes := c.remotes.erase name } ∧ w' = w.putRemote p.name none) ∨
        (c.remotes.lookup name = none ∧ r = .ok false ∧ c' = c ∧ w' = w) ∨
        faults.Store ∧ (∃ e, r = .error e) ∧ ∃ p, c.remotes.lookup name = some p ∧
          c' = { c with remotes := c.remotes.erase name } ∧
          (w' = w ∨ w' = w.putRemote p.name none) := by
  unfold remoteRemove Conclave.removePeer
  refine Keeps.get_bind ?_
  cases hl : c.remotes.lookup name with
  | none => exact Keeps.pure trivial (Or.inr (Or.inl ⟨rfl, rfl, rfl, rfl⟩))
  | some p =>
      refine Keeps.modify_bind ?_
      unfold Peer.remove
      rw [bind_assoc]
      refine Peer.keeps_openDb_bind trivial (fun e h => Or.inr (Or.inr ?_)) ?_
      · have hfault : faults.Store := h.elim (fun h => ⟨_, id, h⟩) fun h => ⟨_, id, h⟩
        exact ⟨hfault, ⟨e, rfl⟩, p, rfl, rfl, Or.inl rfl⟩
      refine Ident.keeps_call_bind trivial (fun e w' hfail hw' => ?_) fun _ w' hw' => ?_
      · refine ⟨trivial, Or.inr (Or.inr ⟨⟨_, id, hfail⟩, ⟨e, rfl⟩, p, rfl, rfl, ?_⟩)⟩
        exact hw'.imp_right fun ⟨_, _, hdoes⟩ => hdoes
      · exact Keeps.pure trivial (Or.inl ⟨p, rfl, rfl, rfl, hw'⟩)

end Commands

/-! ## Starting up beside the table -/

section Startup
variable {σ α : Type} {s : σ} {w : StoreWorld} {faults : StoreWorld.Faults}
  {table : Nat → Bytes → Option Json}

/-- The table of the remotes is as given. -/
def StoreWorld.RemotesAre (table : Nat → Bytes → Option Json) (w : StoreWorld) : Prop :=
  w.cell .conclaveRemotes = table

/-- Calls that leave the table of the remotes alone. -/
def StoreWorld.Apart (c : IdentCall) : Prop :=
  ∀ w v w', Does w c v w' → w'.cell .conclaveRemotes = w.cell .conclaveRemotes

theorem StoreWorld.Idle.apart {c : IdentCall} (h : StoreWorld.Idle c) : StoreWorld.Apart c :=
  fun _ _ _ hdoes => by rw [h _ _ _ hdoes]

theorem StoreWorld.apart_storeJson (column : Nat) (key : Bytes) (value : Json) :
    StoreWorld.Apart (.storeJson .conclaveLocal column key value) := by
  rintro w v w' rfl
  funext c k
  exact StoreWorld.cell_put_of_ne fun h => absurd h.1 (by simp)

theorem StoreWorld.apart_createDhtRecord (oCnt : Nat) :
    StoreWorld.Apart (.createDhtRecord oCnt) := by
  rintro w v w' ⟨rfl, _⟩
  rfl

/-- Whatever the identity functions do, they keep the table. -/
theorem Ident.keeps_apart_bind {c : IdentCall} {f : c.Val → Ident σ α} (hc : StoreWorld.Apart c)
    (hw : w.RemotesAre table)
    (hf : ∀ v w', w'.RemotesAre table → Keeps (StoreWorld.Answers faults)
      (StoreWorld.RemotesAre table) (f v) s w' fun _ _ _ => True) :
    Keeps (StoreWorld.Answers faults) (StoreWorld.RemotesAre table) (Ident.call c >>= f) s w
      fun _ _ _ => True := by
  refine Ident.keeps_call_bind hw (fun e w' _ hw' => ⟨?_, trivial⟩) fun v w' hdoes => ?_
  · rcases hw' with rfl | ⟨_, v, hdoes⟩
    · exact hw
    · exact (hc _ _ _ hdoes).trans hw
  · exact hf v w' ((hc _ _ _ hdoes).trans hw)

theorem Sovereign.keeps_load_apart (hw : w.RemotesAre table) :
    Keeps (StoreWorld.Answers faults) (StoreWorld.RemotesAre table) (Sovereign.load : Ident σ _) s w
      fun _ _ _ => True := by
  unfold Sovereign.load
  refine Sovereign.keeps_openDb_bind hw (fun e _ => trivial) ?_
  refine Ident.keeps_idle_bind (StoreWorld.idle_loadJson _ _ _) hw (fun e _ => trivial) fun v _ => ?_
  refine Ident.keeps_lift_bind hw (fun e _ => trivial) fun key? _ => ?_
  cases key? with
  | none => exact Keeps.pure hw trivial
  | some key =>
      unfold Sovereign.loadOwner
      refine Ident.keeps_idle_bind (StoreWorld.idle_loadJson _ _ _) hw (fun e _ => trivial)
        fun v _ => ?_
      refine Ident.keeps_lift_bind hw (fun e _ => trivial) fun pair? _ => ?_
      cases pair? with
      | none => exact Keeps.pure hw trivial
      | some pair =>
          exact Ident.keeps_idle_bind (StoreWorld.idle_openDhtRecord _ _) hw (fun e _ => trivial)
            fun _ _ => Keeps.pure hw trivial

theorem Sovereign.keeps_init_apart (hw : w.RemotesAre table) :
    Keeps (StoreWorld.Answers faults) (StoreWorld.RemotesAre table) (Sovereign.init : Ident σ _) s w
      fun _ _ _ => True := by
  unfold Sovereign.init
  refine Sovereign.keeps_openDb_bind hw (fun e _ => trivial) ?_
  refine Ident.keeps_apart_bind (StoreWorld.apart_createDhtRecord _) hw fun d w₁ hw₁ => ?_
  cases d.ownerSecret with
  | none => exact Keeps.throw hw₁ trivial
  | some secret =>
      refine Ident.keeps_apart_bind (StoreWorld.idle_closeDhtRecord _).apart hw₁ fun _ w₂ hw₂ => ?_
      unfold Sovereign.store
      refine Ident.keeps_apart_bind (StoreWorld.apart_storeJson _ _ _) hw₂ fun _ w₃ hw₃ => ?_
      refine Ident.keeps_apart_bind (StoreWorld.apart_storeJson _ _ _) hw₃ fun _ w₄ hw₄ => ?_
      refine (Sovereign.keeps_load_apart hw₄).bind (fun sov? s₅ w₅ hw₅ _ => ?_)
        fun _ _ _ _ _ => trivial
      cases sov? with
      | none => exact Keeps.throw hw₅ trivial
      | some sov => exact Keeps.pure hw₅ trivial

theorem Conclave.keeps_loadSovereign_apart {u : Unit} (hw : w.RemotesAre table) :
    Keeps (StoreWorld.Answers faults) (StoreWorld.RemotesAre table) Conclave.loadSovereign u w
      fun _ _ _ => True := by
  unfold Conclave.loadSovereign
  refine (Sovereign.keeps_load_apart hw).bind (fun sov? s₁ w₁ hw₁ _ => ?_) fun _ _ _ _ _ => trivial
  cases sov? with
  | some sov => exact Keeps.pure hw₁ trivial
  | none => exact Sovereign.keeps_init_apart hw₁

/-- A startup leaves the table alone, and one that returns has loaded it. -/
theorem Conclave.keeps_new_remotes : Keeps (StoreWorld.Answers faults)
    (StoreWorld.RemotesAre (w.cell .conclaveRemotes)) Conclave.new () w fun r _ _ =>
      ∀ c, r = .ok c → Peer.Loaded w c.remotes := by
  unfold Conclave.new
  have hsame : w.RemotesAre (w.cell .conclaveRemotes) := rfl
  refine (Conclave.keeps_loadSovereign_apart hsame).bind (fun sov _ w₁ hw₁ _ => ?_)
    fun e _ _ _ _ => by simp
  have hremote : ∀ key, w₁.remote key = w.remote key := fun key => congrFun (congrFun hw₁ _) key
  refine (Peer.keeps_loadAll_loaded hw₁).bind (fun remotes _ w₂ hw₂ h => ?_)
    fun e _ _ _ _ => by simp
  obtain ⟨rfl, hok, _⟩ := h
  have hloaded := hok remotes rfl
  refine Keeps.pure hw₂ fun c hc => ?_
  obtain rfl := Except.ok.inj hc
  refine ⟨fun name p hp => ?_, fun name key hkey => hloaded.total name key ?_⟩
  · rw [← hremote]
    exact hloaded.within name p hp
  · rw [hremote]
    exact hkey

end Startup

/-! ## Any sequence of commands and restarts -/

section Runs
variable [CryptoSystem]

/-- What is stored, and the process, if one has started. -/
structure Installation where
  world : StoreWorld
  conclave : Option Conclave

inductive RemoteAction where
  | restart (r : Except Error Conclave)
  | add (name addr : String) (r : Except Error Unit)
  | remove (name : String) (r : Except Error Bool)

omit [CryptoSystem] in
/-- The command, or the startup, is run to its end, with nobody else at the table. -/
def StoreWorld.Runs {σ α : Type} (w : StoreWorld) (x : Ident σ α) (s : σ) (r : Except Error α)
    (s' : σ) (w' : StoreWorld) : Prop :=
  ∃ tr, Exec x s tr r s' ∧ Prog.Served (StoreWorld.Answers dhtFaults) Prog.alone w tr w'

/-- A command of the process, or the end of the process and another startup. -/
inductive Installation.Step : Installation → RemoteAction → Installation → Prop
  | restart {p : Installation} {r : Except Error Conclave} {world' : StoreWorld}
      (h : p.world.Runs Conclave.new () r () world') :
      Step p (.restart r) ⟨world', r.toOption⟩
  | add {p : Installation} {c c' : Conclave} (name addr : String) {r : Except Error Unit}
      {world' : StoreWorld} (hp : p.conclave = some c)
      (h : p.world.Runs (remoteAdd name addr) c r c' world') :
      Step p (.add name addr r) ⟨world', some c'⟩
  | remove {p : Installation} {c c' : Conclave} (name : String) {r : Except Error Bool}
      {world' : StoreWorld} (hp : p.conclave = some c)
      (h : p.world.Runs (remoteRemove name) c r c' world') :
      Step p (.remove name r) ⟨world', some c'⟩

/-- What a command means for the remotes. -/
def RemoteAction.apply (m : RemoteMap) : RemoteAction → RemoteMap
  | .restart _ => m
  | .add name addr (.ok ()) =>
      match CryptoSystem.keyFromStr addr with
      | .ok key => Function.update m name (some key)
      | .error _ => m
  | .add _ _ (.error _) => m
  | .remove name _ => Function.update m name none

/-- The remotes after a sequence of commands. -/
def expected (ls : List RemoteAction) : RemoteMap := ls.foldl RemoteAction.apply fun _ => none

theorem expected_append (ls : List RemoteAction) (l : RemoteAction) :
    expected (ls ++ [l]) = l.apply (expected ls) := by
  simp [expected]

/-- The action sets or deletes the entry of a name. -/
def RemoteAction.Touches (name : String) : RemoteAction → Prop
  | .restart _ => False
  | .add other _ (.ok ()) => other = name
  | .add _ _ (.error _) => False
  | .remove other _ => other = name

theorem RemoteAction.apply_of_not_touches {l : RemoteAction} {name : String} (m : RemoteMap)
    (h : ¬ l.Touches name) : l.apply m name = m name := by
  cases l with
  | restart r => rfl
  | remove other r => exact Function.update_of_ne (fun he => h he.symm) _ _
  | add other addr r =>
      cases r with
      | error e => rfl
      | ok u =>
          show (match CryptoSystem.keyFromStr addr with
            | .ok key => Function.update m other (some key)
            | .error _ => m) name = m name
          cases CryptoSystem.keyFromStr addr with
          | error e => rfl
          | ok key => exact Function.update_of_ne (fun he => h he.symm) _ _

/-- The last successful add of a name determines its key. -/
theorem expected_of_last_add {ls₁ ls₂ : List RemoteAction} {name addr : String} {key : TypedKey}
    (haddr : CryptoSystem.keyFromStr addr = .ok key) (hlast : ∀ l ∈ ls₂, ¬ l.Touches name) :
    expected (ls₁ ++ .add name addr (.ok ()) :: ls₂) name = some key := by
  have hadd : RemoteAction.apply (expected ls₁) (.add name addr (.ok ())) =
      Function.update (expected ls₁) name (some key) := by
    show (match CryptoSystem.keyFromStr addr with
      | .ok key => Function.update (expected ls₁) name (some key)
      | .error _ => expected ls₁) = _
    rw [haddr]
  have hrest : ∀ (m : RemoteMap), m name = some key →
      ls₂.foldl RemoteAction.apply m name = some key := by
    induction ls₂ with
    | nil => exact fun m hm => hm
    | cons l ls₂ ih =>
        intro m hm
        rw [List.foldl_cons]
        refine ih (fun l hl => hlast l (List.mem_cons_of_mem _ hl)) _ ?_
        rw [RemoteAction.apply_of_not_touches m (hlast l List.mem_cons_self), hm]
  rw [expected, List.foldl_append, List.foldl_cons]
  refine hrest _ ?_
  rw [← expected, hadd, Function.update_self]

/-- Both sides are the map of the commands so far. -/
structure Installation.Tracks (p : Installation) (m : RemoteMap) : Prop where
  world : p.world.Tracks m
  conclave : ∀ c, p.conclave = some c → Peer.Tracks m c.remotes

/-- **The step lemma.** -/
theorem Installation.Tracks.step {p p' : Installation} {l : RemoteAction} {m : RemoteMap}
    (h : p.Tracks m) (hs : p.Step l p') : p'.Tracks (l.apply m) := by
  cases hs with
  | @restart r world' hx =>
      obtain ⟨tr, hx, hw⟩ := hx
      obtain ⟨hsame, hnew⟩ := Conclave.keeps_new_remotes.exec hx hw
      refine ⟨h.world.congr hsame, fun c hc => (hnew c ?_).tracks h.world⟩
      cases r with
      | ok c' => exact congrArg Except.ok (Option.some.inj hc)
      | error e => exact absurd hc (by simp [Except.toOption])
  | add name addr hp hx =>
      obtain ⟨tr, hx, hw⟩ := hx
      rcases ((keeps_remoteAdd name addr _).exec hx hw).2 with
        ⟨key, haddr, rfl, rfl, rfl⟩ | ⟨e, haddr, rfl, rfl, rfl⟩ | ⟨hfault, _⟩
      · have happly : RemoteAction.apply m (.add name addr (.ok ())) =
            Function.update m name (some key) := by
          show (match CryptoSystem.keyFromStr addr with
            | .ok key => Function.update m name (some key)
            | .error _ => m) = _
          rw [haddr]
        rw [happly]
        refine ⟨h.world.putRemote name (some key), fun c hc => ?_⟩
        obtain rfl := Option.some.inj hc
        exact (h.conclave _ hp).insert (p := ⟨name, key, none, none, none⟩) rfl
      · exact ⟨h.world, fun c hc => h.conclave c (Option.some.inj hc ▸ hp)⟩
      · exact absurd hfault not_store_dhtFaults
  | remove name hp hx =>
      obtain ⟨tr, hx, hw⟩ := hx
      rcases ((keeps_remoteRemove name _).exec hx hw).2 with
        ⟨peer, hl, rfl, rfl, rfl⟩ | ⟨hl, rfl, rfl, rfl⟩ | ⟨hfault, _⟩
      · obtain ⟨hname, _⟩ := (h.conclave _ hp).within name peer hl
        refine ⟨?_, fun c hc => ?_⟩
        · rw [hname]
          exact h.world.putRemote name none
        · obtain rfl := Option.some.inj hc
          exact (h.conclave _ hp).erase name
      · -- an unknown name has no entry to delete
        have hnone : RemoteAction.apply m (.remove name (.ok false)) = m := by
          have hm : m name = none := by
            rw [← (h.conclave _ hp).lookup name, hl]
            rfl
          exact Function.update_eq_self_iff.2 hm.symm
        rw [hnone]
        exact ⟨h.world, fun c hc => h.conclave c (Option.some.inj hc ▸ hp)⟩
      · exact absurd hfault not_store_dhtFaults

/-- **The run lemma.** -/
theorem Installation.Tracks.run {p₀ p : Installation} {ls : List RemoteAction}
    (h0 : p₀.Tracks fun _ => none) (hr : Run Installation.Step p₀ ls p) :
    p.Tracks (expected ls) :=
  hr.history_invariant (I := fun ls p => p.Tracks (expected ls)) h0 fun ls _ l _ h hs => by
    rw [expected_append]
    exact h.step hs

omit [CryptoSystem] in
theorem Peer.Tracks.mem_remoteKeys {c : Conclave} {m : RemoteMap} (h : Peer.Tracks m c.remotes)
    {name : String} {key : TypedKey} : (name, key) ∈ c.remoteKeys ↔ m name = some key := by
  unfold Conclave.remoteKeys Conclave.peers
  rw [List.map_map, List.mem_map]
  constructor
  · rintro ⟨⟨other, p⟩, hmem, he⟩
    obtain ⟨hname, hm⟩ := h.within other p (AList.mem_lookup_iff.2 hmem)
    obtain ⟨rfl, rfl⟩ := Prod.mk.inj he
    rw [hname]
    exact hm
  · intro hm
    obtain ⟨p, hp⟩ := Option.isSome_iff_exists.1 (h.total name key hm)
    obtain ⟨hname, hkey⟩ := h.within name p hp
    refine ⟨⟨name, p⟩, AList.mem_lookup_iff.1 hp, ?_⟩
    exact Prod.ext hname (Option.some.inj (hkey.symm.trans hm))

omit [CryptoSystem] in
theorem Peer.Within.names_nodup {c : Conclave} {m : RemoteMap} (h : Peer.Within m c.remotes) :
    (c.remoteKeys.map Prod.fst).Nodup := by
  have hnames : c.remoteKeys.map Prod.fst = c.remotes.keys := by
    unfold Conclave.remoteKeys Conclave.peers AList.keys List.keys
    rw [List.map_map, List.map_map]
    exact List.map_congr_left fun e he => (h e.1 e.2 (AList.mem_lookup_iff.2 he)).1
  rw [hnames]
  exact c.remotes.keys_nodup

omit [CryptoSystem] in
/-- The loop of `load_all` can be run over names that the table has. -/
theorem Peer.exists_run_loadKeys {σ : Type} {s : σ} {w : StoreWorld} {m : RemoteMap}
    (hw : w.Tracks m) (names : List String) (remotes : AList fun _ : String => Peer)
    (hnames : ∀ name ∈ names, (m name).isSome) : ∃ tr all,
      Exec (Peer.loadKeys (names.map asBytes) remotes : Ident σ _) s tr (.ok all) s ∧
      Prog.Served (StoreWorld.Answers dhtFaults) Prog.alone w tr w := by
  induction names generalizing remotes with
  | nil => exact ⟨[], remotes, .pure _, .nil .refl⟩
  | cons name rest ih =>
      obtain ⟨key, hkey⟩ := Option.isSome_iff_exists.1 (hnames name List.mem_cons_self)
      have hremote : w.remote (asBytes name) = some (.typedKey key) := by
        rw [hw.name, hkey]
        rfl
      have hstr : Bytes.toStr (asBytes name) = .ok name := Bytes.toStr_utf8 name
      obtain ⟨tr, all, hx, hserved⟩ := ih (remotes.insert name ⟨name, key, none, none, none⟩)
        fun other hother => hnames other (List.mem_cons_of_mem _ hother)
      refine ⟨⟨.loadJson .conclaveRemotes 0 (asBytes name), .ok (some (.typedKey key))⟩ :: tr, all,
        ?_, .cons .refl ⟨rfl, hremote.symm⟩ hserved⟩
      rw [List.map_cons, Peer.loadKeys, hstr]
      exact .call hx

omit [CryptoSystem] in
theorem Peer.exists_run_loadAll {σ : Type} {s : σ} {w : StoreWorld} {m : RemoteMap}
    (hw : w.Tracks m) {remotes : AList fun _ : String => Peer} (hr : Peer.Tracks m remotes) :
    ∃ r w', w.Runs (Peer.loadAll : Ident σ _) s r s w' := by
  obtain ⟨tr, all, hx, hserved⟩ := Peer.exists_run_loadKeys hw remotes.keys ∅ fun name hname => by
    obtain ⟨p, hp⟩ := Option.isSome_iff_exists.1 (AList.lookup_isSome.2 hname)
    rw [(hr.within name p hp).2]
    rfl
  have hkeys : ∀ key, key ∈ remotes.keys.map asBytes ↔ (w.remote key).isSome := by
    intro key
    rw [List.mem_map]
    constructor
    · rintro ⟨name, hname, rfl⟩
      rw [hw.name, ← hr.lookup name, Option.isSome_map, Option.isSome_map]
      exact AList.lookup_isSome.2 hname
    · intro hsome
      obtain ⟨v, hv⟩ := Option.isSome_iff_exists.1 hsome
      obtain ⟨name, rfl⟩ := hw.key key v hv
      refine ⟨name, AList.lookup_isSome.1 ?_, rfl⟩
      rw [hw.name, ← hr.lookup name, Option.isSome_map, Option.isSome_map] at hsome
      exact hsome
  refine ⟨.ok all, w, ⟨.tableStore, .ok ()⟩ :: ⟨.open .conclaveRemotes 1, .ok ()⟩ ::
    ⟨.getKeys .conclaveRemotes 0, .ok (remotes.keys.map asBytes)⟩ :: tr, .call (.call (.call hx)),
    .cons .refl rfl <| .cons .refl rfl <| .cons .refl ⟨rfl, ?_, hkeys⟩ hserved⟩
  exact remotes.keys_nodup.map asBytes_injective

/-- **The remotes of a running process are the ones a restart loads.** In every sequence of commands
    and restarts in which the table store does not fail: `remotes` lists the entries of the map that
    the commands describe, each name once, and `load_all` makes the same map; the last successful
    add of a name determines its key; an add succeeds exactly when the address parses, and a remove
    returns whether the name was there. -/
theorem remotes_as_loaded {w₀ : StoreWorld} (h0 : ∀ key, w₀.remote key = none) {p : Installation}
    {ls : List RemoteAction} (hr : Run Installation.Step ⟨w₀, none⟩ ls p) :
    (∀ c, p.conclave = some c → (c.remoteKeys.map Prod.fst).Nodup ∧
      (∃ r w', p.world.Runs (Peer.loadAll : Ident Unit _) () r () w') ∧
      ∀ r w', p.world.Runs (Peer.loadAll : Ident Unit _) () r () w' → ∃ remotes, r = .ok remotes ∧
        ∀ name key, (name, key) ∈ c.remoteKeys ↔
          (remotes.lookup name).map Peer.dhtKey = some key) ∧
    (∀ c, p.conclave = some c → ∀ ls₁ name addr key ls₂, ls = ls₁ ++ .add name addr (.ok ()) :: ls₂ →
      CryptoSystem.keyFromStr addr = .ok key → (∀ l ∈ ls₂, ¬ l.Touches name) →
      (name, key) ∈ c.remoteKeys) ∧
    (∀ name addr r p', p.Step (.add name addr r) p' →
      (r = .ok () ↔ ∃ key, CryptoSystem.keyFromStr addr = .ok key)) ∧
    ∀ c name r p', p.conclave = some c → p.Step (.remove name r) p' →
      ∃ present, r = .ok present ∧ (present = true ↔ ∃ key, (name, key) ∈ c.remoteKeys) := by
  have hinit : Installation.Tracks ⟨w₀, none⟩ fun _ => none :=
    ⟨⟨fun name => h0 _, fun key v hv => absurd ((h0 key).symm.trans hv) (by simp)⟩, by simp⟩
  have h := hinit.run hr
  refine ⟨fun c hc => ⟨(h.conclave c hc).within.names_nodup,
      Peer.exists_run_loadAll h.world (h.conclave c hc), fun r w' hx => ?_⟩,
    fun c hc ls₁ name addr key ls₂ hls haddr hlast => ?_, fun name addr r p' hs => ?_,
    fun c name r p' hc hs => ?_⟩
  · obtain ⟨tr, hx, hw⟩ := hx
    obtain ⟨_, _, remotes, hremotes, htracks⟩ :=
      (Peer.keeps_loadAll_tracks (I := fun _ => True) trivial h.world).exec hx hw
    refine ⟨remotes, hremotes, fun name key => ?_⟩
    rw [(h.conclave c hc).mem_remoteKeys, htracks.lookup]
  · rw [(h.conclave c hc).mem_remoteKeys, hls]
    exact expected_of_last_add haddr hlast
  · cases hs with
    | add _ _ hp hx =>
        obtain ⟨tr, hx, hw⟩ := hx
        rcases ((keeps_remoteAdd name addr _).exec hx hw).2 with
          ⟨key, haddr, rfl, -, -⟩ | ⟨e, haddr, rfl, -, -⟩ | ⟨hfault, -⟩
        · exact ⟨fun _ => ⟨key, haddr⟩, fun _ => rfl⟩
        · refine ⟨fun he => absurd he (by simp), fun ⟨key, hkey⟩ => ?_⟩
          exact absurd (haddr.symm.trans hkey) (by simp)
        · exact absurd hfault not_store_dhtFaults
  · cases hs with
    | remove _ hp hx =>
        obtain ⟨tr, hx, hw⟩ := hx
        obtain rfl := Option.some.inj (hc.symm.trans hp)
        rcases ((keeps_remoteRemove name _).exec hx hw).2 with
          ⟨peer, hl, rfl, -, -⟩ | ⟨hl, rfl, -, -⟩ | ⟨hfault, -⟩
        · obtain ⟨_, hkey⟩ := (h.conclave _ hc).within name peer hl
          exact ⟨true, rfl, fun _ => ⟨_, (h.conclave _ hc).mem_remoteKeys.2 hkey⟩, fun _ => rfl⟩
        · refine ⟨false, rfl, fun he => absurd he (by simp), fun ⟨key, hkey⟩ => ?_⟩
          have hm := (h.conclave _ hc).mem_remoteKeys.1 hkey
          rw [← (h.conclave _ hc).lookup name, hl] at hm
          exact absurd hm (by simp)
        · exact absurd hfault not_store_dhtFaults

end Runs

section Example
attribute [local instance] plainCrypto

/-- The calls of an add in which nothing fails. -/
theorem runs_remoteAdd {w : StoreWorld} {c : Conclave} {name addr : String} {key : TypedKey}
    (hkey : CryptoSystem.keyFromStr addr = .ok key) :
    w.Runs (remoteAdd name addr) c (.ok ())
      { c with remotes := c.remotes.insert name ⟨name, key, none, none, none⟩ }
      (w.putRemote name (some key)) := by
  refine ⟨[⟨.tableStore, .ok ()⟩, ⟨.open .conclaveRemotes 1, .ok ()⟩,
    ⟨.storeJson .conclaveRemotes 0 (asBytes name) (.typedKey key), .ok ()⟩,
    ⟨.loadJson .conclaveRemotes 0 (asBytes name), .ok (some (.typedKey key))⟩], ?_, ?_⟩
  · unfold remoteAdd Peer.new
    rw [hkey]
    exact .call (.call (.call (.call (.pure _))))
  · exact .cons .refl rfl <| .cons .refl rfl <| .cons .refl rfl <|
      .cons .refl ⟨rfl, (StoreWorld.remote_putRemote_self name (some key)).symm⟩ (.nil .refl)

/-- A startup, and a remote with a name that is not ASCII. -/
theorem remotes_as_loaded_added : ∃ (p : Installation) (ls : List RemoteAction) (c : Conclave),
    Run Installation.Step ⟨.empty, none⟩ ls p ∧ p.conclave = some c ∧
    ("🌟", ⟨CRYPTO_KIND_VLD0, [7]⟩) ∈ c.remoteKeys := by
  let key : TypedKey := ⟨CRYPTO_KIND_VLD0, [7]⟩
  have hkey := PlainCrypto.keyFromStr_keyToString key
  have hr : Run Installation.Step ⟨.empty, none⟩ _ _ :=
    .snoc (.snoc .nil (.restart ⟨_, exec_first, served_first⟩))
      (.add "🌟" (PlainCrypto.keyToString key) rfl (runs_remoteAdd hkey))
  have h := (remotes_as_loaded (fun _ => rfl) hr).2.1 _ rfl [.restart (.ok firstConclave)] "🌟"
    (PlainCrypto.keyToString key) key [] rfl hkey (by simp)
  exact ⟨_, _, _, hr, rfl, h⟩

end Example

end Ddcp
