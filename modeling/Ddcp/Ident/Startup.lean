import Ddcp.Ident.Store
import Ddcp.Lib.Lts

set_option autoImplicit false

/-! # The identity survives crashes

`Conclave::new` takes the identity it finds stored, and otherwise makes one with two writes that are
not one transaction. What holds whenever a startup is cut off is `Sound`: an owner key pair is
stored only next to the key of its own record. It holds because the key is written first, and
because a new record is made only when one of the two is missing, and then the owner key pair is. -/

namespace Ddcp

open Method Lts

/-- A DHT key and the key pair of its owner. -/
abbrev Identity := TypedKey × KeyPair

namespace StoreWorld

def storedKey (w : StoreWorld) : Option Json :=
  w.cell .conclaveLocal TABLE_STORE_LOCAL_COLUMN_DHT_KEY []

def storedOwner (w : StoreWorld) : Option Json :=
  w.cell .conclaveLocal TABLE_STORE_LOCAL_COLUMN_DHT_OWNER_KEYPAIR []

/-- The identity stored in full. -/
def IsIdentity (w : StoreWorld) (id : Identity) : Prop :=
  w.storedKey = some (.typedKey id.1) ∧ w.storedOwner = some (.keyPair id.2)

/-- `id` is the key of a record that has been created, and its owner's key pair. -/
def OfRecord (w : StoreWorld) (id : Identity) : Prop :=
  ∃ d ∈ w.created, d.key = id.1 ∧ d.owner = id.2.key ∧ d.ownerSecret = some id.2.secret

/-- What every startup finds. -/
structure Sound (w : StoreWorld) : Prop where
  key : ∀ v, w.storedKey = some v → ∃ key, v = .typedKey key
  owner : ∀ v, w.storedOwner = some v → ∃ id, w.IsIdentity id ∧ w.OfRecord id
  distinct : (w.created.map NewDHTRecord.key).Nodup

variable {w : StoreWorld}

theorem Sound.empty : Sound .empty where
  key _ h := absurd h (by simp [storedKey, StoreWorld.empty])
  owner _ h := absurd h (by simp [storedOwner, StoreWorld.empty])
  distinct := List.nodup_nil

theorem IsIdentity.eq {id id' : Identity} (h : w.IsIdentity id) (h' : w.IsIdentity id') :
    id' = id := by
  have hkey := Json.typedKey.inj (Option.some.inj (h'.1.symm.trans h.1))
  have hpair := Json.keyPair.inj (Option.some.inj (h'.2.symm.trans h.2))
  exact Prod.ext hkey hpair

/-- Where the identity is not complete, the owner key pair is missing. -/
theorem Sound.owner_none (h : Sound w) (hnone : ∀ id, ¬ w.IsIdentity id) : w.storedOwner = none := by
  cases ho : w.storedOwner with
  | none => rfl
  | some v =>
      obtain ⟨id, hid, _⟩ := h.owner v ho
      exact absurd hid (hnone id)

/-! ### The three effects of `init` -/

theorem Sound.create (h : Sound w) (ho : w.storedOwner = none) {d : NewDHTRecord}
    (hnew : d.key ∉ w.created.map NewDHTRecord.key) : Sound { w with created := d :: w.created } where
  key := h.key
  owner v hv := absurd (ho.symm.trans hv) (by simp)
  distinct := List.nodup_cons.2 ⟨hnew, h.distinct⟩

theorem storedOwner_putKey (key : TypedKey) :
    (w.put .conclaveLocal TABLE_STORE_LOCAL_COLUMN_DHT_KEY [] (some (.typedKey key))).storedOwner =
      w.storedOwner := cell_put_of_ne (by decide)

theorem Sound.putKey (h : Sound w) (ho : w.storedOwner = none) (key : TypedKey) :
    Sound (w.put .conclaveLocal TABLE_STORE_LOCAL_COLUMN_DHT_KEY [] (some (.typedKey key))) where
  key v hv := by
    rw [storedKey, cell_put_self] at hv
    exact ⟨key, (Option.some.inj hv).symm⟩
  owner v hv := by
    rw [storedOwner_putKey, ho] at hv
    exact absurd hv (by simp)
  distinct := h.distinct

theorem Sound.putOwner (h : Sound w) {id : Identity} (hkey : w.storedKey = some (.typedKey id.1))
    (hd : w.OfRecord id) :
    let w' := w.put .conclaveLocal TABLE_STORE_LOCAL_COLUMN_DHT_OWNER_KEYPAIR [] (some (.keyPair id.2))
    Sound w' ∧ w'.IsIdentity id := by
  intro w'
  have hid : w'.IsIdentity id := ⟨(cell_put_of_ne (by decide)).trans hkey, cell_put_self⟩
  refine ⟨⟨fun v hv => ?_, fun v _ => ⟨id, hid, hd⟩, h.distinct⟩, hid⟩
  rw [hid.1] at hv
  exact ⟨id.1, (Option.some.inj hv).symm⟩

end StoreWorld

/-! ## What a startup keeps, wherever it ends -/

/-- The stored state is sound, and an identity that is known is still there. -/
def StoreWorld.Carries (known : Option Identity) (w : StoreWorld) : Prop :=
  w.Sound ∧ ∀ id, known = some id → w.IsIdentity id

/-- The identity that a sovereign has. -/
def Sovereign.identity (s : Sovereign) : Identity := (s.dhtKey, s.dhtOwnerKeypair.value)

/-- The sovereign returned has the identity that is stored. -/
def Sovereign.Stored (w : StoreWorld) (s : Sovereign) : Prop :=
  w.IsIdentity s.identity ∧ s.dhtOwnerKeypair.kind = CRYPTO_KIND_VLD0

section Keeps
variable {σ : Type} {s : σ} {w : StoreWorld} {faults : StoreWorld.Faults} {known : Option Identity}

/-- `load` changes nothing, and tells whether the identity is complete. -/
theorem Sovereign.keeps_load (hw : w.Carries known) :
    Keeps (StoreWorld.Answers faults) (StoreWorld.Carries known) (Sovereign.load : Ident σ _) s w
      fun r s' w' => s' = s ∧ w' = w ∧ (∀ sov, r = .ok (some sov) → sov.Stored w) ∧
        (r = .ok none → ∀ id, ¬ w.IsIdentity id) := by
  unfold Sovereign.load
  refine Sovereign.keeps_openDb_bind hw (fun e _ => by simp) ?_
  refine Ident.keeps_idle_bind (StoreWorld.idle_loadJson _ _ _) hw (fun e _ => by simp)
    fun v hv => ?_
  refine Ident.keeps_lift_bind hw (fun e _ => by simp) fun key? hkey => ?_
  cases hk : w.storedKey with
  | none =>
      obtain rfl : v = none := hv.2.trans hk
      obtain rfl := Except.ok.inj hkey
      refine Keeps.pure hw ⟨rfl, rfl, by simp, fun _ id hid => ?_⟩
      exact absurd (hk.symm.trans hid.1) (by simp)
  | some v' =>
      obtain ⟨key, rfl⟩ := hw.1.key _ hk
      obtain rfl : v = some (.typedKey key) := hv.2.trans hk
      obtain rfl := Except.ok.inj hkey
      unfold Sovereign.loadOwner
      refine Ident.keeps_idle_bind (StoreWorld.idle_loadJson _ _ _) hw (fun e _ => by simp)
        fun v hv => ?_
      refine Ident.keeps_lift_bind hw (fun e _ => by simp) fun pair? hpair => ?_
      cases ho : w.storedOwner with
      | none =>
          obtain rfl : v = none := hv.2.trans ho
          obtain rfl := Except.ok.inj hpair
          refine Keeps.pure hw ⟨rfl, rfl, by simp, fun _ id hid => ?_⟩
          exact absurd (ho.symm.trans hid.2) (by simp)
      | some v' =>
          obtain ⟨id, hid, _⟩ := hw.1.owner _ ho
          obtain rfl : v = some (.keyPair id.2) := hv.2.trans hid.2
          obtain rfl := Except.ok.inj hpair
          obtain rfl : key = id.1 := Json.typedKey.inj (Option.some.inj (hk.symm.trans hid.1))
          refine Ident.keeps_idle_bind (StoreWorld.idle_openDhtRecord _ _) hw (fun e _ => by simp)
            fun dht _ => ?_
          refine Keeps.pure hw ⟨rfl, rfl, fun sov hsov => ?_, fun h => absurd h (by simp)⟩
          obtain rfl := Option.some.inj (Except.ok.inj hsov)
          exact ⟨hid, rfl⟩

theorem StoreWorld.Sound.carries (hw : w.Sound) : w.Carries none := ⟨hw, by simp⟩

/-- The two writes, and reading back: the owner key pair is stored next to the key of its record. -/
theorem Sovereign.keeps_store (hw : w.Sound) (ho : w.storedOwner = none) {id : Identity}
    (hid : w.OfRecord id) :
    Keeps (StoreWorld.Answers faults) (StoreWorld.Carries none)
      (Sovereign.store id.1 id.2 : Ident σ _) s w
      fun r _ w' => ∀ sov, r = .ok sov → sov.Stored w' := by
  unfold Sovereign.store
  have hkey := hw.putKey ho id.1
  refine Ident.keeps_call_bind hw.carries (fun e w' _ hw' => ⟨?_, by simp⟩) fun _ w' hdoes => ?_
  · rcases hw' with rfl | ⟨_, _, rfl⟩
    · exact hw.carries
    · exact hkey.carries
  obtain rfl : w' = _ := hdoes
  have hstored : (w.put .conclaveLocal TABLE_STORE_LOCAL_COLUMN_DHT_KEY []
      (some (.typedKey id.1))).storedKey = some (.typedKey id.1) := StoreWorld.cell_put_self
  obtain ⟨hboth, -⟩ := hkey.putOwner hstored hid
  refine Ident.keeps_call_bind hkey.carries (fun e w' _ hw' => ⟨?_, by simp⟩) fun _ w' hdoes => ?_
  · rcases hw' with rfl | ⟨_, _, rfl⟩
    · exact hkey.carries
    · exact hboth.carries
  obtain rfl : w' = _ := hdoes
  refine (Sovereign.keeps_load hboth.carries).bind (fun sov? s₁ w₁ hw₁ h => ?_)
    fun e s₁ w₁ _ _ => by simp
  cases sov? with
  | none => exact Keeps.throw hw₁ (by simp)
  | some sov =>
      refine Keeps.pure hw₁ fun sov' hsov => ?_
      obtain rfl := Except.ok.inj hsov
      rw [h.2.1]
      exact h.2.2.1 _ rfl

/-- `init`, where the identity is not complete. -/
theorem Sovereign.keeps_init (hw : w.Sound) (hnone : ∀ id, ¬ w.IsIdentity id) :
    Keeps (StoreWorld.Answers faults) (StoreWorld.Carries none) (Sovereign.init : Ident σ _) s w
      fun r _ w' => ∀ sov, r = .ok sov → sov.Stored w' := by
  have ho := hw.owner_none hnone
  unfold Sovereign.init
  refine Sovereign.keeps_openDb_bind hw.carries (fun e _ => by simp) ?_
  refine Ident.keeps_call_bind hw.carries (fun e w' _ hw' => ⟨?_, by simp⟩) fun d w' hdoes => ?_
  · rcases hw' with rfl | ⟨_, d, rfl, hnew⟩
    · exact hw.carries
    · exact (hw.create ho hnew).carries
  obtain ⟨rfl, hnew⟩ := hdoes
  have hw' := hw.create ho hnew
  cases hsecret : d.ownerSecret with
  | none => exact Keeps.throw hw'.carries (by simp)
  | some secret =>
      refine Ident.keeps_idle_bind (StoreWorld.idle_closeDhtRecord _) hw'.carries (fun e _ => by simp)
        fun _ _ => ?_
      have hrecord : StoreWorld.OfRecord { w with created := d :: w.created }
          (d.key, ⟨d.owner, secret⟩) := ⟨d, List.mem_cons_self, rfl, rfl, hsecret⟩
      exact Sovereign.keeps_store hw' ho hrecord

theorem Conclave.keeps_loadSovereign {u : Unit} (hw : w.Carries known) :
    Keeps (StoreWorld.Answers faults) (StoreWorld.Carries known) Conclave.loadSovereign u w
      fun r _ w' => ∀ sov, r = .ok sov → sov.Stored w' := by
  unfold Conclave.loadSovereign
  refine (Sovereign.keeps_load hw).bind (fun sov? s₁ w₁ hw₁ h => ?_) fun e s₁ w₁ _ _ => by simp
  obtain ⟨-, rfl, hsome, hnone⟩ := h
  cases sov? with
  | some sov =>
      refine Keeps.pure hw₁ fun sov' hsov => ?_
      obtain rfl := Except.ok.inj hsov
      exact hsome _ rfl
  | none =>
      -- nothing complete is stored, so no identity is known that could get lost
      obtain rfl : known = none := by
        cases known with
        | none => rfl
        | some id => exact absurd (hw₁.2 id rfl) (hnone rfl id)
      exact Sovereign.keeps_init hw₁.1 (hnone rfl)

/-- Loading the remotes changes nothing. -/
theorem Peer.keeps_loadKeys {I : StoreWorld → Prop} (hI : I w) (keys : List Bytes)
    (remotes : AList fun _ : String => Peer) :
    Keeps (StoreWorld.Answers faults) I (Peer.loadKeys keys remotes : Ident σ _) s w
      fun _ _ w' => w' = w := by
  induction keys generalizing remotes with
  | nil => exact Keeps.pure hI rfl
  | cons key rest ih =>
      unfold Peer.loadKeys Peer.load
      refine Ident.keeps_lift_bind hI (fun e _ => rfl) fun name _ => ?_
      rw [bind_assoc]
      refine Ident.keeps_idle_bind (StoreWorld.idle_loadJson _ _ _) hI (fun e _ => rfl) ?_
      intro v _
      rw [bind_assoc]
      refine Ident.keeps_lift_bind hI (fun e _ => rfl) fun key? _ => ?_
      cases key? with
      | none => exact Keeps.throw hI rfl
      | some key => exact ih _

theorem Peer.keeps_loadAll {I : StoreWorld → Prop} (hI : I w) :
    Keeps (StoreWorld.Answers faults) I (Peer.loadAll : Ident σ _) s w fun _ _ w' => w' = w := by
  unfold Peer.loadAll
  refine Peer.keeps_openDb_bind hI (fun e _ => rfl) ?_
  exact Ident.keeps_idle_bind (StoreWorld.idle_getKeys _ _) hI (fun e _ => rfl)
    fun keys _ => Peer.keeps_loadKeys hI keys ∅

/-- **A startup**, from any sound state: wherever it is cut off the state is sound and a known
    identity is still stored, and when it returns, it returns the identity that is stored. -/
theorem Conclave.keeps_new (hw : w.Carries known) :
    Keeps (StoreWorld.Answers faults) (StoreWorld.Carries known) Conclave.new () w
      fun r _ w' => ∀ c, r = .ok c → c.sovereign.Stored w' := by
  unfold Conclave.new
  refine (Conclave.keeps_loadSovereign hw).bind (fun sov _ w₁ hw₁ h => ?_)
    fun e s₁ w₁ _ _ => by simp
  refine (Peer.keeps_loadAll hw₁).bind (fun remotes _ w₂ hw₂ h₂ => ?_) fun e s₁ w₁ _ _ => by simp
  refine Keeps.pure hw₂ fun c hc => ?_
  obtain rfl := Except.ok.inj hc
  rw [h₂]
  exact h sov rfl

end Keeps

/-! ## What a startup returns -/

section Returned
variable {σ : Type} {s s' : σ} {tr : List IdentEvent} {sov : Sovereign}

theorem Sovereign.exec_load_route (hx : Exec (Sovereign.load : Ident σ _) s tr (.ok (some sov)) s') :
    sov.route = none := by
  obtain ⟨_, _, _, _, _, _, hx⟩ := exec_bind_ok_iff.1 hx
  obtain ⟨_, _, _, _, _, _, hx⟩ := exec_bind_ok_iff.1 hx
  obtain ⟨_, _, key?, _, _, _, hx⟩ := exec_bind_ok_iff.1 hx
  cases key? with
  | none => exact absurd (exec_pure_iff.1 hx).2.1 (by simp)
  | some key =>
      obtain ⟨_, _, _, _, _, _, hx⟩ := exec_bind_ok_iff.1 hx
      obtain ⟨_, _, pair?, _, _, _, hx⟩ := exec_bind_ok_iff.1 hx
      cases pair? with
      | none => exact absurd (exec_pure_iff.1 hx).2.1 (by simp)
      | some pair =>
          obtain ⟨_, _, _, _, _, _, hx⟩ := exec_bind_ok_iff.1 hx
          have hsov := (exec_pure_iff.1 hx).2.1
          rw [Option.some.inj (Except.ok.inj hsov)]

theorem Sovereign.exec_init_route (hx : Exec (Sovereign.init : Ident σ _) s tr (.ok sov) s') :
    sov.route = none := by
  obtain ⟨_, _, _, _, _, _, hx⟩ := exec_bind_ok_iff.1 hx
  obtain ⟨_, _, newDht, _, _, _, hx⟩ := exec_bind_ok_iff.1 hx
  cases hsecret : newDht.ownerSecret with
  | none =>
      rw [hsecret] at hx
      exact absurd (exec_throw_iff.1 hx).2.1 (by simp)
  | some secret =>
      rw [hsecret] at hx
      obtain ⟨_, _, _, _, _, _, hx⟩ := exec_bind_ok_iff.1 hx
      -- the two writes, and then what is read back
      obtain ⟨_, _, _, _, _, _, hx⟩ := exec_bind_ok_iff.1 hx
      obtain ⟨_, _, _, _, _, _, hx⟩ := exec_bind_ok_iff.1 hx
      obtain ⟨_, _, sov?, _, _, hload, hx⟩ := exec_bind_ok_iff.1 hx
      cases sov? with
      | none => exact absurd (exec_throw_iff.1 hx).2.1 (by simp)
      | some sov' =>
          have hsov := (exec_pure_iff.1 hx).2.1
          rw [Except.ok.inj hsov]
          exact Sovereign.exec_load_route hload

/-- A startup returns no route: routes belong to the process. -/
theorem Conclave.exec_new_route {u u' : Unit} {c : Conclave}
    (hx : Exec Conclave.new u tr (.ok c) u') : c.sovereign.route = none := by
  obtain ⟨_, _, sov, _, _, hsov, hx⟩ := exec_bind_ok_iff.1 hx
  obtain ⟨_, _, remotes, _, _, _, hx⟩ := exec_bind_ok_iff.1 hx
  have hc := (exec_pure_iff.1 hx).2.1
  rw [Except.ok.inj hc]
  obtain ⟨_, _, sov?, _, _, hload, hx⟩ := exec_bind_ok_iff.1 hsov
  cases sov? with
  | none => exact Sovereign.exec_init_route hx
  | some sov' =>
      have hsov := (exec_pure_iff.1 hx).2.1
      rw [Except.ok.inj hsov]
      exact Sovereign.exec_load_route hload

end Returned

/-! ## Any number of startups -/

/-- A machine: what is stored, and the startup that is running. -/
structure Machine where
  world : StoreWorld
  startup : Option (Prog IdentCall IdentRet (Except Error Conclave × Unit))

inductive MachineAction where
  | start
  | call (e : IdentEvent)
  | crash
  | done (r : Except Error Conclave)
  | remotes

/-- A startup begins, makes a call, is cut off, or ends; where none is running, the remotes may
    change. -/
inductive Machine.Step (faults : StoreWorld.Faults) : Machine → MachineAction → Machine → Prop
  | start {m : Machine} (h : m.startup = none) :
      Step faults m .start { m with startup := some (Conclave.new ()) }
  | call {m : Machine} {e : IdentEvent} {p p' : Prog IdentCall IdentRet (Except Error Conclave × Unit)}
      {world' : StoreWorld} (hp : m.startup = some p) (hs : p.Step e p')
      (ha : m.world.Answers faults e world') : Step faults m (.call e) ⟨world', some p'⟩
  | crash {m : Machine} : Step faults m .crash { m with startup := none }
  | done {m : Machine} {r : Except Error Conclave} (hp : m.startup = some (.pure (r, ()))) :
      Step faults m (.done r) { m with startup := none }
  | remotes {m : Machine} {cell' : Table → Nat → Bytes → Option Json} (h : m.startup = none)
      (hlocal : cell' .conclaveLocal = m.world.cell .conclaveLocal) :
      Step faults m .remotes { m with world := { m.world with cell := cell' } }

/-- What holds of a machine and of the startups that have returned on it. -/
def Machine.Inv (faults : StoreWorld.Faults) (ls : List MachineAction) (m : Machine) : Prop :=
  ∃ known, (∀ c, .done (.ok c) ∈ ls → known = some c.sovereign.identity ∧
      c.sovereign.dhtOwnerKeypair.kind = CRYPTO_KIND_VLD0) ∧
    m.world.Carries known ∧
    ∀ p, m.startup = some p → Prog.Keeps (StoreWorld.Answers faults) (StoreWorld.Carries known)
      (fun r w' => ∀ c, r.1 = .ok c → c.sovereign.Stored w') p m.world

theorem StoreWorld.Carries.congr {known : Option Identity} {w : StoreWorld} (h : w.Carries known)
    {cell' : Table → Nat → Bytes → Option Json}
    (hlocal : cell' .conclaveLocal = w.cell .conclaveLocal) :
    StoreWorld.Carries known { w with cell := cell' } := by
  have hkey : StoreWorld.storedKey { w with cell := cell' } = w.storedKey :=
    congrFun (congrFun hlocal _) _
  have howner : StoreWorld.storedOwner { w with cell := cell' } = w.storedOwner :=
    congrFun (congrFun hlocal _) _
  have hid : ∀ id, StoreWorld.IsIdentity { w with cell := cell' } id ↔ w.IsIdentity id := fun id => by
    rw [StoreWorld.IsIdentity, StoreWorld.IsIdentity, hkey, howner]
  refine ⟨⟨fun v hv => h.1.key v (hkey ▸ hv), fun v hv => ?_, h.1.distinct⟩, fun id hk => ?_⟩
  · obtain ⟨id, hstored, hrecord⟩ := h.1.owner v (howner ▸ hv)
    exact ⟨id, (hid id).2 hstored, hrecord⟩
  · exact (hid id).2 (h.2 id hk)

/-- **The step lemma.** -/
theorem Machine.Inv.step {faults : StoreWorld.Faults} {ls : List MachineAction} {m m' : Machine}
    {l : MachineAction} (h : m.Inv faults ls) (hs : m.Step faults l m') :
    m'.Inv faults (ls ++ [l]) := by
  obtain ⟨known, hknown, hw, hp⟩ := h
  cases hs with
  | start hfree =>
      refine ⟨known, fun c hc => hknown c (by simpa using hc), hw, fun p hp => ?_⟩
      obtain rfl := Option.some.inj hp
      exact Conclave.keeps_new hw
  | call hrun hstep ha =>
      have hkeeps := (hp _ hrun).step hstep ha
      refine ⟨known, fun c hc => hknown c (by simpa using hc), hkeeps.now, fun p hp => ?_⟩
      obtain rfl := Option.some.inj hp
      exact hkeeps
  | crash => exact ⟨known, fun c hc => hknown c (by simpa using hc), hw, by simp⟩
  | remotes hfree hlocal =>
      refine ⟨known, fun c hc => hknown c (by simpa using hc), hw.congr hlocal, fun p hp => ?_⟩
      exact absurd (hfree.symm.trans hp) (by simp)
  | @done r hrun =>
      obtain ⟨-, hstored⟩ := hp _ hrun
      cases r with
      | error e => exact ⟨known, fun c hc => hknown c (by simpa using hc), hw, by simp⟩
      | ok c =>
          obtain ⟨hid, hkind⟩ := hstored c rfl
          refine ⟨some c.sovereign.identity, fun c' hc' => ?_, ⟨hw.1, fun id hsome => ?_⟩, by simp⟩
          · rcases List.mem_append.1 hc' with hold | hnew
            · -- an earlier startup has returned what was known, and that is still stored
              obtain ⟨hk, hkind'⟩ := hknown c' hold
              exact ⟨congrArg some (hid.eq (hw.2 _ hk)).symm, hkind'⟩
            · obtain rfl : c' = c := by simpa using hnew
              exact ⟨rfl, hkind⟩
          · exact Option.some.inj hsome ▸ hid

theorem typedKeyPair_eq {p q : TypedKeyPair} (hkind : p.kind = q.kind)
    (hvalue : p.value = q.value) : p = q := by
  rw [← show TypedKeyPair.mk p.kind p.value = p from rfl, hkind, hvalue]

/-- Nothing of a local identity is stored. -/
structure StoreWorld.Fresh (w : StoreWorld) : Prop where
  key : w.storedKey = none
  owner : w.storedOwner = none
  distinct : (w.created.map NewDHTRecord.key).Nodup

/-- **The identity survives crashes.** However many startups are begun from a fresh store, whatever
    fails in them and wherever they are cut off: in every state reached, a key and an owner key pair
    that are both stored are those of one created record, and every startup that returns after
    another has returned has the same key and key pair. -/
theorem identity_survives {faults : StoreWorld.Faults} {w₀ : StoreWorld} (h0 : w₀.Fresh)
    {m : Machine} {ls : List MachineAction} (hr : Run (Machine.Step faults) ⟨w₀, none⟩ ls m) :
    (m.world.created.map NewDHTRecord.key).Nodup ∧
    (∀ v v', m.world.storedKey = some v → m.world.storedOwner = some v' →
      ∃ id, v = .typedKey id.1 ∧ v' = .keyPair id.2 ∧ m.world.OfRecord id) ∧
    ∀ ls₁ ls₂ c c', ls = ls₁ ++ .done (.ok c) :: ls₂ → .done (.ok c') ∈ ls₂ →
      c'.sovereign.dhtKey = c.sovereign.dhtKey ∧
      c'.sovereign.dhtOwnerKeypair = c.sovereign.dhtOwnerKeypair := by
  have hinit : Machine.Inv faults [] ⟨w₀, none⟩ := by
    refine ⟨none, by simp, ⟨⟨fun v hv => ?_, fun v hv => ?_, h0.distinct⟩, by simp⟩, by simp⟩
    · exact absurd (h0.key.symm.trans hv) (by simp)
    · exact absurd (h0.owner.symm.trans hv) (by simp)
  obtain ⟨known, hknown, hw, -⟩ :=
    hr.history_invariant hinit fun _ _ _ _ h hs => h.step hs
  refine ⟨hw.1.distinct, fun v v' hk ho => ?_, fun ls₁ ls₂ c c' hls hc' => ?_⟩
  · obtain ⟨id, hid, hrecord⟩ := hw.1.owner v' ho
    refine ⟨id, Option.some.inj (hk.symm.trans hid.1), Option.some.inj (ho.symm.trans hid.2),
      hrecord⟩
  · subst hls
    obtain ⟨hc, hkind⟩ := hknown c (by simp)
    obtain ⟨hc'', hkind'⟩ := hknown c' (by simp [hc'])
    have hid : c'.sovereign.identity = c.sovereign.identity := Option.some.inj (hc''.symm.trans hc)
    refine ⟨congrArg Prod.fst hid, ?_⟩
    -- the pairs agree, and their kind is the one that every pair is loaded with
    exact typedKeyPair_eq (hkind'.trans hkind.symm) (congrArg Prod.snd hid)

section Example

theorem Machine.run_calls {faults : StoreWorld.Faults} {w w' : StoreWorld}
    {p : Prog IdentCall IdentRet (Except Error Conclave × Unit)} {tr : List IdentEvent}
    {r : Except Error Conclave × Unit} (hx : p.Exec tr r)
    (hw : Prog.Served (StoreWorld.Answers faults) Prog.alone w tr w') :
    Run (Machine.Step faults) ⟨w, some p⟩ (tr.map .call) ⟨w', some (.pure r)⟩ := by
  induction hx generalizing w with
  | pure a =>
      obtain rfl := Prog.served_alone_nil_iff.1 hw
      exact .nil
  | @call c k r tr a hx ih =>
      obtain ⟨w₁, h₁, h₂⟩ := Prog.served_alone_cons_iff.1 hw
      exact .cons (.call rfl (.call c k r) h₁) (ih h₂)

/-- A startup that is not cut off. -/
theorem Machine.run_startup (faults : StoreWorld.Faults) {w w' : StoreWorld} {tr : List IdentEvent}
    {r : Except Error Conclave} (hx : Exec Conclave.new () tr r ())
    (hw : Prog.Served (StoreWorld.Answers faults) Prog.alone w tr w') :
    Run (Machine.Step faults) ⟨w, none⟩ (.start :: (tr.map .call ++ [.done r])) ⟨w', none⟩ :=
  .cons (.start rfl) (.snoc (Machine.run_calls hx hw) (.done rfl))

def firstRecord : NewDHTRecord := ⟨⟨CRYPTO_KIND_VLD0, [1]⟩, [2], some [3]⟩

/-- A store with that record's identity. -/
def firstWorld : StoreWorld :=
  (StoreWorld.put { StoreWorld.empty with created := [firstRecord] } .conclaveLocal 0 []
    (some (.typedKey firstRecord.key))).put .conclaveLocal 1 [] (some (.keyPair ⟨[2], [3]⟩))

def firstConclave : Conclave :=
  ⟨⟨firstRecord.key, ⟨CRYPTO_KIND_VLD0, [2], [3]⟩, some ⟨firstRecord.key⟩, none⟩, ∅⟩

/-- The calls of `load` when the identity is there. -/
def loadTrace : List IdentEvent :=
  [⟨.tableStore, .ok ()⟩, ⟨.open .conclaveLocal 2, .ok ()⟩,
    ⟨.loadJson .conclaveLocal 0 [], .ok (some (.typedKey firstRecord.key))⟩,
    ⟨.loadJson .conclaveLocal 1 [], .ok (some (.keyPair ⟨[2], [3]⟩))⟩,
    ⟨.openDhtRecord firstRecord.key (some ⟨[2], [3]⟩), .ok ⟨firstRecord.key⟩⟩]

def loadAllTrace : List IdentEvent :=
  [⟨.tableStore, .ok ()⟩, ⟨.open .conclaveRemotes 1, .ok ()⟩,
    ⟨.getKeys .conclaveRemotes 0, .ok []⟩]

def initTrace : List IdentEvent :=
  [⟨.tableStore, .ok ()⟩, ⟨.open .conclaveLocal 2, .ok ()⟩,
    ⟨.loadJson .conclaveLocal 0 [], .ok none⟩,
    ⟨.tableStore, .ok ()⟩, ⟨.open .conclaveLocal 2, .ok ()⟩,
    ⟨.createDhtRecord 3, .ok firstRecord⟩, ⟨.closeDhtRecord firstRecord.key, .ok ()⟩,
    ⟨.storeJson .conclaveLocal 0 [] (.typedKey firstRecord.key), .ok ()⟩,
    ⟨.storeJson .conclaveLocal 1 [] (.keyPair ⟨[2], [3]⟩), .ok ()⟩]

theorem exec_again : Exec Conclave.new () (loadTrace ++ loadAllTrace) (.ok firstConclave) () :=
  .call (.call (.call (.call (.call (.call (.call (.call (.pure _))))))))

theorem exec_first :
    Exec Conclave.new () (initTrace ++ (loadTrace ++ loadAllTrace)) (.ok firstConclave) () :=
  .call (.call (.call (.call (.call (.call (.call (.call (.call
    (.call (.call (.call (.call (.call (.call (.call (.call (.pure _)))))))))))))))))

theorem served_again {faults : StoreWorld.Faults} :
    Prog.Served (StoreWorld.Answers faults) Prog.alone firstWorld
    (loadTrace ++ loadAllTrace) firstWorld :=
  .cons .refl rfl <| .cons .refl rfl <| .cons .refl ⟨rfl, rfl⟩ <| .cons .refl ⟨rfl, rfl⟩ <|
    .cons .refl ⟨rfl, rfl⟩ <| .cons .refl rfl <| .cons .refl rfl <|
    .cons .refl ⟨rfl, List.nodup_nil, fun _ => by simp [firstWorld, StoreWorld.put,
      StoreWorld.empty]⟩ <| .nil .refl

theorem served_first {faults : StoreWorld.Faults} :
    Prog.Served (StoreWorld.Answers faults) Prog.alone .empty
    (initTrace ++ (loadTrace ++ loadAllTrace)) firstWorld :=
  .cons .refl rfl <| .cons .refl rfl <| .cons .refl ⟨rfl, rfl⟩ <| .cons .refl rfl <|
    .cons .refl rfl <| .cons .refl ⟨rfl, by simp [StoreWorld.empty]⟩ <| .cons .refl rfl <|
    .cons .refl rfl <| .cons .refl rfl served_again

/-- Nothing fails. -/
def calmFaults : StoreWorld.Faults := ⟨fun _ => False, False⟩

/-- Two startups, of which the first makes the identity. -/
theorem identity_survives_restart : ∃ (m : Machine) (ls : List MachineAction) (c c' : Conclave),
    Run (Machine.Step calmFaults) ⟨.empty, none⟩ ls m ∧ .done (.ok c) ∈ ls ∧
    .done (.ok c') ∈ ls ∧ c'.sovereign.dhtKey = c.sovereign.dhtKey := by
  have hr := (Machine.run_startup calmFaults exec_first served_first).trans
    (Machine.run_startup calmFaults exec_again served_again)
  have hfresh : StoreWorld.empty.Fresh := ⟨rfl, rfl, List.nodup_nil⟩
  have h := (identity_survives hfresh hr).2.2
    (.start :: (initTrace ++ (loadTrace ++ loadAllTrace)).map .call)
    (.start :: ((loadTrace ++ loadAllTrace).map .call ++ [.done (.ok firstConclave)]))
    firstConclave firstConclave (by simp) (by simp)
  exact ⟨_, _, firstConclave, firstConclave, hr, by simp, by simp, h.1⟩

end Example

end Ddcp
