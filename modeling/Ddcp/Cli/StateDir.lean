import Ddcp.Cli.Confined
import Ddcp.Cli.Network

set_option autoImplicit false

/-! # A state directory under many processes

Every command is a process of its own, and what they share is the table store. Any number of them
run one after another; each may fail at any of its calls, or be killed before any of them. What they
leave is the remotes that the commands about them have set, and one identity. -/

namespace Ddcp

open Method Lts

/-! ## Processes on one store -/

/-- The table store answers its calls; the others leave it alone. -/
def AppAnswers (faults : StoreWorld.Faults) (w : StoreWorld) : AppEvent → StoreWorld → Prop
  | ⟨.ident c, a⟩, w' => w.Answers faults ⟨c, a⟩ w'
  | _, w' => w' = w

/-- What is seen of a process: its command, the conclave its node has come up with, and the lines of
    a command that has ended well. -/
structure CommandRun where
  cmd : Commands
  conclave : Option Conclave
  lines : Option (List String)

/-- A process runs a command on the store, to its end (`rest = []`) or until it is killed. -/
def StoreWorld.Process [Capnp] [CryptoSystem] (faults : StoreWorld.Faults) (w : StoreWorld)
    (l : CommandRun) (w' : StoreWorld) : Prop :=
  ∃ rounds debug tr rest out, Prog.Exec (run rounds debug l.cmd) (tr ++ rest) out ∧
    Prog.Served (AppAnswers faults) Prog.alone w tr w' ∧ (∀ c, l.conclave = some c → Started c tr) ∧
    ∀ lines, l.lines = some lines → rest = [] ∧ out = .ok (some lines)

/-! ### What the store sees of a process -/

def identEvent? : AppEvent → Option IdentEvent
  | ⟨.ident c, a⟩ => some ⟨c, a⟩
  | _ => none

def identEvents (tr : List AppEvent) : List IdentEvent := tr.filterMap identEvent?

@[simp] theorem identEvents_append (tr₁ tr₂ : List AppEvent) :
    identEvents (tr₁ ++ tr₂) = identEvents tr₁ ++ identEvents tr₂ := List.filterMap_append

@[simp] theorem identEvents_ident (tr : List IdentEvent) :
    identEvents (tr.map identCalls.event) = tr := by
  induction tr with
  | nil => rfl
  | cons e tr ih => exact congrArg (e :: ·) ih

@[simp] theorem identEvents_node (tr : List Event) : identEvents (tr.map nodeCalls.event) = [] := by
  induction tr with
  | nil => rfl
  | cons e tr ih => exact ih

@[simp] theorem identEvents_startupTrace (tr : List IdentEvent) :
    identEvents (startupTrace tr) = tr := identEvents_ident tr

section Served
variable {faults : StoreWorld.Faults} {w w' : StoreWorld} {tr : List AppEvent}

theorem served_identEvents_iff : Prog.Served (AppAnswers faults) Prog.alone w tr w' ↔
    Prog.Served (StoreWorld.Answers faults) Prog.alone w (identEvents tr) w' := by
  induction tr generalizing w with
  | nil => exact Prog.served_alone_nil_iff.trans Prog.served_alone_nil_iff.symm
  | cons e tr ih =>
      obtain ⟨c, a⟩ := e
      rw [Prog.served_alone_cons_iff]
      cases c with
      | ident c =>
          refine Iff.trans ?_ Prog.served_alone_cons_iff.symm
          exact exists_congr fun w₁ => and_congr_right fun _ => ih
      | _ =>
          refine Iff.trans ?_ ih
          constructor
          · rintro ⟨w₁, rfl, h⟩
            exact h
          · exact fun h => ⟨w, rfl, h⟩

variable [Capnp] [CryptoSystem] {rounds : Nat} {debug : Error → String} {cmd : Commands}
  {rest : List AppEvent} {out : Except Abort (Option (List String))}

/-- Where a process has got when it ends or is killed: the startup is not over, or did not bring the
    node up, or it did, and the process goes on. -/
theorem exec_run_served (hx : Prog.Exec (run rounds debug cmd) (tr ++ rest) out)
    (hw : Prog.Served (AppAnswers faults) Prog.alone w tr w') :
    ((∀ c, ¬ Started c tr) ∧ (rest = [] → ∃ e, out = .error (.err e)) ∧
      (w' = w ∨ ∃ tr₀ rest₀ r₀, Exec Conclave.new () (tr₀ ++ rest₀) r₀ () ∧
        Prog.Served (StoreWorld.Answers faults) Prog.alone w tr₀ w')) ∨
    ∃ c tr₀ tr₁ w₁, Started c tr ∧ Exec Conclave.new () tr₀ (.ok c) () ∧
      Prog.Served (StoreWorld.Answers faults) Prog.alone w tr₀ w₁ ∧
      Prog.Exec (runWith rounds debug cmd ⟨c⟩) (tr₁ ++ rest) out ∧
      Prog.Served (AppAnswers faults) Prog.alone w₁ tr₁ w' := by
  rcases exec_run_stages hx with ⟨hboots, hdown, hout⟩ | ⟨_, tr₀, tr₁, r₀, h₀, heq, hrest⟩
  · refine Or.inl ⟨fun c hs => hdown c (hs.append rest), fun _ => hout, Or.inl ?_⟩
    refine Prog.alone_iff.1 (hw.idle fun e he w₁ w₂ ha => ?_)
    obtain ⟨c, a⟩ := e
    have hc : cmd.Boots c := hboots _ (List.mem_append_left _ he)
    cases c with
    | ident c => exact hc.elim
    | _ => exact ha
  by_cases hpast : ∃ bs, tr = startupTrace tr₀ ++ bs
  · obtain ⟨bs, rfl⟩ := hpast
    rw [List.append_assoc] at heq
    obtain rfl := List.append_cancel_left heq
    obtain ⟨w₁, hw₀, hw₁⟩ := Prog.served_append_iff.1 hw
    rw [served_identEvents_iff, identEvents_startupTrace] at hw₀
    rcases hrest with ⟨e, rfl, hnil, hout⟩ | ⟨c, rfl, hrest⟩
    · obtain ⟨rfl, rfl⟩ := List.append_eq_nil_iff.1 hnil
      refine Or.inl ⟨fun c hs => absurd (hs.returned h₀) (by simp), fun _ => ⟨e, hout⟩,
        Or.inr ⟨tr₀, [], .error e, ?_, ?_⟩⟩
      · rw [List.append_nil]
        exact h₀
      · rwa [Prog.served_alone_nil_iff.1 hw₁]
    · exact Or.inr ⟨c, tr₀, bs, w₁, started_of_new h₀ bs, h₀, hw₀, hrest, hw₁⟩
  · -- killed before the startup was over
    rcases List.append_eq_append_iff.1 heq with ⟨as, hcut, _⟩ | ⟨bs, hlong, _⟩
    swap
    · exact absurd ⟨bs, hlong⟩ hpast
    refine Or.inl ⟨?_, ?_, Or.inr ⟨identEvents tr, identEvents as, r₀, ?_, ?_⟩⟩
    · rintro c ⟨tr₂, rest₂, h₂, rfl⟩
      rw [List.append_assoc] at hcut
      have hsame := (startupTrace_unique h₀ h₂ ((List.append_nil _).trans hcut)).1
      exact hpast ⟨rest₂, by rw [hsame]⟩
    · rintro rfl
      exact absurd ⟨tr₁, (List.append_nil _).symm.trans heq⟩ hpast
    · rw [← identEvents_append, ← hcut, identEvents_startupTrace]
      exact h₀
    · exact served_identEvents_iff.1 hw

/-- A command that has ended well has gone through all of `run`. -/
theorem exec_runWith_ok {c : Conclave} {lines : List String}
    (h : Prog.Exec (runWith rounds debug cmd ⟨c⟩) tr (.ok (some lines))) :
    ∃ tr₁ tr₂ s₁ app', ∃ closes : List Event, tr = tr₁ ++ tr₂ ++ closes.map nodeCalls.event ∧
      Exec (networkReady rounds cmd) ⟨c⟩ tr₁ (.ok true) s₁ ∧
      Exec (runCommand debug cmd) s₁ tr₂ (.ok lines) app' := by
  obtain ⟨tr₀, app', hx, ⟨hun, _⟩ | ⟨_, closes, p, _, rfl⟩⟩ := exec_runWith_iff.1 h
  · exact absurd hun (by simp [Unfinished])
  obtain ⟨tr₁, tr₂, online, s₁, rfl, hready, hrest⟩ := exec_bind_ok_iff.1 hx
  cases online with
  | false => exact absurd (exec_pure_iff.1 hrest).2.1 (by simp)
  | true =>
      obtain ⟨tr₃, tr₄, lines', s₂, rfl, hcommand, hdone⟩ := exec_bind_ok_iff.1 hrest
      obtain ⟨rfl, hlines, rfl⟩ := exec_pure_iff.1 hdone
      obtain rfl := Option.some.inj (Except.ok.inj hlines)
      exact ⟨tr₁, tr₃, s₁, _, closes, by rw [List.append_nil], hready, hcommand⟩

/-- Without the network there is nothing to wait for. -/
theorem exec_networkReady_offline {s s' : DDCP} {r : Except Abort Bool}
    (hnet : cmd.needsNetwork = false) (h : Exec (networkReady rounds cmd) s tr r s') :
    tr = [] ∧ s' = s := by
  rw [networkReady, hnet] at h
  obtain ⟨rfl, _, rfl⟩ := exec_pure_iff.1 h
  exact ⟨rfl, rfl⟩

/-- A process that has ended well came up, and went on to its command. -/
theorem StoreWorld.Process.ended {l : CommandRun} {lines : List String}
    (h : w.Process faults l w') (hlines : l.lines = some lines) :
    ∃ rounds debug c tr₀ tr₁ w₁, Exec Conclave.new () tr₀ (.ok c) () ∧
      Prog.Served (StoreWorld.Answers faults) Prog.alone w tr₀ w₁ ∧
      Prog.Exec (runWith rounds debug l.cmd ⟨c⟩) tr₁ (.ok (some lines)) ∧
      Prog.Served (AppAnswers faults) Prog.alone w₁ tr₁ w' := by
  obtain ⟨rounds, debug, tr, rest, out, hx, hw, _, hended⟩ := h
  obtain ⟨rfl, rfl⟩ := hended lines hlines
  rcases exec_run_served hx hw with ⟨_, hfailed, _⟩ | ⟨c, tr₀, tr₁, w₁, _, h₀, hw₀, hrest, hw₁⟩
  · obtain ⟨e, hout⟩ := hfailed rfl
    exact absurd hout (by simp)
  · rw [List.append_nil] at hrest
    exact ⟨rounds, debug, c, tr₀, tr₁, w₁, h₀, hw₀, hrest, hw₁⟩

/-- A process that came up has loaded its conclave from the store. -/
theorem StoreWorld.Process.loaded {l : CommandRun} {c : Conclave} (h : w.Process faults l w')
    (hc : l.conclave = some c) : ∃ tr₀ w₁, Exec Conclave.new () tr₀ (.ok c) () ∧
      Prog.Served (StoreWorld.Answers faults) Prog.alone w tr₀ w₁ := by
  obtain ⟨rounds, debug, tr, rest, out, hx, hw, hconclave, _⟩ := h
  obtain ⟨tr₀, rest₀, h₀, rfl⟩ := hconclave c hc
  obtain ⟨w₁, hw₀, _⟩ := Prog.served_append_iff.1 hw
  rw [served_identEvents_iff, identEvents_startupTrace] at hw₀
  exact ⟨tr₀, w₁, h₀, hw₀⟩

end Served

/-! ## The remotes -/

section Remotes
variable [CryptoSystem] {faults : StoreWorld.Faults} {w w' : StoreWorld} {cmd : Commands}

/-- A command sets the key of a remote, or removes it. -/
def Commands.Sets (cmd : Commands) (name : String) (value : Option TypedKey) : Prop :=
  (∃ addr key, cmd = .remote (.add name addr) ∧ CryptoSystem.keyFromStr addr = .ok key ∧
    value = some key) ∨ cmd = .remote (.remove name) ∧ value = none

/-- What a command has changed under a key of the table, it has set. -/
def Commands.Changed (cmd : Commands) (key : Bytes) (stored : Option Json) : Prop :=
  ∃ name value, key = asBytes name ∧ cmd.Sets name value ∧ stored = value.map Json.typedKey

theorem StoreWorld.Does.remote {c : IdentCall} {v : c.Val} (hmay : cmd.May (.ident c))
    (hdoes : w.Does c v w') (key : Bytes) :
    w'.remote key = w.remote key ∨ cmd.Changed key (w'.remote key) := by
  have hother : ∀ {table : Table} {column : Nat} {key' : Bytes} {value : Option Json},
      ¬ (Table.conclaveRemotes = table ∧ TABLE_STORE_REMOTES_COLUMN_DHT_KEY = column ∧ key = key') →
      (w.put table column key' value).remote key = w.remote key := fun h => StoreWorld.cell_put_of_ne h
  cases c with
  | storeJson table column key' value =>
      obtain rfl : w' = w.put table column key' (some value) := hdoes
      rcases hmay with ⟨_, hlocal⟩ | ⟨rfl, rfl, name, addr, dhtKey, rfl, rfl, haddr, rfl⟩
      · obtain rfl : table = .conclaveLocal := hlocal
        exact Or.inl (hother (by simp))
      · by_cases hk : key = asBytes name
        · subst hk
          refine Or.inr ⟨name, some dhtKey, rfl, Or.inl ⟨addr, dhtKey, rfl, haddr, rfl⟩, ?_⟩
          exact StoreWorld.cell_put_self
        · exact Or.inl (hother fun h => hk h.2.2)
  | delete table column key' =>
      obtain rfl : w' = w.put table column key' none := hdoes
      obtain ⟨rfl, rfl, name, rfl, rfl⟩ := hmay
      by_cases hk : key = asBytes name
      · subst hk
        exact Or.inr ⟨name, none, rfl, Or.inr ⟨rfl, rfl⟩, StoreWorld.cell_put_self⟩
      · exact Or.inl (hother fun h => hk h.2.2)
  | createDhtRecord oCnt =>
      obtain ⟨rfl, _⟩ := hdoes
      exact Or.inl rfl
  | tableStore | «open» table columns | closeDhtRecord key' =>
      obtain rfl : w' = w := hdoes
      exact Or.inl rfl
  | loadJson table column key' | getKeys table column | openDhtRecord key' writer =>
      obtain rfl : w' = w := hdoes.1
      exact Or.inl rfl

/-- One call of a command changes nothing, or what the command is for. -/
theorem AppAnswers.remote {e : AppEvent} (hmay : cmd.May e.1) (ha : AppAnswers faults w e w')
    (key : Bytes) : w'.remote key = w.remote key ∨ cmd.Changed key (w'.remote key) := by
  obtain ⟨c, a⟩ := e
  cases c with
  | ident c =>
      cases a with
      | ok v => exact StoreWorld.Does.remote hmay ha key
      | error e =>
          rcases ha.2 with rfl | ⟨_, v, hdoes⟩
          · exact Or.inl rfl
          · exact StoreWorld.Does.remote hmay hdoes key
  | _ =>
      obtain rfl : w' = w := ha
      exact Or.inl rfl

/-- So do all calls of a process, wherever it is killed. -/
theorem served_remote {tr : List AppEvent} (hmay : ∀ e ∈ tr, cmd.May e.1)
    (hw : Prog.Served (AppAnswers faults) Prog.alone w tr w') (key : Bytes) :
    w'.remote key = w.remote key ∨ cmd.Changed key (w'.remote key) := by
  induction tr generalizing w with
  | nil =>
      obtain rfl := Prog.served_alone_nil_iff.1 hw
      exact Or.inl rfl
  | cons e tr ih =>
      obtain ⟨w₁, h₁, h₂⟩ := Prog.served_alone_cons_iff.1 hw
      rcases ih (fun e' he => hmay e' (List.mem_cons_of_mem _ he)) h₂ with hsame | hchanged
      · rw [hsame]
        exact AppAnswers.remote (hmay e List.mem_cons_self) h₁ key
      · exact Or.inr hchanged

variable [Capnp] {l : CommandRun} {ls : List CommandRun}

theorem StoreWorld.Process.remote (h : w.Process faults l w') (key : Bytes) :
    w'.remote key = w.remote key ∨ l.cmd.Changed key (w'.remote key) := by
  obtain ⟨rounds, debug, tr, rest, out, hx, hw, _⟩ := h
  exact served_remote (fun e he => run_confined hx e (List.mem_append_left rest he)) hw key

/-- **What commands do to the remotes.** After any sequence of processes, each of which may fail or
    be killed at any of its calls, what is stored under a key is what was there at first, or the key
    is a name, and it is the key of an address that a `remote add` of this name was given, or the
    name is gone and there was a `remote remove` of it. -/
theorem remotes_changed_by (hr : Run (StoreWorld.Process faults) w ls w') (key : Bytes) :
    w'.remote key = w.remote key ∨ ∃ l ∈ ls, l.cmd.Changed key (w'.remote key) := by
  induction hr with
  | nil => exact Or.inl rfl
  | snoc hr hs ih =>
      rcases hs.remote key with hsame | hchanged
      · rw [hsame]
        exact ih.imp_right fun ⟨l, hl, hc⟩ => ⟨l, List.mem_append_left _ hl, hc⟩
      · exact Or.inr ⟨_, List.mem_append_right _ List.mem_cons_self, hchanged⟩

/-! ### Until the next command about it -/

/-- A command that has ended well has stored what it sets. -/
theorem StoreWorld.Process.sets {lines : List String} {name : String} {value : Option TypedKey}
    (h : w.Process faults l w') (hlines : l.lines = some lines) (hsets : l.cmd.Sets name value) :
    w'.remote (asBytes name) = value.map Json.typedKey := by
  obtain ⟨rounds, debug, c, tr₀, tr₁, w₁, h₀, hw₀, hrest, hw₁⟩ := h.ended hlines
  obtain ⟨tr₂, tr₃, s₁, app', closes, rfl, hready, hcommand⟩ := exec_runWith_ok hrest
  have hoffline : l.cmd.needsNetwork = false := by
    rcases hsets with ⟨addr, key, hcmd, _⟩ | ⟨hcmd, _⟩ <;> rw [hcmd] <;> rfl
  obtain ⟨rfl, rfl⟩ := exec_networkReady_offline hoffline hready
  -- the store sees the calls of the command alone
  rw [served_identEvents_iff] at hw₁
  simp only [List.nil_append, identEvents_append, identEvents_node, List.append_nil] at hw₁
  rcases hsets with ⟨addr, key, hcmd, haddr, rfl⟩ | ⟨hcmd, rfl⟩
  · rw [hcmd] at hcommand
    obtain ⟨tr₄, tr₅, u, s₂, rfl, hadd, hdone⟩ := exec_bind_ok_iff.1 hcommand
    obtain ⟨rfl, _, _⟩ := exec_pure_iff.1 hdone
    obtain ⟨tr₆, r, c', rfl, hx, hr, _⟩ := App.exec_ident_iff.1 hadd
    rw [List.append_nil, identEvents_ident] at hw₁
    rcases ((keeps_remoteAdd name addr _).exec hx hw₁).2 with
      ⟨key', haddr', _, _, rfl⟩ | ⟨e, _, rfl, _⟩ | ⟨_, ⟨e, rfl⟩, _⟩
    · obtain rfl := Except.ok.inj (haddr'.symm.trans haddr)
      exact StoreWorld.remote_putRemote_self name _
    · cases hr
    · cases hr
  · rw [hcmd] at hcommand
    obtain ⟨tr₄, tr₅, removed, s₂, rfl, hremove, hdone⟩ := exec_bind_ok_iff.1 hcommand
    obtain ⟨tr₆, r, c', rfl, hx, hr, _⟩ := App.exec_ident_iff.1 hremove
    cases removed with
    | false => exact absurd (exec_throw_iff.1 hdone).2.1 (by simp)
    | true =>
        obtain ⟨rfl, _, _⟩ := exec_pure_iff.1 hdone
        rw [List.append_nil, identEvents_ident] at hw₁
        rcases ((keeps_remoteRemove name _).exec hx hw₁).2 with
          ⟨p, hp, _, _, rfl⟩ | ⟨_, rfl, _⟩ | ⟨_, ⟨e, rfl⟩, _⟩
        · rw [Conclave.ownNames_of_new h₀ name p hp]
          exact StoreWorld.remote_putRemote_self name _
        · cases hr
        · cases hr

/-- A process that came up has the remotes that were stored when it began. -/
theorem StoreWorld.Process.loads {c : Conclave} {name : String} {value : Option TypedKey}
    (h : w.Process faults l w') (hc : l.conclave = some c)
    (hstored : w.remote (asBytes name) = value.map Json.typedKey) :
    (c.remotes.lookup name).map Peer.dhtKey = value := by
  obtain ⟨tr₀, w₁, h₀, hw₀⟩ := h.loaded hc
  have hloaded := ((Conclave.keeps_new_remotes.exec h₀ hw₀).2 c rfl)
  cases value with
  | some key => exact hloaded.lookup hstored
  | none =>
      cases hl : c.remotes.lookup name with
      | none => rfl
      | some p =>
          have hkey := (hloaded.within name p hl).2
          exact absurd (hstored.symm.trans hkey) (by simp)

/-- `remote list` prints every remote that was stored when it began. -/
theorem StoreWorld.Process.lists {lines : List String} {name : String} {key : TypedKey}
    (h : w.Process faults l w') (hcmd : l.cmd = .remote .list) (hlines : l.lines = some lines)
    (hstored : w.remote (asBytes name) = some (.typedKey key)) :
    name ++ "\t" ++ CryptoSystem.keyToString key ∈ lines := by
  obtain ⟨rounds, debug, c, tr₀, tr₁, w₁, h₀, hw₀, hrest, _⟩ := h.ended hlines
  obtain ⟨tr₂, tr₃, s₁, app', closes, rfl, hready, hcommand⟩ := exec_runWith_ok hrest
  rw [hcmd] at hready hcommand
  obtain ⟨rfl, rfl⟩ := exec_networkReady_offline rfl hready
  have hget : Exec (get >>= fun app => pure (app.conclave.remoteKeys.map fun remote =>
      remote.1 ++ "\t" ++ CryptoSystem.keyToString remote.2) : App (List String)) ⟨c⟩ tr₃
      (.ok lines) app' := hcommand
  have hprinted := exec_get_bind_iff.1 hget
  obtain rfl := Except.ok.inj (exec_pure_iff.1 hprinted).2.1
  have hloaded := (Conclave.keeps_new_remotes.exec h₀ hw₀).2 c rfl
  obtain ⟨p, hp, rfl⟩ := Option.map_eq_some_iff.1 (hloaded.lookup hstored)
  refine List.mem_map.2 ⟨(name, p.dhtKey), List.mem_map.2 ⟨p, ?_, ?_⟩, rfl⟩
  · exact Conclave.mem_peers_iff.2 ⟨name, hp⟩
  · rw [(hloaded.within name p hp).1]

/-- **A remote lasts until the next command about it.** Once a `remote add` or a `remote remove` of a
    name has ended well, whatever processes run, fail or are killed afterwards, as long as none of
    them is another of this name: its entry stays as it is, every node that comes up has it, and
    every `remote list` that ends well prints it. -/
theorem remote_lasts {name : String} {value : Option TypedKey} {lines : List String}
    (h : w.Process faults l w') (hended : l.lines = some lines) (hsets : l.cmd.Sets name value)
    {w'' : StoreWorld} (hr : Run (StoreWorld.Process faults) w' ls w'')
    (hlast : ∀ l' ∈ ls, ∀ value', ¬ l'.cmd.Sets name value') :
    w''.remote (asBytes name) = value.map Json.typedKey ∧
    (∀ l' ∈ ls, ∀ c, l'.conclave = some c → (c.remotes.lookup name).map Peer.dhtKey = value) ∧
    ∀ l' ∈ ls, ∀ key lines', value = some key → l'.cmd = .remote .list → l'.lines = some lines' →
      name ++ "\t" ++ CryptoSystem.keyToString key ∈ lines' := by
  induction hr with
  | nil => exact ⟨h.sets hended hsets, by simp, by simp⟩
  | @snoc ls w₁ w₂ l' hr hs ih =>
      obtain ⟨hstored, hloads, hlists⟩ := ih fun l' hl' => hlast l' (List.mem_append_left _ hl')
      refine ⟨?_, fun l₂ hl₂ c hc => ?_, fun l₂ hl₂ key lines' hvalue hcmd hlines => ?_⟩
      · rcases hs.remote (asBytes name) with hsame | ⟨other, value', hname, hother, _⟩
        · exact hsame.trans hstored
        · obtain rfl := asBytes_injective hname
          exact absurd hother (hlast l' (by simp) value')
      · rcases List.mem_append.1 hl₂ with hl₂ | hl₂
        · exact hloads l₂ hl₂ c hc
        · obtain rfl := List.mem_singleton.1 hl₂
          exact hs.loads hc hstored
      · rcases List.mem_append.1 hl₂ with hl₂ | hl₂
        · exact hlists l₂ hl₂ key lines' hvalue hcmd hlines
        · obtain rfl := List.mem_singleton.1 hl₂
          rw [hvalue] at hstored
          exact hs.lists hcmd hlines hstored

end Remotes

/-! ## The identity -/

section Identity
variable [CryptoSystem] {faults : StoreWorld.Faults} {w w' : StoreWorld} {cmd : Commands}
  {known : Option Identity}

omit [CryptoSystem] in
theorem StoreWorld.Carries.putRemotes (hw : w.Carries known) (column : Nat) (key : Bytes)
    (value : Option Json) : (w.put .conclaveRemotes column key value).Carries known := by
  have hlocal : (w.put .conclaveRemotes column key value).cell .conclaveLocal =
      w.cell .conclaveLocal := by
    funext c k
    exact StoreWorld.cell_put_of_ne (by simp)
  exact hw.congr hlocal

/-- No command touches the stored identity. -/
theorem StoreWorld.Does.carries {c : IdentCall} {v : c.Val} (hstores : cmd.Stores c)
    (hdoes : w.Does c v w') (hw : w.Carries known) : w'.Carries known := by
  cases c with
  | storeJson table column key value =>
      obtain rfl : w' = w.put table column key (some value) := hdoes
      obtain ⟨rfl, _⟩ := hstores
      exact hw.putRemotes column key _
  | delete table column key =>
      obtain rfl : w' = w.put table column key none := hdoes
      obtain ⟨rfl, _⟩ := hstores
      exact hw.putRemotes column key _
  | tableStore | «open» table columns =>
      obtain rfl : w' = w := hdoes
      exact hw
  | loadJson table column key =>
      obtain rfl : w' = w := hdoes.1
      exact hw
  | createDhtRecord _ | closeDhtRecord _ | openDhtRecord _ _ | getKeys _ _ => exact hstores.elim

theorem AppAnswers.carries {e : AppEvent} (hcall : cmd.Calls e.1 ∨ ∃ c, e.1 = .node c)
    (ha : AppAnswers faults w e w') (hw : w.Carries known) : w'.Carries known := by
  obtain ⟨c, a⟩ := e
  cases c with
  | ident c =>
      have hstores : cmd.Stores c := hcall.resolve_right (by simp)
      cases a with
      | ok v => exact StoreWorld.Does.carries hstores ha hw
      | error e =>
          rcases ha.2 with rfl | ⟨_, v, hdoes⟩
          · exact hw
          · exact StoreWorld.Does.carries hstores hdoes hw
  | _ =>
      obtain rfl : w' = w := ha
      exact hw

theorem served_carries {tr : List AppEvent} (hcalls : ∀ e ∈ tr, cmd.Calls e.1 ∨ ∃ c, e.1 = .node c)
    (hserved : Prog.Served (AppAnswers faults) Prog.alone w tr w') (hw : w.Carries known) :
    w'.Carries known := by
  induction tr generalizing w with
  | nil =>
      obtain rfl := Prog.served_alone_nil_iff.1 hserved
      exact hw
  | cons e tr ih =>
      obtain ⟨w₁, h₁, h₂⟩ := Prog.served_alone_cons_iff.1 hserved
      exact ih (fun e' he => hcalls e' (List.mem_cons_of_mem _ he)) h₂
        (AppAnswers.carries (hcalls e List.mem_cons_self) h₁ hw)

omit [CryptoSystem] in
theorem Started.unique {c c' : Conclave} {tr : List AppEvent} (h : Started c tr)
    (h' : Started c' tr) : c' = c := by
  obtain ⟨tr₀, rest, h₀, rfl⟩ := h
  exact (Except.ok.inj (h'.returned h₀)).symm

variable [Capnp] {l : CommandRun} {ls : List CommandRun}

/-- `addr` prints the key of the conclave that was loaded. -/
theorem exec_addr_ok {rounds : Nat} {debug : Error → String} {c : Conclave} {tr : List AppEvent}
    {lines : List String} (h : Prog.Exec (runWith rounds debug .addr ⟨c⟩) tr (.ok (some lines))) :
    lines = [CryptoSystem.keyToString c.sovereign.dhtKey] := by
  obtain ⟨tr₁, tr₂, s₁, app', closes, rfl, hready, hcommand⟩ := exec_runWith_ok h
  have hget : Exec (get >>= fun app => pure [app.addr] : App (List String)) s₁ tr₂ (.ok lines) app' :=
    hcommand
  have hprinted := exec_get_bind_iff.1 hget
  obtain rfl := Except.ok.inj (exec_pure_iff.1 hprinted).2.1
  have hkey : s₁.conclave.sovereign.dhtKey = c.sovereign.dhtKey :=
    congrArg Prod.fst (exec_networkReady_keys hready)
  rw [DDCP.addr, hkey]

/-- What a process shows of the identity that is known after it. -/
structure CommandRun.Shows (l : CommandRun) (known : Option Identity) : Prop where
  conclave : ∀ c, l.conclave = some c → known = some c.sovereign.identity ∧
    c.sovereign.dhtOwnerKeypair.kind = CRYPTO_KIND_VLD0
  lines : ∀ lines, l.cmd = .addr → l.lines = some lines →
    ∃ id, known = some id ∧ lines = [CryptoSystem.keyToString id.1]

/-- **The step lemma.** -/
theorem StoreWorld.Process.carries (h : w.Process faults l w') (hw : w.Carries known) :
    ∃ known', w'.Carries known' ∧ (∀ id, known = some id → known' = some id) ∧ l.Shows known' := by
  obtain ⟨rounds, debug, tr, rest, out, hx, hserved, hconclave, hended⟩ := h
  rcases exec_run_served hx hserved with
    ⟨hdown, hfailed, hstore⟩ | ⟨c, tr₀, tr₁, w₁, hs, h₀, hw₀, hrest, hw₁⟩
  · refine ⟨known, ?_, fun id hid => hid, ⟨fun c hc => absurd (hconclave c hc) (hdown c), ?_⟩⟩
    · rcases hstore with rfl | ⟨tr₀, rest₀, r₀, h₀, hw₀⟩
      · exact hw
      · exact Prog.Keeps.exec_cut (Conclave.keeps_new hw) h₀ hw₀
    · intro lines _ hlines
      obtain ⟨hnil, rfl⟩ := hended lines hlines
      obtain ⟨e, hout⟩ := hfailed hnil
      exact absurd hout (by simp)
  · obtain ⟨hcarries, hstored⟩ := (Conclave.keeps_new hw).exec h₀ hw₀
    obtain ⟨hid, hkind⟩ := hstored c rfl
    have hsome : w₁.Carries (some c.sovereign.identity) :=
      ⟨hcarries.1, fun id hk => Option.some.inj hk ▸ hid⟩
    refine ⟨some c.sovereign.identity, ?_, fun id hk => ?_, ⟨fun c' hc' => ?_, ?_⟩⟩
    · have hcalls : ∀ e ∈ tr₁, l.cmd.Calls e.1 ∨ ∃ c, e.1 = .node c := fun e he =>
        (exec_runWith_calls hrest e (List.mem_append_left _ he)).imp_right
          fun ⟨c₀, hc₀, _⟩ => ⟨c₀, hc₀⟩
      exact served_carries hcalls hw₁ hsome
    · -- what was known is still stored, and it is this
      rw [hid.eq (hcarries.2 id hk)]
    · obtain rfl := hs.unique (hconclave c' hc')
      exact ⟨rfl, hkind⟩
    · intro lines hcmd hlines
      obtain ⟨rfl, rfl⟩ := hended lines hlines
      rw [hcmd] at hrest
      exact ⟨_, rfl, exec_addr_ok hrest⟩

/-- **One address.** From a store without an identity, whatever processes run, fail or are killed:
    all nodes that come up have one identity, that of one record that was created, it is still
    stored, and every `addr` that ends well prints its key. -/
theorem address_kept {w₀ : StoreWorld} (h0 : w₀.Fresh)
    (hr : Run (StoreWorld.Process faults) w₀ ls w) : ∃ id : Identity, ∀ l ∈ ls,
      (∀ c, l.conclave = some c → c.sovereign.dhtKey = id.1 ∧
        c.sovereign.dhtOwnerKeypair = ⟨CRYPTO_KIND_VLD0, id.2⟩ ∧ w.IsIdentity id ∧
        w.OfRecord id) ∧
      ∀ lines, l.cmd = .addr → l.lines = some lines →
        lines = [CryptoSystem.keyToString id.1] := by
  have hkeeps : ∃ known, w.Carries known ∧ ∀ l ∈ ls, l.Shows known := by
    induction hr with
    | nil =>
        refine ⟨none, ⟨⟨fun v hv => ?_, fun v hv => ?_, h0.distinct⟩, by simp⟩, by simp⟩
        · exact absurd (h0.key.symm.trans hv) (by simp)
        · exact absurd (h0.owner.symm.trans hv) (by simp)
    | snoc hr hs ih =>
        obtain ⟨known, hw, hshows⟩ := ih
        obtain ⟨known', hw', hmore, hl⟩ := hs.carries hw
        refine ⟨known', hw', fun l' hl' => ?_⟩
        rcases List.mem_append.1 hl' with hl' | hl'
        · refine ⟨fun c hc => ?_, fun lines hcmd hlines => ?_⟩
          · obtain ⟨hknown, hkind⟩ := (hshows l' hl').conclave c hc
            exact ⟨hmore _ hknown, hkind⟩
          · obtain ⟨id, hknown, hprinted⟩ := (hshows l' hl').lines lines hcmd hlines
            exact ⟨id, hmore _ hknown, hprinted⟩
        · obtain rfl := List.mem_singleton.1 hl'
          exact hl
  obtain ⟨known, hw, hshows⟩ := hkeeps
  cases known with
  | none =>
      refine ⟨(⟨CRYPTO_KIND_VLD0, []⟩, ⟨[], []⟩), fun l hl => ⟨fun c hc => ?_, fun lines h₁ h₂ => ?_⟩⟩
      · exact absurd ((hshows l hl).conclave c hc).1 (by simp)
      · obtain ⟨id, hid, _⟩ := (hshows l hl).lines lines h₁ h₂
        exact absurd hid (by simp)
  | some id =>
      have hid := hw.2 id rfl
      refine ⟨id, fun l hl => ⟨fun c hc => ?_, fun lines hcmd hlines => ?_⟩⟩
      · obtain ⟨hknown, hkind⟩ := (hshows l hl).conclave c hc
        obtain rfl := Option.some.inj hknown
        obtain ⟨id', hid', hrecord⟩ := hw.1.owner _ hid.2
        obtain rfl := hid.eq hid'
        exact ⟨rfl, typedKeyPair_eq hkind rfl, hid', hrecord⟩
      · obtain ⟨id', hknown, rfl⟩ := (hshows l hl).lines lines hcmd hlines
        rw [Option.some.inj hknown]

end Identity

section Example
attribute [local instance] plainCapnp plainCrypto

/-- A process that is not killed. -/
theorem process_ended {faults : StoreWorld.Faults} {w w₁ w' : StoreWorld} {cmd : Commands}
    {c : Conclave} {tr₀ : List IdentEvent} {tr : List AppEvent} {lines : List String} {app' : DDCP}
    (hshell : cmd ≠ .shell) (h₀ : Exec Conclave.new () tr₀ (.ok c) ())
    (hw₀ : Prog.Served (StoreWorld.Answers faults) Prog.alone w tr₀ w₁)
    (hx : Exec (runApp 1 (fun _ => "") cmd) ⟨c⟩ tr (.ok (some lines)) app')
    (hw : Prog.Served (AppAnswers faults) Prog.alone w₁ tr w') :
    w.Process faults ⟨cmd, some c, some lines⟩ w' := by
  obtain ⟨closes, hclose⟩ := exec_runWith_of_ok hx
  have hrun := exec_run_of_started hshell h₀ hclose
  rw [← List.append_nil (startupTrace tr₀ ++ _)] at hrun
  refine ⟨1, fun _ => "", _, [], _, hrun, ?_, fun c' hc' => ?_, ?_⟩
  · rw [served_identEvents_iff] at hw ⊢
    simp only [identEvents_append, identEvents_startupTrace, identEvents_node, List.append_nil]
    exact Prog.served_append_iff.2 ⟨w₁, hw₀, hw⟩
  · obtain rfl := Option.some.inj hc'
    exact started_of_new h₀ _
  · intro lines' hlines
    obtain rfl := Option.some.inj hlines
    exact ⟨rfl, rfl⟩

def bobAddr : String := PlainCrypto.keyToString bobKey

/-- A state directory with bob. -/
def bobWorld : StoreWorld := firstWorld.putRemote "bob" (some bobKey)

/-- `ddcp remote add bob` in a new state directory. -/
theorem process_add_bob : StoreWorld.empty.Process dhtFaults
    ⟨.remote (.add "bob" bobAddr), some firstConclave, some []⟩ bobWorld := by
  have hruns : firstWorld.Runs (remoteAdd "bob" bobAddr) firstConclave (.ok ()) _ bobWorld :=
    runs_remoteAdd (PlainCrypto.keyFromStr_keyToString bobKey)
  obtain ⟨tr, hx, hw⟩ := hruns
  have hadd : Exec (runCommand (fun _ => "") (.remote (.add "bob" bobAddr))) ⟨firstConclave⟩ _
      (.ok []) _ :=
    exec_bind_of_ok (App.exec_ident_iff.2 ⟨tr, _, _, rfl, hx, rfl, rfl⟩) (.pure _)
  have happ : Exec (runApp 1 (fun _ => "") (.remote (.add "bob" bobAddr))) ⟨firstConclave⟩ _
      (.ok (some [])) _ := exec_bind_of_ok (.pure _) (exec_bind_of_ok hadd (.pure _))
  refine process_ended (by simp) exec_first served_first happ ?_
  rw [served_identEvents_iff]
  simpa using hw

theorem served_new_bob {faults : StoreWorld.Faults} :
    Prog.Served (StoreWorld.Answers faults) Prog.alone bobWorld (loadTrace ++
      [⟨.tableStore, .ok ()⟩, ⟨.open .conclaveRemotes 1, .ok ()⟩,
        ⟨.getKeys .conclaveRemotes 0, .ok [asBytes "bob"]⟩,
        ⟨.loadJson .conclaveRemotes 0 (asBytes "bob"), .ok (some (.typedKey bobKey))⟩]) bobWorld := by
  have hkeys : ∀ k, k ∈ [asBytes "bob"] ↔ (bobWorld.remote k).isSome := by
    intro k
    rw [List.mem_singleton]
    by_cases hk : k = asBytes "bob"
    · subst hk
      rw [bobWorld, StoreWorld.remote_putRemote_self]
      simp
    · rw [bobWorld, StoreWorld.remote_putRemote_of_ne hk]
      simp [hk, StoreWorld.remote, firstWorld, StoreWorld.put, StoreWorld.empty]
  exact .cons .refl rfl <| .cons .refl rfl <| .cons .refl ⟨rfl, rfl⟩ <| .cons .refl ⟨rfl, rfl⟩ <|
    .cons .refl ⟨rfl, rfl⟩ <| .cons .refl rfl <| .cons .refl rfl <|
    .cons .refl ⟨rfl, List.nodup_singleton _, hkeys⟩ <|
    .cons .refl ⟨rfl, (StoreWorld.remote_putRemote_self "bob" (some bobKey)).symm⟩ (.nil .refl)

/-- `ddcp remote list` there. -/
theorem process_list_bob : bobWorld.Process dhtFaults
    ⟨.remote .list, some (conclaveWith none loadedBob), some ["bob" ++ "\t" ++ bobAddr]⟩ bobWorld := by
  have hlist : Exec (runApp 1 (fun _ => "") (.remote .list)) ⟨conclaveWith none loadedBob⟩ []
      (.ok (some ["bob" ++ "\t" ++ bobAddr])) ⟨conclaveWith none loadedBob⟩ := .pure _
  exact process_ended (by simp) exec_new_bob served_new_bob hlist (.nil .refl)

/-- `ddcp addr` there. -/
theorem process_addr_bob : bobWorld.Process dhtFaults ⟨.addr, some (conclaveWith none loadedBob),
    some [PlainCrypto.keyToString firstRecord.key]⟩ bobWorld := by
  have hpush : Exec (DDCP.pushUntilOk 1) ⟨conclaveWith none loadedBob⟩ (announceTrace none)
      (.ok true) ⟨conclaveWith (some ⟨[1], [1]⟩) (bobWith none none)⟩ :=
    Prog.exec_trace (deafBob none) (DDCP.pushUntilOk 1 ⟨conclaveWith none loadedBob⟩) ()
  have hready : Exec (networkReady 1 .addr) ⟨conclaveWith none loadedBob⟩ waitTrace (.ok true)
      ⟨conclaveWith (some ⟨[1], [1]⟩) (bobWith none none)⟩ :=
    .call (App.exec_node_iff.2 ⟨_, rfl, hpush⟩)
  refine process_ended (by simp) exec_new_bob served_new_bob
    (exec_bind_of_ok hready (exec_bind_of_ok (.pure _) (.pure _))) ?_
  rw [served_identEvents_iff]
  exact .nil .refl

theorem remotes_changed_by_add : Run (StoreWorld.Process dhtFaults) .empty
      [⟨.remote (.add "bob" bobAddr), some firstConclave, some []⟩] bobWorld ∧
    (Commands.remote (.add "bob" bobAddr)).Changed (asBytes "bob")
      (bobWorld.remote (asBytes "bob")) := by
  have hr : Run (StoreWorld.Process dhtFaults) .empty _ bobWorld := .snoc .nil process_add_bob
  have hbob : bobWorld.remote (asBytes "bob") = some (.typedKey bobKey) :=
    StoreWorld.remote_putRemote_self "bob" (some bobKey)
  rcases remotes_changed_by hr (asBytes "bob") with hsame | ⟨l, hl, hchanged⟩
  · rw [hbob] at hsame
    exact absurd hsame (by simp [StoreWorld.remote, StoreWorld.empty])
  · obtain rfl := List.mem_singleton.1 hl
    exact ⟨hr, hchanged⟩

theorem remote_lasts_addr : ∃ ls w, Run (StoreWorld.Process dhtFaults) bobWorld ls w ∧
    (⟨.addr, some (conclaveWith none loadedBob),
      some [PlainCrypto.keyToString firstRecord.key]⟩ : CommandRun) ∈ ls ∧
    w.remote (asBytes "bob") = some (.typedKey bobKey) ∧
    ((conclaveWith none loadedBob).remotes.lookup "bob").map Peer.dhtKey = some bobKey := by
  have hr : Run (StoreWorld.Process dhtFaults) bobWorld _ bobWorld :=
    .snoc (.snoc .nil process_addr_bob) process_list_bob
  have hadd : (Commands.remote (.add "bob" bobAddr)).Sets "bob" (some bobKey) :=
    Or.inl ⟨bobAddr, bobKey, rfl, PlainCrypto.keyFromStr_keyToString bobKey, rfl⟩
  have h := remote_lasts process_add_bob rfl hadd hr (by simp [Commands.Sets])
  exact ⟨_, bobWorld, hr, by simp, h.1, h.2.1 _ List.mem_cons_self _ rfl⟩

theorem address_kept_addr : ∃ ls w, Run (StoreWorld.Process dhtFaults) .empty ls w ∧
    (⟨.addr, some (conclaveWith none loadedBob),
      some [PlainCrypto.keyToString firstRecord.key]⟩ : CommandRun) ∈ ls ∧
    ∃ id : Identity, id.1 = firstConclave.sovereign.dhtKey ∧ w.OfRecord id ∧
      [PlainCrypto.keyToString firstRecord.key] = [CryptoSystem.keyToString id.1] := by
  have hr : Run (StoreWorld.Process dhtFaults) .empty _ bobWorld :=
    .snoc (.snoc .nil process_add_bob) process_addr_bob
  have hfresh : StoreWorld.empty.Fresh := ⟨rfl, rfl, List.nodup_nil⟩
  obtain ⟨id, hid⟩ := address_kept hfresh hr
  obtain ⟨hkey, _, _, hrecord⟩ := (hid _ List.mem_cons_self).1 firstConclave rfl
  have hprinted := (hid _ (List.mem_append_right _ List.mem_cons_self)).2 _ rfl rfl
  exact ⟨_, bobWorld, hr, by simp, id, hkey.symm, hrecord, hprinted⟩

end Example

end Ddcp
