import Ddcp.Cli.Basic
import Ddcp.Node.Panic
import Ddcp.Node.Shutdown

set_option autoImplicit false

/-! # What a process does, part by part

The executions of `run` taken apart: the startup, the wait for the network, the command, and the
cleanup. -/

namespace Ddcp

open Method

theorem Except.mapError_id_eq {ε α : Type} (r : Except ε α) : r.mapError id = r := by
  cases r <;> rfl

/-! ## The node and the table store -/

namespace App
variable {α β : Type} {s s' : DDCP} {tr : List AppEvent} {r : Except Abort α}

theorem exec_node_iff {x : Act DDCP α} :
    Exec (node x) s tr r s' ↔ ∃ tr₀, tr = tr₀.map nodeCalls.event ∧ Exec x s tr₀ r s' := by
  refine exec_embed_iff.trans ?_
  constructor
  · rintro ⟨tr₀, r₀, rfl, h, rfl⟩
    exact ⟨tr₀, rfl, by rw [Except.mapError_id_eq]; exact h⟩
  · rintro ⟨tr₀, rfl, h⟩
    exact ⟨tr₀, r, rfl, h, (Except.mapError_id_eq r).symm⟩

theorem exec_ident_iff {x : Ident Conclave α} :
    Exec (ident x) s tr r s' ↔ ∃ tr₀ r₀ c, tr = tr₀.map identCalls.event ∧
      Exec x s.conclave tr₀ r₀ c ∧ r = r₀.mapError Abort.err ∧ s' = ⟨c⟩ := by
  refine exec_zoom_iff.trans ?_
  constructor
  · rintro ⟨c, h, rfl⟩
    obtain ⟨tr₀, r₀, rfl, h₀, rfl⟩ := exec_embed_iff.1 h
    exact ⟨tr₀, r₀, c, rfl, h₀, rfl, rfl⟩
  · rintro ⟨tr₀, r₀, c, rfl, h₀, rfl, rfl⟩
    exact ⟨c, exec_embed_iff.2 ⟨tr₀, r₀, rfl, h₀, rfl⟩, rfl⟩

/-- Every call of `x` is one of `P`. -/
abbrev Makes (P : AppCall → Prop) (x : App α) : Prop := Within (frame (fun _ : DDCP => ()) P) x

theorem composable {P : AppCall → Prop} :
    @Composable AppCall AppRet DDCP (frame (fun _ => ()) P) := composable_frame _ _

theorem makes_node {P : AppCall → Prop} {P₀ : Call → Prop} {x : Act DDCP α}
    (h : Within (frame (fun _ : DDCP => ()) P₀) x) (hP : ∀ c, P₀ c → P (.node c)) :
    Makes P (node x) := h.embed hP

theorem makes_ident {P : AppCall → Prop} {P₀ : IdentCall → Prop} {x : Ident Conclave α}
    (h : Within (frame (fun _ : Conclave => ()) P₀) x) (hP : ∀ c, P₀ c → P (.ident c)) :
    Makes P (ident x) :=
  Within.zoom (fun _ _ _ h => ⟨rfl, h.2⟩) (h.embed hP)

theorem makes_perform {P : AppCall → Prop} {c : AppCall} (hc : P c) :
    Makes P (perform c) :=
  Within.perform fun _ _ => ⟨rfl, fun e he => by rw [List.mem_singleton.1 he]; exact hc⟩

end App

/-! ## Starting up -/

/-- What has been called when the node is up. -/
def startupTrace (tr : List IdentEvent) : List AppEvent :=
  ⟨.files, .ok ()⟩ :: ⟨.newDb, .ok ()⟩ :: ⟨.startup, .ok ()⟩ :: tr.map identCalls.event

/-- The node is up with the conclave it has loaded. -/
def Started (c : Conclave) (tr : List AppEvent) : Prop :=
  ∃ tr₀ rest, Exec Conclave.new () tr₀ (.ok c) () ∧ tr = startupTrace tr₀ ++ rest

theorem started_of_new {c : Conclave} {tr₀ : List IdentEvent}
    (h : Exec Conclave.new () tr₀ (.ok c) ()) (rest : List AppEvent) :
    Started c (startupTrace tr₀ ++ rest) := ⟨tr₀, rest, h, rfl⟩

/-- What is called before the node is up. -/
def AppCall.Early : AppCall → Prop
  | .files | .execSqlite3 | .newDb | .startup | .ident _ => True
  | _ => False

/-- Two startups that are answered alike return alike, and stop at the same call. -/
theorem startupTrace_unique {tr₀ tr₁ : List IdentEvent} {r₀ r₁ : Except Error Conclave}
    {l l' : List AppEvent} (h₀ : Exec Conclave.new () tr₀ r₀ ()) (h₁ : Exec Conclave.new () tr₁ r₁ ())
    (heq : startupTrace tr₀ ++ l = startupTrace tr₁ ++ l') :
    startupTrace tr₀ = startupTrace tr₁ ∧ r₀ = r₁ := by
  have htail : tr₀.map identCalls.event ++ l = tr₁.map identCalls.event ++ l' :=
    (List.cons.inj (List.cons.inj (List.cons.inj heq).2).2).2
  have hx : Prog.Exec ((Conclave.new ()).embed identCalls) (tr₀.map identCalls.event) (r₀, ()) :=
    Prog.exec_embed_iff.2 ⟨tr₀, rfl, h₀⟩
  have hx' : Prog.Exec ((Conclave.new ()).embed identCalls) (tr₁.map identCalls.event) (r₁, ()) :=
    Prog.exec_embed_iff.2 ⟨tr₁, rfl, h₁⟩
  obtain ⟨htr, hr⟩ := hx.eq_of_prefix hx' htail
  exact ⟨by rw [startupTrace, startupTrace, htr], congrArg Prod.fst hr⟩

/-- Whether a startup has brought the node up, and with which conclave, is how it returned. -/
theorem Started.returned {c : Conclave} {tr₀ : List IdentEvent} {r : Except Error Conclave}
    {rest : List AppEvent} (h : Exec Conclave.new () tr₀ r ())
    (hs : Started c (startupTrace tr₀ ++ rest)) : r = .ok c := by
  obtain ⟨tr₁, rest', h', heq⟩ := hs
  exact (startupTrace_unique h h' heq).2

theorem Started.append {c : Conclave} {tr : List AppEvent} (h : Started c tr)
    (rest : List AppEvent) : Started c (tr ++ rest) := by
  obtain ⟨tr₀, rest₀, h₀, rfl⟩ := h
  exact ⟨tr₀, rest₀ ++ rest, h₀, List.append_assoc _ _ _⟩

/-- `DDCP::new` fails at one of its calls, or loads a conclave, or fails to. -/
theorem exec_new_cases {tr : List AppEvent} {r : Except Error DDCP}
    (h : Prog.Exec DDCP.new tr r) :
    (∃ e, tr = [⟨.newDb, .error e⟩] ∧ r = .error (.db e)) ∨
    (∃ e, tr = [⟨.newDb, .ok ()⟩, ⟨.startup, .error e⟩] ∧ r = .error (.veilidAPI e)) ∨
    ∃ tr₀ r₀, tr = ⟨.newDb, .ok ()⟩ :: ⟨.startup, .ok ()⟩ :: tr₀.map identCalls.event ∧
      Exec Conclave.new () tr₀ r₀ () ∧ r = r₀.map DDCP.mk := by
  obtain ⟨db, tr₁, rfl, h₁⟩ := Prog.exec_call_iff.1 h
  cases db with
  | error e =>
      obtain ⟨rfl, rfl⟩ := Prog.exec_pure_iff.1 h₁
      exact Or.inl ⟨e, rfl, rfl⟩
  | ok u =>
      obtain ⟨api, tr₂, rfl, h₂⟩ := Prog.exec_call_iff.1 h₁
      cases api with
      | error e =>
          obtain ⟨rfl, rfl⟩ := Prog.exec_pure_iff.1 h₂
          exact Or.inr (Or.inl ⟨e, rfl, rfl⟩)
      | ok u =>
          obtain ⟨⟨r₀, u⟩, hx, rfl⟩ := Prog.exec_bind_pure_iff.1 h₂
          obtain ⟨tr₀, rfl, h₀⟩ := Prog.exec_embed_iff.1 hx
          exact Or.inr (Or.inr ⟨tr₀, r₀, rfl, h₀, rfl⟩)

section Run

/-- The end of `run`, from the outcome of the command on. -/
def cleanedUp (r : Except Abort (Option (List String))) (app : DDCP) :
    Prog AppCall AppRet (Except Abort (Option (List String))) :=
  match r with
  | .error .panic => return .error .panic
  | .ok none => return .ok none
  | result => do
      let _ ← (DDCP.cleanup app).embed nodeCalls
      return result

/-- `run`, once `DDCP::new` has returned. -/
def startedWith [Capnp] [CryptoSystem] (rounds : Nat) (debug : Error → String) (cmd : Commands) :
    Except Error DDCP → Prog AppCall AppRet (Except Abort (Option (List String)))
  | .error e => return .error (.err e)
  | .ok app => runWith rounds debug cmd app

variable [Capnp] [CryptoSystem] {rounds : Nat} {debug : Error → String} {cmd : Commands}
  {tr : List AppEvent} {out : Except Abort (Option (List String))}

/-- Any command but `shell`, with a node that comes up. -/
theorem exec_run_of_started (hshell : cmd ≠ .shell) {c : Conclave} {tr₀ : List IdentEvent}
    (h₀ : Exec Conclave.new () tr₀ (.ok c) ())
    (h : Prog.Exec (runWith rounds debug cmd ⟨c⟩) tr out) :
    Prog.Exec (run rounds debug cmd) (startupTrace tr₀ ++ tr) out := by
  have hnew : Prog.Exec DDCP.new (⟨.newDb, .ok ()⟩ :: ⟨.startup, .ok ()⟩ ::
      tr₀.map identCalls.event) (.ok ⟨c⟩) :=
    .call (.call (Prog.exec_bind_pure_iff.2 ⟨(.ok c, ()), Prog.exec_embed_iff.2 ⟨tr₀, rfl, h₀⟩, rfl⟩))
  have hbind : Prog.Exec (Prog.bind DDCP.new fun app => startedWith rounds debug cmd app)
      ((⟨.newDb, .ok ()⟩ :: ⟨.startup, .ok ()⟩ :: tr₀.map identCalls.event) ++ tr) out :=
    Prog.exec_bind_iff.2 ⟨_, _, tr, rfl, hnew, h⟩
  cases cmd <;> first | exact absurd rfl hshell | exact .call hbind

/-- What a command calls before the identities are loaded. -/
def Commands.Boots (cmd : Commands) : AppCall → Prop
  | .files => True
  | .execSqlite3 => cmd = .shell
  | .newDb | .startup => cmd ≠ .shell
  | _ => False

omit [Capnp] [CryptoSystem] in
theorem Commands.Boots.early {c : AppCall} (h : cmd.Boots c) : c.Early := by
  cases c <;> trivial

/-- How far a process gets: not to its identities, or to an error while it loads them, or to its
    command. -/
theorem exec_run_stages (h : Prog.Exec (run rounds debug cmd) tr out) :
    ((∀ e ∈ tr, cmd.Boots e.1) ∧ (∀ c, ¬ Started c tr) ∧ ∃ e, out = .error (.err e)) ∨
    cmd ≠ .shell ∧ ∃ tr₀ tr₁ r₀, Exec Conclave.new () tr₀ r₀ () ∧ tr = startupTrace tr₀ ++ tr₁ ∧
      ((∃ e, r₀ = .error e ∧ tr₁ = [] ∧ out = .error (.err e)) ∨
        ∃ c, r₀ = .ok c ∧ Prog.Exec (runWith rounds debug cmd ⟨c⟩) tr₁ out) := by
  obtain ⟨files, tr₁, rfl, h₁⟩ := Prog.exec_call_iff.1 h
  cases files with
  | error e =>
      obtain ⟨rfl, rfl⟩ := Prog.exec_pure_iff.1 h₁
      exact Or.inl ⟨by simp [Commands.Boots], by simp [Started, startupTrace], e, rfl⟩
  | ok u =>
  by_cases hshell : cmd = .shell
  · subst hshell
    obtain ⟨err, tr₂, rfl, h₂⟩ := Prog.exec_call_iff.1 h₁
    obtain ⟨rfl, rfl⟩ := Prog.exec_pure_iff.1 h₂
    exact Or.inl ⟨by simp [Commands.Boots], by simp [Started, startupTrace], _, rfl⟩
  have hnew : Prog.Exec (Prog.bind DDCP.new fun app => startedWith rounds debug cmd app) tr₁ out := by
    cases cmd <;> first | exact absurd rfl hshell | exact h₁
  obtain ⟨tr₂, r, tr₃, rfl, hx, hrest⟩ := Prog.exec_bind_iff.1 hnew
  rcases exec_new_cases hx with ⟨e, rfl, rfl⟩ | ⟨e, rfl, rfl⟩ | ⟨tr₀, r₀, rfl, h₀, rfl⟩
  · obtain ⟨rfl, rfl⟩ := Prog.exec_pure_iff.1 hrest
    exact Or.inl ⟨by simp [Commands.Boots, hshell], by simp [Started, startupTrace], _, rfl⟩
  · obtain ⟨rfl, rfl⟩ := Prog.exec_pure_iff.1 hrest
    exact Or.inl ⟨by simp [Commands.Boots, hshell], by simp [Started, startupTrace], _, rfl⟩
  refine Or.inr ⟨hshell, tr₀, tr₃, r₀, h₀, rfl, ?_⟩
  cases r₀ with
  | error e =>
      obtain ⟨rfl, rfl⟩ := Prog.exec_pure_iff.1 hrest
      exact Or.inl ⟨e, rfl, rfl, rfl⟩
  | ok c => exact Or.inr ⟨c, rfl, hrest⟩

/-- A panic, and a process that is still waiting, get to no cleanup. -/
def Unfinished (out : Except Abort (Option (List String))) : Prop :=
  out = .error .panic ∨ out = .ok none

omit [Capnp] [CryptoSystem] in
theorem exec_cleanedUp_iff {r : Except Abort (Option (List String))} {app : DDCP} :
    Prog.Exec (cleanedUp r app) tr out ↔ out = r ∧ (Unfinished r ∧ tr = [] ∨ ¬ Unfinished r ∧
      ∃ tr₁ p, Prog.Exec (DDCP.cleanup app) tr₁ p ∧ tr = tr₁.map nodeCalls.event) := by
  have hquiet : Unfinished r → cleanedUp r app = .pure r := by
    rintro (rfl | rfl) <;> rfl
  have hclean : ¬ Unfinished r → cleanedUp r app =
      Prog.bind ((DDCP.cleanup app).embed nodeCalls) fun _ => .pure r := by
    intro hun
    rcases r with (e | _) | (_ | lines)
    · rfl
    · exact absurd (Or.inl rfl) hun
    · exact absurd (Or.inr rfl) hun
    · rfl
  by_cases hun : Unfinished r
  · rw [hquiet hun, Prog.exec_pure_iff]
    constructor
    · rintro ⟨rfl, rfl⟩
      exact ⟨rfl, Or.inl ⟨hun, rfl⟩⟩
    · rintro ⟨rfl, ⟨_, rfl⟩ | ⟨hno, _⟩⟩
      · exact ⟨rfl, rfl⟩
      · exact absurd hun hno
  · rw [hclean hun, Prog.exec_bind_pure_iff]
    constructor
    · rintro ⟨p, hc, rfl⟩
      obtain ⟨tr₁, rfl, h₁⟩ := Prog.exec_embed_iff.1 hc
      exact ⟨rfl, Or.inr ⟨hun, tr₁, p, h₁, rfl⟩⟩
    · rintro ⟨rfl, ⟨hyes, _⟩ | ⟨_, tr₁, p, h₁, rfl⟩⟩
      · exact absurd hyes hun
      · exact ⟨p, Prog.exec_embed_iff.2 ⟨tr₁, rfl, h₁⟩, rfl⟩

/-- Every other outcome is followed by the cleanup, which does not change it. -/
theorem exec_runWith_iff {app : DDCP} : Prog.Exec (runWith rounds debug cmd app) tr out ↔
    ∃ tr₁ app', Exec (runApp rounds debug cmd) app tr₁ out app' ∧
      (Unfinished out ∧ tr = tr₁ ∨ ¬ Unfinished out ∧ ∃ tr₂ p, Prog.Exec (DDCP.cleanup app') tr₂ p ∧
        tr = tr₁ ++ tr₂.map nodeCalls.event) := by
  have hbind : Prog.Exec (runWith rounds debug cmd app) tr out ↔
      Prog.Exec (Prog.bind (runApp rounds debug cmd app) fun p => cleanedUp p.1 p.2) tr out := Iff.rfl
  rw [hbind, Prog.exec_bind_iff]
  constructor
  · rintro ⟨tr₁, ⟨r, app'⟩, tr₂, rfl, hx, hc⟩
    obtain ⟨rfl, ⟨hun, rfl⟩ | ⟨hun, tr₃, p, h₃, rfl⟩⟩ := exec_cleanedUp_iff.1 hc
    · exact ⟨tr₁, app', hx, Or.inl ⟨hun, List.append_nil _⟩⟩
    · exact ⟨tr₁, app', hx, Or.inr ⟨hun, tr₃, p, h₃, rfl⟩⟩
  · rintro ⟨tr₁, app', hx, ⟨hun, rfl⟩ | ⟨hun, tr₃, p, h₃, rfl⟩⟩
    · exact ⟨tr, (out, app'), [], (List.append_nil _).symm, hx,
        exec_cleanedUp_iff.2 ⟨rfl, Or.inl ⟨hun, rfl⟩⟩⟩
    · exact ⟨tr₁, (out, app'), _, rfl, hx,
        exec_cleanedUp_iff.2 ⟨rfl, Or.inr ⟨hun, tr₃, p, h₃, rfl⟩⟩⟩

end Run

/-! ## What a command calls -/

/-- Its calls of the table store, once the node is up. -/
def Commands.Stores [CryptoSystem] (cmd : Commands) : IdentCall → Prop
  | .storeJson table column key value =>
      table = .conclaveRemotes ∧ column = TABLE_STORE_REMOTES_COLUMN_DHT_KEY ∧
        ∃ name addr dhtKey, cmd = .remote (.add name addr) ∧ key = asBytes name ∧
          CryptoSystem.keyFromStr addr = .ok dhtKey ∧ value = .typedKey dhtKey
  | .delete table column _ => table = .conclaveRemotes ∧
      column = TABLE_STORE_REMOTES_COLUMN_DHT_KEY ∧ ∃ name, cmd = .remote (.remove name)
  | .tableStore | .open _ _ | .loadJson _ _ _ => ∃ command, cmd = .remote command
  | _ => False

/-- All its calls, once the node is up. -/
def Commands.Calls [CryptoSystem] (cmd : Commands) : AppCall → Prop
  | .recv => cmd.needsNetwork = true
  | .serve => cmd = .serve
  | .ident c => cmd.Stores c
  | .node c => cmd.needsNetwork = true ∧ (Server.AnnounceCall c ∨ RefreshCall c) ∨
      (∃ name, cmd = .pull name) ∧ PullCall c
  | _ => False

section Calls
variable [Capnp] [CryptoSystem]

theorem within_push_calls :
    Within (frame (fun _ : DDCP => ()) fun c => Server.AnnounceCall c ∨ RefreshCall c)
      DDCP.push := by
  intro s tr r s' h
  obtain ⟨tr₁, tr₂, r₁, c₁, rfl, hann, hrest⟩ := Server.exec_push h
  refine ⟨rfl, fun e he => ?_⟩
  rcases List.mem_append.1 he with he | he
  · exact Or.inl ((Server.announceStatus_keeps hann).2 e he)
  · rcases hrest with ⟨rfl, _⟩ | ⟨r₂, c', hr, _⟩
    · exact absurd he (by simp)
    · exact Or.inr ((within_refreshPeers _ _ _ _ hr).2 e he)

theorem within_pushUntilOk {J : DDCP → List Event → DDCP → Prop} (hJ : Composable J)
    (hpush : Within J DDCP.push) (rounds : Nat) : Within J (DDCP.pushUntilOk rounds) := by
  induction rounds with
  | zero => exact Within.pure hJ _
  | succ rounds ih =>
      refine hpush.attempt.bind hJ fun r => ?_
      cases r with
      | ok v => exact Within.pure hJ _
      | error e => exact ih

theorem within_pull (name : String) :
    Within (frame (fun _ : DDCP => ()) fun c => RefreshCall c ∨ PullCall c) (DDCP.pull name) := by
  have hJ := @composable_frame Call Ret DDCP _ (fun _ => ()) fun c => RefreshCall c ∨ PullCall c
  refine Within.bind hJ ?_ fun st => (within_okOr hJ _ _).bind hJ fun _ => (Within.get hJ).bind hJ
    fun s => (within_okOr hJ _ _).bind hJ fun peer => ?_
  · intro s tr r s' h
    obtain ⟨c, hc, rfl⟩ := exec_zoom_iff.1 h
    exact ⟨rfl, fun e he => Or.inl ((exec_onPeer_refresh hc).2.1 e he)⟩
  · intro s₁ tr r s' h
    exact ⟨rfl, fun e he => Or.inr ((within_pullPeer s.conclave peer _ _ _ _ h).2 e he)⟩

omit [Capnp] [CryptoSystem] in
theorem makes_awaitNetwork {P : AppCall → Prop} (hP : P .recv) (rounds : Nat) :
    App.Makes P (awaitNetwork rounds) := by
  induction rounds with
  | zero => exact Within.pure App.composable _
  | succ rounds ih =>
      refine (App.makes_perform hP).bind App.composable fun res => ?_
      split
      · exact Within.throw App.composable _
      · exact Within.pure App.composable _
      · exact ih

theorem makes_networkReady {P : AppCall → Prop} (rounds : Nat) (cmd : Commands)
    (hrecv : cmd.needsNetwork = true → P .recv)
    (hpush : cmd.needsNetwork = true → ∀ c, Server.AnnounceCall c ∨ RefreshCall c → P (.node c)) :
    App.Makes P (networkReady rounds cmd) := by
  unfold networkReady
  split
  · rename_i hnet
    refine (makes_awaitNetwork (hrecv hnet) rounds).bind App.composable fun ready => ?_
    split
    · exact App.makes_node (within_pushUntilOk (composable_frame _ _) within_push_calls rounds)
        (hpush hnet)
    · exact Within.pure App.composable _
  · exact Within.pure App.composable _

omit [Capnp] in
theorem makes_remoteAdd (name addr : String) :
    App.Makes (Commands.remote (.add name addr)).Calls (App.ident (remoteAdd name addr)) := by
  have hJ : ∀ {σ : Type}, @Composable IdentCall IdentRet σ
      (frame (fun _ => ()) (Commands.remote (.add name addr)).Stores) := composable_frame _ _
  have hload : Within (frame (fun _ : Conclave => ()) (Commands.remote (.add name addr)).Stores)
      (Peer.load name (asBytes name)) := by
    refine Within.bind hJ (Ident.frame_call ⟨_, rfl⟩) fun value =>
      (Ident.frame_lift _).bind hJ fun key? => ?_
    cases key? with
    | some key => exact Within.pure hJ _
    | none => exact Within.throw hJ _
  have hadd : Within (frame (fun _ : Conclave => ()) (Commands.remote (.add name addr)).Stores)
      (remoteAdd name addr) := by
    refine Within.bind hJ ?_ fun peer => Within.modify fun _ => ⟨rfl, by simp⟩
    refine Within.bind hJ ?_ fun _ => ?_
    · exact (Ident.frame_call ⟨_, rfl⟩).bind hJ fun _ => Ident.frame_call ⟨_, rfl⟩
    -- what is stored is the key of the address
    intro c tr r c' h
    rcases Ident.exec_lift_bind_iff.1 h with ⟨e, _, rfl, _, rfl⟩ | ⟨key, hkey, h⟩
    · exact hJ.nil c'
    have hstores : (Commands.remote (.add name addr)).Stores (.storeJson .conclaveRemotes
        TABLE_STORE_REMOTES_COLUMN_DHT_KEY (asBytes name) (.typedKey key)) :=
      ⟨rfl, rfl, name, addr, key, rfl, rfl, Except.mapError_eq_ok_iff.1 hkey, rfl⟩
    exact ((Ident.frame_call hstores).bind hJ fun _ => hload) _ _ _ _ h
  exact App.makes_ident hadd fun _ => id

omit [Capnp] in
theorem makes_remoteRemove (name : String) :
    App.Makes (Commands.remote (.remove name)).Calls (App.ident (remoteRemove name)) := by
  have hJ : ∀ {σ : Type}, @Composable IdentCall IdentRet σ
      (frame (fun _ => ()) (Commands.remote (.remove name)).Stores) := composable_frame _ _
  have hremove : Within (frame (fun _ : Conclave => ()) (Commands.remote (.remove name)).Stores)
      (remoteRemove name) := by
    refine (Within.get hJ).bind hJ fun c => ?_
    split
    · refine Within.bind hJ (Within.modify fun _ => ⟨rfl, by simp⟩) fun _ => Within.bind hJ ?_
        fun _ => Within.pure hJ _
      refine Within.bind hJ ?_ fun _ => Ident.frame_call ⟨rfl, rfl, name, rfl⟩
      exact (Ident.frame_call ⟨_, rfl⟩).bind hJ fun _ => Ident.frame_call ⟨_, rfl⟩
    · exact Within.pure hJ _
  exact App.makes_ident hremove fun _ => id

theorem makes_runCommand (debug : Error → String) (cmd : Commands) :
    App.Makes cmd.Calls (runCommand debug cmd) := by
  have hJ : @Composable AppCall AppRet DDCP (frame (fun _ => ()) cmd.Calls) := App.composable
  cases cmd with
  | init | push =>
      refine (App.makes_node within_push_calls ?_).bind hJ fun _ => Within.pure hJ _
      exact fun c hc => Or.inl ⟨rfl, hc⟩
  | fetch name => exact Within.throw hJ _
  | merge name => exact Within.throw hJ _
  | shell => exact Within.throw hJ _
  | cleanup => exact Within.pure hJ _
  | addr => exact (Within.get hJ).bind hJ fun app => Within.pure hJ _
  | serve =>
      have hserve : App.Makes Commands.serve.Calls (perform AppCall.serve) := App.makes_perform rfl
      exact hserve.bind hJ fun _ => Within.pure hJ _
  | pull name =>
      have hcalls : ∀ c, RefreshCall c ∨ PullCall c → (Commands.pull name).Calls (.node c) := by
        rintro c (hc | hc)
        · exact Or.inl ⟨rfl, Or.inr hc⟩
        · exact Or.inr ⟨⟨name, rfl⟩, hc⟩
      cases name with
      | some name =>
          exact (App.makes_node (within_pull name) hcalls).bind hJ fun _ => Within.pure hJ _
      | none =>
          refine Within.bind hJ (App.makes_node ?_ hcalls) fun rs => ?_
          · have hJ₀ := @composable_frame Call Ret DDCP _ (fun _ => ()) fun c =>
              RefreshCall c ∨ PullCall c
            exact (Within.get hJ₀).bind hJ₀ fun s => within_attemptEach hJ₀ within_pull _
          · split
            · exact Within.pure hJ _
            · exact Within.throw hJ _
  | remote command =>
      cases command with
      | add name addr => exact (makes_remoteAdd name addr).bind hJ fun _ => Within.pure hJ _
      | remove name =>
          refine (makes_remoteRemove name).bind hJ fun removed => ?_
          split
          · exact Within.pure hJ _
          · exact Within.throw hJ _
      | list => exact (Within.get hJ).bind hJ fun app => Within.pure hJ _
      | status name => exact Within.throw hJ _

/-- A process gets no further than the wait for the network, or goes on with the command. -/
theorem exec_runApp_cases {rounds : Nat} {debug : Error → String} {cmd : Commands} {s s' : DDCP}
    {tr : List AppEvent} {r : Except Abort (Option (List String))}
    (h : Exec (runApp rounds debug cmd) s tr r s') :
    (∃ r₀, Exec (networkReady rounds cmd) s tr r₀ s') ∨
    ∃ tr₁ tr₂ s₁ r₀, tr = tr₁ ++ tr₂ ∧ Exec (networkReady rounds cmd) s tr₁ (.ok true) s₁ ∧
      Exec (runCommand debug cmd) s₁ tr₂ r₀ s' := by
  rcases exec_bind_iff.1 h with ⟨e, _, h₁⟩ | ⟨tr₁, tr₂, online, s₁, rfl, h₁, h₂⟩
  · exact Or.inl ⟨_, h₁⟩
  cases online with
  | false =>
      obtain ⟨rfl, _, rfl⟩ := exec_pure_iff.1 h₂
      exact Or.inl ⟨_, by rw [List.append_nil]; exact h₁⟩
  | true =>
      refine Or.inr ⟨tr₁, tr₂, s₁, ?_⟩
      rcases exec_bind_iff.1 h₂ with ⟨e, _, h₃⟩ | ⟨tr₃, tr₄, lines, s₂, rfl, h₃, h₄⟩
      · exact ⟨_, rfl, h₁, h₃⟩
      · obtain ⟨rfl, _, rfl⟩ := exec_pure_iff.1 h₄
        rw [List.append_nil]
        exact ⟨_, rfl, h₁, h₃⟩

/-- **A command makes only its calls.** -/
theorem makes_runApp (rounds : Nat) (debug : Error → String) (cmd : Commands) :
    App.Makes cmd.Calls (runApp rounds debug cmd) := by
  have hready : App.Makes cmd.Calls (networkReady rounds cmd) :=
    makes_networkReady rounds cmd id fun hnet _ hc => Or.inl ⟨hnet, hc⟩
  intro s tr r s' h
  rcases exec_runApp_cases h with ⟨r₀, h₀⟩ | ⟨tr₁, tr₂, s₁, r₀, rfl, h₁, h₂⟩
  · exact hready _ _ _ _ h₀
  · exact App.composable.append (hready _ _ _ _ h₁) (makes_runCommand debug cmd _ _ _ _ h₂)

end Calls

/-! ## Cleaning up -/

section Cleanup

/-- A command that ends well can be cleaned up after. -/
theorem exec_runWith_of_ok [Capnp] [CryptoSystem] {rounds : Nat} {debug : Error → String}
    {cmd : Commands} {c : Conclave} {tr : List AppEvent} {lines : List String} {app' : DDCP}
    (h : Exec (runApp rounds debug cmd) ⟨c⟩ tr (.ok (some lines)) app') : ∃ closes : List Event,
    Prog.Exec (runWith rounds debug cmd ⟨c⟩) (tr ++ closes.map nodeCalls.event)
      (.ok (some lines)) := by
  let env : CalmEnv := ⟨fun _ => none, id, ([], 0), fun _ => 0, []⟩
  have hcleanup : Exec DDCP.cleanup app' _ _
      ⟨(runOn env.handler Conclave.close app'.conclave ()).1.2⟩ :=
    exec_cleanup_iff.2 ⟨_, _, .ok (), exec_traceOn _ _ _ _, rfl, rfl⟩
  exact ⟨_, exec_runWith_iff.2
    ⟨tr, app', h, Or.inr ⟨by simp [Unfinished], _, _, hcleanup, rfl⟩⟩⟩

end Cleanup

end Ddcp
