import Ddcp.Cli.Proofs
import Ddcp.Ident.Peering

set_option autoImplicit false

/-! # What each command may call

A startup stores nothing but the local identity. Only `remote add` stores a remote, and only `remote
remove` deletes one, each under the name it was given; `run_confined` puts this together for whole
processes. -/

namespace Ddcp

open Method

/-! ## A startup -/

/-- The calls of a startup: it stores only the local identity, and deletes nothing. -/
def StartupCall : IdentCall → Prop
  | .storeJson table _ _ _ => table = .conclaveLocal
  | .delete _ _ _ => False
  | _ => True

section Startup
variable {σ : Type}

theorem Peer.within_load_startup (name : String) (dbKey : Bytes) :
    Method.Within (frame (fun _ : σ => ()) StartupCall) (Peer.load name dbKey) := by
  have hJ := @composable_frame IdentCall IdentRet σ _ (fun _ => ()) StartupCall
  refine Method.Within.bind hJ (Ident.frame_call trivial) fun value =>
    Method.Within.bind hJ (Ident.frame_lift _) fun key? => ?_
  cases key? with
  | some key => exact Method.Within.pure hJ _
  | none => exact Method.Within.throw hJ _

theorem Peer.within_loadKeys (keys : List Bytes) (remotes : AList fun _ : String => Peer) :
    Method.Within (frame (fun _ : σ => ()) StartupCall) (Peer.loadKeys keys remotes) := by
  have hJ := @composable_frame IdentCall IdentRet σ _ (fun _ => ()) StartupCall
  induction keys generalizing remotes with
  | nil => exact Method.Within.pure hJ _
  | cons key keys ih =>
      exact Method.Within.bind hJ (Ident.frame_lift _) fun name =>
        Method.Within.bind hJ (Peer.within_load_startup _ _) fun peer => ih _

theorem Sovereign.within_load :
    Within (frame (fun _ : σ => ()) StartupCall) (Sovereign.load : Ident σ _) := by
  have hJ := @composable_frame IdentCall IdentRet σ _ (fun _ => ()) StartupCall
  have hopen : Within (frame (fun _ : σ => ()) StartupCall) (Sovereign.openDb : Ident σ _) :=
    (Ident.frame_call trivial).bind hJ fun _ => Ident.frame_call trivial
  refine hopen.bind hJ fun _ => (Ident.frame_call trivial).bind hJ fun value =>
    (Ident.frame_lift _).bind hJ fun key? => ?_
  cases key? with
  | none => exact Within.pure hJ _
  | some key =>
      refine (Ident.frame_call trivial).bind hJ fun value => (Ident.frame_lift _).bind hJ
        fun pair? => ?_
      cases pair? with
      | none => exact Within.pure hJ _
      | some pair => exact (Ident.frame_call trivial).bind hJ fun dht => Within.pure hJ _

theorem Sovereign.within_init :
    Within (frame (fun _ : σ => ()) StartupCall) (Sovereign.init : Ident σ _) := by
  have hJ := @composable_frame IdentCall IdentRet σ _ (fun _ => ()) StartupCall
  have hopen : Within (frame (fun _ : σ => ()) StartupCall) (Sovereign.openDb : Ident σ _) :=
    (Ident.frame_call trivial).bind hJ fun _ => Ident.frame_call trivial
  refine hopen.bind hJ fun _ => (Ident.frame_call trivial).bind hJ fun newDht => ?_
  split
  · exact Within.throw hJ _
  · have hstore : ∀ column key value,
        StartupCall (.storeJson .conclaveLocal column key value) := fun _ _ _ => rfl
    refine (Ident.frame_call trivial).bind hJ fun _ => (Ident.frame_call (hstore _ _ _)).bind hJ
      fun _ => (Ident.frame_call (hstore _ _ _)).bind hJ fun _ => Sovereign.within_load.bind hJ
        fun sov? => ?_
    cases sov? with
    | some sov => exact Within.pure hJ _
    | none => exact Within.throw hJ _

theorem Conclave.within_new : Within (frame (fun _ : Unit => ()) StartupCall) Conclave.new := by
  have hJ := @composable_frame IdentCall IdentRet Unit _ (fun _ => ()) StartupCall
  refine Within.bind hJ (Sovereign.within_load.bind hJ fun sov? => ?_) fun sov =>
    Within.bind hJ ?_ fun remotes => Within.pure hJ _
  · cases sov? with
    | some sov => exact Within.pure hJ _
    | none => exact Sovereign.within_init
  · refine Within.bind hJ ?_ fun _ => (Ident.frame_call trivial).bind hJ fun keys =>
      Peer.within_loadKeys keys ∅
    exact (Ident.frame_call trivial).bind hJ fun _ => Ident.frame_call trivial

theorem Peer.name_of_load {name : String} {dbKey : Bytes} {s s' : σ} {tr : List IdentEvent}
    {p : Peer} (h : Exec (Peer.load name dbKey : Ident σ Peer) s tr (.ok p) s') : p.name = name := by
  obtain ⟨_, _, value, s₁, _, _, h₁⟩ := exec_bind_ok_iff.1 h
  obtain ⟨_, _, key?, s₂, _, _, h₂⟩ := exec_bind_ok_iff.1 h₁
  cases key? with
  | none => exact absurd (exec_throw_iff.1 h₂).2.1 (by simp)
  | some key =>
      obtain rfl := Except.ok.inj (exec_pure_iff.1 h₂).2.1
      rfl

theorem Peer.ownNames_of_loadKeys {keys : List Bytes}
    {remotes remotes' : AList fun _ : String => Peer} {s s' : σ} {tr : List IdentEvent}
    (hown : Peer.OwnNames remotes)
    (h : Exec (Peer.loadKeys keys remotes : Ident σ _) s tr (.ok remotes') s') :
    Peer.OwnNames remotes' := by
  induction keys generalizing remotes s tr with
  | nil =>
      obtain rfl := Except.ok.inj (exec_pure_iff.1 h).2.1
      exact hown
  | cons key keys ih =>
      obtain ⟨_, _, name, s₁, _, _, h₁⟩ := exec_bind_ok_iff.1 h
      obtain ⟨_, _, peer, s₂, _, hload, h₂⟩ := exec_bind_ok_iff.1 h₁
      refine ih ?_ h₂
      rw [← Peer.name_of_load hload]
      exact hown.insert peer

/-- A startup loads every remote under its own name. -/
theorem Conclave.ownNames_of_new {c : Conclave} {tr : List IdentEvent}
    (h : Exec Conclave.new () tr (.ok c) ()) : Peer.OwnNames c.remotes := by
  obtain ⟨_, _, sov, _, _, _, h₁⟩ := exec_bind_ok_iff.1 h
  obtain ⟨_, _, remotes, _, _, hload, h₂⟩ := exec_bind_ok_iff.1 h₁
  obtain rfl := Except.ok.inj (exec_pure_iff.1 h₂).2.1
  obtain ⟨_, _, _, _, _, _, h₃⟩ := exec_bind_ok_iff.1 hload
  obtain ⟨_, _, keys, _, _, _, h₄⟩ := exec_bind_ok_iff.1 h₃
  exact Peer.ownNames_of_loadKeys (fun name p hp => absurd hp (by simp)) h₄

end Startup

/-! ## A process -/

section Confined
variable [CryptoSystem]

/-- The calls a command may make. Only `remote add` stores in the table of the remotes, under the
    name it was given, and only `remote remove` deletes there, again under its name. -/
def Commands.May (cmd : Commands) : AppCall → Prop
  | .ident (.delete table column key) => table = .conclaveRemotes ∧
      column = TABLE_STORE_REMOTES_COLUMN_DHT_KEY ∧
        ∃ name, cmd = .remote (.remove name) ∧ key = asBytes name
  | .ident c => cmd ≠ .shell ∧ StartupCall c ∨ cmd.Stores c
  | .node c => cmd.Calls (.node c) ∨
      cmd ≠ .shell ∧ (CloseCall c ∨ c = .shutdown ∨ c = .db .finalize)
  | c => cmd.Boots c ∨ cmd.Calls c

theorem Commands.may_startup {cmd : Commands} (hshell : cmd ≠ .shell) {c : IdentCall}
    (h : StartupCall c) : cmd.May (.ident c) := by
  cases c with
  | delete table column key => exact h.elim
  | _ => exact Or.inl ⟨hshell, h⟩

theorem Commands.may_of_boots {cmd : Commands} {c : AppCall} (h : cmd.Boots c) : cmd.May c := by
  cases c with
  | ident c => exact h.elim
  | node c => exact h.elim
  | _ => exact Or.inl h

variable [Capnp] {rounds : Nat} {debug : Error → String} {cmd : Commands} {c : Conclave}
  {tr : List AppEvent}

omit [CryptoSystem] [Capnp] in
theorem exec_remoteRemove_deletes {name : String} {c' : Conclave} {tr : List IdentEvent}
    {r : Except Error Bool} (hown : Peer.OwnNames c.remotes)
    (h : Exec (remoteRemove name) c tr r c') :
    ∀ e ∈ tr, ∀ table column key, e.1 = .delete table column key → key = asBytes name := by
  have hmatch := exec_get_bind_iff.1 h
  cases hl : c.remotes.lookup name with
  | none =>
      rw [hl] at hmatch
      obtain ⟨rfl, _, _⟩ := exec_pure_iff.1 hmatch
      simp
  | some p =>
      rw [hl] at hmatch
      have hJ := @composable_frame IdentCall IdentRet Conclave _ (fun _ => ()) fun c =>
        ∀ table column key, c = .delete table column key → key = asBytes p.name
      have hremove : Within (frame (fun _ : Conclave => ()) fun c =>
          ∀ table column key, c = .delete table column key → key = asBytes p.name)
          (p.remove >>= fun _ => pure true) := by
        refine Within.bind hJ (Within.bind hJ ?_ fun _ => Ident.frame_call ?_) fun _ =>
          Within.pure hJ _
        · exact (Ident.frame_call (by simp)).bind hJ fun _ => Ident.frame_call (by simp)
        · rintro table column key ⟨⟩
          rfl
      rw [← hown name p hl]
      exact (hremove _ _ _ _ (exec_modify_bind_iff.1 hmatch)).2

/-- `remote remove` deletes the name it was given. -/
theorem exec_runWith_deletes {out : Except Abort (Option (List String))}
    (hown : Peer.OwnNames c.remotes) (hrun : Prog.Exec (runWith rounds debug cmd ⟨c⟩) tr out)
    {table : Table} {column : Nat} {key : Bytes} {a : Except VeilidAPIError Unit}
    (hmem : (⟨.ident (.delete table column key), a⟩ : AppEvent) ∈ tr) :
    ∃ name, cmd = .remote (.remove name) ∧ key = asBytes name := by
  obtain ⟨tr, app', h, hend⟩ := exec_runWith_iff.1 hrun
  have he : (⟨.ident (.delete table column key), a⟩ : AppEvent) ∈ tr := by
    rcases hend with ⟨_, rfl⟩ | ⟨_, tr₂, p, hp, rfl⟩
    · exact hmem
    · refine (List.mem_append.1 hmem).resolve_right fun hclean => ?_
      obtain ⟨e₀, _, heq⟩ := List.mem_map.1 hclean
      exact absurd (congrArg Sigma.fst heq) (by simp [Embedding.event, nodeCalls])
  obtain ⟨_, _, name, rfl⟩ : cmd.Stores (.delete table column key) :=
    (makes_runApp rounds debug cmd _ _ _ _ h).2 _ he
  refine ⟨name, rfl, ?_⟩
  rcases exec_runApp_cases h with ⟨r₀, h₀⟩ | ⟨tr₁, tr₂, s₁, r₀, rfl, h₁, h₂⟩
  · obtain ⟨rfl, _, _⟩ := exec_pure_iff.1 h₀
    exact absurd he (by simp)
  obtain ⟨rfl, _, rfl⟩ := exec_pure_iff.1 h₁
  obtain ⟨tr₃, r₃, s₃, hx, hmem⟩ : ∃ tr₃ r₃ s₃, Exec (App.ident (remoteRemove name)) ⟨c⟩ tr₃ r₃ s₃ ∧
      (⟨.ident (.delete table column key), a⟩ : AppEvent) ∈ tr₃ := by
    rcases exec_bind_iff.1 h₂ with ⟨e, _, h₃⟩ | ⟨tr₃, tr₄, removed, s₃, rfl, h₃, h₄⟩
    · exact ⟨_, _, _, h₃, he⟩
    · refine ⟨_, _, _, h₃, ?_⟩
      cases removed with
      | true =>
          obtain ⟨rfl, _, _⟩ := exec_pure_iff.1 h₄
          simpa using he
      | false =>
          obtain ⟨rfl, _, _⟩ := exec_throw_iff.1 h₄
          simpa using he
  obtain ⟨tr₀, r₄, c', rfl, hremove, _⟩ := App.exec_ident_iff.1 hx
  obtain ⟨e₀, he₀, heq⟩ := List.mem_map.1 hmem
  have hcall : e₀.1 = .delete table column key := AppCall.ident.inj (congrArg Sigma.fst heq)
  exact exec_remoteRemove_deletes hown hremove e₀ he₀ _ _ _ hcall

/-- Once the node is up, a process makes the calls of its command and those of the cleanup. -/
theorem exec_runWith_calls {app : DDCP} {out : Except Abort (Option (List String))}
    (h : Prog.Exec (runWith rounds debug cmd app) tr out) : ∀ e ∈ tr, cmd.Calls e.1 ∨
      ∃ c, e.1 = .node c ∧ (CloseCall c ∨ c = .shutdown ∨ c = .db .finalize) := by
  obtain ⟨tr₁, app', hx, hend⟩ := exec_runWith_iff.1 h
  have hcommand := (makes_runApp rounds debug cmd _ _ _ _ hx).2
  rcases hend with ⟨_, rfl⟩ | ⟨_, tr₂, p, hp, rfl⟩
  · exact fun e he => Or.inl (hcommand e he)
  obtain ⟨closes, r₀, a, hclose, rfl, _⟩ := exec_cleanup_iff.1
    (show Exec DDCP.cleanup app' tr₂ p.1 p.2 from hp)
  intro e he
  rcases List.mem_append.1 he with he | he
  · exact Or.inl (hcommand e he)
  obtain ⟨e₀, he₀, rfl⟩ := List.mem_map.1 he
  refine Or.inr ⟨e₀.1, rfl, ?_⟩
  rcases List.mem_append.1 he₀ with he₀ | he₀
  · exact Or.inl ((within_close _ _ _ _ hclose).2 e₀ he₀)
  · simp only [List.mem_cons, List.not_mem_nil, or_false] at he₀
    rcases he₀ with rfl | rfl
    · exact Or.inr (Or.inl rfl)
    · exact Or.inr (Or.inr rfl)

/-- **What each command may call.** -/
theorem run_confined {out : Except Abort (Option (List String))}
    (h : Prog.Exec (run rounds debug cmd) tr out) : ∀ e ∈ tr, cmd.May e.1 := by
  rcases exec_run_stages h with ⟨hboots, _⟩ | ⟨hshell, tr₀, tr₁, r₀, h₀, rfl, hrest⟩
  · exact fun e he => Commands.may_of_boots (hboots e he)
  have hstartup : ∀ e ∈ startupTrace tr₀, cmd.May e.1 := by
    intro e he
    rcases List.mem_cons.1 he with rfl | he
    · exact Or.inl trivial
    rcases List.mem_cons.1 he with rfl | he
    · exact Or.inl hshell
    rcases List.mem_cons.1 he with rfl | he
    · exact Or.inl hshell
    obtain ⟨e₀, he₀, rfl⟩ := List.mem_map.1 he
    exact Commands.may_startup hshell ((Conclave.within_new _ _ _ _ h₀).2 e₀ he₀)
  rcases hrest with ⟨e, _, rfl, _⟩ | ⟨c, rfl, hrest⟩
  · rwa [List.append_nil]
  rintro ⟨c', a⟩ he
  rcases List.mem_append.1 he with he | he
  · exact hstartup _ he
  rcases exec_runWith_calls hrest _ he with hcall | ⟨c₀, rfl, hclean⟩
  · cases c' with
    | ident c' =>
        cases c' with
        | delete table column key =>
            have hown := Conclave.ownNames_of_new h₀
            exact ⟨hcall.1, hcall.2.1, exec_runWith_deletes hown hrest he⟩
        | _ => exact Or.inr hcall
    | node c' => exact Or.inl hcall
    | _ => exact Or.inr hcall
  · exact Or.inr ⟨hshell, hclean⟩

end Confined

end Ddcp
