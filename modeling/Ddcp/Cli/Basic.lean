import Ddcp.Ident.Store
import Ddcp.Lib.Embed
import Ddcp.Node.Basic

set_option autoImplicit false

/-! # The commands of `src/cli.rs` and `src/bin/main.rs`

A `ddcp` process starts the node up, runs one command and cleans up. Its calls are those of the node
(`Call`), those of the table store (`IdentCall`), and its own. `serve` is one of these: what its
tasks do until it returns is the subject of `Process` and `ServingNode`.

The two loops of `wait_for_network` have no bound. Here each goes on for at most `rounds` rounds, and
a process that is then still waiting has not ended (`none`). -/

namespace Ddcp

open Method

inductive RemoteCommands where
  | add (name addr : String)
  | remove (name : String)
  | list
  | status (name : String)

inductive Commands where
  | init
  | push
  | fetch (name : Option String)
  | merge (name : String)
  | pull (name : Option String)
  | remote (command : RemoteCommands)
  | serve
  | shell
  | addr
  | cleanup

/-- `needs_network`. -/
def Commands.needsNetwork : Commands → Bool
  | .remote _ => false
  | .shell => false
  | _ => true

/-! ## Calls -/

inductive AppCall where
  /-- `db_file`, `state_dir` and `ext_file`. -/
  | files
  | execSqlite3
  /-- `DB::new`. -/
  | newDb
  /-- `new_routing_context`. -/
  | startup
  | ident (c : IdentCall)
  | node (c : Call)
  /-- `self.updates.recv_async()`. -/
  | recv
  | serve

abbrev AppRet : AppCall → Type
  | .files => Except Error Unit
  | .execSqlite3 => String
  | .newDb => Except DbError Unit
  | .startup => Except VeilidAPIError Unit
  | .ident c => IdentRet c
  | .node c => Ret c
  | .recv => Except String VeilidUpdate
  | .serve => Unit

/-- A call and its answer. -/
abbrev AppEvent := Σ c : AppCall, AppRet c

def nodeCalls : Embedding Call Ret AppCall AppRet := ⟨.node, fun _ => Equiv.refl _⟩

def identCalls : Embedding IdentCall IdentRet AppCall AppRet := ⟨.ident, fun _ => Equiv.refl _⟩

/-- What a command does with the node. -/
abbrev App (α : Type) := Method AppCall AppRet Abort DDCP α

namespace App
variable {α : Type}

def node (x : Act DDCP α) : App α := x.embed nodeCalls id

def ident (x : Ident Conclave α) : App α :=
  (x.embed identCalls Abort.err).zoom DDCP.conclave fun _ c => ⟨c⟩

end App

/-! ## Waiting for the network -/

/-- The first loop of `wait_for_network`. -/
def awaitNetwork : Nat → App Bool
  | 0 => pure false
  | rounds + 1 => do
      let res : Except String VeilidUpdate ← perform AppCall.recv
      match res with
      | .error e => throw (.err (.other e))
      | .ok (.attachment true) => pure true
      | .ok _ => awaitNetwork rounds

variable [Capnp] [CryptoSystem]

/-- `wait_for_network`. -/
def waitForNetwork (rounds : Nat) : App Bool := do
  if ← awaitNetwork rounds then App.node (DDCP.pushUntilOk rounds) else pure false

/-! ## Commands -/

def unsupported {α : Type} : App α := throw (.err (.other "unsupported command"))

/-- The errors of `ddcp pull` without a name, as they are put together. -/
def pullErrors (debug : Error → String) (rs : List (String × Except Error (Bool × Int64))) :
    List String :=
  rs.filterMap fun r => match r.2 with
    | .ok _ => none
    | .error e => some (debug e)

/-- The `match` of `run_app`, with the lines printed; `debug` is how errors print. -/
def runCommand (debug : Error → String) : Commands → App (List String)
  | .init | .push => do
      let _ ← App.node DDCP.push
      return []
  | .remote (.add name addr) => do
      App.ident (remoteAdd name addr)
      return []
  | .remote (.remove name) => do
      if ← App.ident (remoteRemove name) then return []
      else throw (.err (otherErr "failed to remove remote"))
  | .remote .list => do
      let app ← get
      return app.conclave.remoteKeys.map fun remote =>
        remote.1 ++ "\t" ++ CryptoSystem.keyToString remote.2
  | .serve => do
      perform AppCall.serve
      return []
  | .cleanup => return []
  | .pull (some name) => do
      let _ ← App.node (DDCP.pull name)
      return []
  | .pull none => do
      let rs ← App.node DDCP.pullRemotes
      if (pullErrors debug rs).isEmpty then return []
      else throw (.err (otherErr ("\n".intercalate (pullErrors debug rs))))
  | .addr => do
      let app ← get
      return [app.addr]
  | .remote (.status _) | .fetch _ | .merge _ | .shell => unsupported

/-- `run_app`, up to its `match`. -/
def networkReady (rounds : Nat) (cmd : Commands) : App Bool :=
  if cmd.needsNetwork then waitForNetwork rounds else pure true

/-- `run_app`. -/
def runApp (rounds : Nat) (debug : Error → String) (cmd : Commands) : App (Option (List String)) := do
  if ← networkReady rounds cmd then
    let lines ← runCommand debug cmd
    return some lines
  else return none

/-! ## The process -/

omit [Capnp] [CryptoSystem] in
/-- `DDCP::new`. -/
def DDCP.new : Prog AppCall AppRet (Except Error DDCP) := do
  let db : Except DbError Unit ← Prog.perform AppCall.newDb
  match db with
  | .error e => return .error (.db e)
  | .ok _ =>
      let api : Except VeilidAPIError Unit ← Prog.perform AppCall.startup
      match api with
      | .error e => return .error (.veilidAPI e)
      | .ok _ =>
          let p ← (Conclave.new ()).embed identCalls
          return p.1.map DDCP.mk

/-- `run`, from the node on. A panic unwinds past the cleanup, whose own errors are only logged. -/
def runWith (rounds : Nat) (debug : Error → String) (cmd : Commands) (app : DDCP) :
    Prog AppCall AppRet (Except Abort (Option (List String))) := do
  let p ← runApp rounds debug cmd app
  match p.1 with
  | .error .panic => return .error .panic
  | .ok none => return .ok none
  | result =>
      let _ ← (DDCP.cleanup p.2).embed nodeCalls
      return result

/-- `run`. -/
def run (rounds : Nat) (debug : Error → String) (cmd : Commands) :
    Prog AppCall AppRet (Except Abort (Option (List String))) := do
  let files : Except Error Unit ← Prog.perform AppCall.files
  match files, cmd with
  | .error e, _ => return .error (.err e)
  | .ok _, .shell =>
      let err : String ← Prog.perform AppCall.execSqlite3
      return .error (.err (otherErr ("failed to exec sqlite3: " ++ err)))
  | .ok _, cmd =>
      let app ← DDCP.new
      match app with
      | .error e => return .error (.err e)
      | .ok app => runWith rounds debug cmd app

end Ddcp
