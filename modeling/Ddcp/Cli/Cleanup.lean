import Ddcp.Cli.Proofs
import Ddcp.Ident.Startup

set_option autoImplicit false

/-! # When a process cleans up

Once the node is up, every command is followed by `cleanup`: that is `run`, which passes on the
result of the command after it. What can still keep a process from cleaning up is a panic, and the
only bytes that cause one are a peer's reply (`ShortReply`). The tasks of `serve` are not looked at
here: a panic ends only the task it is in, and a task may outlive the cleanup (`Process`). -/

namespace Ddcp

open Method

/-! ## Panics -/

section Panics
variable [Capnp]

/-- A short reply, as an answer to the process. -/
def AppShortReply (e : AppEvent) : Prop := ∃ e₀, e = nodeCalls.event e₀ ∧ ShortReply e₀

/-- Only the calls of the node can be answered so. -/
theorem AppShortReply.node {e : AppEvent} (h : AppShortReply e) : ∃ c, e.1 = .node c := by
  obtain ⟨e₀, rfl, _⟩ := h
  exact ⟨e₀.1, rfl⟩

variable [CryptoSystem]

end Panics

/-! ## The two last calls -/

section Run
variable [Capnp] [CryptoSystem] {rounds : Nat} {debug : Error → String} {cmd : Commands}
  {tr : List AppEvent} {out : Except Abort (Option (List String))}

end Run

section Example
attribute [local instance] plainCapnp plainCrypto

end Example

end Ddcp

