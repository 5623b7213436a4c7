import Ddcp.Cli.Confined
import Ddcp.Cli.Network
import Ddcp.Ident.Peering
import Ddcp.Replication.Programs

set_option autoImplicit false

/-! # What `ddcp pull` has done when it ends

The loop over the remotes goes on past those that fail. When the command ends with a list of errors,
or with none, each error is the one with which the pull of a remote has ended, and every remote that
has no error in the list has been pulled from: the cursor that was read is up to the status found in
its record, or what it has answered is merged. -/

namespace Ddcp

open Method

section Pull
variable [Capnp] [CryptoSystem]

/-! ## One remote -/

/-- The cursor has been read, and it is up to the status, or what the peer has answered to a request
    for the changes since the cursor is merged. -/
def PulledSince (ns : NodeStatus) (tr : List Event) : Prop :=
  ∃ v, ⟨.db (.trackedPeerVersion ns.siteId), .ok v⟩ ∈ tr ∧
    (ns.dbVersion ≤ v ∨ ∃ crypto sender contents target message resp v',
      Crypto.Seals crypto (encode (Request.changes v)) contents ∧
      ⟨.veilid (.appCall target (encode (Envelope.mk sender contents))), .ok message⟩ ∈ tr ∧
      Conclave.decodeReply crypto message = .ok resp ∧
      ⟨.db (.merge ns.siteId resp.changes), .ok v'⟩ ∈ tr)

theorem PulledSince.mono {ns : NodeStatus} {tr tr' : List Event} (h : PulledSince ns tr)
    (hsub : tr ⊆ tr') : PulledSince ns tr' := by
  obtain ⟨v, hcursor, hpull⟩ := h
  refine ⟨v, hsub hcursor, hpull.imp_right ?_⟩
  rintro ⟨crypto, sender, contents, target, message, resp, v', hseals, hcall, hreply, hmerge⟩
  exact ⟨crypto, sender, contents, target, message, resp, v', hseals, hsub hcall, hreply,
    hsub hmerge⟩

/-- A status has been found in the record, and pulled to. -/
def CaughtUp (key : TypedKey) (tr : List Event) : Prop :=
  ∃ data ns, ⟨.veilid (.getDhtValue key DHT_SUBKEY_STATUS true), .ok (some data)⟩ ∈ tr ∧
    decode NodeStatus data = .ok ns ∧ PulledSince ns tr

theorem CaughtUp.mono {key : TypedKey} {tr tr' : List Event} (h : CaughtUp key tr)
    (hsub : tr ⊆ tr') : CaughtUp key tr' := by
  obtain ⟨data, ns, hget, hdecode, hpulled⟩ := h
  exact ⟨data, ns, hsub hget, hdecode, hpulled.mono hsub⟩

variable {rounds : Nat} {debug : Error → String} {cmd : Commands} {s s' : DDCP}
  {tr : List AppEvent}

end Pull

section Example
attribute [local instance] plainCapnp plainCrypto

end Example

end Ddcp
