set_option autoImplicit false

/-! # Errors and aborts

`Error` follows `src/error.rs`: one constructor for each source of failure, with the codec and
crypto errors of `src/proto` inside. A Rust function that returns `Result` can also unwind by a
panic; `Abort` keeps the two apart, because `?` passes both on while `warn_err` and
`if let Err(_)` stop only the first. -/

namespace Ddcp

/-- An error of the Veilid API. -/
inductive VeilidAPIError where
  | notInitialized
  | timeout
  | shutdown
  | keyNotFound
  | invalidTarget
  | parseError (message : String)
  | generic (message : String)
  | internal (message : String)
  deriving DecidableEq, Repr

/-- An error of the database connection. -/
structure DbError where
  message : String
  deriving DecidableEq, Repr

/-- An error of the Cap'n Proto library. -/
structure CapnpError where
  message : String
  deriving DecidableEq, Repr

/-- `proto::codec::Error`. -/
inductive CodecError where
  | capnp (e : CapnpError)
  | notInSchema (discriminant : Nat)
  | utf8
  deriving DecidableEq, Repr

/-- `proto::crypto::Error`. -/
inductive CryptoError where
  | proto (e : CodecError)
  | veilidAPI (e : VeilidAPIError)
  | decodeFailure
  deriving DecidableEq, Repr

/-- `error::Error`. -/
inductive Error where
  | db (e : DbError)
  | io (message : String)
  | veilidAPI (e : VeilidAPIError)
  | protocol (e : CodecError)
  | crypto (e : CryptoError)
  | utf8
  | other (message : String)
  deriving DecidableEq, Repr

/-- `error::other_err`. -/
def otherErr (message : String) : Error := .other message

/-- How a function ends when it does not return `Ok`: with an error, or by unwinding. -/
inductive Abort where
  | err (e : Error)
  | panic
  deriving DecidableEq, Repr

end Ddcp
