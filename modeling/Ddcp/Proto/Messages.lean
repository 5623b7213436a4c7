import Ddcp.Error

set_option autoImplicit false

/-! # The messages of `src/proto/codec.rs`

The values that travel between nodes: a `NodeStatus` is published in the DHT, a `Request` and its
`Response` are sealed and put in an `Envelope`, and a `Change` is one row of the responder's
`crsql_changes`. -/

namespace Ddcp

abbrev Bytes := List UInt8

/-- `rusqlite::types::Value`; a real is its 64-bit pattern. -/
inductive Value where
  | null
  | integer (i : Int64)
  | real (bits : UInt64)
  | text (s : String)
  | blob (b : Bytes)
  deriving DecidableEq, Repr

/-- `codec::Change`. -/
structure Change where
  table : String
  pk : Bytes
  cid : String
  val : Value
  colVersion : Int64
  dbVersion : Int64
  cl : Int64
  seq : Int64
  deriving DecidableEq, Repr

/-- `codec::Request`. -/
inductive Request where
  | status
  | changes (sinceDbVersion : Int64)
  deriving DecidableEq, Repr

/-- `codec::StatusResponse`. -/
structure StatusResponse where
  siteId : Bytes
  dbVersion : Int64
  deriving DecidableEq, Repr

/-- `codec::ChangesResponse`. -/
structure ChangesResponse where
  siteId : Bytes
  changes : List Change
  deriving DecidableEq, Repr

/-- `codec::Response`. -/
inductive Response where
  | status (r : StatusResponse)
  | changes (r : ChangesResponse)
  deriving DecidableEq, Repr

/-- `codec::NodeStatus`. -/
structure NodeStatus where
  siteId : Bytes
  dbVersion : Int64
  key : String
  route : Bytes
  deriving DecidableEq, Repr

/-- `codec::Envelope`. -/
structure Envelope where
  sender : String
  contents : Bytes
  deriving DecidableEq, Repr

/-- `ident::Status`: what a node announces of its database. -/
structure Status where
  siteId : Bytes
  dbVersion : Int64
  deriving DecidableEq, Repr

end Ddcp
