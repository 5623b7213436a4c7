import Ddcp.Proto.Codec

set_option autoImplicit false

/-! # Messages as `encode` builds them

`Request.toObj` and its siblings say which tree a message is. The program gets there one setter at a
time: a struct starts with zeroed data words and null pointers (`STRUCT_SIZE` of `ddcp_capnp.rs`),
each setter overwrites one slot, a union's setter its 16-bit tag as well, and the list of changes is
made at its full length and then filled in a loop that indexes it by `u32`. This module follows the
setters of `codec.rs` in their order, and shows that what they leave is that tree. -/

theorem List.modify_append_cons {α : Type} (done : List α) (a : α) (rest : List α) (f : α → α) :
    (done ++ a :: rest).modify done.length f = done ++ f a :: rest := by
  induction done with
  | nil => rfl
  | cons d done ih =>
      rw [List.cons_append, List.length_cons, List.modify_succ_cons, ih, List.cons_append]

namespace Ddcp

/-- A struct under construction. -/
structure StructBuilder where
  data : List UInt64
  ptrs : List Obj

namespace StructBuilder

/-- A struct of the given `STRUCT_SIZE`. -/
def init (data pointers : Nat) : StructBuilder :=
  ⟨List.replicate data 0, List.replicate pointers .null⟩

/-- `set_data_field::<i64>`. -/
def setInt64 (s : StructBuilder) (i : Nat) (value : Int64) : StructBuilder :=
  { s with data := s.data.set i value.toUInt64 }

/-- `set_data_field::<f64>`, with the bits of the value. -/
def setFloat64 (s : StructBuilder) (i : Nat) (bits : UInt64) : StructBuilder :=
  { s with data := s.data.set i bits }

/-- `set_data_field::<u16>(0, tag)`: the low 16 bits of the first word. -/
def setTag (s : StructBuilder) (tag : UInt16) : StructBuilder :=
  { s with data := s.data.modify 0 fun w => (w &&& ~~~0xFFFF) ||| tag.toUInt64 }

/-- What a pointer field leads to. -/
def setPtr (s : StructBuilder) (i : Nat) (o : Obj) : StructBuilder :=
  { s with ptrs := s.ptrs.set i o }

def setText (s : StructBuilder) (i : Nat) (value : String) : StructBuilder :=
  s.setPtr i (Obj.text value)

def setData (s : StructBuilder) (i : Nat) (value : Bytes) : StructBuilder :=
  s.setPtr i (.bytes value)

def toObj (s : StructBuilder) : Obj := .struct s.data s.ptrs

end StructBuilder

/-! ## The setters of `ddcp_capnp.rs`, in the order of `codec.rs` -/

def Request.build (r : Request) : StructBuilder :=
  let requestBuilder := StructBuilder.init 1 1
  match r with
  | .status => requestBuilder.setTag 0
  | .changes sinceDbVersion =>
      (requestBuilder.setTag 1).setPtr 0
        ((StructBuilder.init 1 0).setInt64 0 sinceDbVersion).toObj

/-- `init_val` and the setter of its union. -/
def Value.build (v : Value) : StructBuilder :=
  let valChange := StructBuilder.init 2 1
  match v with
  | .null => valChange.setTag 0
  | .integer i => (valChange.setTag 1).setInt64 1 i
  | .real r => (valChange.setTag 2).setFloat64 1 r
  | .text t => (valChange.setTag 3).setText 0 t
  | .blob b => (valChange.setTag 4).setData 0 b

/-- The body of the loop over the changes. -/
def Change.set (c : Change) (buildChange : StructBuilder) : StructBuilder :=
  let buildChange := buildChange.setText 0 c.table
  let buildChange := buildChange.setData 1 c.pk
  let buildChange := buildChange.setText 2 c.cid
  let buildChange := buildChange.setInt64 0 c.colVersion
  let buildChange := buildChange.setInt64 1 c.dbVersion
  let buildChange := buildChange.setInt64 2 c.cl
  let buildChange := buildChange.setInt64 3 c.seq
  buildChange.setPtr 3 c.val.build.toObj

/-- The loop: change `i` is written to element `i as u32`. -/
def Change.setAll : List Change → Nat → List StructBuilder → List StructBuilder
  | [], _, elems => elems
  | c :: rest, i, elems => Change.setAll rest (i + 1) (elems.modify (UInt32.ofNat i).toNat c.set)

def Response.build (r : Response) : StructBuilder :=
  let responseBuilder := StructBuilder.init 1 1
  match r with
  | .changes r =>
      let buildChanges := (StructBuilder.init 0 2).setData 0 r.siteId
      -- `init_changes(changes.len() as u32)`
      let elems := List.replicate (UInt32.ofNat r.changes.length).toNat (StructBuilder.init 4 5)
      let buildChangesChanges := Change.setAll r.changes 0 elems
      (responseBuilder.setTag 1).setPtr 0
        (buildChanges.setPtr 1 (.list (buildChangesChanges.map StructBuilder.toObj))).toObj
  | .status r =>
      let buildStatus := (StructBuilder.init 1 1).setData 0 r.siteId
      (responseBuilder.setTag 0).setPtr 0 (buildStatus.setInt64 0 r.dbVersion).toObj

def NodeStatus.build (s : NodeStatus) : StructBuilder :=
  let nodeStatusBuilder := StructBuilder.init 0 3
  let dbStatusBuilder := (StructBuilder.init 1 1).setData 0 s.siteId
  let dbStatusBuilder := dbStatusBuilder.setInt64 0 s.dbVersion
  let nodeStatusBuilder := nodeStatusBuilder.setPtr 0 dbStatusBuilder.toObj
  let nodeStatusBuilder := nodeStatusBuilder.setText 1 s.key
  nodeStatusBuilder.setData 2 s.route

def Envelope.build (e : Envelope) : StructBuilder :=
  ((StructBuilder.init 0 2).setText 0 e.sender).setData 1 e.contents

/-! ## The tree they leave -/

theorem Request.build_toObj (r : Request) : r.build.toObj = r.toObj := by
  cases r <;> rfl

theorem Value.build_toObj (v : Value) : v.build.toObj = v.toObj := by
  cases v <;> rfl

/-- Every slot of a change is set once, in a struct that starts out empty. -/
theorem Change.set_toObj (c : Change) : (c.set (StructBuilder.init 4 5)).toObj = c.toObj := by
  have hval : c.val.build.toObj = c.val.toObj := c.val.build_toObj
  unfold Change.toObj
  rw [← hval]
  rfl

/-- The loop writes each change to its own element, as long as the index fits. -/
theorem Change.setAll_eq (changes : List Change) (done : List StructBuilder)
    (h : done.length + changes.length ≤ 2 ^ 32) :
    Change.setAll changes done.length
        (done ++ List.replicate changes.length (StructBuilder.init 4 5)) =
      done ++ changes.map fun c => c.set (StructBuilder.init 4 5) := by
  induction changes generalizing done with
  | nil => rfl
  | cons c rest ih =>
      rw [List.length_cons] at h
      have hindex : (UInt32.ofNat done.length).toNat = done.length := by
        refine UInt32.toNat_ofNat_of_lt' ?_
        show done.length < 2 ^ 32
        omega
      have hlen : (done ++ [c.set (StructBuilder.init 4 5)]).length = done.length + 1 := by simp
      have hrest := ih (done ++ [c.set (StructBuilder.init 4 5)]) (by omega)
      rw [hlen, List.append_assoc, List.append_assoc] at hrest
      rw [Change.setAll, List.length_cons, hindex, List.replicate_succ, List.modify_append_cons]
      exact hrest

/-- The list pointer holds a list of fewer than 2^29 elements. -/
def LIST_LIMIT : Nat := 2 ^ 29

theorem Response.build_toObj (r : Response)
    (h : ∀ resp, r = .changes resp → resp.changes.length < LIST_LIMIT) :
    r.build.toObj = r.toObj := by
  cases r with
  | status r => rfl
  | changes r =>
      have hlen : r.changes.length < 2 ^ 29 := h r rfl
      have hcount : (UInt32.ofNat r.changes.length).toNat = r.changes.length := by
        refine UInt32.toNat_ofNat_of_lt' ?_
        show r.changes.length < 2 ^ 32
        omega
      have hloop : Change.setAll r.changes 0
          (List.replicate r.changes.length (StructBuilder.init 4 5)) =
          r.changes.map fun c => c.set (StructBuilder.init 4 5) :=
        Change.setAll_eq r.changes [] (by rw [List.length_nil]; omega)
      have hlist : (Change.setAll r.changes 0 (List.replicate
          (UInt32.ofNat r.changes.length).toNat (StructBuilder.init 4 5))).map
          StructBuilder.toObj = r.changes.map Change.toObj := by
        rw [hcount, hloop, List.map_map]
        exact List.map_congr_left fun c _ => c.set_toObj
      show _ = Obj.struct [1] [.struct [] [.bytes r.siteId, .list (r.changes.map Change.toObj)]]
      rw [← hlist]
      rfl

theorem NodeStatus.build_toObj (s : NodeStatus) : s.build.toObj = s.toObj := rfl

theorem Envelope.build_toObj (e : Envelope) : e.build.toObj = e.toObj := rfl

/-! ## Round trips -/

section RoundTrip
variable [Capnp] (InLimits : Obj → Prop)

/-- The library reads back the trees it has written, inside its reader's limits. -/
def Capnp.ReadsBack : Prop := ∀ o, InLimits o → Capnp.read (Capnp.write o) = .ok o

theorem Capnp.Lawful.readsBack (hc : Capnp.Lawful) :
    Capnp.ReadsBack fun o => (Capnp.write o).length ≤ 8 * TRAVERSAL_LIMIT_IN_WORDS := hc.read_write

/-- `encode x` is the message of the struct that the setters build, and decodes to `x`. -/
structure RoundTrips {α : Type} [Encodable α] [Decodable α] (x : α) (builder : StructBuilder) :
    Prop where
  encode_eq : encode x = Capnp.write builder.toObj
  decode_eq : InLimits builder.toObj → decode α (encode x) = .ok x

variable {InLimits}

theorem Capnp.ReadsBack.decode_of_tree (hc : Capnp.ReadsBack InLimits) {α : Type} [Encodable α]
    [Decodable α] {x : α} (hx : Decodable.ofObj (Encodable.toObj x) = .ok x)
    (hin : InLimits (Encodable.toObj x)) : decode α (encode x) = .ok x := by
  unfold decode encode
  rw [hc _ hin]
  exact hx

theorem RoundTrips.of_tree (hc : Capnp.ReadsBack InLimits) {α : Type} [Encodable α] [Decodable α]
    {x : α} {builder : StructBuilder} (hbuild : builder.toObj = Encodable.toObj x)
    (hx : Decodable.ofObj (Encodable.toObj x) = .ok x) : RoundTrips InLimits x builder where
  encode_eq := by
    unfold encode
    rw [hbuild]
  decode_eq h := by
    rw [hbuild] at h
    exact hc.decode_of_tree hx h

/-- **Decoding undoes encoding**, for every message of the wire format. -/
theorem decode_encode (hc : Capnp.ReadsBack InLimits) :
    (∀ r : Request, RoundTrips InLimits r r.build) ∧
    (∀ r : Response, (∀ resp, r = .changes resp → resp.changes.length < LIST_LIMIT) →
      RoundTrips InLimits r r.build) ∧
    (∀ s : NodeStatus, RoundTrips InLimits s s.build) ∧
    ∀ e : Envelope, RoundTrips InLimits e e.build :=
  ⟨fun r => .of_tree hc r.build_toObj r.ofObj_toObj,
    fun r hlen => .of_tree hc (r.build_toObj hlen) r.ofObj_toObj,
    fun s => .of_tree hc s.build_toObj s.ofObj_toObj,
    fun e => .of_tree hc e.build_toObj e.ofObj_toObj⟩

end RoundTrip

section Example
attribute [local instance] plainCapnp

/-- A response with an empty site id and a real value that is no number. -/
theorem decode_encode_real :
    let r := Response.changes ⟨[], [⟨"t", [], "", .real 0x7ff8000000000001, 1, 2, 3, 4⟩]⟩
    decode Response (encode r) = .ok r :=
  ((decode_encode plainCapnp_lawful.readsBack).2.1 _ fun resp h => by
    obtain rfl := Response.changes.inj h
    decide).decode_eq (by decide)

end Example

end Ddcp
