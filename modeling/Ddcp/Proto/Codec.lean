import Ddcp.Proto.Capnp

set_option autoImplicit false

/-! # The codecs of `src/proto/codec.rs`

Each message type is laid out as the accessors of the generated `ddcp_capnp.rs` have it: data fields
by word, pointer fields by index, a union's tag in the first 16 bits. The codecs trust the layout
alone, so bytes written as one type can be read as another; the last section says what a request
reads as a response and a response as a request. -/

namespace Ddcp

/-- `codec::Encodable`, before serialisation. -/
class Encodable (α : Type) where
  toObj : α → Obj

/-- `codec::Decodable`, after the message has been read. -/
class Decodable (α : Type) where
  ofObj : Obj → Except CodecError α

/-- `Encodable::encode`; building and writing a message does not fail. -/
def encode [Capnp] {α : Type} [Encodable α] (x : α) : Bytes := Capnp.write (Encodable.toObj x)

/-- `Decodable::decode`. -/
def decode [Capnp] (α : Type) [Decodable α] (message : Bytes) : Except CodecError α := do
  let o ← (Capnp.read message).mapError .capnp
  Decodable.ofObj o

/-- A pointer field read as `Text` and made a `String`. -/
def StructReader.getStr (s : StructReader) (i : Nat) : Except CodecError String := do
  let t ← (s.getPtr i).getText.mapError .capnp
  t.toStr

/-- A pointer field read as `Data`. -/
def StructReader.getBytes (s : StructReader) (i : Nat) : Except CodecError Bytes :=
  (s.getPtr i).getData.mapError .capnp

/-! ## Requests -/

def Request.toObj : Request → Obj
  | .status => .struct [0] [.null]
  | .changes sinceDbVersion => .struct [1] [.struct [sinceDbVersion.toUInt64] []]

def Request.ofObj (o : Obj) : Except CodecError Request := do
  let request ← o.getStruct.mapError .capnp
  match request.getTag with
  | 0 => return .status
  | 1 =>
      let changes ← (request.getPtr 0).getStruct.mapError .capnp
      return .changes (changes.getInt64 0)
  | x => throw (.notInSchema x.toNat)

instance : Encodable Request := ⟨Request.toObj⟩
instance : Decodable Request := ⟨Request.ofObj⟩

/-! ## Responses -/

/-- `change_value`. -/
def Value.toObj : Value → Obj
  | .null => .struct [0, 0] [.null]
  | .integer i => .struct [1, i.toUInt64] [.null]
  | .real r => .struct [2, r] [.null]
  | .text t => .struct [3, 0] [Obj.text t]
  | .blob b => .struct [4, 0] [.bytes b]

def Value.ofObj (o : Obj) : Except CodecError Value := do
  let value ← o.getStruct.mapError .capnp
  match value.getTag with
  | 0 => return .null
  | 1 => return .integer (value.getInt64 1)
  | 2 => return .real (value.getWord 1)
  | 3 => return .text (← value.getStr 0)
  | 4 => return .blob (← value.getBytes 0)
  | x => throw (.notInSchema x.toNat)

/-- `change`; its pointer 4, `siteId`, is never set. -/
def Change.toObj (c : Change) : Obj :=
  .struct [c.colVersion.toUInt64, c.dbVersion.toUInt64, c.cl.toUInt64, c.seq.toUInt64]
    [Obj.text c.table, .bytes c.pk, Obj.text c.cid, c.val.toObj, .null]

def Change.ofReader (change : StructReader) : Except CodecError Change := do
  let table ← change.getStr 0
  let pk ← change.getBytes 1
  let cid ← change.getStr 2
  let val ← Value.ofObj (change.getPtr 3)
  return {
    table := table
    pk := pk
    cid := cid
    val := val
    colVersion := change.getInt64 0
    dbVersion := change.getInt64 1
    cl := change.getInt64 2
    seq := change.getInt64 3 }

def Response.toObj : Response → Obj
  | .changes r => .struct [1] [.struct [] [.bytes r.siteId, .list (r.changes.map Change.toObj)]]
  | .status r => .struct [0] [.struct [r.dbVersion.toUInt64] [.bytes r.siteId]]

def Response.ofObj (o : Obj) : Except CodecError Response := do
  let response ← o.getStruct.mapError .capnp
  match response.getTag with
  | 0 =>
      let status ← (response.getPtr 0).getStruct.mapError .capnp
      let siteId ← status.getBytes 0
      return .status ⟨siteId, status.getInt64 0⟩
  | 1 =>
      let changes ← (response.getPtr 0).getStruct.mapError .capnp
      let changesChanges ← (changes.getPtr 1).getList.mapError .capnp
      let respChanges ← changesChanges.mapM Change.ofReader
      let siteId ← changes.getBytes 0
      return .changes ⟨siteId, respChanges⟩
  | x => throw (.notInSchema x.toNat)

instance : Encodable Response := ⟨Response.toObj⟩
instance : Decodable Response := ⟨Response.ofObj⟩

/-! ## Node status and envelope -/

def NodeStatus.toObj (s : NodeStatus) : Obj :=
  .struct [] [.struct [s.dbVersion.toUInt64] [.bytes s.siteId], Obj.text s.key, .bytes s.route]

def NodeStatus.ofObj (o : Obj) : Except CodecError NodeStatus := do
  let nodeStatus ← o.getStruct.mapError .capnp
  let dbStatus ← (nodeStatus.getPtr 0).getStruct.mapError .capnp
  let siteId ← dbStatus.getBytes 0
  let key ← nodeStatus.getStr 1
  let route ← nodeStatus.getBytes 2
  return {
    siteId := siteId
    dbVersion := dbStatus.getInt64 0
    key := key
    route := route }

instance : Encodable NodeStatus := ⟨NodeStatus.toObj⟩
instance : Decodable NodeStatus := ⟨NodeStatus.ofObj⟩

def Envelope.toObj (e : Envelope) : Obj := .struct [] [Obj.text e.sender, .bytes e.contents]

def Envelope.ofObj (o : Obj) : Except CodecError Envelope := do
  let envelope ← o.getStruct.mapError .capnp
  let sender ← envelope.getStr 0
  let contents ← envelope.getBytes 1
  return ⟨sender, contents⟩

instance : Encodable Envelope := ⟨Envelope.toObj⟩
instance : Decodable Envelope := ⟨Envelope.ofObj⟩

/-! ## Decoding undoes encoding -/

theorem StructReader.getStr_text (data : List UInt64) (ptrs : List Obj) (i : Nat) (s : String)
    (h : ptrs.getD i .null = Obj.text s) :
    StructReader.getStr ⟨data, ptrs⟩ i = .ok s := by
  unfold StructReader.getStr StructReader.getPtr
  rw [h, Obj.getText_text]
  exact Bytes.toStr_utf8 s

theorem Request.ofObj_toObj (r : Request) : Request.ofObj r.toObj = .ok r := by
  cases r <;> rfl

theorem Value.ofObj_toObj (v : Value) : Value.ofObj v.toObj = .ok v := by
  cases v with
  | null => rfl
  | integer i => rfl
  | real r => rfl
  | text t =>
      show (do return Value.text (← StructReader.getStr ⟨[3, 0], [Obj.text t]⟩ 0)) = _
      rw [StructReader.getStr_text _ _ 0 t rfl]
      rfl
  | blob b => rfl

/-- A change's struct as the list reader hands it out. -/
def Change.toReader (c : Change) : StructReader :=
  ⟨[c.colVersion.toUInt64, c.dbVersion.toUInt64, c.cl.toUInt64, c.seq.toUInt64],
    [Obj.text c.table, .bytes c.pk, Obj.text c.cid, c.val.toObj, .null]⟩

theorem Change.ofReader_toReader (c : Change) : Change.ofReader c.toReader = .ok c := by
  have htable : c.toReader.getStr 0 = .ok c.table := StructReader.getStr_text _ _ 0 c.table rfl
  have hcid : c.toReader.getStr 2 = .ok c.cid := StructReader.getStr_text _ _ 2 c.cid rfl
  have hpk : c.toReader.getBytes 1 = .ok c.pk := rfl
  have hval : Value.ofObj (c.toReader.getPtr 3) = .ok c.val := Value.ofObj_toObj c.val
  unfold Change.ofReader
  rw [htable, hpk, hcid, hval]
  rfl

theorem Change.mapM_ofReader (cs : List Change) :
    (cs.map Change.toReader).mapM Change.ofReader = Except.ok cs := by
  induction cs with
  | nil => rfl
  | cons c cs ih =>
      rw [List.map_cons, List.mapM_cons, Change.ofReader_toReader, ih]
      rfl

theorem Obj.getList_changes (cs : List Change) :
    (Obj.list (cs.map Change.toObj)).getList = .ok (cs.map Change.toReader) := by
  show Except.ok ((cs.map Change.toObj).map Obj.asElement) = _
  rw [List.map_map]
  rfl

theorem Response.ofObj_toObj (r : Response) : Response.ofObj r.toObj = .ok r := by
  cases r with
  | status r => rfl
  | changes r =>
      show (do
        let changesChanges ←
          ((Obj.list (r.changes.map Change.toObj)).getList).mapError CodecError.capnp
        let respChanges ← changesChanges.mapM Change.ofReader
        let siteId ← (.ok r.siteId : Except CodecError Bytes)
        return Response.changes ⟨siteId, respChanges⟩) = _
      rw [Obj.getList_changes]
      show ((r.changes.map Change.toReader).mapM Change.ofReader >>= _) = _
      rw [Change.mapM_ofReader]
      rfl

theorem NodeStatus.ofObj_toObj (s : NodeStatus) : NodeStatus.ofObj s.toObj = .ok s := by
  have hkey : StructReader.getStr ⟨[], [.struct [s.dbVersion.toUInt64] [.bytes s.siteId],
      Obj.text s.key, .bytes s.route]⟩ 1 = .ok s.key := StructReader.getStr_text _ _ 1 s.key rfl
  show (do
    let siteId ← (.ok s.siteId : Except CodecError Bytes)
    let key ← StructReader.getStr _ 1
    let route ← (.ok s.route : Except CodecError Bytes)
    return NodeStatus.mk siteId s.dbVersion key route) = _
  rw [hkey]
  rfl

theorem Envelope.ofObj_toObj (e : Envelope) : Envelope.ofObj e.toObj = .ok e := by
  have hsender : StructReader.getStr ⟨[], [Obj.text e.sender, .bytes e.contents]⟩ 0 =
      .ok e.sender := StructReader.getStr_text _ _ 0 e.sender rfl
  show (do
    let sender ← StructReader.getStr _ 0
    let contents ← (.ok e.contents : Except CodecError Bytes)
    return Envelope.mk sender contents) = _
  rw [hsender]
  rfl

section Messages
variable [Capnp] {α : Type}

/-- A message that decodes, decodes to what its tree decodes to. -/
theorem decode_write_ok (hc : Capnp.Lawful) [Decodable α] {o : Obj} {x : α}
    (h : decode α (Capnp.write o) = .ok x) : Decodable.ofObj o = .ok x := by
  unfold decode at h
  rcases hc.read_write_or o with hr | ⟨e, hr⟩
  · rw [hr] at h
    exact h
  · rw [hr] at h
    exact absurd h (by rintro ⟨⟩)

end Messages

/-- With the small serialisation, what decodes from its tree decodes from its bytes. -/
theorem plainCapnp_decode_encode {α : Type} [Encodable α] [Decodable α] {x : α}
    (h : Decodable.ofObj (Encodable.toObj x) = .ok x) :
    @decode plainCapnp α _ (@encode plainCapnp α _ x) = .ok x := by
  unfold decode encode
  rw [plainCapnp_read_write]
  exact h

/-! ## One type read as the other -/

/-- A request for changes, read as a response, has no site id and no changes. -/
theorem Response.ofObj_request_changes (sinceDbVersion : Int64) :
    Response.ofObj (Request.changes sinceDbVersion).toObj = .ok (.changes ⟨[], []⟩) := rfl

/-- A list of changes, read as a request, asks for everything. -/
theorem Request.ofObj_response_changes (r : ChangesResponse) :
    Request.ofObj (Response.changes r).toObj = .ok (.changes 0) := rfl

theorem Request.ofObj_response_status (r : StatusResponse) :
    Request.ofObj (Response.status r).toObj = .ok .status := rfl

end Ddcp
