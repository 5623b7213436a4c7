import Mathlib.Algebra.Group.Nat.Defs
import Mathlib.Data.List.Basic
import Ddcp.Proto.Messages

set_option autoImplicit false

/-! # Cap'n Proto messages as trees

The Cap'n Proto library turns a tree of structs, byte strings and lists into bytes and back. `Obj`
is such a tree as its readers see it: a struct has data words and pointers, a field beyond the end
of a section reads as zero or null, and a null pointer reads as the empty value of whatever type is
asked for. The bytes themselves are the library's business: `Capnp` is any pair of functions, and
`Capnp.Lawful` says what the library promises of them. -/

namespace Ddcp

/-- What a pointer leads to. `other` is a pointer no getter of this program accepts: a capability,
    or one that leaves the message. -/
inductive Obj where
  | null
  | struct (data : List UInt64) (ptrs : List Obj)
  | bytes (b : Bytes)
  | list (elems : List Obj)
  | other

/-- A struct as its readers see it. -/
structure StructReader where
  data : List UInt64
  ptrs : List Obj

namespace StructReader

def getWord (s : StructReader) (i : Nat) : UInt64 := s.data.getD i 0

/-- `get_data_field::<i64>`. -/
def getInt64 (s : StructReader) (i : Nat) : Int64 := (s.getWord i).toInt64

/-- `get_data_field::<u16>(0)`, the tag of a union. -/
def getTag (s : StructReader) : UInt16 := (s.getWord 0).toUInt16

def getPtr (s : StructReader) (i : Nat) : Obj := s.ptrs.getD i .null

end StructReader

namespace Obj

/-- A pointer read as a struct. -/
def getStruct : Obj → Except CapnpError StructReader
  | .null => .ok ⟨[], []⟩
  | .struct data ptrs => .ok ⟨data, ptrs⟩
  | _ => .error ⟨"Message contains non-struct pointer where struct pointer was expected."⟩

/-- A pointer read as `Data`. -/
def getData : Obj → Except CapnpError Bytes
  | .null => .ok []
  | .bytes b => .ok b
  | _ => .error ⟨"Message contains non-list pointer where data was expected."⟩

/-- A pointer read as `Text`: the bytes before the final NUL. -/
def getText : Obj → Except CapnpError Bytes
  | .null => .ok []
  | .bytes b =>
      match b.getLast? with
      | some 0 => .ok b.dropLast
      | _ => .error ⟨"Message contains text that is not NUL-terminated"⟩
  | _ => .error ⟨"Message contains non-list pointer where text was expected."⟩

/-- An element of a list of structs. -/
def asElement : Obj → StructReader
  | .struct data ptrs => ⟨data, ptrs⟩
  | _ => ⟨[], []⟩

/-- A pointer read as a list of structs. A list of bytes counts as one of structs whose data section
    is a byte, which holds neither a word nor a tag. -/
def getList : Obj → Except CapnpError (List StructReader)
  | .null => .ok []
  | .list elems => .ok (elems.map asElement)
  | .bytes b => .ok (b.map fun _ => ⟨[], []⟩)
  | _ => .error ⟨"Message contains non-list pointer where list pointer was expected."⟩

/-- `set_text`: the UTF-8 bytes and a NUL. -/
def text (s : String) : Obj := .bytes (s.toByteArray.data.toList ++ [0])

end Obj

/-- `text::Reader::to_string`. -/
def Bytes.toStr (b : Bytes) : Except CodecError String :=
  match String.fromUTF8? ⟨b.toArray⟩ with
  | some s => .ok s
  | none => .error .utf8

@[simp] theorem Bytes.toStr_utf8 (s : String) :
    Bytes.toStr s.toByteArray.data.toList = .ok s := by
  have hs : (⟨s.toByteArray.data.toList.toArray⟩ : ByteArray) = s.toByteArray := rfl
  simp only [Bytes.toStr, hs, String.fromUTF8?]
  rw [dif_pos s.isValidUTF8]
  rfl

@[simp] theorem Obj.getText_text (s : String) :
    (Obj.text s).getText = .ok s.toByteArray.data.toList := by
  simp [Obj.text, Obj.getText]

/-- The library's `serialize::write_message_segments_to_words` and `serialize::read_message`. -/
class Capnp where
  write : Obj → Bytes
  read : Bytes → Except CapnpError Obj

def TRAVERSAL_LIMIT_IN_WORDS : Nat := 8 * 1024 * 1024

/-- What the library promises: within the default limits a message reads back as it was written, and
    beyond them it reads back so or is refused. -/
structure Capnp.Lawful [Capnp] : Prop where
  read_write : ∀ o : Obj, (Capnp.write o).length ≤ 8 * TRAVERSAL_LIMIT_IN_WORDS →
    Capnp.read (Capnp.write o) = .ok o
  read_write_or : ∀ o : Obj, Capnp.read (Capnp.write o) = .ok o ∨
    ∃ e, Capnp.read (Capnp.write o) = .error e

/-! ## A small serialisation that keeps the promise -/

namespace Obj

/-- The `n` low bytes of a number, lowest first. -/
def leBytes : Nat → Nat → Bytes
  | 0, _ => []
  | n + 1, w => UInt8.ofNat w :: leBytes n (w / 256)

def ofLeBytes : Bytes → Nat
  | [] => 0
  | b :: bs => b.toNat + 256 * ofLeBytes bs

@[simp] theorem length_leBytes (n w : Nat) : (leBytes n w).length = n := by
  induction n generalizing w with
  | zero => rfl
  | succ n ih => simp [leBytes, ih]

theorem ofLeBytes_leBytes {n w : Nat} (h : w < 256 ^ n) : ofLeBytes (leBytes n w) = w := by
  induction n generalizing w with
  | zero =>
      have h1 : w < 1 := by simpa using h
      show 0 = w
      omega
  | succ n ih =>
      have hdiv : w / 256 < 256 ^ n := by
        rw [Nat.pow_succ] at h
        omega
      have hmod : (UInt8.ofNat w).toNat = w % 256 := by simp
      rw [leBytes, ofLeBytes, ih hdiv, hmod]
      omega

def ofWord (w : UInt64) : Bytes := leBytes 8 w.toNat

/-- A length in unary. -/
def ofLength : Nat → Bytes
  | 0 => [0]
  | n + 1 => 1 :: ofLength n

mutual
def serialize : Obj → Bytes
  | .null => [0]
  | .struct data ptrs =>
      1 :: (ofLength data.length ++ (data.flatMap ofWord ++ (ofLength ptrs.length ++
        serializeList ptrs)))
  | .bytes b => 2 :: (ofLength b.length ++ b)
  | .list elems => 3 :: (ofLength elems.length ++ serializeList elems)
  | .other => [4]
def serializeList : List Obj → Bytes
  | [] => []
  | o :: os => serialize o ++ serializeList os
end

def takeLength : Bytes → Option (Nat × Bytes)
  | 0 :: rest => some (0, rest)
  | 1 :: rest => (takeLength rest).map fun r => (r.1 + 1, r.2)
  | _ => none

def takeBytes (n : Nat) (b : Bytes) : Option (Bytes × Bytes) :=
  if n ≤ b.length then some (b.take n, b.drop n) else none

def takeWords : Nat → Bytes → Option (List UInt64 × Bytes)
  | 0, b => some ([], b)
  | n + 1, b => do
      let (w, b) ← takeBytes 8 b
      let (ws, b) ← takeWords n b
      return (UInt64.ofNat (ofLeBytes w) :: ws, b)

mutual
def parse : Nat → Bytes → Option (Obj × Bytes)
  | 0, _ => none
  | _ + 1, 0 :: b => some (.null, b)
  | fuel + 1, 1 :: b => do
      let (nd, b) ← takeLength b
      let (data, b) ← takeWords nd b
      let (np, b) ← takeLength b
      let (ptrs, b) ← parseList fuel np b
      return (.struct data ptrs, b)
  | _ + 1, 2 :: b => do
      let (n, b) ← takeLength b
      let (bs, b) ← takeBytes n b
      return (.bytes bs, b)
  | fuel + 1, 3 :: b => do
      let (n, b) ← takeLength b
      let (elems, b) ← parseList fuel n b
      return (.list elems, b)
  | _ + 1, 4 :: b => some (.other, b)
  | _, _ => none
def parseList : Nat → Nat → Bytes → Option (List Obj × Bytes)
  | _, 0, b => some ([], b)
  | 0, _ + 1, _ => none
  | fuel + 1, n + 1, b => do
      let (o, b) ← parse fuel b
      let (os, b) ← parseList fuel n b
      return (o :: os, b)
end

theorem takeLength_ofLength (n : Nat) (rest : Bytes) :
    takeLength (ofLength n ++ rest) = some (n, rest) := by
  induction n with
  | zero => rfl
  | succ n ih =>
      show (takeLength (ofLength n ++ rest)).map (fun r => (r.1 + 1, r.2)) = some (n + 1, rest)
      rw [ih]
      rfl

@[simp] theorem length_ofLength (n : Nat) : (ofLength n).length = n + 1 := by
  induction n with
  | zero => rfl
  | succ n ih => simp [ofLength, ih]

theorem takeBytes_append {n : Nat} (b rest : Bytes) (h : b.length = n) :
    takeBytes n (b ++ rest) = some (b, rest) := by
  subst h
  have hle : b.length ≤ (b ++ rest).length := by simp
  unfold takeBytes
  rw [if_pos hle, List.take_left' rfl, List.drop_left' rfl]

theorem takeWords_ofWord (ws : List UInt64) (rest : Bytes) :
    takeWords ws.length (ws.flatMap ofWord ++ rest) = some (ws, rest) := by
  induction ws with
  | nil => rfl
  | cons w ws ih =>
      have hw : UInt64.ofNat (ofLeBytes (ofWord w)) = w := by
        rw [ofWord, ofLeBytes_leBytes w.toNat_lt, UInt64.ofNat_toNat]
      have htake : takeBytes 8 (ofWord w ++ (ws.flatMap ofWord ++ rest)) =
          some (ofWord w, ws.flatMap ofWord ++ rest) :=
        takeBytes_append _ _ (length_leBytes 8 w.toNat)
      rw [List.flatMap_cons, List.append_assoc, List.length_cons, takeWords, htake]
      simp [ih, hw]

mutual
theorem parse_serialize (o : Obj) (fuel : Nat) (rest : Bytes)
    (h : (serialize o).length ≤ fuel) : parse fuel (serialize o ++ rest) = some (o, rest) := by
  match o, fuel with
  | .null, _ + 1 => simp [serialize, parse]
  | .other, _ + 1 => simp [serialize, parse]
  | .bytes b, _ + 1 =>
      simp [serialize, parse, takeLength_ofLength, takeBytes_append b rest rfl]
  | .struct data ptrs, fuel + 1 =>
      have hfuel : ptrs.length + (serializeList ptrs).length ≤ fuel := by
        simp only [serialize, List.length_cons, List.length_append, length_ofLength] at h
        omega
      simp [serialize, parse, takeLength_ofLength, takeWords_ofWord,
        parseList_serialize ptrs fuel rest hfuel]
  | .list elems, fuel + 1 =>
      have hfuel : elems.length + (serializeList elems).length ≤ fuel := by
        simp only [serialize, List.length_cons, List.length_append, length_ofLength] at h
        omega
      simp [serialize, parse, takeLength_ofLength, parseList_serialize elems fuel rest hfuel]
  | .null, 0 | .other, 0 | .bytes _, 0 | .struct _ _, 0 | .list _, 0 => simp [serialize] at h

theorem parseList_serialize (os : List Obj) (fuel : Nat) (rest : Bytes)
    (h : os.length + (serializeList os).length ≤ fuel) :
    parseList fuel os.length (serializeList os ++ rest) = some (os, rest) := by
  match os, fuel with
  | [], _ => simp [serializeList, parseList]
  | o :: os, 0 => simp at h
  | o :: os, fuel + 1 =>
      simp only [serializeList, List.length_cons, List.length_append] at h
      have ho : (serialize o).length ≤ fuel := by omega
      have hos : os.length + (serializeList os).length ≤ fuel := by omega
      simp [serializeList, parseList, parse_serialize o fuel _ ho,
        parseList_serialize os fuel rest hos]
end

end Obj

/-- `Obj.serialize` as the library. -/
abbrev plainCapnp : Capnp where
  write := Obj.serialize
  read b :=
    match Obj.parse b.length b with
    | some (o, _) => .ok o
    | none => .error ⟨"Premature end of message"⟩

theorem plainCapnp_read_write (o : Obj) : plainCapnp.read (plainCapnp.write o) = .ok o := by
  have h := Obj.parse_serialize o (Obj.serialize o).length [] (Nat.le_refl _)
  rw [List.append_nil] at h
  simp only [Capnp.read, Capnp.write, h]

theorem plainCapnp_lawful : @Capnp.Lawful plainCapnp :=
  @Capnp.Lawful.mk plainCapnp (fun o _ => plainCapnp_read_write o)
    fun o => Or.inl (plainCapnp_read_write o)

end Ddcp
