import Ddcp.Proto.Codec
import Ddcp.Node.Env

set_option autoImplicit false

/-! # The seal of `src/proto/crypto.rs`

A message is encoded, encrypted under the Diffie-Hellman key of the two peers with a random nonce
and no associated data, and prefixed with the nonce. The primitives are Veilid's `VLD0` crypto
system; `CryptoSystem` is any functions of their types, and `CryptoSystem.Lawful` says what is known
of the real ones. -/

namespace Ddcp

/-- The `VLD0` crypto system, and how Veilid prints and parses typed keys. -/
class CryptoSystem where
  cachedDh : Bytes → Bytes → Except VeilidAPIError Bytes
  encryptInPlaceAead : Bytes → Nonce → Bytes → Except VeilidAPIError Bytes
  decryptInPlaceAead : Bytes → Nonce → Bytes → Except VeilidAPIError Bytes
  keyToString : TypedKey → String
  keyFromStr : String → Except VeilidAPIError TypedKey

/-- `proto::crypto::Crypto`, over the `VLD0` system. -/
structure Crypto where
  senderKeyPair : TypedKeyPair
  recipientPublicKey : TypedKey
  deriving DecidableEq, Repr

namespace Crypto

variable [Capnp] [CryptoSystem] {σ α : Type}

/-- The key shared with the recipient. -/
def sharedKey (c : Crypto) : Except VeilidAPIError Bytes :=
  CryptoSystem.cachedDh c.recipientPublicKey.value c.senderKeyPair.value.secret

/-- `?` on a Veilid error inside `proto::crypto`, and again outside. -/
def liftVeilid (x : Except VeilidAPIError α) : Except Abort α :=
  x.mapError fun e => .err (.crypto (.veilidAPI e))

/-- `Crypto::encode`. -/
def encode [Encodable α] (c : Crypto) (item : α) : Act σ Bytes := do
  let message := Ddcp.encode item
  let sharedKey ← Act.lift (liftVeilid c.sharedKey)
  let nonce ← Act.randomNonce
  let message ← Act.lift (liftVeilid (CryptoSystem.encryptInPlaceAead message nonce sharedKey))
  return nonce.bytes ++ message

/-- `message[0..NONCE_LENGTH]` as a nonce, and `message[NONCE_LENGTH..]`: slices panic when they
    leave the message, and the `try_into` that follows cannot fail. -/
def splitNonce (message : Bytes) : Except Abort (Nonce × Bytes) :=
  if h : NONCE_LENGTH ≤ message.length then
    .ok (⟨message.take NONCE_LENGTH, List.length_take_of_le h⟩, message.drop NONCE_LENGTH)
  else .error .panic

/-- `Crypto::decode`. -/
def decode (α : Type) [Decodable α] (c : Crypto) (message : Bytes) : Except Abort α := do
  let (nonce, message) ← splitNonce message
  let sharedKey ← liftVeilid c.sharedKey
  let message ← liftVeilid (CryptoSystem.decryptInPlaceAead message nonce sharedKey)
  (Ddcp.decode α message).mapError fun e => .err (.crypto (.proto e))

omit [Capnp] [CryptoSystem] in
@[simp] theorem splitNonce_append (nonce : Nonce) (message : Bytes) :
    splitNonce (nonce.bytes ++ message) = .ok (nonce, message) := by
  have hle : NONCE_LENGTH ≤ (nonce.bytes ++ message).length := by
    rw [List.length_append, nonce.length_eq]
    exact Nat.le_add_right _ _
  unfold splitNonce
  rw [dif_pos hle]
  have htake : (nonce.bytes ++ message).take NONCE_LENGTH = nonce.bytes :=
    List.take_left' nonce.length_eq
  have hdrop : (nonce.bytes ++ message).drop NONCE_LENGTH = message :=
    List.drop_left' nonce.length_eq
  simp only [htake, hdrop]

omit [Capnp] [CryptoSystem] in
theorem splitNonce_error_iff {message : Bytes} {a : Abort} :
    splitNonce message = .error a ↔ message.length < NONCE_LENGTH ∧ a = .panic := by
  unfold splitNonce
  by_cases h : NONCE_LENGTH ≤ message.length
  · rw [dif_pos h]
    refine ⟨fun he => absurd he (by simp), fun he => ?_⟩
    exact absurd he.1 (Nat.not_lt.2 h)
  · rw [dif_neg h]
    refine ⟨fun he => ⟨Nat.not_le.1 h, ?_⟩, fun he => by rw [he.2]⟩
    exact (Except.error.inj he).symm

omit [Capnp] [CryptoSystem] in
theorem splitNonce_ok {message rest : Bytes} {nonce : Nonce}
    (h : splitNonce message = .ok (nonce, rest)) : message = nonce.bytes ++ rest := by
  unfold splitNonce at h
  by_cases hle : NONCE_LENGTH ≤ message.length
  · rw [dif_pos hle] at h
    obtain ⟨rfl, rfl⟩ := Prod.mk.inj (Except.ok.inj h)
    exact (List.take_append_drop _ _).symm
  · rw [dif_neg hle] at h
    exact absurd h (by simp)

/-- Decoding panics exactly on messages shorter than a nonce. -/
theorem decode_panic_iff [Decodable α] (c : Crypto) (message : Bytes) :
    decode α c message = .error .panic ↔ message.length < NONCE_LENGTH := by
  unfold decode
  cases hs : splitNonce message with
  | error a =>
      obtain ⟨hlt, rfl⟩ := splitNonce_error_iff.1 hs
      exact ⟨fun _ => hlt, fun _ => rfl⟩
  | ok r =>
      obtain ⟨nonce, rest⟩ := r
      have hlen : ¬ message.length < NONCE_LENGTH := by
        rw [splitNonce_ok hs, List.length_append, nonce.length_eq]
        omega
      refine ⟨fun h => ?_, fun h => absurd h hlen⟩
      -- every later failure is an error
      cases hk : c.sharedKey with
      | error e => simp [bind, Except.bind, liftVeilid, hk] at h
      | ok key =>
          cases hd : CryptoSystem.decryptInPlaceAead rest nonce key with
          | error e => simp [bind, Except.bind, liftVeilid, hk, hd] at h
          | ok plain =>
              cases hm : Ddcp.decode α plain <;>
                simp [bind, Except.bind, liftVeilid, hk, hd, hm] at h

/-- What a message that decodes is made of. -/
theorem decode_ok [Decodable α] {c : Crypto} {message : Bytes} {x : α}
    (h : decode α c message = .ok x) :
    ∃ (nonce : Nonce) (rest key plain : Bytes), message = nonce.bytes ++ rest ∧
      c.sharedKey = .ok key ∧ CryptoSystem.decryptInPlaceAead rest nonce key = .ok plain ∧
      Ddcp.decode α plain = .ok x := by
  unfold decode at h
  cases hs : splitNonce message with
  | error a => simp [bind, Except.bind, hs] at h
  | ok r =>
      obtain ⟨nonce, rest⟩ := r
      cases hk : c.sharedKey with
      | error e => simp [bind, Except.bind, hs, liftVeilid, hk] at h
      | ok key =>
          cases hd : CryptoSystem.decryptInPlaceAead rest nonce key with
          | error e => simp [bind, Except.bind, hs, liftVeilid, hk, hd] at h
          | ok plain =>
              cases hm : Ddcp.decode α plain with
              | error e =>
                  simp [bind, Except.bind, hs, liftVeilid, hk, hd, hm] at h
              | ok y =>
                  simp [bind, Except.bind, hs, liftVeilid, hk, hd, hm] at h
                  exact ⟨nonce, rest, key, plain, splitNonce_ok hs, rfl, hd, by rw [hm, h]⟩

theorem frame_encode [Encodable α] {τ : Type} {f : σ → τ} {calls : Call → Prop}
    (hc : calls .randomNonce) (c : Crypto) (item : α) :
    Method.Within (Method.frame f calls) (c.encode item : Act σ Bytes) := by
  have hJ := @Method.composable_frame Call Ret σ τ f calls
  refine (within_lift hJ _).bind hJ fun key => Method.Within.bind hJ ?_ fun nonce => ?_
  · exact Method.Within.perform fun s a => ⟨rfl, fun e he => List.mem_singleton.1 he ▸ hc⟩
  · exact (within_lift hJ _).bind hJ fun m => Method.Within.pure hJ _

/-- `contents` is `plain` sealed with `c`, under some nonce. -/
def Seals (c : Crypto) (plain contents : Bytes) : Prop :=
  ∃ (key : Bytes) (nonce : Nonce) (message : Bytes), c.sharedKey = .ok key ∧
    CryptoSystem.encryptInPlaceAead plain nonce key = .ok message ∧
    contents = nonce.bytes ++ message

omit [Capnp] [CryptoSystem] in
theorem liftVeilid_ok {x : Except VeilidAPIError α} {a : α} (h : .ok a = liftVeilid x) :
    x = .ok a := by
  cases x with
  | ok b => simpa [liftVeilid] using h.symm
  | error e => exact absurd h (by simp [liftVeilid])

/-- When encoding succeeds, the item has been sealed. -/
theorem exec_encode_ok [Encodable α] {c : Crypto} {item : α} {s s' : σ} {tr : List Event}
    {contents : Bytes} (h : Method.Exec (c.encode item) s tr (.ok contents) s') :
    c.Seals (Ddcp.encode item) contents ∧ s' = s ∧ ∃ nonce, tr = [⟨.randomNonce, nonce⟩] := by
  obtain ⟨tr₁, tr₂, key, s₁, rfl, h₁, h₂⟩ := Method.exec_bind_ok_iff.1 h
  obtain ⟨rfl, hkey, rfl⟩ := Act.exec_lift_iff.1 h₁
  obtain ⟨tr₃, tr₄, nonce, s₂, rfl, h₃, h₄⟩ := Method.exec_bind_ok_iff.1 h₂
  obtain ⟨n, rfl, hn, rfl⟩ := Method.exec_perform_iff.1 h₃
  obtain rfl := Except.ok.inj hn
  obtain ⟨tr₅, tr₆, message, s₃, rfl, h₅, h₆⟩ := Method.exec_bind_ok_iff.1 h₄
  obtain ⟨rfl, hmessage, rfl⟩ := Act.exec_lift_iff.1 h₅
  obtain ⟨rfl, hres, rfl⟩ := Method.exec_pure_iff.1 h₆
  refine ⟨⟨key, nonce, message, liftVeilid_ok hkey, liftVeilid_ok hmessage, ?_⟩, rfl, nonce, rfl⟩
  exact Except.ok.inj hres

end Crypto

/-! ## What is known of the primitives -/

/-- `IsKeyPair p`: `p` was generated as a key pair. -/
structure CryptoSystem.Lawful [CryptoSystem] (IsKeyPair : KeyPair → Prop) : Prop where
  /-- Both sides compute the same key. -/
  dh_symm : ∀ p q, IsKeyPair p → IsKeyPair q →
    CryptoSystem.cachedDh q.key p.secret = CryptoSystem.cachedDh p.key q.secret
  /-- The shared key exists. -/
  dh_ok : ∀ p q, IsKeyPair p → IsKeyPair q → ∃ key, CryptoSystem.cachedDh q.key p.secret = .ok key
  /-- Decryption undoes encryption. -/
  decrypt_encrypt : ∀ m c nonce key, CryptoSystem.encryptInPlaceAead m nonce key = .ok c →
    CryptoSystem.decryptInPlaceAead c nonce key = .ok m
  /-- Encryption does not fail. -/
  encrypt_ok : ∀ m nonce key, ∃ c, CryptoSystem.encryptInPlaceAead m nonce key = .ok c
  /-- Typed keys print and parse back to themselves. -/
  keyFromStr_keyToString : ∀ k, CryptoSystem.keyFromStr (CryptoSystem.keyToString k) = .ok k

namespace Crypto

variable [Capnp] [CryptoSystem] {IsKeyPair : KeyPair → Prop} {σ α : Type}

/-- Between two key pairs encoding succeeds. -/
theorem ensures_encode [Encodable α] (hl : CryptoSystem.Lawful IsKeyPair) {p q : TypedKeyPair}
    (hp : IsKeyPair p.value) (hq : IsKeyPair q.value) {kind : CryptoKind} {item : α} {s : σ}
    {good : Event → Prop} :
    Method.Ensures good (encode ⟨p, ⟨kind, q.value.key⟩⟩ item) s fun _ contents s' =>
      Seals ⟨p, ⟨kind, q.value.key⟩⟩ (Ddcp.encode item) contents ∧ s' = s := by
  obtain ⟨key, hkey⟩ := hl.dh_ok _ _ hp hq
  have hshared : sharedKey ⟨p, ⟨kind, q.value.key⟩⟩ = .ok key := hkey
  refine Method.Ensures.bind (P := fun _ k s' => key = k ∧ s = s') ?_ ?_
  · exact ensures_lift (by rw [hshared]; rfl) ⟨rfl, rfl⟩
  rintro _ _ _ ⟨rfl, rfl⟩
  refine Method.Ensures.bind (P := fun _ _ s' => s = s') ?_ ?_
  · exact Method.Ensures.perform fun _ _ => rfl
  rintro _ nonce _ rfl
  obtain ⟨message, hmessage⟩ := hl.encrypt_ok (Ddcp.encode item) nonce key
  refine Method.Ensures.bind (P := fun _ m s' => message = m ∧ s = s') ?_ ?_
  · exact ensures_lift (by rw [hmessage]; rfl) ⟨rfl, rfl⟩
  rintro _ _ _ ⟨rfl, rfl⟩
  exact Method.Ensures.pure ⟨⟨key, nonce, message, hshared, hmessage, rfl⟩, rfl⟩

/-- What one side seals for the other, the other opens. -/
theorem decode_of_seals [Decodable α] (hl : CryptoSystem.Lawful IsKeyPair) {p q : TypedKeyPair}
    (hp : IsKeyPair p.value) (hq : IsKeyPair q.value) {kind kind' : CryptoKind}
    {plain contents : Bytes} (h : Seals ⟨p, ⟨kind, q.value.key⟩⟩ plain contents) :
    decode α ⟨q, ⟨kind', p.value.key⟩⟩ contents =
      (Ddcp.decode α plain).mapError fun e => .err (.crypto (.proto e)) := by
  obtain ⟨key, nonce, message, hkey, henc, rfl⟩ := h
  have hkey' : sharedKey ⟨q, ⟨kind', p.value.key⟩⟩ = .ok key := by
    rw [← hkey]
    exact hl.dh_symm _ _ hq hp
  have hdec := hl.decrypt_encrypt _ _ _ _ henc
  unfold decode
  simp [hkey', hdec, bind, Except.bind, liftVeilid]

end Crypto

/-! ## A small crypto system that keeps these laws -/

namespace PlainCrypto

theorem toUInt32_lt (b : UInt8) : b.toUInt32.toNat < 256 := by
  simpa using b.toNat_lt

def byteToChar (b : UInt8) : Char :=
  ⟨b.toUInt32, Or.inl (Nat.lt_trans (toUInt32_lt b) (by decide))⟩

theorem toUInt8_byteToChar (b : UInt8) : (byteToChar b).toUInt8 = b := by
  show b.toUInt32.toUInt8 = b
  simp

def separator : Char := Char.ofNat 256

theorem byteToChar_ne_separator (b : UInt8) : (byteToChar b != separator) = true := by
  have hne : byteToChar b ≠ separator := fun h => by
    have hlt : (byteToChar b).toNat < 256 := toUInt32_lt b
    rw [h] at hlt
    exact absurd hlt (by decide)
  simpa using hne

def keyToString (k : TypedKey) : String :=
  String.ofList (k.kind.map byteToChar ++ separator :: k.value.map byteToChar)

def keyFromStr (s : String) : Except VeilidAPIError TypedKey :=
  match s.toList.dropWhile (· != separator) with
  | [] => .error (.parseError "missing separator")
  | _ :: rest =>
      .ok ⟨(s.toList.takeWhile (· != separator)).map Char.toUInt8, rest.map Char.toUInt8⟩

theorem map_toUInt8_byteToChar (b : Bytes) : (b.map byteToChar).map Char.toUInt8 = b := by
  rw [List.map_map]
  exact (List.map_congr_left fun x _ => toUInt8_byteToChar x).trans (List.map_id b)

theorem keyFromStr_keyToString (k : TypedKey) : keyFromStr (keyToString k) = .ok k := by
  have hkind : ∀ c ∈ k.kind.map byteToChar, (c != separator) = true := by
    intro c hc
    obtain ⟨b, _, rfl⟩ := List.mem_map.1 hc
    exact byteToChar_ne_separator b
  unfold keyFromStr keyToString
  rw [String.toList_ofList, List.dropWhile_append_of_pos hkind, List.takeWhile_append_of_pos hkind]
  simp only [List.dropWhile_cons, List.takeWhile_cons, bne_self_eq_false, Bool.false_eq_true,
    if_false, List.append_nil, map_toUInt8_byteToChar]

/-- The two halves added byte by byte. -/
def cachedDh (key secret : Bytes) : Except VeilidAPIError Bytes :=
  .ok (List.zipWith (· + ·) key secret)

/-- The key and the nonce in front of the message. -/
def encrypt (message : Bytes) (nonce : Nonce) (key : Bytes) : Except VeilidAPIError Bytes :=
  .ok (key ++ nonce.bytes ++ message)

def decrypt (message : Bytes) (nonce : Nonce) (key : Bytes) : Except VeilidAPIError Bytes :=
  if (key ++ nonce.bytes).isPrefixOf message then .ok (message.drop (key ++ nonce.bytes).length)
  else .error (.generic "decryption failure")

end PlainCrypto

abbrev plainCrypto : CryptoSystem where
  cachedDh := PlainCrypto.cachedDh
  encryptInPlaceAead := PlainCrypto.encrypt
  decryptInPlaceAead := PlainCrypto.decrypt
  keyToString := PlainCrypto.keyToString
  keyFromStr := PlainCrypto.keyFromStr

theorem plainCrypto_lawful : @CryptoSystem.Lawful plainCrypto fun p => p.key = p.secret :=
  @CryptoSystem.Lawful.mk plainCrypto _
    (fun p q hp hq => by
      show Except.ok (List.zipWith (· + ·) q.key p.secret) =
        .ok (List.zipWith (· + ·) p.key q.secret)
      rw [hp, hq, List.zipWith_comm_of_comm fun a b => UInt8.add_comm a b])
    (fun _ _ _ _ => ⟨_, rfl⟩)
    (fun m c nonce key h => by
      obtain rfl : key ++ nonce.bytes ++ m = c := Except.ok.inj h
      show PlainCrypto.decrypt _ nonce key = .ok m
      unfold PlainCrypto.decrypt
      rw [if_pos (List.isPrefixOf_iff_prefix.2 (List.prefix_append _ _)), List.drop_left' rfl])
    (fun _ _ _ => ⟨_, rfl⟩) PlainCrypto.keyFromStr_keyToString

end Ddcp
