import FiscoSmart.Support.Encoding

/-!
# Messages of the front service

`FrontMessage::decode` takes the length of the uuid from the buffer and does not
compare it with the size of the buffer: where the buffer ends, it goes on with the
bytes that follow it in memory.
-/

namespace FiscoSmart.Front

open Support List

structure FrontMessage where
  moduleID : BitVec 16
  uuid : Bytes
  ext : BitVec 16
  payload : Bytes
deriving DecidableEq

namespace FrontMessage

def headerMinLength : ℕ := 5

def maxMessageUuidSize : ℕ := 255

/-- The buffer, unless `encode` returns `false`. -/
def encode (m : FrontMessage) : Option Bytes :=
  if maxMessageUuidSize < m.uuid.length then none
  else some (bigEndian 2 m.moduleID.toNat ++ Fin.ofNat 256 m.uuid.length ::
    (m.uuid ++ (bigEndian 2 m.ext.toNat ++ m.payload)))

/-- The bytes at an address and behind it, counted from the start of the buffer; `behind`
are the bytes of the memory outside the buffer. -/
def read (behind : ℕ → Byte) (buffer : Bytes) (start count : ℕ) : Bytes :=
  (List.range count).map fun i => buffer.getD (start + i) (behind (start + i))

def uuidLength (behind : ℕ → Byte) (buffer : Bytes) : ℕ := (buffer.getD 2 (behind 2)).val

/-- The message, unless `decode` returns `MESSAGE_ERROR`. -/
def decode (behind : ℕ → Byte) (buffer : Bytes) : Option FrontMessage :=
  if buffer.length < headerMinLength then none
  else some {
    moduleID := BitVec.ofNat 16 (fromBigEndian (read behind buffer 0 2))
    uuid := read behind buffer 3 (uuidLength behind buffer)
    ext := BitVec.ofNat 16 (fromBigEndian (read behind buffer (3 + uuidLength behind buffer) 2))
    -- `getCroppedData`, which is empty from an offset behind the end
    payload := buffer.drop (5 + uuidLength behind buffer) }

variable {behind : ℕ → Byte} {buffer head uuid ext payload : Bytes} {n : Byte}

theorem read_part (behind : ℕ → Byte) (front part rest : Bytes) :
    read behind (front ++ (part ++ rest)) front.length part.length = part := by
  apply ext_getElem
  · simp [read]
  · intro i _ hi
    simp [read, getElem?_append_right, getElem?_append_left, hi]

theorem decode_parts (hhead : head.length = 2) (huuid : uuid.length = n.val)
    (hext : ext.length = 2) : decode behind (head ++ n :: (uuid ++ (ext ++ payload))) =
      some ⟨BitVec.ofNat 16 (fromBigEndian head), uuid, BitVec.ofNat 16 (fromBigEndian ext),
        payload⟩ := by
  have hlen : uuidLength behind (head ++ n :: (uuid ++ (ext ++ payload))) = uuid.length := by
    simp [uuidLength, ← hhead, huuid]
  have hmodule := read_part behind [] head (n :: (uuid ++ (ext ++ payload)))
  have huuid' := read_part behind (head ++ [n]) uuid (ext ++ payload)
  have hext' := read_part behind (head ++ n :: uuid) ext payload
  have hpayload : ((head ++ n :: (uuid ++ ext)) ++ payload).drop
      (head ++ n :: (uuid ++ ext)).length = payload := drop_left
  simp only [nil_append, append_assoc, cons_append, length_append, length_cons, length_nil, hhead,
    hext] at hmodule huuid' hext' hpayload
  rw [decode, if_neg (by simp [headerMinLength, hhead, hext]; omega), hlen, hmodule, huuid',
    show 3 + uuid.length = 2 + (uuid.length + 1) by omega, hext',
    show 5 + uuid.length = 2 + (uuid.length + 2 + 1) by omega, hpayload]

theorem ofNat_fromBigEndian_bigEndian (v : BitVec 16) :
    BitVec.ofNat 16 (fromBigEndian (bigEndian 2 v.toNat)) = v := by
  have hlt : v.toNat < 256 ^ 2 := v.isLt
  rw [fromBigEndian_bigEndian, Nat.mod_eq_of_lt hlt, BitVec.ofNat_toNat, BitVec.setWidth_eq]

theorem bigEndian_ofNat_fromBigEndian {bytes : Bytes} (h : bytes.length = 2) :
    bigEndian 2 (BitVec.ofNat 16 (fromBigEndian bytes)).toNat = bytes := by
  have hlt : fromBigEndian bytes < 2 ^ 16 := by simpa [h] using fromBigEndian_lt bytes
  rw [BitVec.toNat_ofNat, Nat.mod_eq_of_lt hlt]
  exact h ▸ bigEndian_fromBigEndian bytes

theorem exists_decode_eq (m : FrontMessage) (h : m.uuid.length ≤ maxMessageUuidSize) :
    ∃ buffer, m.encode = some buffer ∧ decode behind buffer = some m := by
  refine ⟨_, if_neg (Nat.not_lt.mpr h), ?_⟩
  have huuid : m.uuid.length = (Fin.ofNat 256 m.uuid.length).val :=
    (Nat.mod_eq_of_lt (Nat.lt_succ_of_le h)).symm
  rw [decode_parts (bigEndian_length ..) huuid (bigEndian_length ..),
    ofNat_fromBigEndian_bigEndian, ofNat_fromBigEndian_bigEndian]

/-- A buffer that has room for the uuid it announces consists of the parts of a message. -/
theorem exists_parts (h : 5 + uuidLength behind buffer ≤ buffer.length) :
    ∃ head n uuid ext payload, buffer = head ++ n :: (uuid ++ (ext ++ payload)) ∧
      head.length = 2 ∧ uuid.length = n.val ∧ ext.length = 2 := by
  rcases buffer with - | ⟨a, - | ⟨b, - | ⟨n, rest⟩⟩⟩
  · simp at h
  · simp at h; omega
  · simp at h; omega
  · have hlen : n.val + 2 ≤ rest.length := by
      simp [uuidLength] at h
      omega
    refine ⟨[a, b], n, rest.take n, (rest.drop n).take 2, (rest.drop n).drop 2, ?_, rfl, ?_, ?_⟩
    · rw [take_append_drop, take_append_drop]
      rfl
    · exact length_take_of_le (by omega)
    · exact length_take_of_le (by rw [length_drop]; omega)

/-- Messages are decoded from their encodings, and a buffer is the encoding of what is
decoded from it exactly if it is refused or has room for the uuid it announces. -/
theorem decode_roundTrips_and_exact_iff (behind : ℕ → Byte) :
    (∀ m : FrontMessage, m.uuid.length ≤ maxMessageUuidSize →
      ∃ buffer, m.encode = some buffer ∧ decode behind buffer = some m) ∧
    ∀ buffer, (∀ m ∈ decode behind buffer, m.encode = some buffer) ↔
      buffer.length < headerMinLength ∨ 5 + uuidLength behind buffer ≤ buffer.length := by
  refine ⟨exists_decode_eq, fun buffer => ⟨fun h => ?_, ?_⟩⟩
  · rw [or_iff_not_imp_left]
    intro hmin
    have hencode := h _ (if_neg hmin)
    rw [encode, Option.ite_none_left_eq_some] at hencode
    have hlen := congrArg length (Option.some.inj hencode.2)
    simp [read] at hlen
    omega
  · rintro (hmin | hroom) m hm
    · rw [decode, if_pos hmin] at hm
      cases hm
    · obtain ⟨head, n, uuid, ext, payload, rfl, hhead, huuid, hext⟩ := exists_parts hroom
      rw [decode_parts hhead huuid hext] at hm
      cases hm
      have hle : ¬ maxMessageUuidSize < uuid.length :=
        Nat.not_lt.mpr (huuid ▸ Nat.le_of_lt_succ n.isLt)
      rw [encode, if_neg hle, bigEndian_ofNat_fromBigEndian hhead,
        bigEndian_ofNat_fromBigEndian hext, huuid, Fin.ofNat_val_eq_self]

/-- Five bytes that announce a uuid of 255 bytes are accepted. -/
theorem announced_uuid_not_in_buffer :
    ∃ m ∈ decode (fun _ => 0) [0, 1, 255, 0, 0], m.encode ≠ some [0, 1, 255, 0, 0] := by
  refine ⟨_, rfl, ?_⟩
  decide +kernel

end FrontMessage

end FiscoSmart.Front
