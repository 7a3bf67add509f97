import FiscoSmart.Support.Encoding

/-!
# Messages between gateways

`P2PMessage::decode` takes the length of the message, of the options and of the
node ids in it from the buffer.  The parts are compared with the end of the buffer, but
not with the length of the message.
-/

namespace FiscoSmart.Gateway

open Support List

/-- `CHECK_OFFSET_WITH_THROW_EXCEPTION`. -/
def checkOffset (offset length : ℕ) : Option Unit := if length < offset then none else some ()

def bytesAt (buffer : Bytes) (offset count : ℕ) : Bytes := (buffer.drop offset).take count

/-- A number in network byte order. -/
def numberAt (buffer : Bytes) (offset count : ℕ) : ℕ := fromBigEndian (bytesAt buffer offset count)

/-- `getCroppedData`, which is empty where the range is not in the buffer. -/
def getCroppedData (buffer : Bytes) (start count : ℕ) : Bytes :=
  if start ≤ buffer.length ∧ count ≤ buffer.length ∧ start + count ≤ buffer.length then
    bytesAt buffer start count
  else []

structure P2PMessageOptions where
  groupID : Bytes := []
  srcNodeID : Bytes := []
  dstNodeIDs : List Bytes := []
  moduleID : ℕ := 0

def optionsMinLength : ℕ := 7

/-- The options and the offset behind them, unless `decode` returns `MESSAGE_ERROR`. -/
def P2PMessageOptions.decode (buffer : Bytes) : Option (P2PMessageOptions × ℕ) := do
  let length := buffer.length
  checkOffset optionsMinLength length
  let groupIDLength := numberAt buffer 0 2
  let offset := 2
  if 0 < groupIDLength then
    checkOffset (offset + groupIDLength) length
  let groupID := bytesAt buffer offset groupIDLength
  let offset := offset + groupIDLength
  checkOffset (offset + 2) length
  let nodeIDLength := numberAt buffer offset 2
  let offset := offset + 2
  checkOffset (offset + nodeIDLength) length
  let srcNodeID := bytesAt buffer offset nodeIDLength
  let offset := offset + nodeIDLength
  checkOffset (offset + 1) length
  let dstNodeCount := numberAt buffer offset 1
  let offset := offset + 1
  checkOffset (offset + dstNodeCount * nodeIDLength) length
  let dstNodeIDs := (List.range dstNodeCount).map fun i =>
    bytesAt buffer (offset + i * nodeIDLength) nodeIDLength
  let offset := offset + dstNodeCount * nodeIDLength
  checkOffset (offset + 2) length
  return (⟨groupID, srcNodeID, dstNodeIDs, numberAt buffer offset 2⟩, offset + 2)

structure P2PMessage where
  length : ℕ
  version : ℕ
  packetType : ℕ
  seq : ℕ
  ext : ℕ
  ttl : BitVec 16 := 10
  srcP2PNodeID : Bytes := []
  dstP2PNodeID : Bytes := []
  options : P2PMessageOptions := {}
  payload : Bytes := []

namespace P2PMessage

def messageHeaderLength : ℕ := 14

def maxMessageLength : ℕ := 100 * 1024 * 1024

/-- `PeerToPeerMessage` or `BroadcastMessage`. -/
def hasOptions (m : P2PMessage) : Bool := m.packetType = 5 || m.packetType = 6

/-- The message and the offset behind the header. -/
def decodeHeader (buffer : Bytes) : P2PMessage × ℕ :=
  ({ length := numberAt buffer 0 4
     version := numberAt buffer 4 2
     packetType := numberAt buffer 6 2
     seq := numberAt buffer 8 4
     ext := numberAt buffer 12 2 }, 14)

/-- `P2PMessageV2::decodeHeader`.  The length of the second node id is read without a
check; `behind` are the bytes of the memory behind the buffer. -/
def decodeHeaderV2 (behind buffer : Bytes) : Option (P2PMessage × ℕ) := do
  let (m, offset) := decodeHeader buffer
  if m.version ≤ 0 then
    return (m, offset)
  let length := buffer.length
  checkOffset (offset + 2) length
  let ttl := BitVec.ofNat 16 (numberAt buffer offset 2)
  let offset := offset + 2
  checkOffset (offset + 2) length
  let srcP2PNodeIDLen := numberAt buffer offset 2
  let offset := offset + 2
  checkOffset (offset + srcP2PNodeIDLen) length
  let srcP2PNodeID := bytesAt buffer offset srcP2PNodeIDLen
  let offset := offset + srcP2PNodeIDLen
  let dstP2PNodeIDLen := numberAt (buffer ++ behind) offset 2
  let offset := offset + 2
  checkOffset (offset + dstP2PNodeIDLen) length
  let dstP2PNodeID := bytesAt buffer offset dstP2PNodeIDLen
  return ({ m with ttl, srcP2PNodeID, dstP2PNodeID }, offset + dstP2PNodeIDLen)

/-- The header of a `P2PMessageV2`, or of a `P2PMessage`. -/
def header (v2 : Bool) (behind buffer : Bytes) : Option (P2PMessage × ℕ) :=
  if v2 then decodeHeaderV2 behind buffer else some (decodeHeader buffer)

/-- The options of a message that has them, from the offset behind the header. -/
def decodeOptions (buffer : Bytes) (m : P2PMessage) (offset : ℕ) : Option (P2PMessage × ℕ) :=
  if m.hasOptions then
    (P2PMessageOptions.decode (buffer.drop offset)).map fun r =>
      ({ m with options := r.1 }, offset + r.2)
  else some (m, offset)

/-- The header and the options, and the offset behind them. -/
def headerAndOptions (v2 : Bool) (behind buffer : Bytes) : Option (P2PMessage × ℕ) := do
  let (m, offset) ← header v2 behind buffer
  decodeOptions buffer m offset

/-- The number returned, 0 for `MESSAGE_INCOMPLETE`, and the message; `none` for
`MESSAGE_ERROR` and for an exception. -/
def decode (v2 : Bool) (behind buffer : Bytes) : Option (ℕ × Option P2PMessage) := do
  if buffer.length < messageHeaderLength then
    return (0, none)
  let (m, offset) ← header v2 behind buffer
  if buffer.length < m.length then
    return (0, none)
  if maxMessageLength < m.length then
    none
  let (m, offset) ← decodeOptions buffer m offset
  checkOffset m.length (buffer.length % 2 ^ 32)
  let payload := getCroppedData buffer offset ((m.length + 2 ^ 32 - offset) % 2 ^ 32)
  return (m.length, some { m with payload })

variable {v2 : Bool} {behind buffer : Bytes} {m m' : P2PMessage} {offset k n : ℕ}

theorem decodeOptions_length (h : decodeOptions buffer m offset = some (m', k)) :
    m'.length = m.length := by
  unfold decodeOptions at h
  split_ifs at h
  · obtain ⟨r, -, hr⟩ := Option.map_eq_some_iff.mp h
    cases hr
    rfl
  · cases h
    rfl

/-- The buffer is not too short, and the length neither too large nor that of a message
that goes on behind the buffer. -/
def Admitted (buffer : Bytes) (length : ℕ) : Prop :=
  messageHeaderLength ≤ buffer.length ∧ length ≤ maxMessageLength ∧
    length ≤ buffer.length % 2 ^ 32

/-- Either the message is admitted with its header and options, or nothing is returned but
0 or an error. -/
theorem decode_cases (v2 : Bool) (behind buffer : Bytes) :
    (∃ m k, headerAndOptions v2 behind buffer = some (m, k) ∧ Admitted buffer m.length ∧
      decode v2 behind buffer = some (m.length, some { m with
        payload := getCroppedData buffer k ((m.length + 2 ^ 32 - k) % 2 ^ 32) })) ∨
    (∀ r ∈ headerAndOptions v2 behind buffer, ¬ Admitted buffer r.1.length) ∧
      ∀ r ∈ decode v2 behind buffer, r.1 = 0 := by
  rcases hheader : header v2 behind buffer with - | ⟨m, offset⟩
  · simp [decode, headerAndOptions, hheader]
  · rcases hoptions : decodeOptions buffer m offset with - | ⟨m', k⟩
    · simp only [decode, headerAndOptions, hheader]
      grind
    · have hlength := decodeOptions_length hoptions
      have hmod := Nat.mod_le buffer.length (2 ^ 32)
      simp only [decode, headerAndOptions, hheader, Admitted, checkOffset]
      grind

theorem getCroppedData_rest (hk : k ≤ n) (hn : n ≤ buffer.length % 2 ^ 32) :
    getCroppedData buffer k ((n + 2 ^ 32 - k) % 2 ^ 32) = (buffer.take n).drop k := by
  have hmod := Nat.mod_le buffer.length (2 ^ 32)
  have hcount : (n + 2 ^ 32 - k) % 2 ^ 32 = n - k := by omega
  rw [hcount, getCroppedData, if_pos (by omega), bytesAt, drop_take]

/-- What is returned lies between the end of the options and the end of the buffer, with
the payload in between, exactly if an admitted length reaches the end of the options. -/
theorem decode_bounded_iff (v2 : Bool) (behind buffer : Bytes) :
    (∀ r ∈ decode v2 behind buffer, r.1 = 0 ∨
      ∃ m k, headerAndOptions v2 behind buffer = some (m, k) ∧ k ≤ r.1 ∧ r.1 ≤ buffer.length ∧
        r.2.map payload = some ((buffer.take r.1).drop k)) ↔
    ∀ r ∈ headerAndOptions v2 behind buffer, Admitted buffer r.1.length →
      r.1.length = 0 ∨ r.2 ≤ r.1.length := by
  obtain ⟨m, k, hparts, hadmitted, hdecode⟩ | ⟨hparts, hdecode⟩ := decode_cases v2 behind buffer
  · have hsize : m.length ≤ buffer.length := le_trans hadmitted.2.2 (Nat.mod_le ..)
    have hpayload (hk : k ≤ m.length) := getCroppedData_rest hk hadmitted.2.2
    simp only [hparts, hdecode, Option.mem_some, forall_eq', Option.some.injEq, hadmitted]
    grind
  · exact ⟨fun _ r hr hadmitted => absurd hadmitted (hparts r hr),
      fun _ r hr => .inl (hdecode r hr)⟩

/-- A header that announces a length of 5 bytes. -/
theorem length_inside_header :
    let buffer : Bytes := [0, 0, 0, 5, 0, 0, 0, 1, 0, 0, 0, 0, 0, 0]
    (decode false [] buffer).map Prod.fst = some 5 ∧
      (headerAndOptions false [] buffer).map Prod.snd = some 14 := by
  decide +kernel

end P2PMessage

end FiscoSmart.Gateway
