import SpaceSec.Library.BigEndian

namespace SpaceSec

abbrev Bytes := List UInt8

abbrev sessionIdSize : ℕ := 4
abbrev timestampSize : ℕ := 8
abbrev nonceSize : ℕ := 12
abbrev tagSize : ℕ := 16
abbrev headerSize : ℕ := sessionIdSize + timestampSize + nonceSize

@[simp] theorem nonceSize_eq : nonceSize = 12 := rfl
@[simp] theorem tagSize_eq : tagSize = 16 := rfl
@[simp] theorem headerSize_eq : headerSize = 24 := rfl

structure SecurePacket where
  sessionId : UInt32
  timestampMs : UInt64
  nonce : Vector UInt8 nonceSize
  ciphertext : Bytes
  tag : Vector UInt8 tagSize
  deriving DecidableEq, Inhabited

def writeU32Be (out : Bytes) (value : UInt32) : Bytes :=
  out ++ [((value >>> 24) &&& 0xFF).toUInt8] ++ [((value >>> 16) &&& 0xFF).toUInt8] ++
    [((value >>> 8) &&& 0xFF).toUInt8] ++ [(value &&& 0xFF).toUInt8]

/-- `writeU64Loop value n out` runs the writer's loop for `i = n - 1` down to `0`. -/
def writeU64Loop (value : UInt64) : ℕ → Bytes → Bytes
  | 0, out => out
  | i + 1, out =>
    writeU64Loop value i (out ++ [((value >>> UInt64.ofNat (i * 8)) &&& 0xFF).toUInt8])

def writeU64Be (out : Bytes) (value : UInt64) : Bytes := writeU64Loop value 8 out

/-- A read of `data[i]` past the end of the vector is undefined; it answers `none` here,
and so does every function that performs one. -/
def readU32Be (data : Bytes) (offset : ℕ) : Option UInt32 := do
  let b₀ ← data[offset]?
  let b₁ ← data[offset + 1]?
  let b₂ ← data[offset + 2]?
  let b₃ ← data[offset + 3]?
  return (b₀.toUInt32 <<< 24) ||| (b₁.toUInt32 <<< 16) ||| (b₂.toUInt32 <<< 8) ||| b₃.toUInt32

def readU64Loop (data : Bytes) : ℕ → ℕ → UInt64 → Option UInt64
  | 0, _, value => some value
  | n + 1, offset, value => do
    let b ← data[offset]?
    readU64Loop data n (offset + 1) ((value <<< 8) ||| b.toUInt64)

def readU64Be (data : Bytes) (offset : ℕ) : Option UInt64 := readU64Loop data 8 offset 0

/-- The loops that fill a fixed array: for each index `i` below `n`, `arr[i] = data[offset + i]`. -/
def fillArray {m : ℕ} (data : Bytes) (offset : ℕ) : ℕ → Vector UInt8 m → Option (Vector UInt8 m)
  | 0, arr => some arr
  | n + 1, arr => do
    let arr ← fillArray data offset n arr
    let b ← data[offset + n]?
    return arr.setIfInBounds n b

/-- `vector::assign(data.begin() + first, data.begin() + last)`; a range that is not inside
the vector is undefined. -/
def assignRange (data : Bytes) (first last : ℕ) : Option Bytes :=
  if first ≤ last ∧ last ≤ data.length then some (data.extract first last) else none

def buildAad (packet : SecurePacket) : Bytes :=
  packet.nonce.toList.foldl (fun aad b ↦ aad ++ [b])
    (writeU64Be (writeU32Be [] packet.sessionId) packet.timestampMs)

def serializePacket (packet : SecurePacket) : Bytes :=
  buildAad packet ++ packet.ciphertext ++ packet.tag.toList

def deserializePacket (data : Bytes) (packet : SecurePacket) : Option (Bool × SecurePacket) :=
  if data.length < headerSize + tagSize then some (false, packet)
  else do
    let sessionId ← readU32Be data 0
    let packet := { packet with sessionId }
    let timestampMs ← readU64Be data 4
    let packet := { packet with timestampMs }
    let offset := 12
    let nonce ← fillArray data offset nonceSize packet.nonce
    let packet := { packet with nonce }
    let ciphertextLen := data.length - headerSize - tagSize
    let ciphertext ← assignRange data headerSize (headerSize + ciphertextLen)
    let packet := { packet with ciphertext }
    let tag ← fillArray data (headerSize + ciphertextLen) tagSize packet.tag
    return (true, { packet with tag })

end SpaceSec
