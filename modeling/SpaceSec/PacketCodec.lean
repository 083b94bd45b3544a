import SpaceSec.Packet
import Mathlib.Data.Set.Function

namespace SpaceSec

open BigEndian

theorem byte_u32 (value k : UInt32) (hk : k.toNat < 32) :
    ((value >>> k) &&& 0xFF).toUInt8 = UInt8.ofNat (value.toNat / 2 ^ k.toNat) := by
  apply UInt8.toNat_inj.mp
  simp [Nat.shiftRight_eq_div_pow, Nat.mod_eq_of_lt hk, and_mask]

theorem byte_u64 (value k : UInt64) (hk : k.toNat < 64) :
    ((value >>> k) &&& 0xFF).toUInt8 = UInt8.ofNat (value.toNat / 2 ^ k.toNat) := by
  apply UInt8.toNat_inj.mp
  simp [Nat.shiftRight_eq_div_pow, Nat.mod_eq_of_lt hk, and_mask]

theorem writeU32Be_eq (out : Bytes) (value : UInt32) :
    writeU32Be out value = out ++ bytes 4 value.toNat := by
  have h₀ : (value &&& 0xFF).toUInt8 = UInt8.ofNat (value.toNat / 2 ^ 0) := by
    simpa using byte_u32 value 0 (by decide)
  simp only [writeU32Be, byte_u32 value 24 (by decide), byte_u32 value 16 (by decide),
    byte_u32 value 8 (by decide), h₀, List.append_assoc]
  rfl

theorem writeU64Loop_eq (value : UInt64) (n : ℕ) (hn : n ≤ 8) (out : Bytes) :
    writeU64Loop value n out = out ++ bytes n value.toNat := by
  induction n generalizing out with
  | zero => simp [writeU64Loop, bytes]
  | succ n ih =>
    have hk : (UInt64.ofNat (n * 8)).toNat = n * 8 := by
      rw [UInt64.toNat_ofNat']
      exact Nat.mod_eq_of_lt (by omega)
    have hp : 2 ^ (n * 8) = 256 ^ n := by rw [Nat.mul_comm, Nat.pow_mul]
    rw [writeU64Loop, ih (by omega), byte_u64 value _ (by omega), hk, hp, bytes,
      List.append_assoc, List.singleton_append]

theorem writeU64Be_eq (out : Bytes) (value : UInt64) :
    writeU64Be out value = out ++ bytes 8 value.toNat :=
  writeU64Loop_eq value 8 le_rfl out

theorem shiftLeft_mod (x : UInt8) (k : ℕ) (hk : k ≤ 24) :
    x.toNat <<< k % 4294967296 = x.toNat <<< k := by
  have hx := x.toNat_lt
  apply Nat.mod_eq_of_lt
  rw [Nat.shiftLeft_eq]
  calc x.toNat * 2 ^ k < 2 ^ 8 * 2 ^ k := Nat.mul_lt_mul_of_pos_right hx (Nat.two_pow_pos k)
    _ = 2 ^ (8 + k) := (Nat.pow_add 2 8 k).symm
    _ ≤ 2 ^ 32 := Nat.pow_le_pow_right (by decide) (by omega)

theorem readU32Be_append (pre bs post : Bytes) (hbs : bs.length = 4) :
    ∃ v, readU32Be (pre ++ bs ++ post) pre.length = some v ∧ v.toNat = value bs := by
  match bs, hbs with
  | [a, b, c, d], _ =>
    refine ⟨_, by simp [readU32Be]; rfl, ?_⟩
    have h := shiftLeft_or_four a.toNat b.toNat c.toNat d.toNat b.toNat_lt c.toNat_lt d.toNat_lt
    simp only [UInt32.toNat_or, UInt32.toNat_shiftLeft, UInt8.toNat_toUInt32, UInt32.reduceToNat,
      Nat.reduceMod, Nat.reducePow, shiftLeft_mod _ 24 (by decide), shiftLeft_mod _ 16 (by decide),
      shiftLeft_mod _ 8 (by decide), h, value, List.length_cons, List.length_nil]
    omega

theorem toNat_shiftIn (acc : UInt64) (b : UInt8) (h : acc.toNat * 256 + b.toNat < 2 ^ 64) :
    ((acc <<< 8) ||| b.toUInt64).toNat = acc.toNat * 256 + b.toNat := by
  have hmod : acc.toNat <<< 8 % 18446744073709551616 = acc.toNat <<< 8 := by
    apply Nat.mod_eq_of_lt
    rw [Nat.shiftLeft_eq]
    exact lt_of_le_of_lt (Nat.le_add_right _ _) h
  simpa [hmod] using shiftLeft_or acc.toNat b.toNat b.toNat_lt

/-- The accumulator holds fewer bytes than the word has, so no step of the loop drops one. -/
theorem readU64Loop_append (pre bs post : Bytes) (acc : UInt64) (k : ℕ)
    (hacc : acc.toNat < 256 ^ k) (hk : k + bs.length ≤ 8) :
    ∃ v, readU64Loop (pre ++ bs ++ post) bs.length pre.length acc = some v ∧
      v.toNat = acc.toNat * 256 ^ bs.length + value bs := by
  induction bs generalizing pre acc k with
  | nil => exact ⟨acc, rfl, by simp [value]⟩
  | cons b bs ih =>
    have hb := b.toNat_lt
    simp only [List.length_cons] at hk
    have hlt : acc.toNat * 256 + b.toNat < 256 ^ (k + 1) := by rw [Nat.pow_succ]; omega
    have hword : 256 ^ (k + 1) ≤ 2 ^ 64 := by
      rw [show 2 ^ 64 = 256 ^ 8 from rfl]
      exact Nat.pow_le_pow_right (by decide) (by omega)
    have hacc' := toNat_shiftIn acc b (hlt.trans_le hword)
    obtain ⟨v, hv, hval⟩ := ih (pre ++ [b]) _ (k + 1) (hacc'.trans_lt hlt) (by omega)
    refine ⟨v, by simpa [readU64Loop] using hv, ?_⟩
    rw [hval, hacc', value, List.length_cons, Nat.pow_succ]
    ring

theorem readU64Be_append (pre bs post : Bytes) (hbs : bs.length = 8) :
    ∃ v, readU64Be (pre ++ bs ++ post) pre.length = some v ∧ v.toNat = value bs := by
  obtain ⟨v, hv, hval⟩ := readU64Loop_append pre bs post 0 0 (by decide) (by omega)
  exact ⟨v, by simpa only [readU64Be, hbs] using hv, by simpa using hval⟩

theorem fillArray_getElem {m : ℕ} (data : Bytes) (offset n : ℕ) (arr : Vector UInt8 m)
    (h : offset + n ≤ data.length) :
    ∃ v, fillArray data offset n arr = some v ∧
      ∀ i (hi : i < m), i < n → data[offset + i]? = some v[i] := by
  induction n with
  | zero => exact ⟨arr, rfl, fun i hi hn ↦ by omega⟩
  | succ n ih =>
    obtain ⟨v, hv, hget⟩ := ih (by omega)
    have hb : data[offset + n]? = some data[offset + n] := List.getElem?_eq_getElem (by omega)
    refine ⟨v.setIfInBounds n data[offset + n], by simp [fillArray, hv, hb], ?_⟩
    intro i hi hn
    by_cases hin : i = n
    · subst i
      simp [hb]
    · rw [hget i hi (by omega)]
      simp [Ne.symm hin]

theorem fillArray_append {m : ℕ} (pre post : Bytes) (v arr : Vector UInt8 m) :
    fillArray (pre ++ v.toList ++ post) pre.length m arr = some v := by
  obtain ⟨w, hw, hget⟩ :=
    fillArray_getElem (pre ++ v.toList ++ post) pre.length m arr (by simp)
  rw [hw, Option.some_inj]
  ext i hi
  have hvw : v[i] = w[i] := by simpa [List.getElem?_append, hi] using hget i hi hi
  rw [hvw]

theorem foldl_push (bs out : Bytes) : bs.foldl (fun out b ↦ out ++ [b]) out = out ++ bs := by
  induction bs generalizing out with
  | nil => simp
  | cons b bs ih => rw [List.foldl_cons, ih, List.append_assoc, List.singleton_append]

theorem buildAad_eq (packet : SecurePacket) :
    buildAad packet = bytes 4 packet.sessionId.toNat ++ bytes 8 packet.timestampMs.toNat ++
      packet.nonce.toList := by
  simp only [buildAad, foldl_push, writeU32Be_eq, writeU64Be_eq, List.nil_append]

@[simp] theorem length_buildAad (packet : SecurePacket) : (buildAad packet).length = 24 := by
  simp [buildAad_eq]

theorem length_serializePacket (packet : SecurePacket) :
    (serializePacket packet).length = 40 + packet.ciphertext.length := by
  simp only [serializePacket, List.length_append, length_buildAad, Vector.length_toList, tagSize_eq]
  omega

theorem buildAad_eq_take (packet : SecurePacket) :
    buildAad packet = (serializePacket packet).take 24 := by
  rw [serializePacket, List.append_assoc, ← length_buildAad packet, List.take_left]

theorem serializePacket_eq (packet : SecurePacket) :
    serializePacket packet = bytes 4 packet.sessionId.toNat ++ (bytes 8 packet.timestampMs.toNat ++
      (packet.nonce.toList ++ (packet.ciphertext ++ packet.tag.toList))) := by
  simp only [serializePacket, buildAad_eq, List.append_assoc]

theorem read_sessionId (packet : SecurePacket) :
    readU32Be (serializePacket packet) 0 = some packet.sessionId := by
  obtain ⟨v, hv, hval⟩ := readU32Be_append [] (bytes 4 packet.sessionId.toNat)
    (bytes 8 packet.timestampMs.toNat ++
      (packet.nonce.toList ++ (packet.ciphertext ++ packet.tag.toList))) (length_bytes _ _)
  have hid : v = packet.sessionId := UInt32.toNat_inj.mp
    (hval.trans (value_bytes_of_lt packet.sessionId.toNat_lt))
  rw [serializePacket_eq, ← hid]
  exact hid ▸ hv

theorem read_timestampMs (packet : SecurePacket) :
    readU64Be (serializePacket packet) 4 = some packet.timestampMs := by
  obtain ⟨v, hv, hval⟩ := readU64Be_append (bytes 4 packet.sessionId.toNat)
    (bytes 8 packet.timestampMs.toNat)
    (packet.nonce.toList ++ (packet.ciphertext ++ packet.tag.toList)) (length_bytes _ _)
  have hts : v = packet.timestampMs := UInt64.toNat_inj.mp
    (hval.trans (value_bytes_of_lt packet.timestampMs.toNat_lt))
  rw [serializePacket_eq, ← hts]
  simpa only [List.append_assoc, length_bytes, hts] using hv

theorem read_nonce (packet : SecurePacket) (arr : Vector UInt8 nonceSize) :
    fillArray (serializePacket packet) 12 nonceSize arr = some packet.nonce := by
  have h := fillArray_append
    (bytes 4 packet.sessionId.toNat ++ bytes 8 packet.timestampMs.toNat)
    (packet.ciphertext ++ packet.tag.toList) packet.nonce arr
  simpa only [serializePacket_eq, List.append_assoc, List.length_append, length_bytes] using h

theorem read_ciphertext (packet : SecurePacket) :
    assignRange (serializePacket packet) headerSize (headerSize + packet.ciphertext.length) =
      some packet.ciphertext := by
  have hlen := length_serializePacket packet
  rw [assignRange, if_pos (by simp only [headerSize_eq]; omega)]
  simp [serializePacket, List.extract]

theorem read_tag (packet : SecurePacket) (arr : Vector UInt8 tagSize) :
    fillArray (serializePacket packet) (headerSize + packet.ciphertext.length) tagSize arr =
      some packet.tag := by
  have h := fillArray_append (buildAad packet ++ packet.ciphertext) [] packet.tag arr
  simpa only [serializePacket, List.append_nil, List.length_append, length_buildAad,
    headerSize_eq] using h

theorem deserialize_serialize (packet old : SecurePacket) :
    deserializePacket (serializePacket packet) old = some (true, packet) := by
  have hlen := length_serializePacket packet
  have hct : (serializePacket packet).length - headerSize - tagSize = packet.ciphertext.length := by
    simp only [hlen, headerSize_eq, tagSize_eq]
    omega
  rw [deserializePacket, if_neg (by simp only [hlen, headerSize_eq, tagSize_eq]; omega)]
  simp only [hct, read_sessionId, read_timestampMs, read_nonce, read_ciphertext, read_tag,
    Option.bind_eq_bind, Option.bind_some, Option.pure_def]

/-- The packet whose five fields are the five slices of a datagram. -/
def slicePacket (data : Bytes) : SecurePacket where
  sessionId := UInt32.ofNat (value (data.extract 0 4))
  timestampMs := UInt64.ofNat (value (data.extract 4 12))
  nonce := Vector.ofFn fun i ↦ data.getD (12 + i) 0
  ciphertext := data.extract 24 (data.length - 16)
  tag := Vector.ofFn fun i ↦ data.getD (data.length - 16 + i) 0

theorem extract_append {α : Type} (data : List α) {a b c : ℕ} (hab : a ≤ b) (hbc : b ≤ c) :
    data.extract a b ++ data.extract b c = data.extract a c := by
  have hsum : c - a = (b - a) + (c - b) := by omega
  have hb : a + (b - a) = b := by omega
  simp only [List.extract, hsum, List.take_add, List.drop_drop, hb]

theorem ofFn_getD {n : ℕ} (data : Bytes) (offset : ℕ) (h : offset + n ≤ data.length) :
    (Vector.ofFn fun i : Fin n ↦ data.getD (offset + i) 0).toList =
      data.extract offset (offset + n) := by
  apply List.ext_getElem
  · simp [List.extract]
    omega
  · intro i hi hj
    have hin : offset + i < data.length := by simp at hi; omega
    simp [List.extract, List.getD_eq_getElem?_getD, List.getElem?_eq_getElem hin]

theorem length_extract {α : Type} (data : List α) {a b : ℕ} (hb : b ≤ data.length) :
    (data.extract a b).length = b - a := by
  simp only [List.extract, List.length_take, List.length_drop]
  omega

section SlicePacket

variable {data : Bytes} (h : 40 ≤ data.length)
include h

theorem sessionId_slicePacket : bytes 4 (slicePacket data).sessionId.toNat = data.extract 0 4 := by
  rw [slicePacket, UInt32.toNat_ofNat']
  exact bytes_value (length_extract data (show 4 ≤ data.length by omega))

theorem timestampMs_slicePacket :
    bytes 8 (slicePacket data).timestampMs.toNat = data.extract 4 12 := by
  rw [slicePacket, UInt64.toNat_ofNat']
  exact bytes_value (length_extract data (show 12 ≤ data.length by omega))

theorem nonce_slicePacket : (slicePacket data).nonce.toList = data.extract 12 24 :=
  ofFn_getD data 12 (by simp only [nonceSize_eq]; omega)

theorem tag_slicePacket :
    (slicePacket data).tag.toList = data.extract (data.length - 16) data.length := by
  have hend : data.length - 16 + 16 = data.length := by omega
  have ht := ofFn_getD (n := 16) data (data.length - 16) (by omega)
  rwa [hend] at ht

theorem serialize_slicePacket : serializePacket (slicePacket data) = data := by
  rw [serializePacket_eq, sessionId_slicePacket h, timestampMs_slicePacket h, nonce_slicePacket h,
    tag_slicePacket h]
  simp only [slicePacket]
  rw [extract_append data (by omega) (by omega), extract_append data (by omega) (by omega),
    extract_append data (by omega) (by omega), extract_append data (by omega) (by omega)]
  simp [List.extract]

end SlicePacket

/-- Nothing but the length decides whether a datagram parses, and the parse is its slices. -/
theorem deserializePacket_eq (data : Bytes) (old : SecurePacket) :
    deserializePacket data old =
      some (if 40 ≤ data.length then (true, slicePacket data) else (false, old)) := by
  split_ifs with h
  · have hd := deserialize_serialize (slicePacket data) old
    rwa [serialize_slicePacket h] at hd
  · rw [deserializePacket, if_pos (by simp only [headerSize_eq, tagSize_eq]; omega)]

theorem slicePacket_serializePacket (packet : SecurePacket) :
    slicePacket (serializePacket packet) = packet := by
  have h := deserialize_serialize packet packet
  rw [deserializePacket_eq, if_pos (by rw [length_serializePacket]; omega)] at h
  exact (Prod.mk.inj (Option.some_inj.mp h)).2

theorem buildAad_inj {p q : SecurePacket} (h : buildAad p = buildAad q) :
    p.sessionId = q.sessionId ∧ p.timestampMs = q.timestampMs ∧ p.nonce = q.nonce := by
  have hs : serializePacket { p with ciphertext := q.ciphertext, tag := q.tag } =
      serializePacket q := congrArg (· ++ q.ciphertext ++ q.tag.toList) h
  have hq := congrArg slicePacket hs
  rw [slicePacket_serializePacket, slicePacket_serializePacket] at hq
  rw [← hq]
  exact ⟨rfl, rfl, rfl⟩

/-- Packets and datagrams of at least forty bytes correspond one to one: parsing undoes
serialisation whatever the object held before, every parse stays inside its datagram, and a
datagram that parses is the serialisation of its parse, its header the authenticated data. -/
theorem packet_codec :
    (∀ packet old, deserializePacket (serializePacket packet) old = some (true, packet)) ∧
    (∀ data old, ∃ ok packet, deserializePacket data old = some (ok, packet) ∧
      (ok = true ↔ 40 ≤ data.length) ∧
      (ok = true → serializePacket packet = data ∧ buildAad packet = data.take 24)) ∧
    Set.BijOn serializePacket Set.univ {data | 40 ≤ data.length} := by
  refine ⟨deserialize_serialize, fun data old ↦ ?_, ?_, ?_, ?_⟩
  · by_cases h : 40 ≤ data.length
    · refine ⟨true, slicePacket data, by rw [deserializePacket_eq, if_pos h], by simp [h],
        fun _ ↦ ?_⟩
      have hs := serialize_slicePacket h
      exact ⟨hs, by rw [buildAad_eq_take, hs]⟩
    · exact ⟨false, old, by rw [deserializePacket_eq, if_neg h], by simp [h], by simp⟩
  · intro packet _
    simp only [Set.mem_ofPred_eq, length_serializePacket]
    omega
  · intro packet _ packet' _ heq
    have h := deserialize_serialize packet default
    rw [heq, deserialize_serialize] at h
    simpa [eq_comm] using h
  · exact fun data h ↦ ⟨slicePacket data, Set.mem_univ _, serialize_slicePacket h⟩

end SpaceSec
