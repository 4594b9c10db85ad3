/-
**Stored records and their two encodings** (`storage/mvcc.rs`, `KeyValue`).

`encode` is the value format of the `kv` tree (the key is the tree's own key), `encodeWithKey` the
one of the `kv_rev` tree, which carries the key as well. The decoders follow the source's checks
in order; `decode` admits a record of 32 to 35 bytes and then reads byte 32 to 35, which panics.

* `decode_encode`, `decodeWithKey_encodeWithKey` — a record whose fields are 64-bit and whose key
  and value are shorter than `2 ^ 32` comes back unchanged.
* `codecs_round_trip` — so neither encoding confuses two such records.
-/

import Rusd.Lib.Bytes
import Rusd.Lib.Exec

namespace Rusd

/-- The errors of the backend that the modelled operations return; a tree name is kept as the bytes
of its text. -/
inductive BackendError
  | serializationError (message : String)
  | treeNotFound (name : Bytes)
  deriving DecidableEq, Repr

/-- The errors of the storage engine that the modelled operations return. -/
inductive StorageError
  | backend (error : BackendError)
  | mvcc (message : String)
  deriving DecidableEq, Repr

/-- A key-value pair with MVCC metadata. -/
structure KeyValue where
  key : Bytes
  createRevision : Int
  modRevision : Int
  version : Int
  value : Bytes
  lease : Int
  deriving DecidableEq, Repr, Inhabited

namespace KeyValue

/-- The four 64-bit fields that open both encodings. -/
def encodeHeader (kv : KeyValue) : Bytes :=
  i64ToLe kv.createRevision ++ (i64ToLe kv.modRevision ++ (i64ToLe kv.version ++ i64ToLe kv.lease))

/-- A `u32` length prefix, then the bytes. -/
def encodeField (data : Bytes) : Bytes := leBytes 4 data.length ++ data

def encode (kv : KeyValue) : Bytes := kv.encodeHeader ++ encodeField kv.value

def encodeWithKey (kv : KeyValue) : Bytes :=
  kv.encodeHeader ++ (encodeField kv.key ++ encodeField kv.value)

def decodeWithKey (data : Bytes) : Outcome StorageError KeyValue :=
  if data.length < 36 then .err (.mvcc "Invalid KeyValue encoding (with key)")
  else
    let keyLen := ofLeBytes (slice data 32 36)
    if 36 + keyLen + 4 > data.length then .err (.mvcc "Invalid KeyValue encoding (key too long)")
    else
      let valOffset := 36 + keyLen
      let valueLen := ofLeBytes (slice data valOffset (valOffset + 4))
      if valOffset + 4 + valueLen > data.length then
        .err (.mvcc "Invalid KeyValue encoding (value too long)")
      else .ok {
        key := slice data 36 (36 + keyLen)
        createRevision := i64OfLe (slice data 0 8)
        modRevision := i64OfLe (slice data 8 16)
        version := i64OfLe (slice data 16 24)
        value := slice data (valOffset + 4) (valOffset + 4 + valueLen)
        lease := i64OfLe (slice data 24 32) }

def decode (key data : Bytes) : Outcome StorageError KeyValue :=
  if data.length < 32 then .err (.mvcc "Invalid KeyValue encoding")
  -- the header is complete, but `data[32..35]` is read without a further check
  else if data.length < 36 then .panic
  else
    let valueLen := ofLeBytes (slice data 32 36)
    if 36 + valueLen > data.length then .err (.mvcc "Invalid KeyValue encoding")
    else .ok {
      key := key
      createRevision := i64OfLe (slice data 0 8)
      modRevision := i64OfLe (slice data 8 16)
      version := i64OfLe (slice data 16 24)
      value := slice data 36 (36 + valueLen)
      lease := i64OfLe (slice data 24 32) }

/-- A `kv` record is read under the key of the tree. -/
theorem key_of_decode {key data : Bytes} {kv : KeyValue} (decoded : decode key data = .ok kv) :
    kv.key = key := by
  unfold decode at decoded
  dsimp only at decoded
  split_ifs at decoded
  cases decoded
  rfl

/-- The records the formats can hold: 64-bit fields, lengths that fit their `u32` prefix. -/
structure Encodable (kv : KeyValue) : Prop where
  createRevision : IsI64 kv.createRevision
  modRevision : IsI64 kv.modRevision
  version : IsI64 kv.version
  lease : IsI64 kv.lease
  key : kv.key.length < 2 ^ 32
  value : kv.value.length < 2 ^ 32

/-! ### The parts of an encoding -/

@[simp] theorem length_encodeHeader (kv : KeyValue) : kv.encodeHeader.length = 32 := by
  simp [encodeHeader]

@[simp] theorem length_encodeField (data : Bytes) : (encodeField data).length = 4 + data.length := by
  simp [encodeField]

/-- The four header fields, read back from any record that opens with them. -/
theorem slice_encodeHeader (kv : KeyValue) (rest : Bytes) :
    slice (kv.encodeHeader ++ rest) 0 8 = i64ToLe kv.createRevision ∧
      slice (kv.encodeHeader ++ rest) 8 16 = i64ToLe kv.modRevision ∧
      slice (kv.encodeHeader ++ rest) 16 24 = i64ToLe kv.version ∧
      slice (kv.encodeHeader ++ rest) 24 32 = i64ToLe kv.lease := by
  unfold encodeHeader
  simp only [List.append_assoc]
  refine ⟨slice_front (by simp), ?_, ?_, ?_⟩
  · rw [slice_skip (by simp)]
    exact slice_front (by simp)
  · rw [slice_skip (by simp), slice_skip (by simp)]
    exact slice_front (by simp)
  · rw [slice_skip (by simp), slice_skip (by simp), slice_skip (by simp)]
    exact slice_front (by simp)

/-- A length-prefixed field at the front of what is left. -/
theorem slice_encodeField (data rest : Bytes) (short : data.length < 2 ^ 32) :
    ofLeBytes (slice (encodeField data ++ rest) 0 4) = data.length ∧
      slice (encodeField data ++ rest) 4 (4 + data.length) = data := by
  unfold encodeField
  rw [List.append_assoc]
  constructor
  · rw [slice_front (by simp), ofLeBytes_leBytes 4 _ (by norm_num; omega)]
  · rw [slice_skip (by simp)]
    exact slice_front (by simp)

/-! ### The round trips -/

/-- **A `kv` record comes back unchanged.** -/
theorem decode_encode {kv : KeyValue} (fits : kv.Encodable) :
    decode kv.key kv.encode = .ok kv := by
  have fields := slice_encodeHeader kv (encodeField kv.value)
  obtain ⟨create, modified, version, lease⟩ := fields
  have field := slice_encodeField kv.value [] fits.value
  rw [List.append_nil] at field
  have len : kv.encode.length = 36 + kv.value.length := by
    simp [encode]
    omega
  have valueLen : ofLeBytes (slice kv.encode 32 36) = kv.value.length := by
    rw [encode, slice_skip (by simp)]
    simpa using field.1
  have value : slice kv.encode 36 (36 + kv.value.length) = kv.value := by
    rw [encode, slice_skip (by simp), length_encodeHeader,
      show 36 + kv.value.length - 32 = 4 + kv.value.length by omega]
    exact field.2
  unfold decode
  rw [if_neg (by omega), if_neg (by omega)]
  simp only [valueLen]
  rw [if_neg (by omega), value]
  simp only [encode, create, modified, version, lease]
  rw [i64OfLe_i64ToLe fits.createRevision, i64OfLe_i64ToLe fits.modRevision,
    i64OfLe_i64ToLe fits.version, i64OfLe_i64ToLe fits.lease]

/-- **A `kv_rev` record comes back unchanged, key included.** -/
theorem decodeWithKey_encodeWithKey {kv : KeyValue} (fits : kv.Encodable) :
    decodeWithKey kv.encodeWithKey = .ok kv := by
  have fields := slice_encodeHeader kv (encodeField kv.key ++ encodeField kv.value)
  obtain ⟨create, modified, version, lease⟩ := fields
  have keyField := slice_encodeField kv.key (encodeField kv.value) fits.key
  have valueField := slice_encodeField kv.value [] fits.value
  rw [List.append_nil] at valueField
  have len : kv.encodeWithKey.length = 40 + kv.key.length + kv.value.length := by
    simp [encodeWithKey]
    omega
  have keyLen : ofLeBytes (slice kv.encodeWithKey 32 36) = kv.key.length := by
    rw [encodeWithKey, slice_skip (by simp)]
    simpa using keyField.1
  have key : slice kv.encodeWithKey 36 (36 + kv.key.length) = kv.key := by
    rw [encodeWithKey, slice_skip (by simp), length_encodeHeader,
      show 36 + kv.key.length - 32 = 4 + kv.key.length by omega]
    exact keyField.2
  have tail : ∀ n, slice kv.encodeWithKey (36 + kv.key.length) (36 + kv.key.length + n) =
      slice (encodeField kv.value) 0 n := by
    intro n
    rw [encodeWithKey, slice_skip (by simp; omega), length_encodeHeader,
      slice_skip (by simp; omega), length_encodeField]
    congr 1 <;> omega
  have valueLen : ofLeBytes (slice kv.encodeWithKey (36 + kv.key.length) (36 + kv.key.length + 4))
      = kv.value.length := by
    rw [tail]
    exact valueField.1
  have value : slice kv.encodeWithKey (36 + kv.key.length + 4)
      (36 + kv.key.length + 4 + kv.value.length) = kv.value := by
    rw [encodeWithKey, slice_skip (by simp; omega), length_encodeHeader,
      slice_skip (by simp; omega), length_encodeField,
      show 36 + kv.key.length + 4 - 32 - (4 + kv.key.length) = 4 by omega,
      show 36 + kv.key.length + 4 + kv.value.length - 32 - (4 + kv.key.length) =
        4 + kv.value.length by omega]
    exact valueField.2
  unfold decodeWithKey
  rw [if_neg (by omega)]
  simp only [keyLen]
  rw [if_neg (by omega)]
  simp only [valueLen]
  rw [if_neg (by omega), key, value]
  simp only [encodeWithKey, create, modified, version, lease]
  rw [i64OfLe_i64ToLe fits.createRevision, i64OfLe_i64ToLe fits.modRevision,
    i64OfLe_i64ToLe fits.version, i64OfLe_i64ToLe fits.lease]

theorem encode_injective {kv other : KeyValue} (fits : kv.Encodable) (fits' : other.Encodable)
    (key : kv.key = other.key) (same : kv.encode = other.encode) : kv = other := by
  have decoded := decode_encode fits
  rw [same, key, decode_encode fits'] at decoded
  exact (Outcome.ok.inj decoded).symm

theorem encodeWithKey_injective {kv other : KeyValue} (fits : kv.Encodable) (fits' : other.Encodable)
    (same : kv.encodeWithKey = other.encodeWithKey) : kv = other := by
  have decoded := decodeWithKey_encodeWithKey fits
  rw [same, decodeWithKey_encodeWithKey fits'] at decoded
  exact (Outcome.ok.inj decoded).symm

/-- **The two codecs.** A record comes back from either encoding; no other one has the same encoding,
where `encode` leaves the key to the tree. -/
theorem codecs_round_trip (kv : KeyValue) (fits : kv.Encodable) :
    decode kv.key kv.encode = .ok kv ∧ decodeWithKey kv.encodeWithKey = .ok kv ∧
      (∀ other, other.Encodable → other.key = kv.key → other.encode = kv.encode → other = kv) ∧
      ∀ other, other.Encodable → other.encodeWithKey = kv.encodeWithKey → other = kv :=
  ⟨decode_encode fits, decodeWithKey_encodeWithKey fits,
    fun _ fits' key same => encode_injective fits' fits key same,
    fun _ fits' same => encodeWithKey_injective fits' fits same⟩

/-- A record with the least and the greatest 64-bit number. -/
def extremes : KeyValue := ⟨[0, 255], -2 ^ 63, 2 ^ 63 - 1, -1, [7], 0⟩

theorem codecs_round_trip_extremes :
    decode extremes.key extremes.encode = .ok extremes ∧
      decodeWithKey extremes.encodeWithKey = .ok extremes ∧
      (∀ other, other.Encodable → other.key = extremes.key → other.encode = extremes.encode →
        other = extremes) ∧
      ∀ other, other.Encodable → other.encodeWithKey = extremes.encodeWithKey → other = extremes :=
  codecs_round_trip extremes
    ⟨by decide, by decide, by decide, by decide, by decide, by decide⟩

/-- The revisions and the version of a record survive in the `kv` tree whatever the length of its
value. -/
theorem decode_encode_header {kv : KeyValue} (create : IsI64 kv.createRevision)
    (modified : IsI64 kv.modRevision) (version : IsI64 kv.version) (key : Bytes) :
    ∃ read, decode key kv.encode = .ok read ∧ read.createRevision = kv.createRevision ∧
      read.modRevision = kv.modRevision ∧ read.version = kv.version := by
  obtain ⟨createField, modField, versionField, _⟩ := kv.slice_encodeHeader (encodeField kv.value)
  have len : kv.encode.length = 36 + kv.value.length := by
    simp [encode]
    omega
  have valueLen : ofLeBytes (slice kv.encode 32 36) ≤ kv.value.length := by
    rw [encode, slice_skip (by simp), length_encodeHeader, encodeField, slice_front (by simp)]
    exact ofLeBytes_leBytes_le 4 _
  unfold decode
  dsimp only
  rw [if_neg (by omega), if_neg (by omega), if_neg (by omega)]
  refine ⟨_, rfl, ?_, ?_, ?_⟩
  · simp only [encode, createField, i64OfLe_i64ToLe create]
  · simp only [encode, modField, i64OfLe_i64ToLe modified]
  · simp only [encode, versionField, i64OfLe_i64ToLe version]

end KeyValue

end Rusd
