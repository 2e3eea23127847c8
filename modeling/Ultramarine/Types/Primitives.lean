import Ultramarine.Lib.Table
import Ultramarine.Lib.Bytes

/-!
# Primitive types

Fixed-size byte arrays are bit vectors read big-endian; `u64` and `u16` counters are natural
numbers. `Round` is the consensus engine's round, nil or a `u32`, ordered through its `i64` image
as the stores order it. `Slot` is the key `(height, round)` of everything that is not yet decided.
-/

namespace Ultramarine

open Lib

abbrev B256 : Type := BitVec 256

abbrev Bloom : Type := BitVec 2048

abbrev U256 : Type := BitVec 256

/-- A block height (`u64`). -/
abbrev Height : Type := Nat

/-- `Address`: 20 bytes. -/
structure Address where
  bytes : BitVec 160
deriving DecidableEq, Repr

/-- An ed25519 public key. -/
structure PublicKey where
  bytes : BitVec 256
deriving DecidableEq, Repr

/-- An ed25519 private key. -/
structure PrivateKey where
  bytes : BitVec 256
deriving DecidableEq, Repr

/-- An ed25519 signature: 64 bytes. -/
structure Signature where
  bytes : BitVec 512
deriving DecidableEq, Repr

/-- `KzgCommitment`: 48 bytes. -/
structure KzgCommitment where
  bytes : BitVec 384
deriving DecidableEq, Repr

/-- `KzgProof`: 48 bytes. -/
structure KzgProof where
  bytes : BitVec 384
deriving DecidableEq, Repr

/-- The bytes of a fixed-size array. -/
def bitVecBytes {w : Nat} (v : BitVec w) : Bytes := beBytes (w / 8) v.toNat

theorem bitVecBytes_inj {w : Nat} (hw : w = 8 * (w / 8)) {a b : BitVec w}
    (h : bitVecBytes a = bitVecBytes b) : a = b := by
  have hmod := mod_eq_of_beBytes_eq h
  have hpow : 256 ^ (w / 8) = 2 ^ w := by
    rw [show 256 = 2 ^ 8 from rfl, ← Nat.pow_mul, ← hw]
  rw [hpow, Nat.mod_eq_of_lt a.isLt, Nat.mod_eq_of_lt b.isLt] at hmod
  exact BitVec.eq_of_toNat_eq hmod

@[simp] theorem length_bitVecBytes {w : Nat} (v : BitVec w) : (bitVecBytes v).length = w / 8 :=
  length_beBytes _ _

/-- The 32-byte array with the given bytes, padded with zeros on the right. -/
def toChunk (bytes : Bytes) : B256 := BitVec.ofNat 256 (ofBeBytes (padRight 32 bytes))

/-- Padding loses nothing but the length. -/
theorem toChunk_inj {a b : Bytes} (hlen : a.length = b.length) (hle : a.length ≤ 32)
    (h : toChunk a = toChunk b) : a = b := by
  have hnat := congrArg BitVec.toNat h
  have hlt : ∀ {c : Bytes}, c.length ≤ 32 → ofBeBytes (padRight 32 c) < 2 ^ 256 := by
    intro c hc
    have hbound := ofBeBytes_lt (padRight 32 c)
    rwa [length_padRight hc, show 256 ^ 32 = 2 ^ 256 by norm_num] at hbound
  unfold toChunk at hnat
  rw [BitVec.toNat_ofNat, BitVec.toNat_ofNat, Nat.mod_eq_of_lt (hlt hle),
    Nat.mod_eq_of_lt (hlt (hlen ▸ hle))] at hnat
  have hpad := ofBeBytes_inj (by rw [length_padRight hle, length_padRight (hlen ▸ hle)]) hnat
  exact (List.append_inj hpad hlen).1

/-- `BYTES_PER_BLOB` -/
def bytesPerBlob : Nat := 131072

/-- `MAX_BLOB_COMMITMENTS_PER_BLOCK` -/
def maxBlobCommitmentsPerBlock : Nat := 4096

/-- `MAX_BLOBS_PER_BLOCK` -/
def maxBlobsPerBlock : Nat := 1024

/-- `LOAD_EXECUTION_GAS_LIMIT` -/
def loadExecutionGasLimit : Nat := 2000000000

/-- `LOAD_MIN_BLOCK_TIME_SECS` -/
def loadMinBlockTimeSecs : Nat := 1

/-- `LOAD_MAX_FUTURE_DRIFT_SECS` -/
def loadMaxFutureDriftSecs : Nat := 15

/-- `u64` addition, which wraps in a release build. -/
def addU64 (a b : Nat) : Nat := (a + b) % 2 ^ 64

theorem addU64_eq {a b : Nat} (h : a + b < 2 ^ 64) : addU64 a b = a + b := Nat.mod_eq_of_lt h

/-- `u16::MAX` -/
def u16Max : Nat := 65535

/-- `i32::MAX` -/
def i32Max : Nat := 2147483647

/-- `Blob`: exactly `BYTES_PER_BLOB` bytes. -/
structure Blob where
  data : Bytes
  size_eq : data.length = bytesPerBlob
deriving DecidableEq

/-- `Round`: nil, or a `u32`. -/
inductive Round where
  | nil
  | some (r : Nat)
deriving DecidableEq, Repr

namespace Round

/-- `Round::as_i64` -/
def asI64 : Round → Int
  | nil => -1
  | some r => r

theorem asI64_injective : Function.Injective asI64 := by
  intro a b h
  cases a <;> cases b <;> simp only [asI64] at h <;> simp <;> omega

instance : Ord Round := ⟨compareOn asI64⟩

instance : Std.TransOrd Round := inferInstanceAs (Std.TransCmp (compareOn asI64))

instance : Std.LawfulEqOrd Round where
  eq_of_compare := fun {a b} h => by
    have h' : compare a.asI64 b.asI64 = .eq := h
    exact asI64_injective (Std.LawfulEqCmp.compare_eq_iff_eq.1 h')

end Round

/-- `UndecidedValueKey`: height, then round. -/
@[ext]
structure Slot where
  height : Height
  round : Round
deriving DecidableEq, Repr

namespace Slot

instance : Ord Slot := lexOn height round

instance : Std.TransOrd Slot := lexOn_transOrd height round

instance : Std.LawfulEqOrd Slot := lexOn_lawfulEqOrd height round fun _ _ => Slot.ext

end Slot

/-- `BlobArchivalKey`: height, then blob index. -/
@[ext]
structure BlobIndexKey where
  height : Height
  index : Nat
deriving DecidableEq, Repr

namespace BlobIndexKey

instance : Ord BlobIndexKey := lexOn height index

instance : Std.TransOrd BlobIndexKey := lexOn_transOrd height index

instance : Std.LawfulEqOrd BlobIndexKey :=
  lexOn_lawfulEqOrd height index fun _ _ => BlobIndexKey.ext

end BlobIndexKey

end Ultramarine
