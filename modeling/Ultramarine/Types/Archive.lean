import Ultramarine.Types.Primitives

/-!
# Archive notices

A proposer that has uploaded the blobs of a block broadcasts one signed notice per blob; a node
that accepts a notice keeps it as a record. On the wire the round is an `i32`, nil being `-1`, and
every negative number reads back as nil.
-/

namespace Ultramarine

open Lib

/-- `ArchiveNoticeBody`: what is signed. -/
structure ArchiveNoticeBody where
  height : Height
  round : Round
  blobIndex : Nat
  kzgCommitment : KzgCommitment
  blobKeccak : B256
  providerId : String
  locator : String
  archivedBy : Address
  archivedAt : Nat
deriving DecidableEq, Repr

/-- `ArchiveNotice` -/
structure ArchiveNotice where
  body : ArchiveNoticeBody
  signature : Signature
deriving DecidableEq, Repr

/-- `ArchiveRecord` -/
structure ArchiveRecord where
  body : ArchiveNoticeBody
  signature : Signature
deriving DecidableEq, Repr

/-- `ArchiveRecord::from_notice` -/
def ArchiveRecord.fromNotice (n : ArchiveNotice) : ArchiveRecord := ⟨n.body, n.signature⟩

/-- `ArchiveRecord::into_notice` -/
def ArchiveRecord.intoNotice (r : ArchiveRecord) : ArchiveNotice := ⟨r.body, r.signature⟩

/-- `proto::ArchiveNoticeBody`: the round is an `i32`. -/
structure ProtoArchiveNoticeBody where
  height : Height
  round : Int
  blobIndex : Nat
  kzgCommitment : KzgCommitment
  blobKeccak : B256
  providerId : String
  locator : String
  archivedBy : Address
  archivedAt : Nat
deriving DecidableEq, Repr

/-- `as i32`, on the `i64` image of a round. -/
def wrapI32 (n : Int) : Int :=
  let r := n % 2 ^ 32
  if r < 2 ^ 31 then r else r - 2 ^ 32

/-- `ArchiveNoticeBody::round_to_proto` -/
def roundToProto (r : Round) : Int :=
  if r = .nil then -1 else wrapI32 r.asI64

/-- `ArchiveNoticeBody::round_from_proto` -/
def roundFromProto (n : Int) : Round :=
  if n < 0 then .nil else .some n.toNat

/-- `ArchiveNoticeBody::to_proto` -/
def ArchiveNoticeBody.toProto (b : ArchiveNoticeBody) : ProtoArchiveNoticeBody where
  height := b.height
  round := roundToProto b.round
  blobIndex := b.blobIndex
  kzgCommitment := b.kzgCommitment
  blobKeccak := b.blobKeccak
  providerId := b.providerId
  locator := b.locator
  archivedBy := b.archivedBy
  archivedAt := b.archivedAt

/-- `ArchiveNoticeBody::from_proto` -/
def ArchiveNoticeBody.fromProto (p : ProtoArchiveNoticeBody) : ArchiveNoticeBody where
  height := p.height
  round := roundFromProto p.round
  blobIndex := p.blobIndex
  kzgCommitment := p.kzgCommitment
  blobKeccak := p.blobKeccak
  providerId := p.providerId
  locator := p.locator
  archivedBy := p.archivedBy
  archivedAt := p.archivedAt

/-- A nil round, or one within `i32`, survives the wire. -/
theorem roundFromProto_roundToProto {r : Round} (h : r.asI64 ≤ i32Max) :
    roundFromProto (roundToProto r) = r := by
  cases r with
  | nil => rfl
  | some n =>
    have hn : (n : Int) ≤ 2147483647 := h
    have hwrap : wrapI32 n = n := by
      unfold wrapI32
      simp only
      rw [Int.emod_eq_of_lt (by omega) (by omega), if_pos (by omega)]
    have hto : roundToProto (.some n) = n := by
      unfold roundToProto
      rw [if_neg (by simp)]
      exact hwrap
    rw [hto]
    unfold roundFromProto
    rw [if_neg (by omega)]
    simp

/-- A round beyond `i32` is read as another one. -/
theorem roundFromProto_roundToProto_iff {r : Round} :
    roundFromProto (roundToProto r) = r ↔ r.asI64 ≤ i32Max := by
  refine ⟨fun h => ?_, roundFromProto_roundToProto⟩
  cases r with
  | nil => decide
  | some n =>
    have hto : roundToProto (.some n) = wrapI32 n := if_neg (by simp)
    have hlt : wrapI32 n < 2 ^ 31 := by
      unfold wrapI32
      simp only
      split <;> omega
    rw [hto] at h
    unfold roundFromProto at h
    split at h
    · cases h
    · have hn : (wrapI32 n).toNat = n := Round.some.inj h
      simp only [Round.asI64, i32Max]
      omega

/-- A notice body whose round fits `i32` survives the wire. -/
theorem ArchiveNoticeBody.fromProto_toProto {b : ArchiveNoticeBody} (h : b.round.asI64 ≤ i32Max) :
    fromProto b.toProto = b := by
  unfold fromProto toProto
  rw [roundFromProto_roundToProto h]

end Ultramarine
