import Ultramarine.Store.Blobs
import Ultramarine.Types.Codec

/-!
# The blob store as RocksDB has it

`blob_engine/src/store/rocksdb.rs` on byte strings. A key is the big-endian bytes of height, round (an
`i64`) and index; a row is a serialized sidecar; an iteration starts at a prefix and ends at the first
key without it. `mark_decided` moves rows as they are, and reads the index of a row off its key.

`Represents` connects it to `BlobStore`: `compare_toUndecidedKey` says that byte order is the order of
the keys, so a seek and an iteration over a prefix (`scanStarts_eq_scan`) are a scan of the keys
(`collectUndecidedEntries_eq`), every write of the one is the encoded write of the other
(`Represents.apply`), readers return the same sidecars (`getUndecidedBlobs_eq`,
`getDecidedBlobs_eq`), and rows are moved and dropped alike (`markDecidedWrites_eq`,
`dropRoundWrites_eq`).
-/

namespace Ultramarine

open Lib

/-! ## Keys -/

/-- The two's complement image of an `i64`. -/
def i64Image (r : Int) : Nat := (r % 2 ^ 64).toNat

/-- The `i64` of an image. -/
def i64OfImage (n : Nat) : Int := if n < 2 ^ 63 then n else n - 2 ^ 64

theorem i64OfImage_i64Image {r : Int} (hge : -2 ^ 63 ≤ r) (hlt : r < 2 ^ 63) :
    i64OfImage (i64Image r) = r := by
  unfold i64OfImage i64Image
  split
  · omega
  · omega

theorem i64Image_lt (r : Int) : i64Image r < 256 ^ 8 := by
  unfold i64Image
  omega

variable {height : Height} {round : Int} {e : BlobKey × BlobSidecar} {x : BlobSidecar}

namespace BlobKey

/-- `BlobKey::to_undecided_key` -/
def toUndecidedKey (k : BlobKey) : Bytes :=
  beBytes 8 k.height ++ (beBytes 8 (i64Image k.round) ++ beBytes 2 k.index)

/-- `BlobKey::from_undecided_key` -/
def fromUndecidedKey (bytes : Bytes) : Option BlobKey :=
  if bytes.length = 18 then
    some ⟨ofBeBytes (bytes.take 8), i64OfImage (ofBeBytes ((bytes.drop 8).take 8)),
      ofBeBytes (bytes.drop 16)⟩
  else none

/-- The ranges of `u64`, `i64` and `u16`. -/
@[mk_iff]
structure Fits (k : BlobKey) : Prop where
  height_lt : k.height < 2 ^ 64
  round_ge : -2 ^ 63 ≤ k.round
  round_lt : k.round < 2 ^ 63
  index_lt : k.index < 2 ^ 16

variable {k k' : BlobKey}

theorem fromUndecidedKey_toUndecidedKey (h : k.Fits) :
    fromUndecidedKey k.toUndecidedKey = some k := by
  have hlength : k.toUndecidedKey.length = 18 := by simp [toUndecidedKey]
  have htake : k.toUndecidedKey.take 8 = beBytes 8 k.height :=
    List.take_left' (length_beBytes 8 _)
  have hdrop : k.toUndecidedKey.drop 8 = beBytes 8 (i64Image k.round) ++ beBytes 2 k.index :=
    List.drop_left' (length_beBytes 8 _)
  have hround : (k.toUndecidedKey.drop 8).take 8 = beBytes 8 (i64Image k.round) := by
    rw [hdrop]
    exact List.take_left' (length_beBytes 8 _)
  have hindex : k.toUndecidedKey.drop 16 = beBytes 2 k.index := by
    rw [show 16 = 8 + 8 from rfl, ← List.drop_drop, hdrop]
    exact List.drop_left' (length_beBytes 8 _)
  unfold fromUndecidedKey
  rw [if_pos hlength, htake, hround, hindex, ofBeBytes_beBytes, ofBeBytes_beBytes, ofBeBytes_beBytes,
    Nat.mod_eq_of_lt (lt_of_lt_of_eq h.height_lt (by decide)),
    Nat.mod_eq_of_lt (i64Image_lt k.round),
    Nat.mod_eq_of_lt (lt_of_lt_of_eq h.index_lt (by decide)),
    i64OfImage_i64Image h.round_ge h.round_lt]

/-- Rounds sort by their bytes as `compare` sorts them: negative rounds last. -/
theorem compare_i64Image (h : k.Fits) (h' : k'.Fits) :
    compare (i64Image k.round) (i64Image k'.round) =
      (compare k.signRank k'.signRank).then (compare k.round k'.round) := by
  have h₁ := h.round_ge
  have h₂ := h.round_lt
  have h₁' := h'.round_ge
  have h₂' := h'.round_lt
  unfold signRank i64Image
  rcases lt_trichotomy k.round k'.round with hlt | heq | hgt
  · by_cases hneg : k.round < 0
    · by_cases hneg' : k'.round < 0
      · rw [if_pos hneg, if_pos hneg', Nat.compare_eq_eq.2 rfl, Ordering.eq_then,
          Int.compare_eq_lt.2 hlt, Nat.compare_eq_lt]
        omega
      · rw [if_pos hneg, if_neg hneg', Nat.compare_eq_gt.2 Nat.one_pos, Nat.compare_eq_gt.2]
        · rfl
        · omega
    · rw [if_neg hneg, if_neg (by omega), Nat.compare_eq_eq.2 rfl, Ordering.eq_then,
        Int.compare_eq_lt.2 hlt, Nat.compare_eq_lt]
      omega
  · rw [heq]
    simp
  · by_cases hneg' : k'.round < 0
    · by_cases hneg : k.round < 0
      · rw [if_pos hneg, if_pos hneg', Nat.compare_eq_eq.2 rfl, Ordering.eq_then,
          Int.compare_eq_gt.2 hgt, Nat.compare_eq_gt]
        omega
      · rw [if_neg hneg, if_pos hneg', Nat.compare_eq_lt.2 Nat.one_pos, Nat.compare_eq_lt.2]
        · rfl
        · omega
    · rw [if_neg (by omega), if_neg hneg', Nat.compare_eq_eq.2 rfl, Ordering.eq_then,
        Int.compare_eq_gt.2 hgt, Nat.compare_eq_gt]
      omega

/-- **Byte order is key order.** -/
theorem compare_toUndecidedKey (h : k.Fits) (h' : k'.Fits) :
    compare k.toUndecidedKey k'.toUndecidedKey = compare k k' := by
  unfold toUndecidedKey
  rw [compare_append (by simp), compare_append (by simp), compare_beBytes, compare_beBytes,
    compare_beBytes, Nat.mod_eq_of_lt (lt_of_lt_of_eq h.height_lt (by decide)),
    Nat.mod_eq_of_lt (lt_of_lt_of_eq h'.height_lt (by decide)),
    Nat.mod_eq_of_lt (i64Image_lt _), Nat.mod_eq_of_lt (i64Image_lt _),
    Nat.mod_eq_of_lt (lt_of_lt_of_eq h.index_lt (by decide)),
    Nat.mod_eq_of_lt (lt_of_lt_of_eq h'.index_lt (by decide)), compare_i64Image h h', compare_eq_lex]
  simp only [compareLex, compareOn, Ordering.then_assoc]

/-- A key starts with the bytes of its height. -/
theorem height_prefix (h : k.Fits) (hlt : height < 2 ^ 64) :
    (beBytes 8 height).isPrefixOf k.toUndecidedKey = (k.height == height) := by
  rw [Bool.eq_iff_iff, List.isPrefixOf_iff_prefix, beq_iff_eq]
  unfold toUndecidedKey
  rw [prefix_append_iff (by simp), beBytes_inj (lt_of_lt_of_eq hlt (by decide))
    (lt_of_lt_of_eq h.height_lt (by decide)), eq_comm]

/-- A key starts with the bytes of its height and its round. -/
theorem round_prefix (h : k.Fits) (hlt : height < 2 ^ 64) (hge : -2 ^ 63 ≤ round)
    (hround : round < 2 ^ 63) :
    (beBytes 8 height ++ beBytes 8 (i64Image round)).isPrefixOf k.toUndecidedKey =
      (k.height == height && k.round == round) := by
  rw [Bool.eq_iff_iff, List.isPrefixOf_iff_prefix, Bool.and_eq_true, beq_iff_eq, beq_iff_eq]
  unfold toUndecidedKey
  rw [← List.append_assoc, prefix_append_iff (by simp)]
  constructor
  · intro heq
    obtain ⟨hheight, himage⟩ := List.append_inj heq (by simp)
    rw [beBytes_inj (lt_of_lt_of_eq hlt (by decide)) (lt_of_lt_of_eq h.height_lt (by decide))]
      at hheight
    rw [beBytes_inj (i64Image_lt _) (i64Image_lt _)] at himage
    refine ⟨hheight.symm, ?_⟩
    rw [← i64OfImage_i64Image h.round_ge h.round_lt, ← himage, i64OfImage_i64Image hge hround]
  · rintro ⟨rfl, rfl⟩
    rfl

end BlobKey

namespace BlobIndexKey

/-- `BlobKey::to_decided_key` -/
def toDecidedKey (k : BlobIndexKey) : Bytes := beBytes 8 k.height ++ beBytes 2 k.index

/-- The ranges of `u64` and `u16`. -/
@[mk_iff]
structure Fits (k : BlobIndexKey) : Prop where
  height_lt : k.height < 2 ^ 64
  index_lt : k.index < 2 ^ 16

variable {k k' : BlobIndexKey}

/-- **Byte order is key order.** -/
theorem compare_toDecidedKey (h : k.Fits) (h' : k'.Fits) :
    compare k.toDecidedKey k'.toDecidedKey = compare k k' := by
  unfold toDecidedKey
  rw [compare_append (by simp), compare_beBytes, compare_beBytes,
    Nat.mod_eq_of_lt (lt_of_lt_of_eq h.height_lt (by decide)),
    Nat.mod_eq_of_lt (lt_of_lt_of_eq h'.height_lt (by decide)),
    Nat.mod_eq_of_lt (lt_of_lt_of_eq h.index_lt (by decide)),
    Nat.mod_eq_of_lt (lt_of_lt_of_eq h'.index_lt (by decide))]
  rfl

/-- A key starts with the bytes of its height. -/
theorem height_prefix (h : k.Fits) (hlt : height < 2 ^ 64) :
    (beBytes 8 height).isPrefixOf k.toDecidedKey = (k.height == height) := by
  rw [Bool.eq_iff_iff, List.isPrefixOf_iff_prefix, beq_iff_eq]
  unfold toDecidedKey
  rw [prefix_append_iff (by simp), beBytes_inj (lt_of_lt_of_eq hlt (by decide))
    (lt_of_lt_of_eq h.height_lt (by decide)), eq_comm]

end BlobIndexKey

/-! ## The store -/

/-- The two column families, with serialized rows. -/
structure RawBlobStore where
  undecided : Table Bytes ProtoBlobSidecar
  decided : Table Bytes ProtoBlobSidecar

/-- `put_cf` and `delete_cf` -/
inductive RawWrite where
  | putUndecided (key : Bytes) (row : ProtoBlobSidecar)
  | deleteUndecided (key : Bytes)
  | putDecided (key : Bytes) (row : ProtoBlobSidecar)
  | deleteDecided (key : Bytes)

namespace RawBlobStore

/-- A store opened for the first time. -/
def empty : RawBlobStore := ⟨∅, ∅⟩

/-- The effect of a write. -/
def apply (s : RawBlobStore) : RawWrite → RawBlobStore
  | .putUndecided key row => { s with undecided := s.undecided.insert key row }
  | .deleteUndecided key => { s with undecided := s.undecided.erase key }
  | .putDecided key row => { s with decided := s.decided.insert key row }
  | .deleteDecided key => { s with decided := s.decided.erase key }

/-- The prefix an iteration over undecided blobs starts at. -/
def undecidedPrefix (height : Height) (round : Option Int) : Bytes :=
  beBytes 8 height ++ round.elim [] fun r => beBytes 8 (i64Image r)

/-- `prefix_iterator_cf` and the loop over it: the iteration seeks the prefix and ends at the first
key without it. -/
def scanStarts (start : Bytes) (cf : Table Bytes ProtoBlobSidecar) :
    List (Bytes × ProtoBlobSidecar) :=
  Table.scanFrom start (fun key => start.isPrefixOf key) cf

/-- The iteration neither misses a key with the prefix nor goes past them. -/
theorem scanStarts_eq_scan (start : Bytes) (cf : Table Bytes ProtoBlobSidecar) :
    scanStarts start cf = Table.scan (fun key => start.isPrefixOf key) cf := by
  refine Table.scanFrom_eq_scan (fun k hk => ?_) (fun a b ha hab hb => ?_) cf
  · exact not_lt_of_starts (List.isPrefixOf_iff_prefix.1 hk)
  · exact List.isPrefixOf_iff_prefix.2
      (starts_of_between ha hab (List.isPrefixOf_iff_prefix.1 hb))

/-- `collect_undecided_entries` -/
def collectUndecidedEntries (s : RawBlobStore) (height : Height) (round : Option Int) :
    List (Bytes × ProtoBlobSidecar) :=
  scanStarts (undecidedPrefix height round) s.undecided

/-- `get_undecided_blobs` -/
def getUndecidedBlobs (s : RawBlobStore) (height : Height) (round : Int) :
    Exit ProtoErr (List BlobSidecar) := do
  let blobs ← decodeAll BlobSidecar.fromProto
    ((s.collectUndecidedEntries height (some round)).map (·.2))
  pure (BlobStore.sortByIndex blobs)

/-- `get_decided_blobs`, which `get_for_import` hands on. -/
def getDecidedBlobs (s : RawBlobStore) (height : Height) : Exit ProtoErr (List BlobSidecar) := do
  let blobs ← decodeAll BlobSidecar.fromProto
    ((scanStarts (beBytes 8 height) s.decided).map (·.2))
  pure (BlobStore.sortByIndex blobs)

/-- The writes of `put_undecided_blobs`. -/
def putUndecidedWrites (height : Height) (round : Int) (sidecars : List BlobSidecar) :
    List RawWrite :=
  sidecars.map fun s => .putUndecided (BlobKey.toUndecidedKey ⟨height, round, s.index⟩) s.toProto

/-- The rows `mark_decided` moves: those of the round, or of every round of the height. -/
def promoted (s : RawBlobStore) (height : Height) (round : Int) : List (Bytes × ProtoBlobSidecar) :=
  match s.collectUndecidedEntries height (some round) with
  | [] => s.collectUndecidedEntries height none
  | entries => entries

/-- The writes of `mark_decided`; a key that cannot be parsed is skipped. -/
def markDecidedWrites (s : RawBlobStore) (height : Height) (round : Int) : List RawWrite :=
  (s.promoted height round).flatMap fun e =>
    match BlobKey.fromUndecidedKey e.1 with
    | some k => [.putDecided (BlobIndexKey.toDecidedKey ⟨k.height, k.index⟩) e.2, .deleteUndecided e.1]
    | none => []

/-- The writes of `drop_round`. -/
def dropRoundWrites (s : RawBlobStore) (height : Height) (round : Int) : List RawWrite :=
  (s.collectUndecidedEntries height (some round)).map fun e => .deleteUndecided e.1

/-- The writes of `delete_archived`. -/
def markArchivedWrites (height : Height) (indices : List Nat) : List RawWrite :=
  indices.map fun i => .deleteDecided (BlobIndexKey.toDecidedKey ⟨height, i⟩)

end RawBlobStore

/-! ## The two stores -/

/-- The byte-level form of a write. -/
def BlobWrite.toRaw : BlobWrite → RawWrite
  | .putUndecided height round s =>
    .putUndecided (BlobKey.toUndecidedKey ⟨height, round, s.index⟩) s.toProto
  | .deleteUndecided key => .deleteUndecided key.toUndecidedKey
  | .putDecided height s => .putDecided (BlobIndexKey.toDecidedKey ⟨height, s.index⟩) s.toProto
  | .deleteDecided height index => .deleteDecided (BlobIndexKey.toDecidedKey ⟨height, index⟩)

/-- The key of a write is within the ranges of its types. -/
def BlobWrite.Fits : BlobWrite → Prop
  | .putUndecided height round s => BlobKey.Fits ⟨height, round, s.index⟩
  | .deleteUndecided key => key.Fits
  | .putDecided height s => BlobIndexKey.Fits ⟨height, s.index⟩
  | .deleteDecided height index => BlobIndexKey.Fits ⟨height, index⟩

/-- The bytes on disk are those of the blobs. -/
structure Represents (s : RawBlobStore) (b : BlobStore) : Prop where
  undecided : Table.Image BlobKey.Fits BlobKey.toUndecidedKey BlobSidecar.toProto b.undecided
    s.undecided
  decided : Table.Image BlobIndexKey.Fits BlobIndexKey.toDecidedKey BlobSidecar.toProto b.decided
    s.decided

namespace Represents

variable {s : RawBlobStore} {b : BlobStore}

theorem empty : Represents .empty .empty := ⟨.empty, .empty⟩

/-- A write and its bytes. -/
theorem apply (h : Represents s b) {w : BlobWrite} (hw : w.Fits) :
    Represents (s.apply w.toRaw) (b.apply w) := by
  cases w with
  | putUndecided height round x =>
    exact ⟨h.undecided.insert BlobKey.compare_toUndecidedKey hw x, h.decided⟩
  | deleteUndecided key => exact ⟨h.undecided.erase BlobKey.compare_toUndecidedKey hw, h.decided⟩
  | putDecided height x =>
    exact ⟨h.undecided, h.decided.insert BlobIndexKey.compare_toDecidedKey hw x⟩
  | deleteDecided height index =>
    exact ⟨h.undecided, h.decided.erase BlobIndexKey.compare_toDecidedKey hw⟩

theorem applyAll (h : Represents s b) {ws : List BlobWrite} (hws : ∀ w ∈ ws, w.Fits) :
    Represents ((ws.map BlobWrite.toRaw).foldl RawBlobStore.apply s)
      (ws.foldl BlobStore.apply b) := by
  induction ws generalizing s b with
  | nil => exact h
  | cons w ws ih =>
    obtain ⟨hw, hrest⟩ := List.forall_mem_cons.1 hws
    exact ih (h.apply hw) hrest

/-- **A prefix scan is a scan of the keys.** -/
theorem collectUndecidedEntries_eq (h : Represents s b) (hlt : height < 2 ^ 64)
    (round : Option Int) (hround : ∀ r ∈ round, -2 ^ 63 ≤ r ∧ r < 2 ^ 63) :
    s.collectUndecidedEntries height round =
      (b.collectUndecidedEntries height round).map fun e => (e.1.toUndecidedKey, e.2.toProto) := by
  unfold RawBlobStore.collectUndecidedEntries
  rw [RawBlobStore.scanStarts_eq_scan]
  refine h.undecided.scan_eq BlobKey.compare_toUndecidedKey fun k hk => ?_
  cases round with
  | none =>
    unfold RawBlobStore.undecidedPrefix
    rw [Option.elim_none, List.append_nil, BlobKey.height_prefix hk hlt]
    simp
  | some r =>
    obtain ⟨hge, hlt'⟩ := hround r rfl
    exact BlobKey.round_prefix hk hlt hge hlt'

theorem index_le_undecided (h : Represents s b) {k : BlobKey} (hx : b.undecided[k]? = some x) :
    x.index ≤ u16Max := by
  have hfits := (h.undecided.key hx).index_lt
  rw [← b.undecided_index hx] at hfits
  exact Nat.le_of_lt_succ hfits

theorem index_le_decided (h : Represents s b) {k : BlobIndexKey} (hx : b.decided[k]? = some x) :
    x.index ≤ u16Max := by
  have hfits := (h.decided.key hx).index_lt
  rw [← b.decided_index hx] at hfits
  exact Nat.le_of_lt_succ hfits

/-- **Readers return the same sidecars.** -/
theorem getUndecidedBlobs_eq (h : Represents s b) (hlt : height < 2 ^ 64) (hge : -2 ^ 63 ≤ round)
    (hround : round < 2 ^ 63) :
    s.getUndecidedBlobs height round = .ok (b.getUndecidedBlobs height round) := by
  have hscan := h.collectUndecidedEntries_eq hlt (some round)
    (by rintro r ⟨⟩; exact ⟨hge, hround⟩)
  have hdecode : decodeAll BlobSidecar.fromProto
      (((b.collectUndecidedEntries height (some round)).map (·.2)).map BlobSidecar.toProto) =
      .ok ((b.collectUndecidedEntries height (some round)).map (·.2)) := by
    refine decodeAll_map fun x hx => BlobSidecar.fromProto_toProto ?_
    obtain ⟨e, he, rfl⟩ := List.mem_map.1 hx
    exact h.index_le_undecided (Table.mem_scan.1 he).1
  have hmap : (s.collectUndecidedEntries height (some round)).map (·.2) =
      ((b.collectUndecidedEntries height (some round)).map (·.2)).map BlobSidecar.toProto := by
    rw [hscan]
    simp
  unfold RawBlobStore.getUndecidedBlobs
  rw [hmap, hdecode]
  rfl

theorem getDecidedBlobs_eq (h : Represents s b) (hlt : height < 2 ^ 64) :
    s.getDecidedBlobs height = .ok (b.getDecidedBlobs height) := by
  have hscan : RawBlobStore.scanStarts (beBytes 8 height) s.decided =
      (Table.scan (fun k => k.height == height) b.decided).map
        fun e => (e.1.toDecidedKey, e.2.toProto) := by
    rw [RawBlobStore.scanStarts_eq_scan]
    exact h.decided.scan_eq BlobIndexKey.compare_toDecidedKey fun k hk =>
      BlobIndexKey.height_prefix hk hlt
  have hdecode : decodeAll BlobSidecar.fromProto
      (((Table.scan (fun k => k.height == height) b.decided).map (·.2)).map BlobSidecar.toProto) =
      .ok ((Table.scan (fun k => k.height == height) b.decided).map (·.2)) := by
    refine decodeAll_map fun x hx => BlobSidecar.fromProto_toProto ?_
    obtain ⟨e, he, rfl⟩ := List.mem_map.1 hx
    exact h.index_le_decided (Table.mem_scan.1 he).1
  have hmap : (RawBlobStore.scanStarts (beBytes 8 height) s.decided).map (·.2) =
      ((Table.scan (fun k => k.height == height) b.decided).map (·.2)).map BlobSidecar.toProto := by
    rw [hscan]
    simp
  unfold RawBlobStore.getDecidedBlobs
  rw [hmap, hdecode]
  rfl

end Represents

/-! ## Moving and dropping rows -/

/-- The writes of `mark_decided` on a store of sidecars. -/
def BlobStore.moveWrites (b : BlobStore) (height : Height) (round : Int) : List BlobWrite :=
  (b.promoted height round).flatMap fun e => [.putDecided height e.2, .deleteUndecided e.1]

/-- The writes of `drop_round` on a store of sidecars. -/
def BlobStore.dropWrites (b : BlobStore) (height : Height) (round : Int) : List BlobWrite :=
  (b.collectUndecidedEntries height (some round)).map fun e => .deleteUndecided e.1

theorem BlobStore.promoted_collected {b : BlobStore} (he : e ∈ b.promoted height round) :
    ∃ r, e ∈ b.collectUndecidedEntries height r := by
  unfold BlobStore.promoted at he
  split at he
  · exact ⟨none, he⟩
  · exact ⟨some round, he⟩

namespace Represents

variable {s : RawBlobStore} {b : BlobStore} {height : Height} {round : Int}

theorem fits_collected (h : Represents s b) {r : Option Int}
    (he : e ∈ b.collectUndecidedEntries height r) :
    e.1.Fits ∧ e.1.height = height ∧ e.2.index = e.1.index := by
  obtain ⟨hget, hkey⟩ := Table.mem_scan.1 he
  rw [Bool.and_eq_true, beq_iff_eq] at hkey
  exact ⟨h.undecided.key hget, hkey.1, b.undecided_index hget⟩

theorem collectRound_eq (h : Represents s b) (hfits : BlobKey.Fits ⟨height, round, 0⟩) :
    s.collectUndecidedEntries height (some round) =
      (b.collectUndecidedEntries height (some round)).map
        fun e => (e.1.toUndecidedKey, e.2.toProto) :=
  h.collectUndecidedEntries_eq hfits.height_lt (some round)
    (by rintro r ⟨⟩; exact ⟨hfits.round_ge, hfits.round_lt⟩)

theorem promoted_eq (h : Represents s b) (hfits : BlobKey.Fits ⟨height, round, 0⟩) :
    s.promoted height round =
      (b.promoted height round).map fun e => (e.1.toUndecidedKey, e.2.toProto) := by
  have hall := h.collectUndecidedEntries_eq hfits.height_lt none (by simp)
  unfold RawBlobStore.promoted BlobStore.promoted
  rw [h.collectRound_eq hfits]
  cases b.collectUndecidedEntries height (some round) with
  | nil => exact hall
  | cons e entries => rfl

/-- `mark_decided` reads off the key what the moved sidecar says. -/
theorem markDecidedWrites_eq (h : Represents s b) (hfits : BlobKey.Fits ⟨height, round, 0⟩) :
    s.markDecidedWrites height round = (b.moveWrites height round).map BlobWrite.toRaw := by
  unfold RawBlobStore.markDecidedWrites BlobStore.moveWrites
  rw [h.promoted_eq hfits, List.flatMap_map, List.map_flatMap]
  refine List.flatMap_congr fun e he => ?_
  obtain ⟨r, hr⟩ := BlobStore.promoted_collected he
  obtain ⟨hkey, hheight, hindex⟩ := h.fits_collected hr
  simp only [BlobKey.fromUndecidedKey_toUndecidedKey hkey, List.map_cons, List.map_nil,
    BlobWrite.toRaw, hindex, hheight]

theorem dropRoundWrites_eq (h : Represents s b) (hfits : BlobKey.Fits ⟨height, round, 0⟩) :
    s.dropRoundWrites height round = (b.dropWrites height round).map BlobWrite.toRaw := by
  unfold RawBlobStore.dropRoundWrites BlobStore.dropWrites
  rw [h.collectRound_eq hfits, List.map_map, List.map_map]
  rfl

theorem fits_moveWrites (h : Represents s b) : ∀ w ∈ b.moveWrites height round, w.Fits := by
  intro w hw
  obtain ⟨e, he, hw⟩ := List.mem_flatMap.1 hw
  obtain ⟨r, hr⟩ := BlobStore.promoted_collected he
  obtain ⟨hkey, hheight, hindex⟩ := h.fits_collected hr
  rcases List.mem_pair.1 hw with rfl | rfl
  · exact ⟨hheight ▸ hkey.height_lt, hindex ▸ hkey.index_lt⟩
  · exact hkey

theorem fits_dropWrites (h : Represents s b) : ∀ w ∈ b.dropWrites height round, w.Fits := by
  intro w hw
  obtain ⟨e, he, rfl⟩ := List.mem_map.1 hw
  exact (h.fits_collected he).1

end Represents

end Ultramarine
