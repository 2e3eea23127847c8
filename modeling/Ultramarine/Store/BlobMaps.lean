import Ultramarine.Store.RawBlobs

/-!
# The blob store as a pair of maps

What the blob store is for: a map of undecided blobs under height, round and index, and a map of
decided blobs under height and index. `BlobMaps.Step` says what each operation of the store's trait
does to the two maps and what it answers, by point reads, sets of keys and their sizes.

`RawBlobStore.perform` is the trait on column families of bytes. `Refines.step` is the simulation of
one operation, and `store_refines_maps` that of every sequence of operations: none fails, and the
answers are those of the maps.
-/

namespace Ultramarine

open Lib

/-- The operations of the trait `BlobStore`. -/
inductive StoreOp where
  | putUndecidedBlobs (height : Height) (round : Int) (blobs : List BlobSidecar)
  | getUndecidedBlobs (height : Height) (round : Int)
  | markDecided (height : Height) (round : Int)
  | getDecidedBlobs (height : Height)
  | dropRound (height : Height) (round : Int)
  | deleteArchived (height : Height) (indices : List Nat)
  | pruneBefore (height : Height)

/-- What they return. -/
inductive StoreAnswer where
  | done
  | count (n : Nat)
  | counted (count bytes : Nat)
  | blobs (l : List BlobSidecar)
deriving DecidableEq

/-- The arguments are within the ranges of `u64`, `i64` and `u16`. -/
def StoreOp.Fits : StoreOp → Prop
  | .putUndecidedBlobs height round blobs =>
    BlobKey.Fits ⟨height, round, 0⟩ ∧ ∀ x ∈ blobs, x.index < 2 ^ 16
  | .getUndecidedBlobs height round => BlobKey.Fits ⟨height, round, 0⟩
  | .markDecided height round => BlobKey.Fits ⟨height, round, 0⟩
  | .getDecidedBlobs height => height < 2 ^ 64
  | .dropRound height round => BlobKey.Fits ⟨height, round, 0⟩
  | .deleteArchived height indices => height < 2 ^ 64 ∧ ∀ i ∈ indices, i < 2 ^ 16
  | .pruneBefore height => height < 2 ^ 64

/-! ## The trait on bytes -/

namespace RawBlobStore

/-- The sizes `mark_decided` and `drop_round` add up: `size` of every row that deserializes. -/
def totalBytes : List ProtoBlobSidecar → Exit ProtoErr Nat
  | [] => .ok 0
  | row :: rows => do
    let rest ← totalBytes rows
    match BlobSidecar.fromProto row with
    | .ok blob => .ok (blob.blob.data.length + rest)
    | .error _ => .ok rest
    | .panic => .panic

/-- The keys `prune_before` collects: an iteration over the whole column family. -/
def prunedKeys (s : RawBlobStore) (height : Height) : List Bytes :=
  (s.decided.toList.map (·.1)).filter fun key =>
    8 ≤ key.length && ofBeBytes (key.take 8) < height

/-- `put_undecided_blobs`, with the number of blobs it stored. -/
def putUndecidedBlobs (s : RawBlobStore) (height : Height) (round : Int)
    (blobs : List BlobSidecar) : RawBlobStore × Nat :=
  ((putUndecidedWrites height round blobs).foldl apply s, blobs.length)

/-- `mark_decided`, with the number and the bytes of the blobs it moved. Rows deserialize in every
store that the operations lead to (`store_refines_maps`), so no write is lost to a panic between two
rows; the same goes for `drop_round`. -/
def markDecided (s : RawBlobStore) (height : Height) (round : Int) :
    Exit ProtoErr (RawBlobStore × Nat × Nat) := do
  -- a key that cannot be parsed is skipped, and not counted
  let moved := (s.promoted height round).filter fun e => (BlobKey.fromUndecidedKey e.1).isSome
  let bytes ← totalBytes (moved.map (·.2))
  pure ((s.markDecidedWrites height round).foldl apply s, moved.length, bytes)

/-- `drop_round`, with the number and the bytes of the blobs it deleted. -/
def dropRound (s : RawBlobStore) (height : Height) (round : Int) :
    Exit ProtoErr (RawBlobStore × Nat × Nat) := do
  let dropped := s.collectUndecidedEntries height (some round)
  let bytes ← totalBytes (dropped.map (·.2))
  pure ((s.dropRoundWrites height round).foldl apply s, dropped.length, bytes)

/-- `delete_archived` -/
def deleteArchived (s : RawBlobStore) (height : Height) (indices : List Nat) : RawBlobStore :=
  (markArchivedWrites height indices).foldl apply s

/-- `prune_before`, with the number of blobs it deleted. -/
def pruneBefore (s : RawBlobStore) (height : Height) : RawBlobStore × Nat :=
  (((s.prunedKeys height).map RawWrite.deleteDecided).foldl apply s, (s.prunedKeys height).length)

/-- An operation, with what it returns. -/
def perform (s : RawBlobStore) : StoreOp → Exit ProtoErr (RawBlobStore × StoreAnswer)
  | .putUndecidedBlobs height round blobs =>
    let (s, n) := s.putUndecidedBlobs height round blobs
    pure (s, .count n)
  | .getUndecidedBlobs height round => do
    let blobs ← s.getUndecidedBlobs height round
    pure (s, .blobs blobs)
  | .markDecided height round => do
    let (s, n, bytes) ← s.markDecided height round
    pure (s, .counted n bytes)
  | .getDecidedBlobs height => do
    let blobs ← s.getDecidedBlobs height
    pure (s, .blobs blobs)
  | .dropRound height round => do
    let (s, n, bytes) ← s.dropRound height round
    pure (s, .counted n bytes)
  | .deleteArchived height indices => pure (s.deleteArchived height indices, .done)
  | .pruneBefore height =>
    let (s, n) := s.pruneBefore height
    pure (s, .count n)

/-- A sequence of operations, with their answers. -/
def performAll (s : RawBlobStore) : List StoreOp → Exit ProtoErr (RawBlobStore × List StoreAnswer)
  | [] => pure (s, [])
  | op :: ops => do
    let (s, answer) ← s.perform op
    let (s, answers) ← s.performAll ops
    pure (s, answer :: answers)

end RawBlobStore

/-! ## The maps -/

/-- Undecided blobs by height, round and index; decided blobs by height and index. -/
@[ext]
structure BlobMaps where
  undecided : BlobKey → Option BlobSidecar
  decided : BlobIndexKey → Option BlobSidecar

namespace BlobMaps

/-- The maps of an empty store. -/
def empty : BlobMaps := ⟨fun _ => none, fun _ => none⟩

/-- The undecided blobs of a round. -/
def ofRound (m : BlobMaps) (height : Height) (round : Int) : Set BlobKey :=
  {k | (k.height = height ∧ k.round = round) ∧ (m.undecided k).isSome}

/-- The undecided blobs of a height, of any round. -/
def ofHeight (m : BlobMaps) (height : Height) : Set BlobKey :=
  {k | k.height = height ∧ (m.undecided k).isSome}

/-- The decided blobs below a height. -/
def below (m : BlobMaps) (height : Height) : Set BlobIndexKey :=
  {k | k.height < height ∧ (m.decided k).isSome}

open Classical in
/-- What a decision moves: the blobs of its round, or of every round if that has none. -/
noncomputable def moved (m : BlobMaps) (height : Height) (round : Int) : Set BlobKey :=
  if (m.ofRound height round).Nonempty then m.ofRound height round else m.ofHeight height

/-- The blob a set of keys leaves under an index: where several rounds have one, that of the last
key. -/
def Leaves (m : BlobMaps) (keys : Set BlobKey) (index : Nat) (x : BlobSidecar) : Prop :=
  ∃ k ∈ keys, k.index = index ∧ m.undecided k = some x ∧
    ∀ k' ∈ keys, k'.index = index → compare k' k ≠ .gt

/-- **What an operation does to the maps, and what it answers.** All blobs have one size, so a
number of blobs determines their bytes. -/
def Step (m : BlobMaps) (op : StoreOp) (answer : StoreAnswer) (m' : BlobMaps) : Prop :=
  match op with
  | .putUndecidedBlobs height round blobs =>
    answer = .count blobs.length ∧ m'.decided = m.decided ∧
      ∀ k, m'.undecided k =
        if k.height = height ∧ k.round = round then
          blobs.reverse.find? (·.index = k.index) <|> m.undecided k
        else m.undecided k
  | .getUndecidedBlobs height round =>
    m' = m ∧ ∃ l, answer = .blobs l ∧ BlobStore.IndexSorted l ∧
      ∀ x, x ∈ l ↔ m.undecided ⟨height, round, x.index⟩ = some x
  | .markDecided height round =>
    answer = .counted (m.moved height round).ncard ((m.moved height round).ncard * bytesPerBlob) ∧
      (∀ k, k ∈ m.moved height round → m'.undecided k = none) ∧
      (∀ k, k ∉ m.moved height round → m'.undecided k = m.undecided k) ∧
      ∀ k, (∀ x, k.height = height → m.Leaves (m.moved height round) k.index x →
          m'.decided k = some x) ∧
        ((k.height = height → ∀ x, ¬ m.Leaves (m.moved height round) k.index x) →
          m'.decided k = m.decided k)
  | .getDecidedBlobs height =>
    m' = m ∧ ∃ l, answer = .blobs l ∧ BlobStore.IndexSorted l ∧
      ∀ x, x ∈ l ↔ m.decided ⟨height, x.index⟩ = some x
  | .dropRound height round =>
    answer = .counted (m.ofRound height round).ncard
        ((m.ofRound height round).ncard * bytesPerBlob) ∧
      m'.decided = m.decided ∧
      ∀ k, m'.undecided k =
        if k.height = height ∧ k.round = round then none else m.undecided k
  | .deleteArchived height indices =>
    answer = .done ∧ m'.undecided = m.undecided ∧
      ∀ k, m'.decided k = if k.height = height ∧ k.index ∈ indices then none else m.decided k
  | .pruneBefore height =>
    answer = .count (m.below height).ncard ∧ m'.undecided = m.undecided ∧
      ∀ k, m'.decided k = if k.height < height then none else m.decided k

/-- A sequence of operations on the maps. -/
inductive Run : BlobMaps → List StoreOp → List StoreAnswer → BlobMaps → Prop
  | nil (m : BlobMaps) : Run m [] [] m
  | cons {m m' m'' : BlobMaps} {op : StoreOp} {ops : List StoreOp} {answer : StoreAnswer}
      {answers : List StoreAnswer} (head : m.Step op answer m') (tail : Run m' ops answers m'') :
      Run m (op :: ops) (answer :: answers) m''

end BlobMaps

/-! ## The maps of a store of sidecars -/

namespace BlobStore

variable (b : BlobStore) (height : Height) (round : Int)

/-- The point reads of the two tables. -/
def maps : BlobMaps := ⟨fun k => b.undecided[k]?, fun k => b.decided[k]?⟩

/-- The store after decided blobs are deleted. -/
def deleteKeys (keys : List BlobIndexKey) : BlobStore :=
  keys.foldl (fun b k => b.deleteDecided k.height k.index) b

theorem undecided_deleteKeys (keys : List BlobIndexKey) :
    (b.deleteKeys keys).undecided = b.undecided := by
  induction keys generalizing b with
  | nil => rfl
  | cons k keys ih => exact ih (b.deleteDecided k.height k.index)

theorem decided_deleteKeys (keys : List BlobIndexKey) (k : BlobIndexKey) :
    (b.deleteKeys keys).decided[k]? = if k ∈ keys then none else b.decided[k]? := by
  induction keys generalizing b with
  | nil => simp [deleteKeys]
  | cons k' keys ih =>
    have herase : (b.deleteDecided k'.height k'.index).decided[k]? =
        if k' = k then none else b.decided[k]? := Table.getElem?_erase_eq _ _ _
    have hstep : b.deleteKeys (k' :: keys) = (b.deleteDecided k'.height k'.index).deleteKeys keys :=
      rfl
    rw [hstep, ih, herase]
    by_cases hk : k ∈ keys
    · simp [hk]
    · by_cases hk' : k' = k
      · simp [hk']
      · simp [hk, hk', Ne.symm hk']

/-- The keys of decided blobs below a height. -/
def keysBelow : List BlobIndexKey :=
  (Table.scan (fun k => decide (k.height < height)) b.decided).map (·.1)

theorem mem_keysBelow {k : BlobIndexKey} :
    k ∈ b.keysBelow height ↔ k.height < height ∧ (b.decided[k]?).isSome := by
  unfold keysBelow
  rw [List.mem_map]
  constructor
  · rintro ⟨e, he, rfl⟩
    obtain ⟨hget, hlt⟩ := Table.mem_scan.1 he
    rw [hget]
    exact ⟨of_decide_eq_true hlt, rfl⟩
  · rintro ⟨hlt, hsome⟩
    obtain ⟨x, hx⟩ := Option.isSome_iff_exists.1 hsome
    exact ⟨(k, x), Table.mem_scan.2 ⟨hx, decide_eq_true hlt⟩, rfl⟩

theorem length_keysBelow : (b.keysBelow height).length = (b.maps.below height).ncard := by
  have hset : b.maps.below height =
      {k | decide (k.height < height) = true ∧ (b.decided[k]?).isSome} := by
    ext k
    simp only [BlobMaps.below, maps, Set.mem_ofPred_eq, decide_eq_true_iff]
  rw [hset, Table.ncard_keys_scan]
  exact List.length_map _

theorem length_collected :
    (b.collectUndecidedEntries height (some round)).length = (b.maps.ofRound height round).ncard := by
  have hset : b.maps.ofRound height round =
      {k | (k.height == height && (some round).all (k.round == ·)) = true ∧
        (b.undecided[k]?).isSome} := by
    ext k
    simp [BlobMaps.ofRound, maps]
  rw [hset, Table.ncard_keys_scan]
  rfl

/-- **What is promoted is a scan of the keys that are moved.** -/
theorem promoted_scan : ∃ p : BlobKey → Bool, b.promoted height round = Table.scan p b.undecided ∧
    b.maps.moved height round = {k | p k = true ∧ (b.undecided[k]?).isSome} := by
  unfold BlobMaps.moved
  split
  · rename_i hround
    obtain ⟨k, hk, hsome⟩ := hround
    refine ⟨fun k => k.height == height && (some round).all (k.round == ·), ?_, ?_⟩
    · refine promoted_of_round fun hnil => ?_
      have hmem := (mem_keys_collected (b := b)).2 ⟨hk, hsome⟩
      rw [← map_collectUndecidedEntries, List.map_eq_nil_iff] at hnil
      rw [hnil] at hmem
      cases hmem
    · ext k
      simp [BlobMaps.ofRound, maps]
  · rename_i hround
    refine ⟨fun k => k.height == height && (none : Option Int).all (k.round == ·), ?_, ?_⟩
    · have hnil : b.collectUndecidedEntries height (some round) = [] := by
        refine List.eq_nil_iff_forall_not_mem.2 fun e he => hround ⟨e.1, ?_⟩
        exact mem_keys_collected.1 (List.mem_map_of_mem he)
      unfold promoted
      rw [hnil]
      rfl
    · ext k
      simp [BlobMaps.ofHeight, maps]

theorem mem_keys_promoted {k : BlobKey} :
    k ∈ (b.promoted height round).map (·.1) ↔ k ∈ b.maps.moved height round := by
  obtain ⟨p, hscan, hmoved⟩ := b.promoted_scan height round
  rw [hscan, hmoved, List.mem_map]
  constructor
  · rintro ⟨e, he, rfl⟩
    obtain ⟨hget, hp⟩ := Table.mem_scan.1 he
    exact ⟨hp, by rw [hget]; rfl⟩
  · rintro ⟨hp, hsome⟩
    obtain ⟨x, hx⟩ := Option.isSome_iff_exists.1 hsome
    exact ⟨(k, x), Table.mem_scan.2 ⟨hx, hp⟩, rfl⟩

/-- The last blob a scan finds under an index is the one its keys leave there. -/
theorem find?_scan_eq_some {p : BlobKey → Bool} {i : Nat} {x : BlobSidecar} :
    ((Table.scan p b.undecided).map (·.2)).reverse.find? (·.index = i) = some x ↔
      b.maps.Leaves {k | p k = true ∧ (b.undecided[k]?).isSome} i x := by
  rw [← List.map_reverse, List.find?_map, Option.map_eq_some_iff]
  simp only [Table.find?_reverse_eq_some (Table.scan_sorted p b.undecided), Function.comp_apply,
    decide_eq_true_eq, Table.mem_scan]
  constructor
  · rintro ⟨e, ⟨⟨hget, hp⟩, hi, hmax⟩, rfl⟩
    refine ⟨e.1, ⟨hp, by rw [hget]; rfl⟩, (b.undecided_index hget).symm.trans hi, hget, ?_⟩
    rintro k' ⟨hp', hsome⟩ hi'
    obtain ⟨x', hx'⟩ := Option.isSome_iff_exists.1 hsome
    exact hmax (k', x') ⟨hx', hp'⟩ ((b.undecided_index hx').trans hi')
  · rintro ⟨k, ⟨hp, -⟩, hi, hget, hmax⟩
    refine ⟨(k, x), ⟨⟨hget, hp⟩, (b.undecided_index hget).trans hi, ?_⟩, rfl⟩
    rintro e' ⟨hget', hp'⟩ hi'
    exact hmax e'.1 ⟨hp', by rw [hget']; rfl⟩ ((b.undecided_index hget').symm.trans hi')

/-! ### One operation -/

theorem step_putAll (blobs : List BlobSidecar) :
    b.maps.Step (.putUndecidedBlobs height round blobs) (.count blobs.length)
      (b.putAll height round blobs).maps := by
  refine ⟨rfl, ?_, fun k => ?_⟩
  · unfold maps
    rw [decided_putAll]
  · refine (undecided_putAll height round k blobs b).trans ?_
    split
    · rfl
    · rfl

theorem step_getUndecidedBlobs :
    b.maps.Step (.getUndecidedBlobs height round) (.blobs (b.getUndecidedBlobs height round))
      b.maps :=
  ⟨rfl, _, rfl, b.indexSorted_getUndecidedBlobs height round, fun _ => b.mem_getUndecidedBlobs⟩

theorem step_getDecidedBlobs :
    b.maps.Step (.getDecidedBlobs height) (.blobs (b.getDecidedBlobs height)) b.maps :=
  ⟨rfl, _, rfl, b.indexSorted_getDecidedBlobs height, fun _ => b.mem_getDecidedBlobs⟩

theorem step_promote :
    b.maps.Step (.markDecided height round) (.counted (b.promoted height round).length
      ((b.promoted height round).length * bytesPerBlob)) (b.promote height round).maps := by
  obtain ⟨p, hscan, hmoved⟩ := b.promoted_scan height round
  have hlength : (b.promoted height round).length = (b.maps.moved height round).ncard := by
    rw [hscan, hmoved, Table.ncard_keys_scan]
  refine ⟨by rw [hlength], fun k hk => ?_, fun k hk => ?_, fun k => ⟨fun x hheight hx => ?_, ?_⟩⟩
  · exact (undecided_move height k _ b).trans (if_pos ((b.mem_keys_promoted height round).2 hk))
  · exact (undecided_move height k _ b).trans (if_neg fun hmem =>
      hk ((b.mem_keys_promoted height round).1 hmem))
  · have hfind : ((b.promoted height round).map (·.2)).reverse.find? (·.index = k.index) = some x := by
      rw [hscan, find?_scan_eq_some, ← hmoved]
      exact hx
    refine (decided_move height k _ b).trans ?_
    rw [if_pos hheight, hfind]
    rfl
  · intro hnone
    refine (decided_move height k _ b).trans ?_
    by_cases hheight : k.height = height
    · have hfind : ((b.promoted height round).map (·.2)).reverse.find? (·.index = k.index) = none := by
        refine Option.eq_none_iff_forall_ne_some.2 fun x hx => hnone hheight x ?_
        rw [hscan, find?_scan_eq_some, ← hmoved] at hx
        exact hx
      rw [if_pos hheight, hfind]
      rfl
    · rw [if_neg hheight]
      rfl

theorem step_withoutRound :
    b.maps.Step (.dropRound height round)
      (.counted (b.collectUndecidedEntries height (some round)).length
        ((b.collectUndecidedEntries height (some round)).length * bytesPerBlob))
      (b.withoutRound height round).maps := by
  refine ⟨by rw [length_collected], ?_, b.undecided_withoutRound height round⟩
  unfold maps
  rw [decided_withoutRound]

theorem step_deleteArchived (indices : List Nat) :
    b.maps.Step (.deleteArchived height indices) .done
      (b.deleteKeys (indices.map (BlobIndexKey.mk height))).maps := by
  refine ⟨rfl, ?_, fun k => ?_⟩
  · unfold maps
    rw [undecided_deleteKeys]
  · refine (b.decided_deleteKeys _ k).trans (if_congr ?_ rfl rfl)
    rw [List.mem_map]
    constructor
    · rintro ⟨i, hi, rfl⟩
      exact ⟨rfl, hi⟩
    · rintro ⟨rfl, hi⟩
      exact ⟨k.index, hi, rfl⟩

theorem step_pruneBefore :
    b.maps.Step (.pruneBefore height) (.count (b.keysBelow height).length)
      (b.deleteKeys (b.keysBelow height)).maps := by
  refine ⟨by rw [length_keysBelow], ?_, fun k => ?_⟩
  · unfold maps
    rw [undecided_deleteKeys]
  · refine (b.decided_deleteKeys _ k).trans ?_
    simp only [mem_keysBelow]
    by_cases hlt : k.height < height
    · rw [if_pos hlt]
      cases hget : b.decided[k]? <;> simp [hlt]
    · simp [hlt, maps]

end BlobStore

/-! ## The bytes and the maps -/

namespace Represents

variable {s : RawBlobStore} {b : BlobStore} {height : Height} {round : Int}

theorem putAll (h : Represents s b) (hfits : BlobKey.Fits ⟨height, round, 0⟩)
    {blobs : List BlobSidecar} (hblobs : ∀ x ∈ blobs, x.index < 2 ^ 16) :
    Represents ((RawBlobStore.putUndecidedWrites height round blobs).foldl RawBlobStore.apply s)
      (b.putAll height round blobs) := by
  have hws : ∀ w ∈ blobs.map (BlobWrite.putUndecided height round), w.Fits := by
    intro w hw
    obtain ⟨x, hx, rfl⟩ := List.mem_map.1 hw
    exact ⟨hfits.height_lt, hfits.round_ge, hfits.round_lt, hblobs x hx⟩
  have hfold : (blobs.map (BlobWrite.putUndecided height round)).foldl BlobStore.apply b =
      b.putAll height round blobs := List.foldl_map
  have happly := h.applyAll hws
  rw [hfold, List.map_map] at happly
  exact happly

theorem promote (h : Represents s b) (hfits : BlobKey.Fits ⟨height, round, 0⟩) :
    Represents ((s.markDecidedWrites height round).foldl RawBlobStore.apply s)
      (b.promote height round) := by
  have hws : ∀ w ∈ b.moveWrites height round, w.Fits := h.fits_moveWrites
  have hfold : (b.moveWrites height round).foldl BlobStore.apply b = b.promote height round :=
    List.foldl_flatMap
  have happly := h.applyAll hws
  rw [hfold, ← h.markDecidedWrites_eq hfits] at happly
  exact happly

theorem withoutRound (h : Represents s b) (hfits : BlobKey.Fits ⟨height, round, 0⟩) :
    Represents ((s.dropRoundWrites height round).foldl RawBlobStore.apply s)
      (b.withoutRound height round) := by
  have hws : ∀ w ∈ b.dropWrites height round, w.Fits := h.fits_dropWrites
  have hfold : (b.dropWrites height round).foldl BlobStore.apply b = b.withoutRound height round :=
    List.foldl_map
  have happly := h.applyAll hws
  rw [hfold, ← h.dropRoundWrites_eq hfits] at happly
  exact happly

theorem deleteKeys (h : Represents s b) {keys : List BlobIndexKey} (hkeys : ∀ k ∈ keys, k.Fits) :
    Represents ((keys.map fun k => RawWrite.deleteDecided k.toDecidedKey).foldl RawBlobStore.apply s)
      (b.deleteKeys keys) := by
  have hws : ∀ w ∈ keys.map fun k => BlobWrite.deleteDecided k.height k.index, w.Fits := by
    intro w hw
    obtain ⟨k, hk, rfl⟩ := List.mem_map.1 hw
    exact hkeys k hk
  have hfold : (keys.map fun k => BlobWrite.deleteDecided k.height k.index).foldl
      BlobStore.apply b = b.deleteKeys keys := List.foldl_map
  have happly := h.applyAll hws
  rw [hfold, List.map_map] at happly
  exact happly

/-- The first eight bytes of a key are its height. -/
theorem prunedKeys_eq (h : Represents s b) (height : Height) :
    s.prunedKeys height = (b.keysBelow height).map BlobIndexKey.toDecidedKey := by
  have hheight : ∀ k : BlobIndexKey, k.Fits →
      (8 ≤ k.toDecidedKey.length && ofBeBytes (k.toDecidedKey.take 8) < height : Bool) =
        decide (k.height < height) := by
    intro k hk
    have htake : k.toDecidedKey.take 8 = beBytes 8 k.height := List.take_left' (length_beBytes 8 _)
    have hlength : 8 ≤ k.toDecidedKey.length := by simp [BlobIndexKey.toDecidedKey]
    rw [htake, ofBeBytes_beBytes, Nat.mod_eq_of_lt (lt_of_lt_of_eq hk.height_lt (by decide))]
    simp [hlength]
  have hscan : Table.scan (fun key => 8 ≤ key.length && ofBeBytes (key.take 8) < height) s.decided =
      (Table.scan (fun k => decide (k.height < height)) b.decided).map
        fun e => (e.1.toDecidedKey, e.2.toProto) :=
    h.decided.scan_eq BlobIndexKey.compare_toDecidedKey hheight
  unfold RawBlobStore.prunedKeys BlobStore.keysBelow
  rw [List.filter_map]
  refine (congrArg (List.map (·.1)) hscan).trans ?_
  rw [List.map_map, List.map_map]
  rfl

end Represents

/-- Rows of sidecars add up to one blob size each. -/
theorem RawBlobStore.totalBytes_map {l : List BlobSidecar} (h : ∀ x ∈ l, x.index ≤ u16Max) :
    RawBlobStore.totalBytes (l.map BlobSidecar.toProto) = .ok (l.length * bytesPerBlob) := by
  induction l with
  | nil => simp [RawBlobStore.totalBytes]
  | cons x l ih =>
    obtain ⟨hx, hl⟩ := List.forall_mem_cons.1 h
    rw [List.map_cons, RawBlobStore.totalBytes, ih hl, BlobSidecar.fromProto_toProto hx]
    refine congrArg Exit.ok ?_
    rw [x.blob.size_eq, List.length_cons, Nat.succ_mul, Nat.add_comm]

/-- The bytes on disk are those of a store with the reads of the maps. -/
def Refines (s : RawBlobStore) (m : BlobMaps) : Prop := ∃ b, Represents s b ∧ m = b.maps

theorem Refines.empty : Refines .empty .empty := by
  refine ⟨.empty, .empty, BlobMaps.ext ?_ ?_⟩
  · funext k
    exact Std.ExtTreeMap.getElem?_empty.symm
  · funext k
    exact Std.ExtTreeMap.getElem?_empty.symm

namespace Represents

variable {s : RawBlobStore} {b : BlobStore} {height : Height} {round : Int}

/-- Collected rows deserialize and are counted in full. -/
theorem totalBytes_collected (h : Represents s b) {entries : List (BlobKey × BlobSidecar)}
    (hentries : ∀ e ∈ entries, ∃ r, e ∈ b.collectUndecidedEntries height r) :
    RawBlobStore.totalBytes ((entries.map fun e => (e.1.toUndecidedKey, e.2.toProto)).map (·.2)) =
      .ok (entries.length * bytesPerBlob) := by
  have hmap : ((entries.map fun e => (e.1.toUndecidedKey, e.2.toProto)).map (·.2)) =
      (entries.map (·.2)).map BlobSidecar.toProto := by simp
  rw [hmap, RawBlobStore.totalBytes_map, List.length_map]
  intro x hx
  obtain ⟨e, he, rfl⟩ := List.mem_map.1 hx
  obtain ⟨r, hr⟩ := hentries e he
  exact h.index_le_undecided (Table.mem_scan.1 hr).1

theorem markDecided_eq (h : Represents s b) (hfits : BlobKey.Fits ⟨height, round, 0⟩) :
    s.markDecided height round =
      .ok ((s.markDecidedWrites height round).foldl RawBlobStore.apply s,
        (b.promoted height round).length,
        (b.promoted height round).length * bytesPerBlob) := by
  -- every key that is found can be parsed, so no row is skipped
  have hparsed : (s.promoted height round).filter
      (fun e => (BlobKey.fromUndecidedKey e.1).isSome) = s.promoted height round := by
    refine List.filter_eq_self.2 fun row hrow => ?_
    rw [h.promoted_eq hfits] at hrow
    obtain ⟨e, he, rfl⟩ := List.mem_map.1 hrow
    obtain ⟨r, hr⟩ := BlobStore.promoted_collected he
    rw [BlobKey.fromUndecidedKey_toUndecidedKey (h.fits_collected hr).1]
    rfl
  have hbytes : RawBlobStore.totalBytes ((s.promoted height round).map (·.2)) =
      .ok ((b.promoted height round).length * bytesPerBlob) := by
    rw [h.promoted_eq hfits]
    exact h.totalBytes_collected fun e he => BlobStore.promoted_collected he
  have hlength : (s.promoted height round).length = (b.promoted height round).length := by
    rw [h.promoted_eq hfits, List.length_map]
  simp only [RawBlobStore.markDecided, hparsed, hbytes, Exit.ok_bind, hlength]
  rfl

theorem dropRound_eq (h : Represents s b) (hfits : BlobKey.Fits ⟨height, round, 0⟩) :
    s.dropRound height round =
      .ok ((s.dropRoundWrites height round).foldl RawBlobStore.apply s,
        (b.collectUndecidedEntries height (some round)).length,
        (b.collectUndecidedEntries height (some round)).length * bytesPerBlob) := by
  have hbytes : RawBlobStore.totalBytes
      ((s.collectUndecidedEntries height (some round)).map (·.2)) =
      .ok ((b.collectUndecidedEntries height (some round)).length * bytesPerBlob) := by
    rw [h.collectRound_eq hfits]
    exact h.totalBytes_collected fun e he => ⟨_, he⟩
  have hlength : (s.collectUndecidedEntries height (some round)).length =
      (b.collectUndecidedEntries height (some round)).length := by
    rw [h.collectRound_eq hfits, List.length_map]
  simp only [RawBlobStore.dropRound, hbytes, Exit.ok_bind, hlength]
  rfl

theorem deleteArchived (h : Represents s b) (hlt : height < 2 ^ 64) {indices : List Nat}
    (hindices : ∀ i ∈ indices, i < 2 ^ 16) :
    Represents (s.deleteArchived height indices)
      (b.deleteKeys (indices.map (BlobIndexKey.mk height))) := by
  have hkeys : ∀ k ∈ indices.map (BlobIndexKey.mk height), k.Fits := by
    intro k hk
    obtain ⟨i, hi, rfl⟩ := List.mem_map.1 hk
    exact ⟨hlt, hindices i hi⟩
  have hdelete := h.deleteKeys hkeys
  rw [List.map_map] at hdelete
  exact hdelete

theorem pruneBefore_eq (h : Represents s b) (height : Height) :
    Represents (s.pruneBefore height).1 (b.deleteKeys (b.keysBelow height)) ∧
      (s.pruneBefore height).2 = (b.keysBelow height).length := by
  have hkeys : ∀ k ∈ b.keysBelow height, k.Fits := by
    intro k hk
    obtain ⟨x, hx⟩ := Option.isSome_iff_exists.1 ((b.mem_keysBelow height).1 hk).2
    exact h.decided.key hx
  have hdelete := h.deleteKeys hkeys
  unfold RawBlobStore.pruneBefore
  rw [h.prunedKeys_eq height, List.map_map, List.length_map]
  exact ⟨hdelete, rfl⟩

end Represents

/-- **One operation on the bytes is one on the maps.** -/
theorem Refines.step {s : RawBlobStore} {m : BlobMaps} (h : Refines s m) {op : StoreOp}
    (hop : op.Fits) :
    ∃ s' answer m', s.perform op = .ok (s', answer) ∧ m.Step op answer m' ∧ Refines s' m' := by
  obtain ⟨b, hb, rfl⟩ := h
  cases op with
  | putUndecidedBlobs height round blobs =>
    exact ⟨_, _, _, rfl, b.step_putAll height round blobs, _, hb.putAll hop.1 hop.2, rfl⟩
  | getUndecidedBlobs height round =>
    refine ⟨s, _, _, ?_, b.step_getUndecidedBlobs height round, b, hb, rfl⟩
    rw [RawBlobStore.perform, hb.getUndecidedBlobs_eq hop.height_lt hop.round_ge hop.round_lt]
    rfl
  | markDecided height round =>
    refine ⟨_, _, _, ?_, b.step_promote height round, _, hb.promote hop, rfl⟩
    rw [RawBlobStore.perform, hb.markDecided_eq hop]
    rfl
  | getDecidedBlobs height =>
    refine ⟨s, _, _, ?_, b.step_getDecidedBlobs height, b, hb, rfl⟩
    rw [RawBlobStore.perform, hb.getDecidedBlobs_eq hop]
    rfl
  | dropRound height round =>
    refine ⟨_, _, _, ?_, b.step_withoutRound height round, _, hb.withoutRound hop, rfl⟩
    rw [RawBlobStore.perform, hb.dropRound_eq hop]
    rfl
  | deleteArchived height indices =>
    exact ⟨_, _, _, rfl, b.step_deleteArchived height indices, _,
      hb.deleteArchived hop.1 hop.2, rfl⟩
  | pruneBefore height =>
    obtain ⟨hdelete, hcount⟩ := hb.pruneBefore_eq height
    refine ⟨_, _, _, ?_, b.step_pruneBefore height, _, hdelete, rfl⟩
    exact congrArg (fun n => Exit.ok ((s.pruneBefore height).1, StoreAnswer.count n)) hcount

/-- **The blob store refines the two maps.** Every sequence of operations with arguments in the
ranges of their types succeeds, answers as the maps do, and leaves the bytes of the maps. -/
theorem store_refines_maps (ops : List StoreOp) (hops : ∀ op ∈ ops, op.Fits) :
    ∃ s answers m, RawBlobStore.empty.performAll ops = .ok (s, answers) ∧
      BlobMaps.empty.Run ops answers m ∧ Refines s m := by
  suffices H : ∀ {s : RawBlobStore} {m : BlobMaps}, Refines s m →
      ∃ s' answers m', s.performAll ops = .ok (s', answers) ∧ m.Run ops answers m' ∧
        Refines s' m' from H .empty
  induction ops with
  | nil => exact fun {s m} h => ⟨s, [], m, rfl, .nil m, h⟩
  | cons op ops ih =>
    intro s m h
    obtain ⟨hop, hops⟩ := List.forall_mem_cons.1 hops
    obtain ⟨s₁, answer, m₁, hperform, hstep, h₁⟩ := h.step hop
    obtain ⟨s₂, answers, m₂, hall, hrun, h₂⟩ := ih hops h₁
    refine ⟨s₂, answer :: answers, m₂, ?_, .cons hstep hrun, h₂⟩
    rw [RawBlobStore.performAll, hperform, Exit.ok_bind]
    simp only [hall, Exit.ok_bind]
    rfl

namespace Sample

/-- A blob of zeros. -/
def zeroSidecar (index : Nat) : BlobSidecar :=
  ⟨index, ⟨List.replicate bytesPerBlob 0, List.length_replicate⟩, ⟨0⟩, ⟨0⟩,
    ⟨⟨0, 0, 0, 0, 0⟩, ⟨0⟩⟩, []⟩

/-- A decision in a round without blobs, at a height with blobs of the nil round and of round 2. -/
def mixedRounds : List StoreOp :=
  [.putUndecidedBlobs 1 (-1) [zeroSidecar 0], .putUndecidedBlobs 1 2 [zeroSidecar 0, zeroSidecar 65535],
    .markDecided 1 0, .getDecidedBlobs 1, .deleteArchived 1 [0], .pruneBefore 2]

end Sample

theorem store_refines_maps_mixed :
    (∀ op ∈ Sample.mixedRounds, op.Fits) ∧
      ∃ s answers m, RawBlobStore.empty.performAll Sample.mixedRounds = .ok (s, answers) ∧
        BlobMaps.empty.Run Sample.mixedRounds answers m ∧ Refines s m := by
  have hfits : ∀ op ∈ Sample.mixedRounds, op.Fits := by
    simp [Sample.mixedRounds, Sample.zeroSidecar, StoreOp.Fits, BlobKey.fits_iff]
  exact ⟨hfits, store_refines_maps _ hfits⟩

end Ultramarine
