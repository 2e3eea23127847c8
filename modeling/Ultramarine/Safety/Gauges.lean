import Ultramarine.Safety.BlobProvenance
import Ultramarine.Store.BlobMaps

/-!
# The storage gauges of the blob engine

`blob_engine/src/engine.rs` keeps three gauges of its store: how many undecided blobs there are, and
how many bytes of undecided and of decided ones. They are changed by what an operation was asked for
or was told, never read off the store. `Gauges.counting` are the gauges a store should have.

`BlobEngine.step_exact` compares one operation's change of the gauges with what it did to the store:
they agree exactly if the operation is `Plain`, that is, if it overwrites no blob and deletes no
blob that is not there. `gauges_accurate_iff` is the same along a whole run.
-/

namespace Ultramarine

open Lib

/-! ## The engine -/

/-- The storage gauges of `metrics.rs`, of type `Gauge<i64>`. -/
@[ext]
structure Gauges where
  undecidedBlobCount : Int
  storageBytesUndecided : Int
  storageBytesDecided : Int
deriving DecidableEq

namespace Gauges

/-- `inc_by` and `dec_by` on an `i64`, which wrap around. -/
def incBy (g n : Int) : Int := (g + n).bmod (2 ^ 64)

/-- `add_undecided_storage` -/
def addUndecidedStorage (g : Gauges) (bytes count : Nat) : Gauges :=
  { g with
    storageBytesUndecided := incBy g.storageBytesUndecided bytes
    undecidedBlobCount := incBy g.undecidedBlobCount count }

/-- `promote_blobs` -/
def promoteBlobs (g : Gauges) (bytes count : Nat) : Gauges where
  storageBytesUndecided := incBy g.storageBytesUndecided (-bytes)
  storageBytesDecided := incBy g.storageBytesDecided bytes
  undecidedBlobCount := incBy g.undecidedBlobCount (-count)

/-- `drop_blobs` -/
def dropBlobs (g : Gauges) (bytes count : Nat) : Gauges :=
  { g with
    storageBytesUndecided := incBy g.storageBytesUndecided (-bytes)
    undecidedBlobCount := incBy g.undecidedBlobCount (-count) }

/-- `prune_blobs` -/
def pruneBlobs (g : Gauges) (bytes : Nat) : Gauges :=
  { g with storageBytesDecided := incBy g.storageBytesDecided (-bytes) }

end Gauges

/-- `BlobEngineImpl`: its store and its gauges. -/
structure BlobEngine where
  store : RawBlobStore
  gauges : Gauges

/-- The operations of the trait `BlobEngine`. -/
inductive EngineOp where
  | verifyAndStore (height : Height) (round : Int) (sidecars : List BlobSidecar)
  | markDecided (height : Height) (round : Int)
  | getForImport (height : Height)
  | dropRound (height : Height) (round : Int)
  | markArchived (height : Height) (indices : List Nat)
  | pruneArchivedBefore (height : Height)
  | getUndecidedBlobs (height : Height) (round : Int)

namespace EngineOp

/-- What is asked of the store. -/
def toStore : EngineOp → StoreOp
  | .verifyAndStore height round sidecars => .putUndecidedBlobs height round sidecars
  | .markDecided height round => .markDecided height round
  | .getForImport height => .getDecidedBlobs height
  | .dropRound height round => .dropRound height round
  | .markArchived height indices => .deleteArchived height indices
  | .pruneArchivedBefore height => .pruneBefore height
  | .getUndecidedBlobs height round => .getUndecidedBlobs height round

/-- The arguments are within the ranges of their types. -/
def Fits (op : EngineOp) : Prop := op.toStore.Fits

/-- How many blobs the operation names. -/
def named : EngineOp → Nat
  | .verifyAndStore _ _ sidecars => sidecars.length
  | .markArchived _ indices => indices.length
  | _ => 0

end EngineOp

namespace BlobEngine

/-- A new engine on an empty store. -/
def empty : BlobEngine := ⟨.empty, ⟨0, 0, 0⟩⟩

/-- An operation of the engine. A batch that fails verification is an error, after which the engine
is as it was. The gauge `blobs_per_block` and the counters are left out. -/
def step (o : Oracles) (e : BlobEngine) : EngineOp → Exit ProtoErr BlobEngine
  | .verifyAndStore height round sidecars =>
    if sidecars = [] then pure e
    else if o.verifyBlobKzgProofBatch (sidecars.map (·.kzgInput)) then
      let (store, stored) := e.store.putUndecidedBlobs height round sidecars
      let bytes := (sidecars.map (·.blob.data.length)).sum
      pure ⟨store, e.gauges.addUndecidedStorage bytes stored⟩
    else pure e
  | .markDecided height round => do
    let (store, count, bytes) ← e.store.markDecided height round
    if count = 0 then
      let _ ← store.getDecidedBlobs height
      pure ⟨store, e.gauges⟩
    else pure ⟨store, e.gauges.promoteBlobs bytes count⟩
  | .getForImport height => do
    let _ ← e.store.getDecidedBlobs height
    pure e
  | .dropRound height round => do
    let (store, count, bytes) ← e.store.dropRound height round
    pure ⟨store, e.gauges.dropBlobs bytes count⟩
  | .markArchived height indices =>
    pure ⟨e.store.deleteArchived height indices,
      e.gauges.pruneBlobs (indices.length * bytesPerBlob)⟩
  | .pruneArchivedBefore height =>
    let (store, count) := e.store.pruneBefore height
    pure ⟨store, e.gauges.pruneBlobs (count * bytesPerBlob)⟩
  | .getUndecidedBlobs height round => do
    let _ ← e.store.getUndecidedBlobs height round
    pure e

/-- A sequence of operations. -/
def run (o : Oracles) (e : BlobEngine) : List EngineOp → Exit ProtoErr BlobEngine
  | [] => pure e
  | op :: ops => do
    let e ← e.step o op
    e.run o ops

/-- **The gauges say what is in the column families**: the number of rows of undecided blobs, and the
total size of the blobs of either family. So none is negative. -/
structure Accurate (e : BlobEngine) : Prop where
  undecidedBlobCount : e.gauges.undecidedBlobCount = e.store.undecided.toList.length
  storageBytesUndecided : ∃ n : Nat, RawBlobStore.totalBytes (e.store.undecided.toList.map (·.2)) =
    .ok n ∧ e.gauges.storageBytesUndecided = n
  storageBytesDecided : ∃ n : Nat, RawBlobStore.totalBytes (e.store.decided.toList.map (·.2)) =
    .ok n ∧ e.gauges.storageBytesDecided = n

end BlobEngine

/-! ## Operations that change as many blobs as they say -/

namespace RawBlobStore

/-- There is an undecided row under the key. -/
def Occupied (s : RawBlobStore) (k : BlobKey) : Prop :=
  k.Fits ∧ (s.undecided[k.toUndecidedKey]?).isSome

/-- `mark_decided` takes the row: it is of the round, or the round has none. -/
def Taken (s : RawBlobStore) (height : Height) (round : Int) (k : BlobKey) : Prop :=
  k.height = height ∧ s.Occupied k ∧ (k.round = round ∨ ∀ i, ¬ s.Occupied ⟨height, round, i⟩)

end RawBlobStore

/-- The operation overwrites no blob and deletes none that is not there: a batch that is accepted has
different indices, all of them new to its round; the blobs that are promoted have different indices,
none of them decided at the height; the indices that are archived are different, and all decided. -/
def EngineOp.Plain (o : Oracles) (s : RawBlobStore) : EngineOp → Prop
  | .verifyAndStore height round sidecars =>
    o.verifyBlobKzgProofBatch (sidecars.map (·.kzgInput)) = true →
      (sidecars.map (·.index)).Nodup ∧
        ∀ x ∈ sidecars, ¬ s.Occupied ⟨height, round, x.index⟩
  | .markDecided height round =>
    ∀ k, s.Taken height round k →
      s.decided[(BlobIndexKey.mk height k.index).toDecidedKey]? = none ∧
        ∀ k', s.Taken height round k' → k'.index = k.index → k' = k
  | .markArchived height indices =>
    indices.Nodup ∧ ∀ i ∈ indices, (s.decided[(BlobIndexKey.mk height i).toDecidedKey]?).isSome
  | _ => True

/-- The blobs of the store and those the operation names are few enough for an `i64`. -/
def EngineOp.InRange (s : RawBlobStore) (op : EngineOp) : Prop :=
  (s.undecided.toList.length + s.decided.toList.length + op.named) * bytesPerBlob < 2 ^ 63

/-! ## How many blobs there are -/

namespace BlobStore

variable (b : BlobStore) (height : Height) (round : Int)

theorem undecided_putAll_eq (sidecars : List BlobSidecar) :
    (b.putAll height round sidecars).undecided =
      Table.insertAll b.undecided (sidecars.map fun x => (⟨height, round, x.index⟩, x)) := by
  induction sidecars generalizing b with
  | nil => rfl
  | cons x sidecars ih => exact ih (b.putUndecided height round x)

theorem undecided_move_eq (entries : List (BlobKey × BlobSidecar)) :
    (b.move height entries).undecided = Table.eraseAll b.undecided (entries.map (·.1)) := by
  induction entries generalizing b with
  | nil => rfl
  | cons e entries ih => exact ih ((b.putDecided height e.2).deleteUndecided e.1)

theorem decided_move_eq (entries : List (BlobKey × BlobSidecar)) :
    (b.move height entries).decided =
      Table.insertAll b.decided (entries.map fun e => (⟨height, e.2.index⟩, e.2)) := by
  induction entries generalizing b with
  | nil => rfl
  | cons e entries ih => exact ih ((b.putDecided height e.2).deleteUndecided e.1)

theorem decided_deleteKeys_eq (keys : List BlobIndexKey) :
    (b.deleteKeys keys).decided = Table.eraseAll b.decided keys := by
  induction keys generalizing b with
  | nil => rfl
  | cons k keys ih => exact ih (b.deleteDecided k.height k.index)

theorem undecided_withoutRound_eq : (b.withoutRound height round).undecided =
    Table.eraseAll b.undecided ((b.collectUndecidedEntries height (some round)).map (·.1)) := by
  unfold withoutRound
  generalize b.collectUndecidedEntries height (some round) = entries
  induction entries generalizing b with
  | nil => rfl
  | cons e entries ih => exact ih (b.deleteUndecided e.1)

/-- The keys of a scan are different, and there. -/
theorem size_eraseAll_scan {κ α : Type} [Ord κ] [Std.TransOrd κ] [Std.LawfulEqOrd κ]
    [DecidableEq κ] (p : κ → Bool) (t : Table κ α) :
    t.size = (Table.eraseAll t ((Table.scan p t).map (·.1))).size + (Table.scan p t).length := by
  have hsize := (Table.size_eraseAll_eq_iff ((Table.scan p t).map (·.1)) t).2 ⟨?_, ?_⟩
  · rwa [List.length_map] at hsize
  · refine List.pairwise_map.2 ((Table.scan_sorted p t).imp fun {a c} hac heq => ?_)
    rw [heq] at hac
    simp at hac
  · intro k hk
    obtain ⟨e, he, rfl⟩ := List.mem_map.1 hk
    rw [(Table.mem_scan.1 he).1]
    rfl

theorem size_undecided_promote :
    b.undecided.size = (b.promote height round).undecided.size + (b.promoted height round).length := by
  obtain ⟨p, hscan, -⟩ := b.promoted_scan height round
  unfold promote
  rw [undecided_move_eq, hscan]
  exact size_eraseAll_scan p b.undecided

theorem size_undecided_withoutRound :
    b.undecided.size = (b.withoutRound height round).undecided.size +
      (b.collectUndecidedEntries height (some round)).length := by
  rw [undecided_withoutRound_eq]
  exact size_eraseAll_scan _ b.undecided

theorem size_decided_pruned :
    b.decided.size = (b.deleteKeys (b.keysBelow height)).decided.size +
      (b.keysBelow height).length := by
  rw [decided_deleteKeys_eq]
  unfold keysBelow
  rw [List.length_map]
  exact size_eraseAll_scan _ b.decided

end BlobStore

namespace Represents

variable {s : RawBlobStore} {b : BlobStore} {height : Height} {round : Int}

theorem length_undecided (h : Represents s b) : s.undecided.toList.length = b.undecided.size := by
  rw [h.undecided.toList_eq BlobKey.compare_toUndecidedKey, List.length_map,
    Std.ExtTreeMap.length_toList]

theorem length_decided (h : Represents s b) : s.decided.toList.length = b.decided.size := by
  rw [h.decided.toList_eq BlobIndexKey.compare_toDecidedKey, List.length_map,
    Std.ExtTreeMap.length_toList]

theorem totalBytes_undecided (h : Represents s b) :
    RawBlobStore.totalBytes (s.undecided.toList.map (·.2)) =
      .ok (b.undecided.size * bytesPerBlob) := by
  have hrows : s.undecided.toList.map (·.2) =
      (b.undecided.toList.map (·.2)).map BlobSidecar.toProto := by
    rw [h.undecided.toList_eq BlobKey.compare_toUndecidedKey]
    simp
  rw [hrows, RawBlobStore.totalBytes_map, List.length_map, Std.ExtTreeMap.length_toList]
  intro x hx
  obtain ⟨e, he, rfl⟩ := List.mem_map.1 hx
  exact h.index_le_undecided (Std.ExtTreeMap.mem_toList_iff_getElem?_eq_some.1 he)

theorem totalBytes_decided (h : Represents s b) :
    RawBlobStore.totalBytes (s.decided.toList.map (·.2)) = .ok (b.decided.size * bytesPerBlob) := by
  have hrows : s.decided.toList.map (·.2) =
      (b.decided.toList.map (·.2)).map BlobSidecar.toProto := by
    rw [h.decided.toList_eq BlobIndexKey.compare_toDecidedKey]
    simp
  rw [hrows, RawBlobStore.totalBytes_map, List.length_map, Std.ExtTreeMap.length_toList]
  intro x hx
  obtain ⟨e, he, rfl⟩ := List.mem_map.1 hx
  exact h.index_le_decided (Std.ExtTreeMap.mem_toList_iff_getElem?_eq_some.1 he)

theorem occupied_iff (h : Represents s b) {k : BlobKey} :
    s.Occupied k ↔ (b.undecided[k]?).isSome := by
  constructor
  · rintro ⟨hk, hsome⟩
    rwa [h.undecided.getElem?_eq BlobKey.compare_toUndecidedKey hk, Option.isSome_map] at hsome
  · intro hsome
    obtain ⟨x, hx⟩ := Option.isSome_iff_exists.1 hsome
    have hk := h.undecided.key hx
    refine ⟨hk, ?_⟩
    rwa [h.undecided.getElem?_eq BlobKey.compare_toUndecidedKey hk, Option.isSome_map]

theorem taken_iff (h : Represents s b) {k : BlobKey} :
    s.Taken height round k ↔ k ∈ (b.promoted height round).map (·.1) := by
  rw [b.mem_keys_promoted height round]
  unfold RawBlobStore.Taken BlobMaps.moved
  simp only [h.occupied_iff]
  split
  · rename_i hround
    obtain ⟨⟨_, _, i⟩, ⟨rfl, rfl⟩, hsome⟩ := hround
    constructor
    · rintro ⟨hheight, hk, hround | hnone⟩
      · exact ⟨⟨hheight, hround⟩, hk⟩
      · exact absurd hsome (hnone i)
    · rintro ⟨⟨hheight, hround⟩, hk⟩
      exact ⟨hheight, hk, .inl hround⟩
  · rename_i hround
    constructor
    · rintro ⟨hheight, hk, -⟩
      exact ⟨hheight, hk⟩
    · rintro ⟨hheight, hk⟩
      exact ⟨hheight, hk, .inr fun i hi => hround ⟨_, ⟨rfl, rfl⟩, hi⟩⟩

end Represents

/-! ## One operation -/

/-- The gauges a store should have. -/
def Gauges.counting (b : BlobStore) : Gauges :=
  ⟨b.undecided.size, (b.undecided.size * bytesPerBlob : Nat), (b.decided.size * bytesPerBlob : Nat)⟩

theorem Gauges.incBy_eq {g n : Int} (hlo : -2 ^ 63 ≤ g + n) (hhi : g + n < 2 ^ 63) :
    incBy g n = g + n :=
  Int.bmod_eq_of_le_mul_two (by omega) (by omega)

theorem BlobEngine.accurate_iff {e : BlobEngine} {b : BlobStore} (h : Represents e.store b) :
    e.Accurate ↔ e.gauges = .counting b := by
  constructor
  · rintro ⟨hcount, ⟨n, hn, hundecided⟩, ⟨m, hm, hdecided⟩⟩
    rw [h.length_undecided] at hcount
    rw [h.totalBytes_undecided] at hn
    rw [h.totalBytes_decided] at hm
    cases hn
    cases hm
    exact Gauges.ext hcount hundecided hdecided
  · intro hgauges
    rw [Gauges.ext_iff] at hgauges
    obtain ⟨hcount, hundecided, hdecided⟩ := hgauges
    refine ⟨?_, ⟨_, h.totalBytes_undecided, hundecided⟩, ⟨_, h.totalBytes_decided, hdecided⟩⟩
    rw [h.length_undecided]
    exact hcount

/-- What an operation makes of a store of sidecars. -/
def EngineOp.after (o : Oracles) (b : BlobStore) : EngineOp → BlobStore
  | .verifyAndStore height round sidecars =>
    b.putAll height round (BlobOp.verifiedBatch o sidecars)
  | .markDecided height round => b.promote height round
  | .dropRound height round => b.withoutRound height round
  | .markArchived height indices => b.deleteKeys (indices.map (BlobIndexKey.mk height))
  | .pruneArchivedBefore height => b.deleteKeys (b.keysBelow height)
  | .getForImport _ => b
  | .getUndecidedBlobs _ _ => b

section Step

variable {o : Oracles} {s : RawBlobStore} {b : BlobStore} {g : Gauges} {height : Height} {round : Int}

theorem size_putAll_iff (h : Represents s b) (sidecars : List BlobSidecar) :
    (b.putAll height round sidecars).undecided.size = b.undecided.size + sidecars.length ↔
      (sidecars.map (·.index)).Nodup ∧ ∀ x ∈ sidecars, ¬ s.Occupied ⟨height, round, x.index⟩ := by
  have hsize := Table.size_insertAll_eq_iff
    (sidecars.map fun x => (BlobKey.mk height round x.index, x)) b.undecided
  have hkeys : (sidecars.map fun x => (BlobKey.mk height round x.index, x)).map (·.1) =
      (sidecars.map (·.index)).map (BlobKey.mk height round) := by
    rw [List.map_map, List.map_map]
    rfl
  have hinj : Function.Injective (BlobKey.mk height round) := fun i j hij =>
    congrArg BlobKey.index hij
  rw [hkeys, List.nodup_map_iff hinj, List.length_map, List.forall_mem_map] at hsize
  rw [BlobStore.undecided_putAll_eq, hsize]
  simp only [h.occupied_iff, Option.not_isSome_iff_eq_none]

/-- The blobs that are promoted keep apart exactly if their keys do. -/
theorem nodup_promoted_iff (h : Represents s b) :
    ((b.promoted height round).map fun e => BlobIndexKey.mk height e.2.index).Nodup ↔
      ∀ k, s.Taken height round k → ∀ k', s.Taken height round k' → k'.index = k.index → k' = k := by
  obtain ⟨p, hscan, -⟩ := b.promoted_scan height round
  have hindex : ∀ e ∈ b.promoted height round, e.2.index = e.1.index := by
    intro e he
    rw [hscan] at he
    exact b.undecided_index (Table.mem_scan.1 he).1
  have hnodup : (b.promoted height round).Nodup := by
    rw [hscan]
    refine (Table.scan_sorted p b.undecided).imp fun {a c} hac heq => ?_
    rw [heq] at hac
    simp at hac
  simp only [h.taken_iff, List.forall_mem_map]
  constructor
  · intro hmap e he e' he' hij
    have hkey : BlobIndexKey.mk height e'.2.index = BlobIndexKey.mk height e.2.index := by
      rw [hindex e he, hindex e' he', hij]
    rw [List.inj_on_of_nodup_map hmap he' he hkey]
  · intro hkeys
    refine hnodup.map_on fun e he e' he' hij => ?_
    have hij' : e.1.index = e'.1.index := by
      rw [← hindex e he, ← hindex e' he']
      exact congrArg BlobIndexKey.index hij
    have hkey := hkeys e' he' e he hij'
    rw [hscan] at he he'
    refine Prod.ext hkey (Option.some.inj ?_)
    rw [← (Table.mem_scan.1 he).1, ← (Table.mem_scan.1 he').1, hkey]

theorem size_promote_iff (h : Represents s b) (hfits : BlobKey.Fits ⟨height, round, 0⟩) :
    (b.promote height round).decided.size = b.decided.size + (b.promoted height round).length ↔
      (EngineOp.markDecided height round).Plain o s := by
  have hsize := Table.size_insertAll_eq_iff
    ((b.promoted height round).map fun e => (BlobIndexKey.mk height e.2.index, e.2)) b.decided
  rw [List.map_map, List.length_map, List.forall_mem_map] at hsize
  have hfree : (∀ e ∈ b.promoted height round, b.decided[BlobIndexKey.mk height e.2.index]? = none) ↔
      ∀ k, s.Taken height round k →
        s.decided[(BlobIndexKey.mk height k.index).toDecidedKey]? = none := by
    simp only [h.taken_iff, List.forall_mem_map]
    refine forall₂_congr fun e he => ?_
    obtain ⟨r, hr⟩ := BlobStore.promoted_collected he
    obtain ⟨hkey, -, hindex⟩ := h.fits_collected hr
    rw [h.decided.getElem?_eq BlobIndexKey.compare_toDecidedKey ⟨hfits.height_lt, hkey.index_lt⟩,
      Option.map_eq_none_iff, hindex]
  unfold BlobStore.promote
  rw [BlobStore.decided_move_eq, hsize, hfree]
  refine (and_congr_left' (nodup_promoted_iff h)).trans ?_
  unfold EngineOp.Plain
  constructor
  · rintro ⟨happart, hnone⟩ k hk
    exact ⟨hnone k hk, happart k hk⟩
  · intro hplain
    exact ⟨fun k hk => (hplain k hk).2, fun k hk => (hplain k hk).1⟩

theorem size_archived_iff (h : Represents s b) (hlt : height < 2 ^ 64) {indices : List Nat}
    (hindices : ∀ i ∈ indices, i < 2 ^ 16) :
    b.decided.size = (b.deleteKeys (indices.map (BlobIndexKey.mk height))).decided.size +
        indices.length ↔ (EngineOp.markArchived height indices).Plain o s := by
  have hsize := Table.size_eraseAll_eq_iff (indices.map (BlobIndexKey.mk height)) b.decided
  have hinj : Function.Injective (BlobIndexKey.mk height) := fun i j hij =>
    congrArg BlobIndexKey.index hij
  rw [List.nodup_map_iff hinj, List.length_map, List.forall_mem_map] at hsize
  rw [BlobStore.decided_deleteKeys_eq, hsize]
  refine and_congr_right fun _ => forall₂_congr fun i hi => ?_
  rw [h.decided.getElem?_eq BlobIndexKey.compare_toDecidedKey ⟨hlt, hindices i hi⟩,
    Option.isSome_map]

end Step

namespace Gauges

variable {b b' : BlobStore} {n : Nat}

theorem addUndecidedStorage_iff (hdecided : b'.decided.size = b.decided.size)
    (hrange : (b.undecided.size + b.decided.size + n) * bytesPerBlob < 2 ^ 63) :
    (counting b).addUndecidedStorage (n * bytesPerBlob) n = counting b' ↔
      b'.undecided.size = b.undecided.size + n := by
  unfold bytesPerBlob at *
  simp only [addUndecidedStorage, counting, bytesPerBlob, Gauges.mk.injEq]
  rw [hdecided, incBy_eq (by omega) (by omega), incBy_eq (by omega) (by omega)]
  omega

theorem promoteBlobs_iff (hundecided : b.undecided.size = b'.undecided.size + n)
    (hrange : (b.undecided.size + b.decided.size) * bytesPerBlob < 2 ^ 63) :
    (counting b).promoteBlobs (n * bytesPerBlob) n = counting b' ↔
      b'.decided.size = b.decided.size + n := by
  unfold bytesPerBlob at *
  simp only [promoteBlobs, counting, bytesPerBlob, Gauges.mk.injEq]
  rw [incBy_eq (by omega) (by omega), incBy_eq (by omega) (by omega),
    incBy_eq (by omega) (by omega)]
  omega

theorem dropBlobs_eq (hundecided : b.undecided.size = b'.undecided.size + n)
    (hdecided : b'.decided.size = b.decided.size)
    (hrange : (b.undecided.size + b.decided.size) * bytesPerBlob < 2 ^ 63) :
    (counting b).dropBlobs (n * bytesPerBlob) n = counting b' := by
  unfold bytesPerBlob at *
  simp only [dropBlobs, counting, bytesPerBlob, Gauges.mk.injEq]
  rw [hdecided, incBy_eq (by omega) (by omega), incBy_eq (by omega) (by omega)]
  omega

theorem pruneBlobs_iff (hundecided : b'.undecided.size = b.undecided.size)
    (hdecided : b.decided.size * bytesPerBlob < 2 ^ 63) (hn : n * bytesPerBlob < 2 ^ 63) :
    (counting b).pruneBlobs (n * bytesPerBlob) = counting b' ↔
      b.decided.size = b'.decided.size + n := by
  unfold bytesPerBlob at *
  simp only [pruneBlobs, counting, bytesPerBlob, Gauges.mk.injEq]
  rw [hundecided, incBy_eq (by omega) (by omega)]
  omega

end Gauges

theorem sum_sizes (sidecars : List BlobSidecar) :
    (sidecars.map (·.blob.data.length)).sum = sidecars.length * bytesPerBlob := by
  induction sidecars with
  | nil => simp
  | cons x sidecars ih =>
    rw [List.map_cons, List.sum_cons, ih, x.blob.size_eq, List.length_cons, Nat.succ_mul,
      Nat.add_comm]

namespace BlobEngine

variable {o : Oracles} {e : BlobEngine} {b : BlobStore} {height : Height} {round : Int}

theorem step_verifyAndStore (h : Represents e.store b) {sidecars : List BlobSidecar}
    (hfits : (EngineOp.verifyAndStore height round sidecars).Fits) :
    ∃ e', e.step o (.verifyAndStore height round sidecars) = .ok e' ∧
      Represents e'.store (b.putAll height round (BlobOp.verifiedBatch o sidecars)) ∧
      ((EngineOp.verifyAndStore height round sidecars).InRange e.store → e.gauges = .counting b →
        (e'.gauges = .counting (b.putAll height round (BlobOp.verifiedBatch o sidecars)) ↔
          (EngineOp.verifyAndStore height round sidecars).Plain o e.store)) := by
  unfold BlobOp.verifiedBatch
  by_cases hok : o.verifyBlobKzgProofBatch (sidecars.map (·.kzgInput)) = true
  · rw [if_pos hok]
    by_cases hnil : sidecars = []
    · subst hnil
      refine ⟨e, by rw [step, if_pos rfl]; rfl, h, fun _ hg => iff_of_true hg fun _ => ?_⟩
      exact ⟨List.nodup_nil, nofun⟩
    · refine ⟨_, by rw [step, if_neg hnil, if_pos hok]; rfl, h.putAll hfits.1 hfits.2, ?_⟩
      intro hrange hg
      unfold EngineOp.InRange at hrange
      rw [h.length_undecided, h.length_decided] at hrange
      have hdecided : (b.putAll height round sidecars).decided.size = b.decided.size := by
        rw [BlobStore.decided_putAll]
      have hplain : (EngineOp.verifyAndStore height round sidecars).Plain o e.store ↔
          (b.putAll height round sidecars).undecided.size = b.undecided.size + sidecars.length := by
        rw [size_putAll_iff h]
        exact ⟨fun hplain => hplain hok, fun hfresh _ => hfresh⟩
      have hgauges := Gauges.addUndecidedStorage_iff (n := sidecars.length) hdecided hrange
      rw [hplain, ← hgauges, ← hg, ← sum_sizes]
  · rw [if_neg hok]
    refine ⟨e, ?_, h, fun _ hg => iff_of_true hg fun h => absurd h hok⟩
    rw [step, if_neg hok]
    split <;> rfl

theorem step_markDecided (h : Represents e.store b)
    (hfits : BlobKey.Fits ⟨height, round, 0⟩) :
    ∃ e', e.step o (.markDecided height round) = .ok e' ∧
      Represents e'.store (b.promote height round) ∧
      ((EngineOp.markDecided height round).InRange e.store → e.gauges = .counting b →
        (e'.gauges = .counting (b.promote height round) ↔
          (EngineOp.markDecided height round).Plain o e.store)) := by
  have hrep := h.promote hfits
  have hplain := size_promote_iff (o := o) h hfits
  by_cases hzero : (b.promoted height round).length = 0
  · -- nothing is moved, and the gauges are left alone
    have hsame : b.promote height round = b := by
      unfold BlobStore.promote
      rw [List.length_eq_zero_iff.1 hzero]
      rfl
    refine ⟨⟨(e.store.markDecidedWrites height round).foldl RawBlobStore.apply e.store, e.gauges⟩,
      ?_, hrep, fun _ hg => ?_⟩
    · rw [step, h.markDecided_eq hfits, Exit.ok_bind]
      simp only [if_pos hzero, hrep.getDecidedBlobs_eq hfits.height_lt, Exit.ok_bind]
      rfl
    · rw [← hplain, hsame, hzero]
      exact iff_of_true hg rfl
  · refine ⟨⟨(e.store.markDecidedWrites height round).foldl RawBlobStore.apply e.store,
      e.gauges.promoteBlobs ((b.promoted height round).length * bytesPerBlob)
        (b.promoted height round).length⟩, ?_, hrep, fun hrange hg => ?_⟩
    · rw [step, h.markDecided_eq hfits, Exit.ok_bind]
      simp only [if_neg hzero]
      rfl
    · unfold EngineOp.InRange at hrange
      rw [h.length_undecided, h.length_decided] at hrange
      rw [← hplain, hg]
      exact Gauges.promoteBlobs_iff (b.size_undecided_promote height round) hrange

/-- **One operation**: the store follows, and accurate gauges stay accurate exactly if the operation is
plain. -/
theorem step_exact (h : Represents e.store b) {op : EngineOp} (hfits : op.Fits) :
    ∃ e', e.step o op = .ok e' ∧ Represents e'.store (op.after o b) ∧
      (op.InRange e.store → e.gauges = .counting b →
        (e'.gauges = .counting (op.after o b) ↔ op.Plain o e.store)) := by
  cases op with
  | verifyAndStore height round sidecars => exact step_verifyAndStore h hfits
  | markDecided height round => exact step_markDecided h hfits
  | getForImport height =>
    refine ⟨e, ?_, h, fun _ hg => iff_of_true hg trivial⟩
    rw [step, h.getDecidedBlobs_eq hfits]
    rfl
  | dropRound height round =>
    have hfits' : BlobKey.Fits ⟨height, round, 0⟩ := hfits
    refine ⟨⟨_, e.gauges.dropBlobs
      ((b.collectUndecidedEntries height (some round)).length * bytesPerBlob)
      (b.collectUndecidedEntries height (some round)).length⟩, ?_, h.withoutRound hfits',
      fun hrange hg => iff_of_true ?_ trivial⟩
    · rw [step, h.dropRound_eq hfits']
      rfl
    · unfold EngineOp.InRange at hrange
      rw [h.length_undecided, h.length_decided] at hrange
      rw [hg]
      exact Gauges.dropBlobs_eq (b.size_undecided_withoutRound height round)
        (by rw [EngineOp.after, BlobStore.decided_withoutRound]) hrange
  | markArchived height indices =>
    refine ⟨_, rfl, h.deleteArchived hfits.1 hfits.2, fun hrange hg => ?_⟩
    unfold EngineOp.InRange at hrange
    rw [h.length_undecided, h.length_decided] at hrange
    rw [← size_archived_iff h hfits.1 hfits.2, hg]
    refine Gauges.pruneBlobs_iff ?_ ?_ ?_
    · rw [EngineOp.after, BlobStore.undecided_deleteKeys]
    · exact lt_of_le_of_lt (Nat.mul_le_mul_right _ (by omega)) hrange
    · exact lt_of_le_of_lt (Nat.mul_le_mul_right _ (by simp [EngineOp.named])) hrange
  | pruneArchivedBefore height =>
    obtain ⟨hrep, hcount⟩ := h.pruneBefore_eq height
    refine ⟨⟨(e.store.pruneBefore height).1,
      e.gauges.pruneBlobs ((e.store.pruneBefore height).2 * bytesPerBlob)⟩, rfl, hrep,
      fun hrange hg => iff_of_true ?_ trivial⟩
    unfold EngineOp.InRange at hrange
    rw [h.length_undecided, h.length_decided] at hrange
    have hsize := b.size_decided_pruned height
    rw [hcount, hg]
    refine (Gauges.pruneBlobs_iff ?_ ?_ ?_).2 hsize
    · rw [EngineOp.after, BlobStore.undecided_deleteKeys]
    · exact lt_of_le_of_lt (Nat.mul_le_mul_right _ (by omega)) hrange
    · exact lt_of_le_of_lt (Nat.mul_le_mul_right _ (by omega)) hrange
  | getUndecidedBlobs height round =>
    refine ⟨e, ?_, h, fun _ hg => iff_of_true hg trivial⟩
    rw [step, h.getUndecidedBlobs_eq hfits.height_lt hfits.round_ge hfits.round_lt]
    rfl

end BlobEngine

/-! ## A run -/

namespace BlobEngine

variable {o : Oracles} {ops : List EngineOp}

theorem run_append (e : BlobEngine) (ops ops' : List EngineOp) :
    e.run o (ops ++ ops') = e.run o ops >>= fun e' => e'.run o ops' := by
  induction ops generalizing e with
  | nil => rfl
  | cons op ops ih =>
    rw [List.cons_append, run, run]
    cases e.step o op with
    | ok e' => exact ih e'
    | error err => rfl
    | panic => rfl

theorem run_concat (e : BlobEngine) (ops : List EngineOp) (op : EngineOp) :
    e.run o (ops ++ [op]) = e.run o ops >>= fun e' => e'.step o op := by
  rw [run_append]
  cases e.run o ops with
  | ok e' =>
    rw [Exit.ok_bind, Exit.ok_bind, run]
    cases e'.step o op <;> rfl
  | error err => rfl
  | panic => rfl

/-- No operation fails, and the store is one of sidecars. -/
theorem run_represents (hfits : ∀ op ∈ ops, op.Fits) :
    ∃ e b, empty.run o ops = .ok e ∧ Represents e.store b := by
  induction ops using List.reverseRecOn with
  | nil => exact ⟨empty, .empty, rfl, .empty⟩
  | append_singleton ops op ih =>
    obtain ⟨hops, hop⟩ := List.forall_mem_append.1 hfits
    obtain ⟨e, b, hrun, hrep⟩ := ih hops
    obtain ⟨e', hstep, hrep', -⟩ := step_exact (o := o) hrep (hop op (List.mem_singleton.2 rfl))
    refine ⟨e', _, ?_, hrep'⟩
    rw [run_concat, hrun]
    exact hstep

end BlobEngine

/-- **The gauges along a run.** From an empty store, as long as the sizes fit an `i64`, the gauges are
those of the store in every state reached exactly if every operation is plain where it is made. -/
theorem gauges_accurate_iff {o : Oracles} {ops : List EngineOp} (hfits : ∀ op ∈ ops, op.Fits)
    (hrange : ∀ pre op e, pre ++ [op] <+: ops → BlobEngine.empty.run o pre = .ok e →
      op.InRange e.store) :
    (∀ pre, pre <+: ops → ∃ e, BlobEngine.empty.run o pre = .ok e ∧ e.Accurate) ↔
      ∀ pre op e, pre ++ [op] <+: ops → BlobEngine.empty.run o pre = .ok e →
        op.Plain o e.store := by
  constructor
  · intro haccurate pre op e hpre hrun
    have hpre' : pre <+: ops := (List.prefix_append pre [op]).trans hpre
    obtain ⟨e₀, b, hrun₀, hrep⟩ := BlobEngine.run_represents (o := o) fun op hop =>
      hfits op (hpre'.subset hop)
    obtain rfl : e₀ = e := Exit.ok.inj (hrun₀.symm.trans hrun)
    have hop : op.Fits := hfits op (hpre.subset (by simp))
    obtain ⟨e', hstep, hrep', hexact⟩ := BlobEngine.step_exact (o := o) hrep hop
    have hrun' : BlobEngine.empty.run o (pre ++ [op]) = .ok e' := by
      rw [BlobEngine.run_concat, hrun]
      exact hstep
    obtain ⟨e₁, hrun₁, hacc⟩ := haccurate pre hpre'
    obtain rfl : e₁ = e₀ := Exit.ok.inj (hrun₁.symm.trans hrun)
    obtain ⟨e₂, hrun₂, hacc'⟩ := haccurate (pre ++ [op]) hpre
    obtain rfl : e₂ = e' := Exit.ok.inj (hrun₂.symm.trans hrun')
    exact (hexact (hrange pre op e₁ hpre hrun) ((BlobEngine.accurate_iff hrep).1 hacc)).1
      ((BlobEngine.accurate_iff hrep').1 hacc')
  · intro hplain pre hpre
    -- accurate gauges are carried through the run
    suffices H : ∃ e b, BlobEngine.empty.run o pre = .ok e ∧ Represents e.store b ∧
        e.gauges = .counting b by
      obtain ⟨e, b, hrun, hrep, hg⟩ := H
      exact ⟨e, hrun, (BlobEngine.accurate_iff hrep).2 hg⟩
    induction pre using List.reverseRecOn with
    | nil => exact ⟨.empty, .empty, rfl, .empty, by decide⟩
    | append_singleton pre op ih =>
      obtain ⟨e, b, hrun, hrep, hg⟩ := ih ((List.prefix_append pre [op]).trans hpre)
      have hop : op.Fits := hfits op (hpre.subset (by simp))
      obtain ⟨e', hstep, hrep', hexact⟩ := BlobEngine.step_exact (o := o) hrep hop
      refine ⟨e', _, ?_, hrep', (hexact (hrange pre op e hpre hrun) hg).2 (hplain pre op e hpre hrun)⟩
      rw [BlobEngine.run_concat, hrun]
      exact hstep

namespace Sample

/-- A batch of one blob. -/
def storeOne : EngineOp := .verifyAndStore 1 0 [zeroSidecar 0]

theorem storeOne_first {pre : List EngineOp} {op : EngineOp} (h : pre ++ [op] <+: [storeOne]) :
    pre = [] ∧ op = storeOne := by
  have hlen := h.length_le
  simp only [List.length_append, List.length_singleton] at hlen
  obtain rfl : pre = [] := List.length_eq_zero_iff.1 (by omega)
  exact ⟨rfl, List.mem_singleton.1 (h.subset (List.mem_singleton.2 rfl))⟩

end Sample

theorem gauges_accurate_storeOne :
    (∀ op ∈ [Sample.storeOne], op.Fits) ∧
      ∀ pre, pre <+: [Sample.storeOne] →
        ∃ e, BlobEngine.empty.run Sample.oracles pre = .ok e ∧ e.Accurate := by
  have hfits : ∀ op ∈ [Sample.storeOne], op.Fits := by
    simp [Sample.storeOne, Sample.zeroSidecar, EngineOp.Fits, EngineOp.toStore, StoreOp.Fits,
      BlobKey.fits_iff]
  refine ⟨hfits, (gauges_accurate_iff hfits ?_).2 ?_⟩
  · intro pre op e hpre hrun
    obtain ⟨rfl, rfl⟩ := Sample.storeOne_first hpre
    obtain rfl := Exit.ok.inj hrun
    unfold EngineOp.InRange
    decide +kernel
  · intro pre op e hpre hrun
    obtain ⟨rfl, rfl⟩ := Sample.storeOne_first hpre
    obtain rfl := Exit.ok.inj hrun
    refine fun _ => ⟨List.nodup_singleton _, fun x _ hx => ?_⟩
    simp [BlobEngine.empty, RawBlobStore.empty, RawBlobStore.Occupied] at hx

/-- Archiving a height without blobs makes the gauge of decided bytes negative; storing one blob twice
counts it twice. -/
theorem gauges_go_wrong :
    (∃ e, BlobEngine.empty.run Sample.oracles [.markArchived 1 [0]] = .ok e ∧
      e.store.decided.toList = [] ∧ e.gauges.storageBytesDecided = -131072) ∧
    ∃ e, BlobEngine.empty.run Sample.oracles [Sample.storeOne, Sample.storeOne] = .ok e ∧
      e.store.undecided.toList.length = 1 ∧ e.gauges.undecidedBlobCount = 2 := by
  refine ⟨⟨_, rfl, ?_, ?_⟩, ⟨_, rfl, ?_, ?_⟩⟩
  · decide +kernel
  · decide +kernel
  · decide +kernel
  · decide +kernel

end Ultramarine
