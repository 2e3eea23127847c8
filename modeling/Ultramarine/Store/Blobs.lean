import Ultramarine.Types.Proposal

/-!
# The blob store

The two column families of `blob_engine/src/store/rocksdb.rs`. An undecided blob is keyed by
height, round (an `i64`, ordered by its big-endian bytes, so negative rounds come last) and index;
a decided blob by height and index. Each put and each delete is a durable write of its own: the
store has no batch. `BlobStore` carries the one fact every reader relies on, that a blob is stored
under its own index.

Results:

* `mem_getUndecidedBlobs`, `mem_getDecidedBlobs`: a reader returns exactly the blobs of its key;
* `getUndecidedBlobs_eq`, `getDecidedBlobs_eq`: in order of index, and determined by that;
* `holds_putAll`, `clears_withoutRound`, `clears_promote`: what makes a round complete, and what
  empties it or leaves it alone.
-/

namespace Ultramarine

open Lib

/-- The key of an undecided blob. -/
@[ext]
structure BlobKey where
  height : Height
  round : Int
  index : Nat
deriving DecidableEq, Repr

namespace BlobKey

/-- Where the two's complement image of a round sorts: negative rounds after the others. -/
def signRank (k : BlobKey) : Nat := if k.round < 0 then 1 else 0

instance : Ord BlobKey :=
  ⟨compareLex (compareOn height)
    (compareLex (compareOn signRank) (compareLex (compareOn round) (compareOn index)))⟩

instance : Std.TransOrd BlobKey :=
  inferInstanceAs (Std.TransCmp (compareLex (compareOn height)
    (compareLex (compareOn signRank) (compareLex (compareOn round) (compareOn index)))))

theorem compare_eq_lex (a b : BlobKey) :
    compare a b = compareLex (compareOn height) (compareLex (compareOn signRank)
      (compareLex (compareOn round) (compareOn index))) a b := rfl

instance : Std.LawfulEqOrd BlobKey where
  eq_of_compare := fun {a b} h => by
    rw [compare_eq_lex] at h
    simp only [compareLex_eq_eq, compareOn, Std.LawfulEqCmp.compare_eq_iff_eq] at h
    exact BlobKey.ext h.1 h.2.2.1 h.2.2.2

/-- Within one round, keys are ordered by index. -/
theorem compare_same_round (h : Height) (r : Int) (i j : Nat) :
    compare (⟨h, r, i⟩ : BlobKey) ⟨h, r, j⟩ = compare i j := by
  rw [compare_eq_lex]
  simp [compareLex, compareOn, signRank]

end BlobKey

/-- The column families `undecided_blobs` and `decided_blobs`. -/
structure BlobStore where
  undecided : Table BlobKey BlobSidecar
  decided : Table BlobIndexKey BlobSidecar
  undecided_index : ∀ {k : BlobKey} {s : BlobSidecar}, undecided[k]? = some s → s.index = k.index
  decided_index : ∀ {k : BlobIndexKey} {s : BlobSidecar}, decided[k]? = some s → s.index = k.index
deriving DecidableEq

/-- The writes of the blob store. -/
inductive BlobWrite where
  | putUndecided (height : Height) (round : Int) (sidecar : BlobSidecar)
  | deleteUndecided (key : BlobKey)
  | putDecided (height : Height) (sidecar : BlobSidecar)
  | deleteDecided (height : Height) (index : Nat)
deriving DecidableEq

variable {s : BlobSidecar} {l sidecars : List BlobSidecar} {i n : Nat} {b' : BlobStore}
  {commitments : List KzgCommitment}

namespace BlobStore

/-- A store opened for the first time. -/
def empty : BlobStore where
  undecided := ∅
  decided := ∅
  undecided_index := by simp
  decided_index := by simp

/-- `db.put_cf(cf_undecided, ..)` -/
def putUndecided (b : BlobStore) (height : Height) (round : Int) (s : BlobSidecar) : BlobStore :=
  { b with
    undecided := b.undecided.insert ⟨height, round, s.index⟩ s
    undecided_index := by
      intro k s' h
      rw [Std.ExtTreeMap.getElem?_insert] at h
      split at h
      · rename_i hk
        rw [Std.LawfulEqCmp.compare_eq_iff_eq] at hk
        cases h
        rw [← hk]
      · exact b.undecided_index h }

/-- `db.delete_cf(cf_undecided, ..)` -/
def deleteUndecided (b : BlobStore) (key : BlobKey) : BlobStore :=
  { b with
    undecided := b.undecided.erase key
    undecided_index := by
      intro k s h
      rw [Std.ExtTreeMap.getElem?_erase] at h
      split at h
      · cases h
      · exact b.undecided_index h }

/-- `db.put_cf(cf_decided, ..)` -/
def putDecided (b : BlobStore) (height : Height) (s : BlobSidecar) : BlobStore :=
  { b with
    decided := b.decided.insert ⟨height, s.index⟩ s
    decided_index := by
      intro k s' h
      rw [Std.ExtTreeMap.getElem?_insert] at h
      split at h
      · rename_i hk
        rw [Std.LawfulEqCmp.compare_eq_iff_eq] at hk
        cases h
        rw [← hk]
      · exact b.decided_index h }

/-- `db.delete_cf(cf_decided, ..)` -/
def deleteDecided (b : BlobStore) (height : Height) (index : Nat) : BlobStore :=
  { b with
    decided := b.decided.erase ⟨height, index⟩
    decided_index := by
      intro k s h
      rw [Std.ExtTreeMap.getElem?_erase] at h
      split at h
      · cases h
      · exact b.decided_index h }

/-- The effect of a write. -/
def apply (b : BlobStore) : BlobWrite → BlobStore
  | .putUndecided height round s => b.putUndecided height round s
  | .deleteUndecided key => b.deleteUndecided key
  | .putDecided height s => b.putDecided height s
  | .deleteDecided height index => b.deleteDecided height index

/-- `sort_by_key(|b| b.index)` -/
def sortByIndex (blobs : List BlobSidecar) : List BlobSidecar :=
  blobs.insertionSort fun a b => a.index ≤ b.index

/-- The undecided entries of a height, of one round or of all rounds, in key order
(`collect_undecided_entries`). -/
def collectUndecidedEntries (b : BlobStore) (height : Height) (round : Option Int) :
    List (BlobKey × BlobSidecar) :=
  Table.scan (fun k => k.height == height && round.all (k.round == ·)) b.undecided

/-- `get_undecided_blobs` -/
def getUndecidedBlobs (b : BlobStore) (height : Height) (round : Int) : List BlobSidecar :=
  sortByIndex ((b.collectUndecidedEntries height (some round)).map (·.2))

/-- `get_decided_blobs`, which `get_for_import` hands on. -/
def getDecidedBlobs (b : BlobStore) (height : Height) : List BlobSidecar :=
  sortByIndex ((Table.scan (fun k => k.height == height) b.decided).map (·.2))

/-! ## What the readers return -/

variable (b : BlobStore)

theorem mem_sortByIndex :
    s ∈ sortByIndex l ↔ s ∈ l := List.mem_insertionSort _

theorem mem_getUndecidedBlobs {height : Height} {round : Int} :
    s ∈ b.getUndecidedBlobs height round ↔
      b.undecided[BlobKey.mk height round s.index]? = some s := by
  unfold getUndecidedBlobs collectUndecidedEntries
  rw [mem_sortByIndex, List.mem_map]
  constructor
  · rintro ⟨⟨k, s'⟩, hmem, rfl⟩
    obtain ⟨hget, hk⟩ := Table.mem_scan.1 hmem
    simp only [Option.all_some, Bool.and_eq_true, beq_iff_eq] at hk
    have hindex := b.undecided_index hget
    have hkey : k = ⟨height, round, s'.index⟩ := BlobKey.ext hk.1 hk.2 hindex.symm
    rw [← hkey]
    exact hget
  · intro hget
    exact ⟨(_, s), Table.mem_scan.2 ⟨hget, by simp⟩, rfl⟩

theorem mem_getDecidedBlobs {height : Height} :
    s ∈ b.getDecidedBlobs height ↔ b.decided[BlobIndexKey.mk height s.index]? = some s := by
  unfold getDecidedBlobs
  rw [mem_sortByIndex, List.mem_map]
  constructor
  · rintro ⟨⟨k, s'⟩, hmem, rfl⟩
    obtain ⟨hget, hk⟩ := Table.mem_scan.1 hmem
    have hindex := b.decided_index hget
    have hkey : k = ⟨height, s'.index⟩ := BlobIndexKey.ext (by simpa using hk) hindex.symm
    rw [← hkey]
    exact hget
  · intro hget
    exact ⟨(_, s), Table.mem_scan.2 ⟨hget, by simp⟩, rfl⟩

/-- Sidecars in strictly increasing order of index. -/
def IndexSorted (l : List BlobSidecar) : Prop := l.Pairwise fun a b => a.index < b.index

/-- Two strictly sorted lists with the same members are equal. -/
theorem IndexSorted.ext {l' : List BlobSidecar} (h : IndexSorted l) (h' : IndexSorted l')
    (hmem : ∀ s, s ∈ l ↔ s ∈ l') : l = l' := by
  have hnodup : ∀ {l : List BlobSidecar}, IndexSorted l → l.Nodup := fun h =>
    h.imp fun {a b} hab heq => by
      subst heq
      exact absurd hab (lt_irrefl _)
  refine @List.Perm.eq_of_pairwise _ (fun a b : BlobSidecar => a.index < b.index) _ _ ?_ h h' ?_
  · intro a b _ _ hab hba
    omega
  · exact (List.perm_ext_iff_of_nodup (hnodup h) (hnodup h')).2 hmem

/-- Sorting sidecars with distinct indices gives a strictly sorted list. -/
theorem indexSorted_sortByIndex (h : (l.map (·.index)).Nodup) : IndexSorted (sortByIndex l) := by
  have htotal : Std.Total fun a b : BlobSidecar => a.index ≤ b.index :=
    ⟨fun a b => le_total a.index b.index⟩
  have htrans : IsTrans BlobSidecar fun a b => a.index ≤ b.index :=
    ⟨fun _ _ _ => le_trans⟩
  have hle := List.pairwise_insertionSort (fun a b : BlobSidecar => a.index ≤ b.index) l
  have hperm := List.perm_insertionSort (fun a b : BlobSidecar => a.index ≤ b.index) l
  have hnodup : ((sortByIndex l).map (·.index)).Nodup := (hperm.map _).nodup_iff.2 h
  have hne : (sortByIndex l).Pairwise fun a b => a.index ≠ b.index := List.pairwise_map.1 hnodup
  exact (List.pairwise_and_iff.2 ⟨hle, hne⟩).imp fun ⟨h₁, h₂⟩ => lt_of_le_of_ne h₁ h₂

theorem sortByIndex_eq (h : IndexSorted l) : sortByIndex l = l :=
  List.Pairwise.insertionSort_eq (h.imp fun hab => le_of_lt hab)

theorem indexSorted_getUndecidedBlobs (height : Height) (round : Int) :
    IndexSorted (b.getUndecidedBlobs height round) := by
  refine indexSorted_sortByIndex ?_
  rw [List.map_map, List.Nodup, List.pairwise_map]
  refine (Table.scan_sorted _ _).imp_of_mem ?_
  rintro ⟨k, s⟩ ⟨k', s'⟩ hmem hmem' hlt heq
  obtain ⟨hget, hk⟩ := Table.mem_scan.1 hmem
  obtain ⟨hget', hk'⟩ := Table.mem_scan.1 hmem'
  simp only [Option.all_some, Bool.and_eq_true, beq_iff_eq] at hk hk'
  have hi := b.undecided_index hget
  have hi' := b.undecided_index hget'
  simp only [Function.comp_apply] at heq
  have : k = k' := BlobKey.ext (hk.1.trans hk'.1.symm) (hk.2.trans hk'.2.symm)
    (hi.symm.trans (heq.trans hi'))
  subst this
  simp at hlt

theorem indexSorted_getDecidedBlobs (height : Height) : IndexSorted (b.getDecidedBlobs height) := by
  refine indexSorted_sortByIndex ?_
  rw [List.map_map, List.Nodup, List.pairwise_map]
  refine (Table.scan_sorted _ _).imp_of_mem ?_
  rintro ⟨k, s⟩ ⟨k', s'⟩ hmem hmem' hlt heq
  obtain ⟨hget, hk⟩ := Table.mem_scan.1 hmem
  obtain ⟨hget', hk'⟩ := Table.mem_scan.1 hmem'
  simp only [beq_iff_eq] at hk hk'
  have hi := b.decided_index hget
  have hi' := b.decided_index hget'
  simp only [Function.comp_apply] at heq
  have : k = k' := BlobIndexKey.ext (hk.trans hk'.symm) (hi.symm.trans (heq.trans hi'))
  subst this
  simp at hlt

/-- **A reader's answer is determined by the point reads of its key.** -/
theorem getUndecidedBlobs_eq {height : Height} {round : Int} (hsorted : IndexSorted l)
    (hmem : ∀ s, s ∈ l ↔ b.undecided[BlobKey.mk height round s.index]? = some s) :
    b.getUndecidedBlobs height round = l :=
  (b.indexSorted_getUndecidedBlobs height round).ext hsorted fun s => by
    rw [mem_getUndecidedBlobs, hmem]

theorem getDecidedBlobs_eq {height : Height} (hsorted : IndexSorted l)
    (hmem : ∀ s, s ∈ l ↔ b.decided[BlobIndexKey.mk height s.index]? = some s) :
    b.getDecidedBlobs height = l :=
  (b.indexSorted_getDecidedBlobs height).ext hsorted fun s => by
    rw [mem_getDecidedBlobs, hmem]

/-! ## Storing and promoting blobs -/

/-- The blobs after `put_undecided_blobs`. -/
def putAll (b : BlobStore) (height : Height) (round : Int) (sidecars : List BlobSidecar) :
    BlobStore :=
  sidecars.foldl (fun b s => b.putUndecided height round s) b

/-- The blobs `mark_decided` moves: those of the round, or of every round of the height if the
round has none. -/
def promoted (b : BlobStore) (height : Height) (round : Int) :
    List (BlobKey × BlobSidecar) :=
  match b.collectUndecidedEntries height (some round) with
  | [] => b.collectUndecidedEntries height none
  | entries => entries

/-- The blobs after the entries are moved to the decided column family. -/
def move (b : BlobStore) (height : Height) (entries : List (BlobKey × BlobSidecar)) :
    BlobStore :=
  entries.foldl (fun b e => (b.putDecided height e.2).deleteUndecided e.1) b

/-- The blobs after `mark_decided`. -/
def promote (b : BlobStore) (height : Height) (round : Int) : BlobStore :=
  b.move height (b.promoted height round)

variable {b}

/-- A round holds the last blob that was put under an index. -/
theorem undecided_putAll (height : Height) (round : Int) (k : BlobKey) :
    ∀ (sidecars : List BlobSidecar) (b : BlobStore),
      (b.putAll height round sidecars).undecided[k]? =
        ((if k.height = height ∧ k.round = round then
          sidecars.reverse.find? (·.index = k.index) else none) <|> b.undecided[k]?)
  | [], b => by simp [putAll]
  | s :: sidecars, b => by
    have hput : (b.putUndecided height round s).undecided[k]? =
        if BlobKey.mk height round s.index = k then some s else b.undecided[k]? :=
      Table.getElem?_insert_eq _ _ _ _
    have hstep : b.putAll height round (s :: sidecars) =
        (b.putUndecided height round s).putAll height round sidecars := rfl
    rw [hstep, undecided_putAll height round k sidecars, hput, List.reverse_cons,
      List.find?_append]
    by_cases hk : k.height = height ∧ k.round = round
    · obtain ⟨rfl, rfl⟩ := hk
      by_cases hi : s.index = k.index
      · simp [hi]
      · have hne : BlobKey.mk k.height k.round s.index ≠ k := fun h => hi (congrArg BlobKey.index h)
        simp [hi, hne]
    · have hne : BlobKey.mk height round s.index ≠ k := by
        rintro rfl
        exact hk ⟨rfl, rfl⟩
      simp [hk, hne]

theorem decided_putAll (height : Height) (round : Int) :
    ∀ (sidecars : List BlobSidecar) (b : BlobStore),
      (b.putAll height round sidecars).decided = b.decided
  | [], _ => rfl
  | s :: sidecars, b => decided_putAll height round sidecars (b.putUndecided height round s)

/-- What a round keeps of a list of sidecars whose indices are below `n`: the last blob of every
index, in order of index. -/
def kept (n : Nat) (sidecars : List BlobSidecar) : List BlobSidecar :=
  (List.range n).filterMap fun i => sidecars.reverse.find? (·.index = i)

theorem index_of_find? (h : sidecars.reverse.find? (·.index = i) = some s) : s.index = i := by
  simpa using List.find?_some h

theorem indexSorted_kept (n : Nat) (sidecars : List BlobSidecar) :
    IndexSorted (kept n sidecars) := by
  unfold IndexSorted kept
  rw [List.pairwise_filterMap]
  refine List.pairwise_lt_range.imp ?_
  intro i j hij s hs s' hs'
  rw [index_of_find? hs, index_of_find? hs']
  exact hij

theorem mem_kept (hn : ∀ s ∈ sidecars, s.index < n) :
    s ∈ kept n sidecars ↔ sidecars.reverse.find? (·.index = s.index) = some s := by
  unfold kept
  rw [List.mem_filterMap]
  constructor
  · rintro ⟨i, _, hs⟩
    rw [index_of_find? hs]
    exact hs
  · intro hs
    have hmem : s ∈ sidecars := List.mem_reverse.1 (List.mem_of_find?_eq_some hs)
    exact ⟨s.index, List.mem_range.2 (hn s hmem), hs⟩

/-- Among sidecars with different indices, the last one of an index is the only one. -/
theorem find?_of_nodup (hnodup : (sidecars.map (·.index)).Nodup) :
    sidecars.reverse.find? (·.index = s.index) = some s ↔ s ∈ sidecars := by
  refine ⟨fun hs => List.mem_reverse.1 (List.mem_of_find?_eq_some hs), fun hs => ?_⟩
  cases hfind : sidecars.reverse.find? (·.index = s.index) with
  | none =>
    rw [List.find?_eq_none] at hfind
    exact absurd (by simp) (hfind s (List.mem_reverse.2 hs))
  | some s' =>
    have hs' : s' ∈ sidecars := List.mem_reverse.1 (List.mem_of_find?_eq_some hfind)
    have hindex : s'.index = s.index := index_of_find? hfind
    rw [List.inj_on_of_nodup_map hnodup hs' hs hindex]

/-- A list with one sidecar per index is kept as it is. -/
theorem find?_of_indexSorted (h : IndexSorted sidecars) :
    sidecars.reverse.find? (·.index = s.index) = some s ↔ s ∈ sidecars :=
  find?_of_nodup (List.pairwise_map.2 (h.imp fun hlt => Nat.ne_of_lt hlt))

/-- The blobs after `drop_round`. -/
def withoutRound (b : BlobStore) (height : Height) (round : Int) : BlobStore :=
  (b.collectUndecidedEntries height (some round)).foldl (fun b e => b.deleteUndecided e.1) b

theorem undecided_foldl_delete (k : BlobKey) :
    ∀ (entries : List (BlobKey × BlobSidecar)) (b : BlobStore),
      (entries.foldl (fun b e => b.deleteUndecided e.1) b).undecided[k]? =
        if k ∈ entries.map (·.1) then none else b.undecided[k]?
  | [], b => by simp
  | e :: entries, b => by
    have herase : (b.deleteUndecided e.1).undecided[k]? =
        if e.1 = k then none else b.undecided[k]? := Table.getElem?_erase_eq _ _ _
    rw [List.foldl_cons, undecided_foldl_delete k entries, herase, List.map_cons]
    by_cases hk : k ∈ entries.map (·.1)
    · simp [hk]
    · by_cases he : e.1 = k
      · simp [he]
      · simp [hk, he, Ne.symm he]

theorem decided_foldl_delete :
    ∀ (entries : List (BlobKey × BlobSidecar)) (b : BlobStore),
      (entries.foldl (fun b e => b.deleteUndecided e.1) b).decided = b.decided
  | [], _ => rfl
  | e :: entries, b => decided_foldl_delete entries (b.deleteUndecided e.1)

/-- The keys that are collected for a round. -/
theorem mem_keys_collected {b : BlobStore} {height : Height} {round : Int} {k : BlobKey} :
    k ∈ (b.collectUndecidedEntries height (some round)).map (·.1) ↔
      (k.height = height ∧ k.round = round) ∧ (b.undecided[k]?).isSome := by
  unfold collectUndecidedEntries
  rw [List.mem_map]
  constructor
  · rintro ⟨e, he, rfl⟩
    obtain ⟨hget, hk⟩ := Table.mem_scan.1 he
    simp only [Option.all_some, Bool.and_eq_true, beq_iff_eq] at hk
    rw [hget]
    exact ⟨hk, rfl⟩
  · rintro ⟨hk, hsome⟩
    obtain ⟨s, hget⟩ := Option.isSome_iff_exists.1 hsome
    exact ⟨(k, s), Table.mem_scan.2 ⟨hget, by simp [hk.1, hk.2]⟩, rfl⟩

/-- What is collected for a height is stored at the height. -/
theorem height_of_collected {b : BlobStore} {height : Height} {round : Option Int}
    {e : BlobKey × BlobSidecar} (h : e ∈ b.collectUndecidedEntries height round) :
    e.1.height = height := by
  have hk := (Table.mem_scan.1 h).2
  simp only [Bool.and_eq_true, beq_iff_eq] at hk
  exact hk.1

/-- Removing what is collected for a round empties it. -/
theorem ite_mem_collected (b : BlobStore) (height : Height) (round : Int) (k : BlobKey) :
    (if k ∈ (b.collectUndecidedEntries height (some round)).map (·.1) then none
      else b.undecided[k]?) =
      if k.height = height ∧ k.round = round then none else b.undecided[k]? := by
  simp only [mem_keys_collected]
  by_cases hk : k.height = height ∧ k.round = round
  · rw [if_pos hk]
    cases hget : b.undecided[k]? <;> simp [hk]
  · simp [hk]

/-- A round that is dropped holds no blob; the others are as they were. -/
theorem undecided_withoutRound (b : BlobStore) (height : Height) (round : Int) (k : BlobKey) :
    (b.withoutRound height round).undecided[k]? =
      if k.height = height ∧ k.round = round then none else b.undecided[k]? :=
  (undecided_foldl_delete _ _ _).trans (ite_mem_collected b height round k)

theorem decided_withoutRound (b : BlobStore) (height : Height) (round : Int) :
    (b.withoutRound height round).decided = b.decided := decided_foldl_delete _ b

/-- Two blob stores with the same point reads are the same. -/
theorem ext_getElem? {b : BlobStore}
    (hundecided : ∀ k : BlobKey, b.undecided[k]? = b'.undecided[k]?)
    (hdecided : ∀ k : BlobIndexKey, b.decided[k]? = b'.decided[k]?) : b = b' := by
  obtain ⟨u, d, _, _⟩ := b
  obtain ⟨u', d', _, _⟩ := b'
  cases (Table.ext_getElem? hundecided : u = u')
  cases (Table.ext_getElem? hdecided : d = d')
  rfl

/-- Dropping a round undoes what was put there. -/
theorem withoutRound_putAll (b : BlobStore) (height : Height) (round : Int)
    (sidecars : List BlobSidecar) :
    (b.putAll height round sidecars).withoutRound height round = b.withoutRound height round := by
  refine ext_getElem? (fun k => ?_) fun k => ?_
  · rw [undecided_withoutRound, undecided_withoutRound, undecided_putAll]
    split
    · rfl
    · rfl
  · rw [decided_withoutRound, decided_withoutRound, decided_putAll]

/-- No blob is stored under the round. -/
def RoundFree (b : BlobStore) (height : Height) (round : Int) : Prop :=
  ∀ i, b.undecided[BlobKey.mk height round i]? = none

/-- Dropping a round changes nothing exactly if it has no blobs. -/
theorem withoutRound_eq_self {b : BlobStore} {height : Height} {round : Int} :
    b.withoutRound height round = b ↔ b.RoundFree height round := by
  constructor
  · intro h i
    rw [← h, undecided_withoutRound, if_pos ⟨rfl, rfl⟩]
  · intro h
    refine ext_getElem? (fun k => ?_) fun k => by rw [decided_withoutRound]
    rw [undecided_withoutRound]
    split
    · rename_i hk
      obtain ⟨height', round', i⟩ := k
      obtain ⟨rfl, rfl⟩ := hk
      exact (h i).symm
    · rfl

section PutAll

variable {height : Height} {round : Int} {sidecars : List BlobSidecar}

/-- **What a free round holds after a put.** -/
theorem getUndecidedBlobs_putAll (hn : ∀ s ∈ sidecars, s.index < n)
    (hfree : ∀ i, b.undecided[BlobKey.mk height round i]? = none) :
    (b.putAll height round sidecars).getUndecidedBlobs height round = kept n sidecars := by
  refine getUndecidedBlobs_eq _ (indexSorted_kept n sidecars) fun s => ?_
  rw [mem_kept hn, undecided_putAll, hfree]
  simp

theorem getUndecidedBlobs_putAll_of_sorted (hsorted : IndexSorted sidecars)
    (hfree : ∀ i, b.undecided[BlobKey.mk height round i]? = none) :
    (b.putAll height round sidecars).getUndecidedBlobs height round = sidecars := by
  refine getUndecidedBlobs_eq _ hsorted fun s => ?_
  rw [← find?_of_indexSorted hsorted, undecided_putAll, hfree]
  simp

end PutAll

section Promote

variable {height : Height} {round : Int}

/-- The entries of a round are in order of index. -/
theorem map_collectUndecidedEntries (b : BlobStore) (height : Height) (round : Int) :
    (b.collectUndecidedEntries height (some round)).map (·.2) =
      b.getUndecidedBlobs height round := by
  unfold getUndecidedBlobs
  refine (sortByIndex_eq ?_).symm
  refine List.pairwise_map.2 ((Table.scan_sorted _ _).imp_of_mem ?_)
  rintro ⟨k, s⟩ ⟨k', s'⟩ hmem hmem' hlt
  obtain ⟨hget, hk⟩ := Table.mem_scan.1 hmem
  obtain ⟨hget', hk'⟩ := Table.mem_scan.1 hmem'
  simp only [Option.all_some, Bool.and_eq_true, beq_iff_eq] at hk hk'
  have hkey : k = ⟨height, round, s.index⟩ := BlobKey.ext hk.1 hk.2 (b.undecided_index hget).symm
  have hkey' : k' = ⟨height, round, s'.index⟩ :=
    BlobKey.ext hk'.1 hk'.2 (b.undecided_index hget').symm
  subst hkey
  subst hkey'
  exact Nat.compare_eq_lt.1 ((BlobKey.compare_same_round _ _ _ _).symm.trans hlt)

/-- A height holds the last blob that was moved to an index. -/
theorem decided_move (height : Height) (k : BlobIndexKey) :
    ∀ (entries : List (BlobKey × BlobSidecar)) (b : BlobStore),
      (b.move height entries).decided[k]? =
        ((if k.height = height then
          (entries.map (·.2)).reverse.find? (·.index = k.index) else none) <|> b.decided[k]?)
  | [], b => by simp [move]
  | e :: entries, b => by
    have hput : ((b.putDecided height e.2).deleteUndecided e.1).decided[k]? =
        if BlobIndexKey.mk height e.2.index = k then some e.2 else b.decided[k]? :=
      Table.getElem?_insert_eq _ _ _ _
    have hstep : b.move height (e :: entries) =
        ((b.putDecided height e.2).deleteUndecided e.1).move height entries := rfl
    rw [hstep, decided_move height k entries, hput, List.map_cons, List.reverse_cons,
      List.find?_append]
    by_cases hk : k.height = height
    · subst hk
      by_cases hi : e.2.index = k.index
      · simp [hi]
      · have hne : BlobIndexKey.mk k.height e.2.index ≠ k :=
          fun h => hi (congrArg BlobIndexKey.index h)
        simp [hi, hne]
    · have hne : BlobIndexKey.mk height e.2.index ≠ k := by
        rintro rfl
        exact hk rfl
      simp [hk, hne]

theorem undecided_move (height : Height) (k : BlobKey) :
    ∀ (entries : List (BlobKey × BlobSidecar)) (b : BlobStore),
      (b.move height entries).undecided[k]? =
        if k ∈ entries.map (·.1) then none else b.undecided[k]?
  | [], b => by simp [move]
  | e :: entries, b => by
    have herase : ((b.putDecided height e.2).deleteUndecided e.1).undecided[k]? =
        if e.1 = k then none else b.undecided[k]? := Table.getElem?_erase_eq _ _ _
    have hstep : b.move height (e :: entries) =
        ((b.putDecided height e.2).deleteUndecided e.1).move height entries := rfl
    rw [hstep, undecided_move height k entries, herase, List.map_cons]
    by_cases hk : k ∈ entries.map (·.1)
    · simp [hk]
    · by_cases he : e.1 = k
      · simp [he]
      · simp [hk, he, Ne.symm he]

/-- No undecided blob is stored at the height. -/
def NoUndecided (b : BlobStore) (height : Height) : Prop :=
  ∀ (k : BlobKey) (s : BlobSidecar), b.undecided[k]? = some s → k.height ≠ height

theorem NoUndecided.getUndecidedBlobs (h : b.NoUndecided height) (round : Int) :
    b.getUndecidedBlobs height round = [] := by
  refine List.eq_nil_iff_forall_not_mem.2 fun s hs => ?_
  exact h _ s (b.mem_getUndecidedBlobs.1 hs) rfl

/-- Without undecided blobs at the height there is nothing to promote. -/
theorem promote_of_none (h : b.NoUndecided height) : b.promote height round = b := by
  have hnone : ∀ r, b.collectUndecidedEntries height r = [] := by
    intro r
    refine List.eq_nil_iff_forall_not_mem.2 fun e he => ?_
    obtain ⟨hget, hk⟩ := Table.mem_scan.1 he
    simp only [Bool.and_eq_true, beq_iff_eq] at hk
    exact h e.1 e.2 hget hk.1
  have hpromoted : b.promoted height round = [] := by
    unfold promoted
    rw [hnone (some round)]
    exact hnone none
  unfold promote
  rw [hpromoted]
  rfl

/-- The blobs of a round that has some are the ones that are promoted. -/
theorem promoted_of_round (h : b.getUndecidedBlobs height round ≠ []) :
    b.promoted height round = b.collectUndecidedEntries height (some round) := by
  unfold promoted
  split
  · rename_i hnil
    rw [← map_collectUndecidedEntries, hnil] at h
    exact absurd rfl h
  · rfl

/-- A round that is promoted holds no blob; the others are as they were. -/
theorem undecided_promote_of_round (h : b.getUndecidedBlobs height round ≠ []) (k : BlobKey) :
    (b.promote height round).undecided[k]? =
      if k.height = height ∧ k.round = round then none else b.undecided[k]? := by
  unfold promote
  rw [promoted_of_round h, undecided_move]
  exact ite_mem_collected b height round k

theorem decided_promote_of_round (h : b.getUndecidedBlobs height round ≠ []) (i : Nat) :
    (b.promote height round).decided[BlobIndexKey.mk height i]? =
      (b.undecided[BlobKey.mk height round i]? <|> b.decided[BlobIndexKey.mk height i]?) := by
  have hsorted := b.indexSorted_getUndecidedBlobs height round
  have hfind : (b.getUndecidedBlobs height round).reverse.find? (·.index = i) =
      b.undecided[BlobKey.mk height round i]? := by
    refine Option.ext fun s => ⟨fun hs => ?_, fun hs => ?_⟩
    · have hindex := index_of_find? hs
      subst hindex
      exact b.mem_getUndecidedBlobs.1 ((find?_of_indexSorted hsorted).1 hs)
    · have hindex := b.undecided_index hs
      subst hindex
      exact (find?_of_indexSorted hsorted).2 (b.mem_getUndecidedBlobs.2 hs)
  unfold promote
  rw [promoted_of_round h, decided_move, if_pos rfl, map_collectUndecidedEntries, hfind]

/-- **A round with blobs is what the height holds after promotion**, if nothing was decided under
another index. -/
theorem getDecidedBlobs_promote (h : b.getUndecidedBlobs height round ≠ [])
    (hstale : ∀ i, (b.decided[BlobIndexKey.mk height i]?).isSome →
      ∃ s ∈ b.getUndecidedBlobs height round, s.index = i) :
    (b.promote height round).getDecidedBlobs height = b.getUndecidedBlobs height round := by
  refine getDecidedBlobs_eq _ (b.indexSorted_getUndecidedBlobs height round) fun s => ?_
  rw [decided_promote_of_round h, b.mem_getUndecidedBlobs]
  cases hround : b.undecided[BlobKey.mk height round s.index]? with
  | some s' => simp
  | none =>
    -- an older decided blob would have an index that the round has too
    refine ⟨nofun, fun hs => ?_⟩
    obtain ⟨s', hs', hi⟩ := hstale s.index (by simpa using congrArg Option.isSome hs)
    rw [b.mem_getUndecidedBlobs, hi, hround] at hs'
    cases hs'

/-- If the undecided blobs of the height are all of one round and that has none, there are none. -/
theorem noUndecided_of_round (h : ∀ (k : BlobKey) (s : BlobSidecar),
    b.undecided[k]? = some s → k.height = height → k.round = round)
    (hround : b.getUndecidedBlobs height round = []) : b.NoUndecided height := by
  intro k s hk hheight
  have hmem : s ∈ b.getUndecidedBlobs height round := by
    rw [b.mem_getUndecidedBlobs, b.undecided_index hk, ← hheight, ← h k s hk hheight]
    exact hk
  rw [hround] at hmem
  cases hmem

/-- If the undecided blobs of the height are all of one round, promotion leaves none. -/
theorem noUndecided_promote (h : ∀ (k : BlobKey) (s : BlobSidecar),
    b.undecided[k]? = some s → k.height = height → k.round = round) :
    (b.promote height round).NoUndecided height := by
  by_cases hround : b.getUndecidedBlobs height round = []
  · have hnone := noUndecided_of_round h hround
    rw [promote_of_none hnone]
    exact hnone
  · intro k s hk hheight
    rw [undecided_promote_of_round hround] at hk
    split at hk
    · cases hk
    · rename_i hnot
      exact hnot ⟨hheight, h k s hk hheight⟩

/-- If the round has no blob, promotion takes those of every round of the height. -/
theorem noUndecided_promote_of_empty (h : b.getUndecidedBlobs height round = []) :
    (b.promote height round).NoUndecided height := by
  have hcollect : b.collectUndecidedEntries height (some round) = [] := by
    rw [← map_collectUndecidedEntries] at h
    exact List.map_eq_nil_iff.1 h
  have hpromoted : b.promoted height round = b.collectUndecidedEntries height none := by
    unfold promoted
    rw [hcollect]
  intro k s hk hheight
  unfold promote at hk
  rw [hpromoted, undecided_move] at hk
  split at hk
  · cases hk
  · rename_i hnot
    exact hnot (List.mem_map.2 ⟨(k, s), Table.mem_scan.2 ⟨hk, by simp [hheight]⟩, rfl⟩)

/-- Promotion leaves what is decided at other heights. -/
theorem decided_promote_of_ne (b : BlobStore) {k : BlobIndexKey} (h : k.height ≠ height) :
    (b.promote height round).decided[k]? = b.decided[k]? := by
  unfold promote
  rw [decided_move, if_neg h]
  rfl

theorem getDecidedBlobs_ne_nil :
    b.getDecidedBlobs height ≠ [] ↔ ∃ i, (b.decided[BlobIndexKey.mk height i]?).isSome := by
  constructor
  · intro hne
    obtain ⟨s, hs⟩ := List.exists_mem_of_ne_nil _ hne
    exact ⟨s.index, by rw [b.mem_getDecidedBlobs.1 hs]; rfl⟩
  · rintro ⟨i, hi⟩
    obtain ⟨s, hs⟩ := Option.isSome_iff_exists.1 hi
    refine List.ne_nil_of_mem (a := s) (b.mem_getDecidedBlobs.2 ?_)
    rw [b.decided_index hs]
    exact hs

/-- The decided blobs of a height determine what is stored there. -/
theorem decided_of_getDecidedBlobs (h : b.getDecidedBlobs height = b'.getDecidedBlobs height)
    (i : Nat) : b.decided[BlobIndexKey.mk height i]? = b'.decided[BlobIndexKey.mk height i]? := by
  have hmem : ∀ s, b.decided[BlobIndexKey.mk height s.index]? = some s ↔
      b'.decided[BlobIndexKey.mk height s.index]? = some s := fun s => by
    rw [← b.mem_getDecidedBlobs, ← b'.mem_getDecidedBlobs, h]
  refine Option.ext fun s => ⟨fun hs => ?_, fun hs => ?_⟩
  · have hindex : s.index = i := b.decided_index hs
    subst hindex
    exact (hmem s).1 hs
  · have hindex : s.index = i := b'.decided_index hs
    subst hindex
    exact (hmem s).2 hs

end Promote

end BlobStore

/-! ## Rounds as wholes -/

theorem filterMap_getElem?_range {α : Type} (l : List α) :
    (List.range l.length).filterMap (fun i => l[i]?) = l := by
  induction l with
  | nil => rfl
  | cons a l ih =>
    rw [List.length_cons, List.range_succ_eq_map, List.filterMap_cons, List.filterMap_map]
    exact congrArg (a :: ·) ih

/-- One sidecar for every commitment, under its index. -/
structure Fits (sidecars : List BlobSidecar) (commitments : List KzgCommitment) : Prop where
  length_eq : sidecars.length = commitments.length
  nodup : (sidecars.map (·.index)).Nodup
  commitment_eq : ∀ s ∈ sidecars, commitments[s.index]? = some s.kzgCommitment

/-- The indices are those of the commitments. -/
theorem Fits.perm_range (h : Fits sidecars commitments) :
    (sidecars.map (·.index)).Perm (List.range commitments.length) := by
  have hsubset : sidecars.map (·.index) ⊆ List.range commitments.length := by
    intro j hj
    obtain ⟨s, hs, rfl⟩ := List.mem_map.1 hj
    exact List.mem_range.2 (List.getElem?_eq_some_iff.1 (h.commitment_eq s hs)).1
  exact (List.subperm_of_subset h.nodup hsubset).perm_of_length_le
    (by rw [List.length_range, List.length_map, h.length_eq])

/-- No index is left out. -/
theorem Fits.exists_index (h : Fits sidecars commitments) (hi : i < commitments.length) :
    ∃ s ∈ sidecars, s.index = i :=
  List.mem_map.1 (h.perm_range.mem_iff.2 (List.mem_range.2 hi))

namespace BlobStore

variable {b b' : BlobStore} {height : Height} {round : Int} {commitments : List KzgCommitment}
  {sidecars : List BlobSidecar}

/-- The round holds one blob for every commitment, under its index, and nothing else. -/
def Holds (b : BlobStore) (height : Height) (round : Int) (commitments : List KzgCommitment) : Prop :=
  ∀ i, (b.undecided[BlobKey.mk height round i]?).map (·.kzgCommitment) = commitments[i]?

/-- What a reader gets of such a round. -/
theorem Holds.map_getUndecidedBlobs (h : b.Holds height round commitments) :
    (b.getUndecidedBlobs height round).map (·.kzgCommitment) = commitments := by
  have hblobs : b.getUndecidedBlobs height round = (List.range commitments.length).filterMap
      fun i => b.undecided[BlobKey.mk height round i]? := by
    refine getUndecidedBlobs_eq _ ?_ fun s => ?_
    · unfold IndexSorted
      rw [List.pairwise_filterMap]
      refine List.pairwise_lt_range.imp fun hij s hs s' hs' => ?_
      rw [b.undecided_index hs, b.undecided_index hs']
      exact hij
    · rw [List.mem_filterMap]
      constructor
      · rintro ⟨i, _, hs⟩
        rw [b.undecided_index hs]
        exact hs
      · intro hs
        have hi := h s.index
        rw [hs] at hi
        exact ⟨s.index, List.mem_range.2 (List.getElem?_eq_some_iff.1 hi.symm).1, hs⟩
  rw [hblobs, List.map_filterMap]
  simp only [h _]
  exact filterMap_getElem?_range commitments

/-- The round has no blob at index `n` or above. -/
def Below (b : BlobStore) (height : Height) (round : Int) (n : Nat) : Prop :=
  ∀ i, n ≤ i → b.undecided[BlobKey.mk height round i]? = none

/-- Above the indices of a put, a round is as it was. -/
theorem undecided_putAll_above (hfits : Fits sidecars commitments) (hi : commitments.length ≤ i) :
    (b.putAll height round sidecars).undecided[BlobKey.mk height round i]? =
      b.undecided[BlobKey.mk height round i]? := by
  have hfind : sidecars.reverse.find? (·.index = i) = none := by
    refine List.find?_eq_none.2 fun s hs hindex => ?_
    obtain rfl : s.index = i := by simpa using hindex
    have hlt := (List.getElem?_eq_some_iff.1 (hfits.commitment_eq s (List.mem_reverse.1 hs))).1
    omega
  rw [undecided_putAll, if_pos ⟨rfl, rfl⟩, hfind]
  rfl

/-- **A put of fitting sidecars completes a round** that has no blobs above them. -/
theorem holds_putAll_of_below (hfits : Fits sidecars commitments)
    (hb : b.Below height round commitments.length) :
    (b.putAll height round sidecars).Holds height round commitments := by
  intro i
  by_cases hi : i < commitments.length
  · obtain ⟨s, hs, rfl⟩ := hfits.exists_index hi
    rw [undecided_putAll, if_pos ⟨rfl, rfl⟩, (find?_of_nodup hfits.nodup).2 hs,
      hfits.commitment_eq s hs]
    rfl
  · have hle : commitments.length ≤ i := Nat.le_of_not_lt hi
    rw [undecided_putAll_above hfits hle, hb i hle, List.getElem?_eq_none_iff.2 hle]
    rfl

/-- A round that is free or complete is complete after a put of fitting sidecars. -/
theorem holds_putAll (hfits : Fits sidecars commitments)
    (hb : b.RoundFree height round ∨ b.Holds height round commitments) :
    (b.putAll height round sidecars).Holds height round commitments := by
  refine holds_putAll_of_below hfits fun i hi => ?_
  rcases hb with hfree | hholds
  · exact hfree i
  · have hnone := hholds i
    rw [List.getElem?_eq_none_iff.2 hi] at hnone
    exact Option.map_eq_none_iff.1 hnone

/-- A round that has as many blobs as were put had none above them. -/
theorem below_of_length (hfits : Fits sidecars commitments)
    (hlen : ((b.putAll height round sidecars).getUndecidedBlobs height round).length =
      commitments.length) : b.Below height round commitments.length := by
  intro i hi
  by_contra hsome
  obtain ⟨old, hold⟩ := Option.ne_none_iff_exists'.1 hsome
  -- the indices of the commitments and `i` would all be there
  have hsubset : i :: List.range commitments.length ⊆
      ((b.putAll height round sidecars).getUndecidedBlobs height round).map (·.index) := by
    intro j hj
    rcases List.mem_cons.1 hj with rfl | hj
    · refine List.mem_map.2 ⟨old, (mem_getUndecidedBlobs _).2 ?_, b.undecided_index hold⟩
      rw [b.undecided_index hold, undecided_putAll_above hfits hi]
      exact hold
    · obtain ⟨s, hs, rfl⟩ := hfits.exists_index (List.mem_range.1 hj)
      refine List.mem_map.2 ⟨s, (mem_getUndecidedBlobs _).2 ?_, rfl⟩
      rw [undecided_putAll, if_pos ⟨rfl, rfl⟩, (find?_of_nodup hfits.nodup).2 hs]
      rfl
  have hnodup : (i :: List.range commitments.length).Nodup := by
    refine List.nodup_cons.2 ⟨fun hmem => ?_, List.nodup_range⟩
    have hlt := List.mem_range.1 hmem
    omega
  have hle := hnodup.length_le_of_subset hsubset
  rw [List.length_cons, List.length_range, List.length_map, hlen] at hle
  omega

/-- Rounds are emptied or left alone. -/
def Clears (b b' : BlobStore) : Prop :=
  ∀ height round, b'.RoundFree height round ∨
    ∀ i, b'.undecided[BlobKey.mk height round i]? = b.undecided[BlobKey.mk height round i]?

theorem clears_withoutRound (b : BlobStore) (height : Height) (round : Int) :
    b.Clears (b.withoutRound height round) := by
  intro h r
  by_cases hk : h = height ∧ r = round
  · exact .inl fun i => by rw [undecided_withoutRound, if_pos hk]
  · exact .inr fun i => by rw [undecided_withoutRound, if_neg hk]

theorem clears_promote (b : BlobStore) (height : Height) (round : Int) :
    b.Clears (b.promote height round) := by
  by_cases hround : b.getUndecidedBlobs height round = []
  · -- every round of the height is moved
    have hpromoted : b.promoted height round = b.collectUndecidedEntries height none := by
      unfold promoted
      rw [← map_collectUndecidedEntries, List.map_eq_nil_iff] at hround
      rw [hround]
    intro h r
    unfold promote
    rw [hpromoted]
    by_cases hk : h = height
    · refine .inl fun i => ?_
      rw [undecided_move]
      split
      · rfl
      · rename_i hmem
        refine Option.eq_none_iff_forall_ne_some.2 fun s hs => hmem ?_
        refine List.mem_map.2 ⟨(_, s), Table.mem_scan.2 ⟨hs, ?_⟩, rfl⟩
        simp [hk]
    · refine .inr fun i => ?_
      rw [undecided_move, if_neg]
      intro hmem
      obtain ⟨e, he, hek⟩ := List.mem_map.1 hmem
      exact hk ((congrArg BlobKey.height hek).symm.trans (height_of_collected he))
  · intro h r
    by_cases hk : h = height ∧ r = round
    · exact .inl fun i => by rw [undecided_promote_of_round hround, if_pos hk]
    · exact .inr fun i => by rw [undecided_promote_of_round hround, if_neg hk]

end BlobStore

end Ultramarine
