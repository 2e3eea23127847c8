import Mathlib.Data.BitVec
import Ultramarine.Safety.InclusionProofs

/-!
# The roots of lists and SSZ

`ExecutionPayloadHeader::from_payload` calls its roots SSZ roots. SSZ pads the leaves of a list to the
limit of its type before it hashes them, so that every list of one type has a tree of one depth;
`tree_hash_transactions_ssz` and `tree_hash_withdrawals_ssz` open a merkleizer for as many leaves as the
list has. `hashTreeRootTransactions` and `hashTreeRootWithdrawals` are the roots of the specification.

The two trees differ in how far their first chunk is from the root (`Merkle.LeftSpine`). What is assumed
of the hash is that no two of the pairs hashed collide and that no chunk is hashed back to itself.

Result: `ssz_roots_iff`: the roots are SSZ roots exactly for lists so long that their own depth is that of
the limit, more than 2¹⁹ transactions of more than 2²⁹ bytes each and more than 8 withdrawals.
-/

namespace Ultramarine

open Lib Ssz

/-! ## The specification -/

section Spec

variable (o : Oracles)

/-- `hash_tree_root` of a list: the leaves merkleized to the limit, the length mixed in. -/
def hashTreeRootList (limit : Nat) (leaves : List B256) (length : Nat) : B256 :=
  mixInLength o (Merkle.root o.hash32Concat 0 (Merkle.depthFor limit) leaves) length

/-- `hash_tree_root` of `ByteList[2^30]`: a limit of `2^25` chunks. -/
def hashTreeRootByteList (bytes : Bytes) : B256 :=
  hashTreeRootList o (2 ^ 25) (byteLeaves bytes) bytes.length

/-- `hash_tree_root` of `List[ByteList[2^30], 2^20]`. -/
def hashTreeRootTransactions (transactions : List Bytes) : B256 :=
  hashTreeRootList o (2 ^ 20) (transactions.map (hashTreeRootByteList o)) transactions.length

/-- `hash_tree_root` of the container `Withdrawal`. -/
def hashTreeRootWithdrawal (w : Withdrawal) : B256 :=
  Merkle.root o.hash32Concat 0 2 (withdrawalLeaves w)

/-- `hash_tree_root` of `List[Withdrawal, 16]`. -/
def hashTreeRootWithdrawals (withdrawals : List Withdrawal) : B256 :=
  hashTreeRootList o 16 (withdrawals.map (hashTreeRootWithdrawal o)) withdrawals.length

/-- The pairs hashed for the root of a list. -/
def hashTreeRootListPairs (limit : Nat) (leaves : List B256) (length : Nat) : List (B256 × B256) :=
  (Merkle.root o.hash32Concat 0 (Merkle.depthFor limit) leaves, u64ToBytes32 length) ::
    Merkle.pairs o.hash32Concat 0 (Merkle.depthFor limit) leaves

/-- The pairs hashed for the two roots of a list of transactions. -/
def bothTransactionsPairs (transactions : List Bytes) : List (B256 × B256) :=
  transactionsPairs o transactions ++
    (hashTreeRootListPairs o (2 ^ 20) (transactions.map (hashTreeRootByteList o))
        transactions.length ++
      transactions.flatMap fun tx => hashTreeRootListPairs o (2 ^ 25) (byteLeaves tx) tx.length)

/-- The pairs hashed for the two roots of a list of withdrawals. -/
def bothWithdrawalsPairs (withdrawals : List Withdrawal) : List (B256 × B256) :=
  withdrawalsPairs o withdrawals ++
    hashTreeRootListPairs o 16 (withdrawals.map (hashTreeRootWithdrawal o)) withdrawals.length

end Spec

/-! ## Distances from the root -/

section Distance

variable {o : Oracles} {ps : List (B256 × B256)}

/-- One step more for the length. -/
theorem leftSpine_mixIn {x root : B256} {k length : Nat}
    (h : Merkle.LeftSpine o.hash32Concat ps k x root) (hp : (root, u64ToBytes32 length) ∈ ps) :
    Merkle.LeftSpine o.hash32Concat ps (k + 1) x (mixInLength o root length) :=
  ⟨root, _, hp, rfl, h⟩

theorem leftSpine_listRoot {leaves : List B256} {length : Nat}
    (hsub : ∀ p ∈ listPairs o leaves length, p ∈ ps) :
    Merkle.LeftSpine o.hash32Concat ps (Merkle.depthFor leaves.length + 1) (leaves.headD 0)
      (listRoot o leaves length) := by
  refine leftSpine_mixIn (Merkle.LeftSpine.of_root fun p hp => ?_) (hsub _ List.mem_cons_self)
  exact hsub p (List.mem_cons_of_mem _ hp)

theorem leftSpine_hashTreeRootList {limit : Nat} {leaves : List B256} {length : Nat}
    (hsub : ∀ p ∈ hashTreeRootListPairs o limit leaves length, p ∈ ps) :
    Merkle.LeftSpine o.hash32Concat ps (Merkle.depthFor limit + 1) (leaves.headD 0)
      (hashTreeRootList o limit leaves length) := by
  refine leftSpine_mixIn (Merkle.LeftSpine.of_root fun p hp => ?_) (hsub _ List.mem_cons_self)
  exact hsub p (List.mem_cons_of_mem _ hp)

theorem depthFor_chunks : Merkle.depthFor (2 ^ 25) = 25 := by decide

theorem depthFor_transactions : Merkle.depthFor (2 ^ 20) = 20 := by decide

/-- The root of a list is that of the specification if the list has the depth of the limit. -/
theorem listRoot_eq_hashTreeRootList {limit : Nat} {leaves : List B256} {length : Nat}
    (h : Merkle.depthFor leaves.length = Merkle.depthFor limit) :
    listRoot o leaves length = hashTreeRootList o limit leaves length := by
  unfold listRoot merkleHasher hashTreeRootList
  rw [h]

end Distance

/-! ## Withdrawals -/

section Withdrawals

variable {o : Oracles} {withdrawals : List Withdrawal}

theorem withdrawals_root_iff (hlimit : withdrawals.length ≤ 16)
    (hfree : Merkle.CollisionFree o.hash32Concat (bothWithdrawalsPairs o withdrawals))
    (hacyclic : Merkle.Acyclic o.hash32Concat (bothWithdrawalsPairs o withdrawals)) :
    treeHashWithdrawalsSsz o withdrawals = hashTreeRootWithdrawals o withdrawals ↔
      8 < withdrawals.length := by
  have hleaves : withdrawals.map (hashTreeRootWithdrawal o) =
      withdrawals.map (treeHashWithdrawalSsz o) := rfl
  have hdepth : Merkle.depthFor (withdrawals.map (treeHashWithdrawalSsz o)).length = 3 + 1 ↔
      8 < withdrawals.length := by
    rw [Merkle.depthFor_eq_iff, List.length_map]
    omega
  rw [treeHashWithdrawalsSsz_eq, hashTreeRootWithdrawals, hleaves, ← hdepth]
  constructor
  · intro h
    have hcode := @leftSpine_listRoot o (bothWithdrawalsPairs o withdrawals)
      (withdrawals.map (treeHashWithdrawalSsz o)) withdrawals.length
      fun p hp => List.mem_append_left _ (List.mem_append_left _ hp)
    have hspec := @leftSpine_hashTreeRootList o (bothWithdrawalsPairs o withdrawals) 16
      (withdrawals.map (treeHashWithdrawalSsz o)) withdrawals.length
      fun p hp => List.mem_append_right _ hp
    rw [h] at hcode
    have hlength := hcode.length_eq hfree hacyclic hspec
    rw [depthFor_sixteen] at hlength
    omega
  · intro h
    exact listRoot_eq_hashTreeRootList (h.trans depthFor_sixteen.symm)

end Withdrawals

/-! ## Transactions -/

section Transactions

variable {o : Oracles} {transactions : List Bytes}

/-- A transaction so long that its chunks need the depth of the limit. -/
theorem depthFor_byteLeaves {tx : Bytes} (hlimit : tx.length ≤ 2 ^ 30) :
    Merkle.depthFor (byteLeaves tx).length = 24 + 1 ↔ 2 ^ 29 < tx.length := by
  rw [Merkle.depthFor_eq_iff, length_byteLeaves]
  omega

theorem depthFor_byteLeaves_le {tx : Bytes} (hlimit : tx.length ≤ 2 ^ 30) :
    Merkle.depthFor (byteLeaves tx).length ≤ 25 := by
  rw [Merkle.depthFor_le_iff, length_byteLeaves]
  omega

/-- The first chunk of a transaction, from its two roots. -/
theorem leftSpine_transaction {tx : Bytes} (htx : tx ∈ transactions) :
    Merkle.LeftSpine o.hash32Concat (bothTransactionsPairs o transactions)
        (Merkle.depthFor (byteLeaves tx).length + 1) ((byteLeaves tx).headD 0)
        (treeHashVariableBytesSsz o tx) ∧
      Merkle.LeftSpine o.hash32Concat (bothTransactionsPairs o transactions) (25 + 1)
        ((byteLeaves tx).headD 0) (hashTreeRootByteList o tx) := by
  constructor
  · rw [treeHashVariableBytesSsz_eq]
    refine leftSpine_listRoot fun p hp => ?_
    exact List.mem_append_left _ (List.mem_append_right _ (List.mem_flatMap.2 ⟨tx, htx, hp⟩))
  · have hspec := @leftSpine_hashTreeRootList o (bothTransactionsPairs o transactions) (2 ^ 25)
      (byteLeaves tx) tx.length fun p hp => List.mem_append_right _
        (List.mem_append_right _ (List.mem_flatMap.2 ⟨tx, htx, hp⟩))
    rwa [depthFor_chunks] at hspec

/-- A transaction has the root of the specification exactly if it is so long. -/
theorem transaction_root_iff {tx : Bytes} (htx : tx ∈ transactions) (hlimit : tx.length ≤ 2 ^ 30)
    (hfree : Merkle.CollisionFree o.hash32Concat (bothTransactionsPairs o transactions))
    (hacyclic : Merkle.Acyclic o.hash32Concat (bothTransactionsPairs o transactions)) :
    treeHashVariableBytesSsz o tx = hashTreeRootByteList o tx ↔ 2 ^ 29 < tx.length := by
  rw [← depthFor_byteLeaves hlimit]
  constructor
  · intro h
    obtain ⟨hcode, hspec⟩ := @leftSpine_transaction o transactions tx htx
    rw [h] at hcode
    have hlength := hcode.length_eq hfree hacyclic hspec
    omega
  · intro h
    rw [treeHashVariableBytesSsz_eq]
    exact listRoot_eq_hashTreeRootList (h.trans depthFor_chunks.symm)

/-- The distance of the first chunk of a list of transactions from the root: the tree of the list, the
tree of the transaction and the two lengths. -/
theorem depths_of_root_eq (hlimit : transactions.length ≤ 2 ^ 20)
    (hlimits : ∀ tx ∈ transactions, tx.length ≤ 2 ^ 30)
    (hfree : Merkle.CollisionFree o.hash32Concat (bothTransactionsPairs o transactions))
    (hacyclic : Merkle.Acyclic o.hash32Concat (bothTransactionsPairs o transactions))
    (h : treeHashTransactionsSsz o transactions = hashTreeRootTransactions o transactions) :
    Merkle.depthFor transactions.length = 20 := by
  have hcode := @leftSpine_listRoot o (bothTransactionsPairs o transactions)
    (transactions.map (treeHashVariableBytesSsz o)) transactions.length
    fun p hp => List.mem_append_left _ (List.mem_append_left _ hp)
  have hspec := @leftSpine_hashTreeRootList o (bothTransactionsPairs o transactions) (2 ^ 20)
    (transactions.map (hashTreeRootByteList o)) transactions.length
    fun p hp => List.mem_append_right _ (List.mem_append_left _ hp)
  rw [← treeHashTransactionsSsz_eq, h, List.length_map] at hcode
  rw [depthFor_transactions] at hspec
  have hle : Merkle.depthFor transactions.length ≤ 20 := Merkle.depthFor_le_iff.2 hlimit
  cases hcases : transactions with
  | nil =>
    -- the zero chunk stands for the first leaf on both sides
    subst hcases
    have hlength := hcode.length_eq hfree hacyclic hspec
    exact Nat.succ.inj hlength
  | cons tx rest =>
    have htx : tx ∈ transactions := by rw [hcases]; exact List.mem_cons_self
    obtain ⟨htxCode, htxSpec⟩ := @leftSpine_transaction o transactions tx htx
    have hhead : (transactions.map (treeHashVariableBytesSsz o)).headD 0 =
        treeHashVariableBytesSsz o tx := by rw [hcases]; rfl
    have hhead' : (transactions.map (hashTreeRootByteList o)).headD 0 =
        hashTreeRootByteList o tx := by rw [hcases]; rfl
    rw [hhead] at hcode
    rw [hhead'] at hspec
    have hlength := (htxCode.trans hcode).length_eq hfree hacyclic (htxSpec.trans hspec)
    have hle' := depthFor_byteLeaves_le (hlimits tx htx)
    rw [← hcases]
    omega

theorem transactions_root_iff (hlimit : transactions.length ≤ 2 ^ 20)
    (hlimits : ∀ tx ∈ transactions, tx.length ≤ 2 ^ 30)
    (hfree : Merkle.CollisionFree o.hash32Concat (bothTransactionsPairs o transactions))
    (hacyclic : Merkle.Acyclic o.hash32Concat (bothTransactionsPairs o transactions)) :
    treeHashTransactionsSsz o transactions = hashTreeRootTransactions o transactions ↔
      2 ^ 19 < transactions.length ∧ ∀ tx ∈ transactions, 2 ^ 29 < tx.length := by
  have hdepth : Merkle.depthFor transactions.length = 19 + 1 ↔ 2 ^ 19 < transactions.length := by
    rw [Merkle.depthFor_eq_iff]
    omega
  constructor
  · intro h
    have hown := depths_of_root_eq hlimit hlimits hfree hacyclic h
    refine ⟨hdepth.1 hown, fun tx htx => ?_⟩
    -- trees of one depth: the roots of the transactions agree one by one
    rw [treeHashTransactionsSsz_eq, listRoot, List.length_map, merkleHasher, hown,
      hashTreeRootTransactions, hashTreeRootList, depthFor_transactions] at h
    have hpairs : ∀ p, p ∈ (Merkle.root o.hash32Concat 0 20
          (transactions.map (treeHashVariableBytesSsz o)), u64ToBytes32 transactions.length) ::
          Merkle.pairs o.hash32Concat 0 20 (transactions.map (treeHashVariableBytesSsz o)) →
        p ∈ bothTransactionsPairs o transactions := by
      intro p hp
      refine List.mem_append_left _ (List.mem_append_left _ ?_)
      unfold listPairs hasherPairs merkleHasher
      rwa [List.length_map, hown]
    have hpairs' : ∀ p, p ∈ (Merkle.root o.hash32Concat 0 20
          (transactions.map (hashTreeRootByteList o)), u64ToBytes32 transactions.length) ::
          Merkle.pairs o.hash32Concat 0 20 (transactions.map (hashTreeRootByteList o)) →
        p ∈ bothTransactionsPairs o transactions := by
      intro p hp
      refine List.mem_append_right _ (List.mem_append_left _ ?_)
      unfold hashTreeRootListPairs
      rwa [depthFor_transactions]
    obtain ⟨hroot, _⟩ := hfree.halves (hpairs _ List.mem_cons_self) (hpairs' _ List.mem_cons_self) h
    have hleaves := Merkle.eq_of_root_eq (by simp) (by simpa using hlimit)
      (hfree.mono fun p hp => ?_) hroot
    · exact (transaction_root_iff htx (hlimits tx htx) hfree hacyclic).1
        (List.map_inj_left.1 hleaves tx htx)
    · rcases List.mem_append.1 hp with hp | hp
      · exact hpairs p (List.mem_cons_of_mem _ hp)
      · exact hpairs' p (List.mem_cons_of_mem _ hp)
  · rintro ⟨hlong, htxs⟩
    have hleaves : transactions.map (treeHashVariableBytesSsz o) =
        transactions.map (hashTreeRootByteList o) := by
      refine List.map_congr_left fun tx htx => ?_
      exact (transaction_root_iff htx (hlimits tx htx) hfree hacyclic).2 (htxs tx htx)
    rw [treeHashTransactionsSsz_eq, hleaves, hashTreeRootTransactions]
    refine listRoot_eq_hashTreeRootList ?_
    rw [List.length_map, depthFor_transactions]
    exact hdepth.2 hlong

end Transactions

/-- **The roots of `from_payload` and SSZ.** Within the limits of the specification, the root of the
transactions is the SSZ root exactly if there are more than 2¹⁹ of them, each of more than 2²⁹ bytes, and
the root of the withdrawals exactly if there are more than 8. -/
theorem ssz_roots_iff {o : Oracles} {p : ExecutionPayloadV3} {requestsHash : Option B256}
    (hlimit : p.transactions.length ≤ 2 ^ 20) (hlimits : ∀ tx ∈ p.transactions, tx.length ≤ 2 ^ 30)
    (hwithdrawals : p.withdrawals.length ≤ 16)
    (hfree : Merkle.CollisionFree o.hash32Concat
      (bothTransactionsPairs o p.transactions ++ bothWithdrawalsPairs o p.withdrawals))
    (hacyclic : Merkle.Acyclic o.hash32Concat
      (bothTransactionsPairs o p.transactions ++ bothWithdrawalsPairs o p.withdrawals)) :
    ((fromPayload o p requestsHash).transactionsRoot = hashTreeRootTransactions o p.transactions ↔
      2 ^ 19 < p.transactions.length ∧ ∀ tx ∈ p.transactions, 2 ^ 29 < tx.length) ∧
    ((fromPayload o p requestsHash).withdrawalsRoot = hashTreeRootWithdrawals o p.withdrawals ↔
      8 < p.withdrawals.length) := by
  constructor
  · exact transactions_root_iff hlimit hlimits (hfree.mono fun _ => List.mem_append_left _)
      (hacyclic.mono fun _ => List.mem_append_left _)
  · exact withdrawals_root_iff hwithdrawals (hfree.mono fun _ => List.mem_append_right _)
      (hacyclic.mono fun _ => List.mem_append_right _)

namespace Sample

/-- The primitives with a two-to-one hash that grows. -/
def growing : Oracles := { oracles with hash32Concat := fun a b => a + b + 1 }

/-- The pairs hashed for a block without transactions and withdrawals. -/
def emptyPairs : List (B256 × B256) :=
  (0, 0) :: (Merkle.zeroRoot growing.hash32Concat 0 20, 0) ::
    (Merkle.zeroRoot growing.hash32Concat 0 4, 0) :: (List.range 20).map fun k =>
      (Merkle.zeroRoot growing.hash32Concat 0 k, Merkle.zeroRoot growing.hash32Concat 0 k)

theorem mem_listPairs_nil {p : B256 × B256} (h : p ∈ listPairs growing [] 0) : p = (0, 0) := by
  have hzero : u64ToBytes32 0 = 0 := by decide
  rcases List.mem_cons.1 h with rfl | h
  · rw [hzero]
    rfl
  · cases h

/-- The zeros of the two limits. -/
theorem mem_limitPairs_nil {p : B256 × B256} {limit : Nat}
    (h : p ∈ hashTreeRootListPairs growing limit [] 0) :
    p = (Merkle.zeroRoot growing.hash32Concat 0 (Merkle.depthFor limit), 0) ∨
      ∃ k < Merkle.depthFor limit, p =
        (Merkle.zeroRoot growing.hash32Concat 0 k, Merkle.zeroRoot growing.hash32Concat 0 k) := by
  have hzero : u64ToBytes32 0 = 0 := by decide
  rcases List.mem_cons.1 h with rfl | h
  · rw [hzero, Merkle.root_nil]
    exact .inl rfl
  · exact .inr (Merkle.mem_pairs_nil h)

theorem mem_emptyPairs {p : B256 × B256} (h : p ∈ bothTransactionsPairs growing [] ++
    bothWithdrawalsPairs growing []) : p ∈ emptyPairs := by
  have hlevel : ∀ k < 20, (Merkle.zeroRoot growing.hash32Concat 0 k,
      Merkle.zeroRoot growing.hash32Concat 0 k) ∈ emptyPairs := by
    intro k hk
    refine List.mem_cons_of_mem _ (List.mem_cons_of_mem _ (List.mem_cons_of_mem _ ?_))
    exact List.mem_map.2 ⟨k, List.mem_range.2 hk, rfl⟩
  simp only [bothTransactionsPairs, bothWithdrawalsPairs, transactionsPairs, withdrawalsPairs,
    List.map_nil, List.flatMap_nil, List.append_nil, List.length_nil, List.mem_append] at h
  rcases h with (h | h) | (h | h)
  · rw [mem_listPairs_nil h]
    exact List.mem_cons_self
  · rcases mem_limitPairs_nil h with rfl | ⟨k, hk, rfl⟩
    · rw [depthFor_transactions]
      exact List.mem_cons_of_mem _ List.mem_cons_self
    · rw [depthFor_transactions] at hk
      exact hlevel k hk
  · rw [mem_listPairs_nil h]
    exact List.mem_cons_self
  · rcases mem_limitPairs_nil h with rfl | ⟨k, hk, rfl⟩
    · rw [depthFor_sixteen]
      exact List.mem_cons_of_mem _ (List.mem_cons_of_mem _ List.mem_cons_self)
    · rw [depthFor_sixteen] at hk
      exact hlevel k (by omega)

theorem ideal_emptyPairs : Merkle.CollisionFree growing.hash32Concat emptyPairs ∧
    Merkle.Acyclic growing.hash32Concat emptyPairs :=
  ⟨.of_pairwise (by decide +kernel), .of_all BitVec.toNat (by decide +kernel)⟩

end Sample

open Sample in
/-- A block without transactions and withdrawals has neither SSZ root. -/
theorem ssz_roots_iff_empty :
    (fromPayload growing (payload 1 0 1 0) none).transactionsRoot ≠ hashTreeRootTransactions growing [] ∧
    (fromPayload growing (payload 1 0 1 0) none).withdrawalsRoot ≠
      hashTreeRootWithdrawals growing [] := by
  have hiff := @ssz_roots_iff growing (payload 1 0 1 0) none (by decide) (by decide) (by decide)
    (ideal_emptyPairs.1.mono fun _ => mem_emptyPairs)
    (ideal_emptyPairs.2.mono fun _ => mem_emptyPairs)
  exact ⟨fun h => absurd (hiff.1.1 h).1 (by decide), fun h => absurd (hiff.2.1 h) (by decide)⟩

open Sample in
/-- The roots of a block without transactions and withdrawals, and those of the specification. -/
theorem ssz_roots_differ :
    (fromPayload growing (payload 1 0 1 0) none).transactionsRoot = 1 ∧
    hashTreeRootTransactions growing [] = 2 ^ 20 ∧
    (fromPayload growing (payload 1 0 1 0) none).withdrawalsRoot = 1 ∧
    hashTreeRootWithdrawals growing [] = 2 ^ 4 := by
  refine ⟨by decide +kernel, ?_, by decide +kernel, ?_⟩
  · unfold hashTreeRootTransactions hashTreeRootList mixInLength
    rw [List.map_nil, Merkle.root_nil, depthFor_transactions]
    decide +kernel
  · unfold hashTreeRootWithdrawals hashTreeRootList mixInLength
    rw [List.map_nil, Merkle.root_nil, depthFor_sixteen]
    decide +kernel

end Ultramarine
