import Ultramarine.Ssz.TreeHash

/-!
# What the tree hashes bind

Binding of the roots of `ethereum_compat/beacon_block_body.rs`: two inputs with one root are the same
input, as far as no two of the pairs hashed for the two roots collide. Each root comes with the list of
those pairs (`…Pairs`).

A list is bound by its length, which is mixed in beside the root of its leaves: two lists with one root
have one length, so their trees have one shape. A byte string is bound through its chunks, which are
padded, and its length. The execution payload root is different: seventeen leaves are written to a
merkleizer opened for sixteen, and the last one does not enter the root.

Results:

* `transactions_inj`, `withdrawals_inj`: the roots of lists bind the lists;
* `header_root_eq_iff`: the execution payload root binds sixteen fields and not `excess_blob_gas`.
-/

namespace Ultramarine.Ssz

open Lib

/-! ## The pairs hashed -/

section Pairs

variable (o : Oracles)

/-- The pairs a merkleizer hashes. -/
def hasherPairs (n : Nat) (leaves : List B256) : List (B256 × B256) :=
  Merkle.pairs o.hash32Concat 0 (Merkle.depthFor n) leaves

/-- The chunks of a byte string. -/
def byteLeaves (bytes : Bytes) : List B256 := (chunks 32 bytes).map toChunk

/-- The root of a list of leaves, with a length mixed in. -/
def listRoot (leaves : List B256) (length : Nat) : B256 :=
  mixInLength o (merkleHasher o leaves.length leaves) length

/-- The pairs hashed for such a root. -/
def listPairs (leaves : List B256) (length : Nat) : List (B256 × B256) :=
  (merkleHasher o leaves.length leaves, u64ToBytes32 length) :: hasherPairs o leaves.length leaves

/-- The pairs of `tree_hash_fixed_vector`. -/
def fixedVectorPairs (bytes : Bytes) : List (B256 × B256) :=
  hasherPairs o (byteLeaves bytes).length (byteLeaves bytes)

/-- The pairs of `tree_hash_variable_bytes_ssz`. -/
def variableBytesPairs (data : Bytes) : List (B256 × B256) :=
  listPairs o (byteLeaves data) data.length

/-- The pairs of `tree_hash_transactions_ssz`. -/
def transactionsPairs (transactions : List Bytes) : List (B256 × B256) :=
  listPairs o (transactions.map (treeHashVariableBytesSsz o)) transactions.length ++
    transactions.flatMap (variableBytesPairs o)

/-- The leaves of a withdrawal. -/
def withdrawalLeaves (w : Withdrawal) : List B256 :=
  [u64ToBytes32 w.index, u64ToBytes32 w.validatorIndex, toChunk (bitVecBytes w.address.bytes),
    u64ToBytes32 w.amount]

/-- The pairs of `tree_hash_withdrawals_ssz`. -/
def withdrawalsPairs (withdrawals : List Withdrawal) : List (B256 × B256) :=
  listPairs o (withdrawals.map (treeHashWithdrawalSsz o)) withdrawals.length ++
    withdrawals.flatMap fun w => hasherPairs o 4 (withdrawalLeaves w)

/-- The leaves of the execution payload root. -/
def executionPayloadLeaves (h : ExecutionPayloadHeader) : List B256 :=
  [h.parentHash, toChunk (bitVecBytes h.feeRecipient.bytes), h.stateRoot, h.receiptsRoot,
    treeHashFixedVector o (bitVecBytes h.logsBloom), h.prevRandao, u64ToBytes32 h.blockNumber,
    u64ToBytes32 h.gasLimit, u64ToBytes32 h.gasUsed, u64ToBytes32 h.timestamp,
    treeHashVariableBytesSsz o h.extraData, toChunk (leBytes 32 h.baseFeePerGas.toNat), h.blockHash,
    h.transactionsRoot, h.withdrawalsRoot, u64ToBytes32 h.blobGasUsed, u64ToBytes32 h.excessBlobGas]

/-- The pairs of `compute_execution_payload_header_root`. -/
def headerPairs (h : ExecutionPayloadHeader) : List (B256 × B256) :=
  Merkle.pairs o.hash32Concat 0 4 (executionPayloadLeaves o h) ++
    (fixedVectorPairs o (bitVecBytes h.logsBloom) ++ variableBytesPairs o h.extraData)

end Pairs

variable {a b : Bytes} {α : Type} {l l' : List B256} {n : Nat} {p : B256 × B256}
  {ps ps' : List (B256 × B256)}

/-! ## Numbers and byte strings -/

section Bytes

variable {o : Oracles}

theorem u64ToBytes32_inj {a b : Nat} (ha : a < 2 ^ 64) (hb : b < 2 ^ 64)
    (h : u64ToBytes32 a = u64ToBytes32 b) : a = b := by
  have hbytes := toChunk_inj (by simp) (by simp) h
  exact leBytes_inj (by omega) (by omega) hbytes

theorem address_inj {a b : Address} (h : toChunk (bitVecBytes a.bytes) = toChunk (bitVecBytes b.bytes)) :
    a = b := by
  have hbytes := bitVecBytes_inj (by decide) (toChunk_inj (by simp) (by simp) h)
  cases a
  cases b
  exact congrArg _ hbytes

theorem byteLeaves_inj (hlen : a.length = b.length) (h : byteLeaves a = byteLeaves b) : a = b :=
  map_chunks_inj (by decide) (fun _ _ hxy hle => toChunk_inj hxy hle) hlen h

theorem length_byteLeaves (bytes : Bytes) : (byteLeaves bytes).length = (bytes.length + 31) / 32 := by
  simp [byteLeaves]

/-- Leaves of one number with one root are the same. -/
theorem merkleHasher_inj (hlen : l.length = l'.length) (hle : l.length ≤ n)
    (hfree : Merkle.CollisionFree o.hash32Concat (hasherPairs o n l ++ hasherPairs o n l'))
    (h : merkleHasher o n l = merkleHasher o n l') : l = l' :=
  Merkle.eq_of_root_eq hlen (hle.trans (Merkle.le_two_pow_depthFor n)) hfree h

/-- The length first, and then the leaves. -/
theorem listRoot_inj {n' : Nat} (hn : n < 2 ^ 64) (hn' : n' < 2 ^ 64)
    (hlen : n = n' → l.length = l'.length)
    (hfree : Merkle.CollisionFree o.hash32Concat (listPairs o l n ++ listPairs o l' n'))
    (h : listRoot o l n = listRoot o l' n') : n = n' ∧ l = l' := by
  obtain ⟨hroot, hlength⟩ := hfree.halves (List.mem_append_left _ List.mem_cons_self)
    (List.mem_append_right _ List.mem_cons_self) h
  have heq := u64ToBytes32_inj hn hn' hlength
  have hl := hlen heq
  refine ⟨heq, ?_⟩
  rw [← hl] at hroot
  refine merkleHasher_inj hl le_rfl (hfree.mono fun p hp => ?_) hroot
  rcases List.mem_append.1 hp with hp | hp
  · exact List.mem_append_left _ (List.mem_cons_of_mem _ hp)
  · refine List.mem_append_right _ (List.mem_cons_of_mem _ ?_)
    rwa [← hl]

/-- The empty list needs no case of its own. -/
theorem treeHashVariableBytesSsz_eq (data : Bytes) :
    treeHashVariableBytesSsz o data = listRoot o (byteLeaves data) data.length := by
  unfold treeHashVariableBytesSsz
  split_ifs with h
  · subst h
    rfl
  · rfl

theorem treeHashFixedVector_eq (bytes : Bytes) :
    treeHashFixedVector o bytes = merkleHasher o (byteLeaves bytes).length (byteLeaves bytes) := by
  unfold treeHashFixedVector
  split_ifs with h
  · subst h
    rfl
  · rfl

theorem treeHashTransactionsSsz_eq (transactions : List Bytes) :
    treeHashTransactionsSsz o transactions =
      listRoot o (transactions.map (treeHashVariableBytesSsz o)) transactions.length := by
  unfold treeHashTransactionsSsz listRoot
  rw [List.length_map]
  split_ifs with h
  · subst h
    rfl
  · rfl

theorem treeHashWithdrawalsSsz_eq (withdrawals : List Withdrawal) :
    treeHashWithdrawalsSsz o withdrawals =
      listRoot o (withdrawals.map (treeHashWithdrawalSsz o)) withdrawals.length := by
  unfold treeHashWithdrawalsSsz listRoot
  rw [List.length_map]
  split_ifs with h
  · subst h
    rfl
  · rfl

/-- Byte strings with one root are the same: the length tells trailing zeros from padding. -/
theorem variableBytes_inj (ha : a.length < 2 ^ 64) (hb : b.length < 2 ^ 64)
    (hfree : Merkle.CollisionFree o.hash32Concat (variableBytesPairs o a ++ variableBytesPairs o b))
    (h : treeHashVariableBytesSsz o a = treeHashVariableBytesSsz o b) : a = b := by
  rw [treeHashVariableBytesSsz_eq, treeHashVariableBytesSsz_eq] at h
  obtain ⟨hlen, hleaves⟩ := listRoot_inj ha hb
    (fun heq => by rw [length_byteLeaves, length_byteLeaves, heq]) hfree h
  exact byteLeaves_inj hlen hleaves

/-- Byte arrays of one fixed length with one root are the same. -/
theorem fixedVector_inj (hlen : a.length = b.length)
    (hfree : Merkle.CollisionFree o.hash32Concat (fixedVectorPairs o a ++ fixedVectorPairs o b))
    (h : treeHashFixedVector o a = treeHashFixedVector o b) : a = b := by
  have hl : (byteLeaves a).length = (byteLeaves b).length := by
    rw [length_byteLeaves, length_byteLeaves, hlen]
  rw [treeHashFixedVector_eq, treeHashFixedVector_eq, ← hl] at h
  unfold fixedVectorPairs at hfree
  rw [← hl] at hfree
  exact byteLeaves_inj hlen (merkleHasher_inj hl le_rfl hfree h)

end Bytes

/-! ## Lists -/

section Lists

variable {o : Oracles}

theorem eq_of_map_eq {β : Type} {f : α → β} : ∀ {l l' : List α},
    (∀ a ∈ l, ∀ b ∈ l', f a = f b → a = b) → l.map f = l'.map f → l = l'
  | [], [], _, _ => rfl
  | a :: l, b :: l', hf, h => by
    obtain ⟨hhead, htail⟩ := List.cons.inj h
    rw [hf a List.mem_cons_self b List.mem_cons_self hhead,
      eq_of_map_eq (fun x hx y hy => hf x (List.mem_cons_of_mem _ hx) y (List.mem_cons_of_mem _ hy))
        htail]

/-- The pairs of two elements are among those of the two lists. -/
theorem mem_pairs_of_elements {f : α → List (B256 × B256)} {l l' : List α} {a b : α} (ha : a ∈ l)
    (hb : b ∈ l') (hp : p ∈ f a ++ f b) : p ∈ (ps ++ l.flatMap f) ++ (ps' ++ l'.flatMap f) := by
  rcases List.mem_append.1 hp with hp | hp
  · exact List.mem_append_left _ (List.mem_append_right _ (List.mem_flatMap.2 ⟨a, ha, hp⟩))
  · exact List.mem_append_right _ (List.mem_append_right _ (List.mem_flatMap.2 ⟨b, hb, hp⟩))

/-- The pairs of the two lists of leaves are among those of the two lists. -/
theorem mem_pairs_of_lists {qs qs' : List (B256 × B256)} (hp : p ∈ ps ++ ps') :
    p ∈ (ps ++ qs) ++ (ps' ++ qs') := by
  rcases List.mem_append.1 hp with hp | hp
  · exact List.mem_append_left _ (List.mem_append_left _ hp)
  · exact List.mem_append_right _ (List.mem_append_left _ hp)

/-- A list of elements is bound if its elements are. -/
theorem list_inj {f : α → B256} {pairs : α → List (B256 × B256)} {l l' : List α}
    (hl : l.length < 2 ^ 64) (hl' : l'.length < 2 ^ 64)
    (hf : ∀ a ∈ l, ∀ b ∈ l', Merkle.CollisionFree o.hash32Concat (pairs a ++ pairs b) → f a = f b → a = b)
    (hfree : Merkle.CollisionFree o.hash32Concat ((listPairs o (l.map f) l.length ++ l.flatMap pairs) ++ (listPairs o (l'.map f) l'.length ++ l'.flatMap pairs)))
    (h : listRoot o (l.map f) l.length = listRoot o (l'.map f) l'.length) : l = l' := by
  obtain ⟨_, hroots⟩ := listRoot_inj hl hl' (fun heq => by rw [List.length_map, List.length_map, heq])
    (hfree.mono fun p => mem_pairs_of_lists) h
  refine eq_of_map_eq (fun a ha b hb => ?_) hroots
  exact hf a ha b hb (hfree.mono fun p => mem_pairs_of_elements ha hb)

/-- The lengths of a list of transactions are those of slices. -/
def TransactionsFit (transactions : List Bytes) : Prop :=
  transactions.length < 2 ^ 64 ∧ ∀ tx ∈ transactions, tx.length < 2 ^ 64

instance (transactions : List Bytes) : Decidable (TransactionsFit transactions) :=
  inferInstanceAs (Decidable (_ ∧ _))

/-- The numbers of withdrawals are `u64`, and their list has the length of a slice. -/
def WithdrawalsFit (withdrawals : List Withdrawal) : Prop :=
  withdrawals.length < 2 ^ 64 ∧
    ∀ w ∈ withdrawals, w.index < 2 ^ 64 ∧ w.validatorIndex < 2 ^ 64 ∧ w.amount < 2 ^ 64

instance (withdrawals : List Withdrawal) : Decidable (WithdrawalsFit withdrawals) :=
  inferInstanceAs (Decidable (_ ∧ _))

theorem transactions_inj {txs txs' : List Bytes} (hfit : TransactionsFit txs)
    (hfit' : TransactionsFit txs')
    (hfree : Merkle.CollisionFree o.hash32Concat (transactionsPairs o txs ++ transactionsPairs o txs'))
    (h : treeHashTransactionsSsz o txs = treeHashTransactionsSsz o txs') : txs = txs' := by
  rw [treeHashTransactionsSsz_eq, treeHashTransactionsSsz_eq] at h
  refine list_inj hfit.1 hfit'.1 (fun a ha b hb hab => ?_) hfree h
  exact variableBytes_inj (hfit.2 a ha) (hfit'.2 b hb) hab

theorem withdrawal_inj {w w' : Withdrawal}
    (hfit : w.index < 2 ^ 64 ∧ w.validatorIndex < 2 ^ 64 ∧ w.amount < 2 ^ 64)
    (hfit' : w'.index < 2 ^ 64 ∧ w'.validatorIndex < 2 ^ 64 ∧ w'.amount < 2 ^ 64)
    (hfree : Merkle.CollisionFree o.hash32Concat
      (hasherPairs o 4 (withdrawalLeaves w) ++ hasherPairs o 4 (withdrawalLeaves w')))
    (h : treeHashWithdrawalSsz o w = treeHashWithdrawalSsz o w') : w = w' := by
  have hroot : merkleHasher o 4 (withdrawalLeaves w) = merkleHasher o 4 (withdrawalLeaves w') := h
  have hleaves : withdrawalLeaves w = withdrawalLeaves w' :=
    merkleHasher_inj (by simp [withdrawalLeaves]) (by simp [withdrawalLeaves]) hfree hroot
  simp only [withdrawalLeaves, List.cons.injEq, and_true] at hleaves
  obtain ⟨hindex, hvalidator, haddress, hamount⟩ := hleaves
  cases w
  cases w'
  congr 1
  · exact u64ToBytes32_inj hfit.1 hfit'.1 hindex
  · exact u64ToBytes32_inj hfit.2.1 hfit'.2.1 hvalidator
  · exact address_inj haddress
  · exact u64ToBytes32_inj hfit.2.2 hfit'.2.2 hamount

theorem withdrawals_inj {ws ws' : List Withdrawal} (hfit : WithdrawalsFit ws)
    (hfit' : WithdrawalsFit ws')
    (hfree : Merkle.CollisionFree o.hash32Concat (withdrawalsPairs o ws ++ withdrawalsPairs o ws'))
    (h : treeHashWithdrawalsSsz o ws = treeHashWithdrawalsSsz o ws') : ws = ws' := by
  rw [treeHashWithdrawalsSsz_eq, treeHashWithdrawalsSsz_eq] at h
  refine list_inj hfit.1 hfit'.1 (fun w hw w' hw' hpair => ?_) hfree h
  exact withdrawal_inj (hfit.2 w hw) (hfit'.2 w' hw') hpair

end Lists

/-! ## The execution payload root -/

section Header

variable {o : Oracles}

theorem depthFor_sixteen : Merkle.depthFor 16 = 4 := by decide

theorem computeExecutionPayloadHeaderRoot_eq (h : ExecutionPayloadHeader) :
    computeExecutionPayloadHeaderRoot o h =
      Merkle.root o.hash32Concat 0 4 (executionPayloadLeaves o h) := by
  unfold computeExecutionPayloadHeaderRoot merkleHasher
  rw [depthFor_sixteen]
  rfl

/-- The numbers of a header are `u64`, and `extra_data` has the length of a slice. -/
structure HeaderFits (h : ExecutionPayloadHeader) : Prop where
  blockNumber : h.blockNumber < 2 ^ 64
  gasLimit : h.gasLimit < 2 ^ 64
  gasUsed : h.gasUsed < 2 ^ 64
  timestamp : h.timestamp < 2 ^ 64
  extraData : h.extraData.length < 2 ^ 64
  blobGasUsed : h.blobGasUsed < 2 ^ 64
  excessBlobGas : h.excessBlobGas < 2 ^ 64

/-- The seventeen fields that are written: all but `requests_hash`. -/
def writtenFields (h : ExecutionPayloadHeader) : ExecutionPayloadHeader := { h with requestsHash := none }

/-- The sixteen fields that are written while the merkleizer has room. -/
def boundFields (h : ExecutionPayloadHeader) : ExecutionPayloadHeader :=
  { h with requestsHash := none, excessBlobGas := 0 }

/-- The sixteen leaves of those fields. -/
def boundLeaves (o : Oracles) (h : ExecutionPayloadHeader) : List B256 :=
  [h.parentHash, toChunk (bitVecBytes h.feeRecipient.bytes), h.stateRoot, h.receiptsRoot,
    treeHashFixedVector o (bitVecBytes h.logsBloom), h.prevRandao, u64ToBytes32 h.blockNumber,
    u64ToBytes32 h.gasLimit, u64ToBytes32 h.gasUsed, u64ToBytes32 h.timestamp,
    treeHashVariableBytesSsz o h.extraData, toChunk (leBytes 32 h.baseFeePerGas.toNat), h.blockHash,
    h.transactionsRoot, h.withdrawalsRoot, u64ToBytes32 h.blobGasUsed]

/-- The root is over the first sixteen leaves. -/
theorem header_root_bound (h : ExecutionPayloadHeader) :
    computeExecutionPayloadHeaderRoot o h = Merkle.root o.hash32Concat 0 4 (boundLeaves o h) := by
  have hsplit : executionPayloadLeaves o h = boundLeaves o h ++ [u64ToBytes32 h.excessBlobGas] := rfl
  have htake : (executionPayloadLeaves o h).take (2 ^ 4) = boundLeaves o h := by
    rw [hsplit]
    exact List.take_left' rfl
  rw [computeExecutionPayloadHeaderRoot_eq, ← Merkle.root_take, htake]

theorem header_root_congr {a b : ExecutionPayloadHeader} (h : boundFields a = boundFields b) :
    computeExecutionPayloadHeaderRoot o a = computeExecutionPayloadHeaderRoot o b := by
  have hleaves : ∀ c : ExecutionPayloadHeader, boundLeaves o c = boundLeaves o (boundFields c) :=
    fun _ => rfl
  rw [header_root_bound, header_root_bound, hleaves a, hleaves b, h]

/-- **The execution payload root binds sixteen fields.** -/
theorem header_root_eq_iff {a b : ExecutionPayloadHeader} (ha : HeaderFits a) (hb : HeaderFits b)
    (hfree : Merkle.CollisionFree o.hash32Concat (headerPairs o a ++ headerPairs o b)) :
    computeExecutionPayloadHeaderRoot o a = computeExecutionPayloadHeaderRoot o b ↔
      boundFields a = boundFields b := by
  refine ⟨fun h => ?_, header_root_congr⟩
  rw [computeExecutionPayloadHeaderRoot_eq, computeExecutionPayloadHeaderRoot_eq] at h
  have hleaf : ∀ i < 16, Merkle.leafAt 0 (executionPayloadLeaves o a) i =
      Merkle.leafAt 0 (executionPayloadLeaves o b) i :=
    Merkle.leafAt_eq_of_root_eq (hfree.mono fun p => mem_pairs_of_lists).separates h
  have hsub : ∀ {f : ExecutionPayloadHeader → List (B256 × B256)},
      (∀ c, ∀ p ∈ f c, p ∈ headerPairs o c) → Merkle.CollisionFree o.hash32Concat (f a ++ f b) := by
    intro f hf
    refine hfree.mono fun p hp => ?_
    rcases List.mem_append.1 hp with hp | hp
    · exact List.mem_append_left _ (hf a p hp)
    · exact List.mem_append_right _ (hf b p hp)
  have hparentHash : a.parentHash = b.parentHash := hleaf 0 (by decide)
  have hfeeRecipient : a.feeRecipient = b.feeRecipient := address_inj (hleaf 1 (by decide))
  have hstateRoot : a.stateRoot = b.stateRoot := hleaf 2 (by decide)
  have hreceiptsRoot : a.receiptsRoot = b.receiptsRoot := hleaf 3 (by decide)
  have hlogsBloom : a.logsBloom = b.logsBloom := by
    have hpairs := hsub (f := fun c => fixedVectorPairs o (bitVecBytes c.logsBloom))
      fun c p hp => List.mem_append_right _ (List.mem_append_left _ hp)
    exact bitVecBytes_inj (by decide) (fixedVector_inj (by simp) hpairs (hleaf 4 (by decide)))
  have hprevRandao : a.prevRandao = b.prevRandao := hleaf 5 (by decide)
  have hblockNumber := u64ToBytes32_inj ha.blockNumber hb.blockNumber (hleaf 6 (by decide))
  have hgasLimit := u64ToBytes32_inj ha.gasLimit hb.gasLimit (hleaf 7 (by decide))
  have hgasUsed := u64ToBytes32_inj ha.gasUsed hb.gasUsed (hleaf 8 (by decide))
  have htimestamp := u64ToBytes32_inj ha.timestamp hb.timestamp (hleaf 9 (by decide))
  have hextraData : a.extraData = b.extraData := by
    have hpairs := hsub (f := fun c => variableBytesPairs o c.extraData)
      fun c p hp => List.mem_append_right _ (List.mem_append_right _ hp)
    exact variableBytes_inj ha.extraData hb.extraData hpairs (hleaf 10 (by decide))
  have hbaseFee : a.baseFeePerGas = b.baseFeePerGas := by
    have hbytes := toChunk_inj (by simp) (by simp) (hleaf 11 (by decide))
    have hlt : ∀ v : U256, v.toNat < 256 ^ 32 := by
      intro v
      have hv := v.isLt
      norm_num
      omega
    exact BitVec.eq_of_toNat_eq (leBytes_inj (hlt _) (hlt _) hbytes)
  have hblockHash : a.blockHash = b.blockHash := hleaf 12 (by decide)
  have htransactionsRoot : a.transactionsRoot = b.transactionsRoot := hleaf 13 (by decide)
  have hwithdrawalsRoot : a.withdrawalsRoot = b.withdrawalsRoot := hleaf 14 (by decide)
  have hblobGasUsed := u64ToBytes32_inj ha.blobGasUsed hb.blobGasUsed (hleaf 15 (by decide))
  unfold boundFields
  rw [hparentHash, hfeeRecipient, hstateRoot, hreceiptsRoot, hlogsBloom, hprevRandao, hblockNumber,
    hgasLimit, hgasUsed, htimestamp, hextraData, hbaseFee, hblockHash, htransactionsRoot,
    hwithdrawalsRoot, hblobGasUsed]

end Header

end Ultramarine.Ssz
