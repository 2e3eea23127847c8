import Ultramarine.Safety.HeaderBinding

/-!
# What the roots of a block bind

The roots a header is made of, as the node computes them (`ethereum_compat/beacon_block_body.rs`). What
is assumed of the two-to-one hash is that no two of the pairs hashed for the two roots collide.

Results:

* `header_root_binds_iff`: two headers with one execution payload root agree on all seventeen fields that
  are written exactly if they do not differ in `excess_blob_gas` alone, the leaf the merkleizer has no
  room for;
* `list_roots_bind`: the roots of transactions and withdrawals bind the lists.
-/

namespace Ultramarine

open Lib Ssz

section Roots

variable {o : Oracles}

/-- The last field is what is missing to the fields that are bound. -/
theorem writtenFields_eq_iff {a b : ExecutionPayloadHeader} (h : boundFields a = boundFields b) :
    writtenFields a = writtenFields b ↔ a.excessBlobGas = b.excessBlobGas := by
  constructor
  · intro hwritten
    have hexcess := congrArg ExecutionPayloadHeader.excessBlobGas hwritten
    exact hexcess
  · intro hexcess
    have hsplit : ∀ c : ExecutionPayloadHeader,
        writtenFields c = { boundFields c with excessBlobGas := c.excessBlobGas } := fun _ => rfl
    rw [hsplit a, hsplit b, h, hexcess]

/-- **The execution payload root commits to every field it writes but the last.** -/
theorem header_root_binds_iff {a b : ExecutionPayloadHeader} (ha : HeaderFits a) (hb : HeaderFits b)
    (hfree : Merkle.CollisionFree o.hash32Concat (headerPairs o a ++ headerPairs o b)) :
    (computeExecutionPayloadHeaderRoot o a = computeExecutionPayloadHeaderRoot o b →
      writtenFields a = writtenFields b) ↔
    (boundFields a = boundFields b → a.excessBlobGas = b.excessBlobGas) := by
  rw [header_root_eq_iff ha hb hfree]
  exact forall_congr' fun h => writtenFields_eq_iff h

/-- **The roots of lists bind the lists**, whatever their lengths: empty lists, empty transactions and
transactions that end in zeros included. -/
theorem list_roots_bind (o : Oracles) :
    (∀ txs txs' : List Bytes, TransactionsFit txs → TransactionsFit txs' →
      Merkle.CollisionFree o.hash32Concat (transactionsPairs o txs ++ transactionsPairs o txs') →
      treeHashTransactionsSsz o txs = treeHashTransactionsSsz o txs' → txs = txs') ∧
    ∀ ws ws' : List Withdrawal, WithdrawalsFit ws → WithdrawalsFit ws' →
      Merkle.CollisionFree o.hash32Concat (withdrawalsPairs o ws ++ withdrawalsPairs o ws') →
      treeHashWithdrawalsSsz o ws = treeHashWithdrawalsSsz o ws' → ws = ws' :=
  ⟨fun _ _ => transactions_inj, fun _ _ => withdrawals_inj⟩

end Roots

namespace Sample

/-- The header of a block, with the given values of two fields. -/
def headerWith (transactionsRoot : B256) (excessBlobGas : Nat) : ExecutionPayloadHeader :=
  { fromPayload mixing (payload 1 0 1 0) (some 3) with transactionsRoot, excessBlobGas }

theorem fits_headerWith (transactionsRoot : B256) {excessBlobGas : Nat} (h : excessBlobGas < 2 ^ 64) :
    HeaderFits (headerWith transactionsRoot excessBlobGas) where
  blockNumber := show 1 < 2 ^ 64 by decide
  gasLimit := show 0 < 2 ^ 64 by decide
  gasUsed := show 0 < 2 ^ 64 by decide
  timestamp := show 1 < 2 ^ 64 by decide
  extraData := show 0 < 2 ^ 64 by decide
  blobGasUsed := show 0 < 2 ^ 64 by decide
  excessBlobGas := h

/-- A withdrawal of the given amount. -/
def withdrawalOf (amount : Nat) : Withdrawal := ⟨0, 0, ⟨0⟩, amount⟩

end Sample

open Sample in
/-- Headers that differ in the transactions root have two roots. -/
theorem header_root_binds_iff_transactions :
    writtenFields (headerWith 5 0) ≠ writtenFields (headerWith 6 0) ∧
    computeExecutionPayloadHeaderRoot mixing (headerWith 5 0) ≠
      computeExecutionPayloadHeaderRoot mixing (headerWith 6 0) := by
  have hne : writtenFields (headerWith 5 0) ≠ writtenFields (headerWith 6 0) := fun h =>
    absurd (congrArg ExecutionPayloadHeader.transactionsRoot h) (show (5 : B256) ≠ 6 by decide)
  refine ⟨hne, fun h => hne ?_⟩
  exact (header_root_binds_iff (fits_headerWith 5 (by decide)) (fits_headerWith 6 (by decide))
    (by decide +kernel)).2 (fun _ => rfl) h

open Sample in
/-- Headers that differ in `excess_blob_gas` have one root. -/
theorem header_root_drops_excess :
    Merkle.CollisionFree mixing.hash32Concat
      (headerPairs mixing (headerWith 5 0) ++ headerPairs mixing (headerWith 5 1)) ∧
    computeExecutionPayloadHeaderRoot mixing (headerWith 5 0) =
      computeExecutionPayloadHeaderRoot mixing (headerWith 5 1) ∧
    writtenFields (headerWith 5 0) ≠ writtenFields (headerWith 5 1) :=
  ⟨by decide +kernel, header_root_congr rfl, fun h =>
    absurd (congrArg ExecutionPayloadHeader.excessBlobGas h) (show 0 ≠ 1 by decide)⟩

open Sample in
/-- A zero at the end of a transaction and the amount of a withdrawal change the root. -/
theorem list_roots_bind_trailing :
    treeHashTransactionsSsz mixing [[1], []] ≠ treeHashTransactionsSsz mixing [[1, 0], []] ∧
    treeHashWithdrawalsSsz mixing [] ≠ treeHashWithdrawalsSsz mixing [withdrawalOf 1] := by
  constructor
  · intro h
    have heq := (list_roots_bind mixing).1 [[1], []] [[1, 0], []] (by decide) (by decide)
      (by decide +kernel) h
    revert heq
    decide
  · intro h
    have heq := (list_roots_bind mixing).2 [] [withdrawalOf 1] (by decide) (by decide)
      (by decide +kernel) h
    revert heq
    decide

end Ultramarine
