import Ultramarine.Types.Primitives

/-!
# Execution payloads and headers

`ExecutionPayloadV3` is the block the execution engine builds and imports,
`ExecutionPayloadHeader` the summary of it that consensus votes on, `ExecutionBlock` the part of a
block the node keeps as `latest_block`.
-/

namespace Ultramarine

open Lib

/-- `alloy` `Withdrawal`. -/
structure Withdrawal where
  index : Nat
  validatorIndex : Nat
  address : Address
  amount : Nat
deriving DecidableEq, Repr

/-- `ExecutionPayloadV3`, its two inner versions flattened. -/
structure ExecutionPayloadV3 where
  parentHash : B256
  feeRecipient : Address
  stateRoot : B256
  receiptsRoot : B256
  logsBloom : Bloom
  prevRandao : B256
  blockNumber : Nat
  gasLimit : Nat
  gasUsed : Nat
  timestamp : Nat
  extraData : Bytes
  baseFeePerGas : U256
  blockHash : B256
  transactions : List Bytes
  withdrawals : List Withdrawal
  blobGasUsed : Nat
  excessBlobGas : Nat
deriving DecidableEq, Repr

/-- `ExecutionPayloadHeader`. -/
structure ExecutionPayloadHeader where
  blockHash : B256
  parentHash : B256
  stateRoot : B256
  receiptsRoot : B256
  logsBloom : Bloom
  blockNumber : Nat
  gasLimit : Nat
  gasUsed : Nat
  timestamp : Nat
  baseFeePerGas : U256
  extraData : Bytes
  transactionsRoot : B256
  withdrawalsRoot : B256
  blobGasUsed : Nat
  excessBlobGas : Nat
  prevRandao : B256
  feeRecipient : Address
  requestsHash : Option B256
deriving DecidableEq, Repr

/-- `ExecutionBlock`. -/
structure ExecutionBlock where
  blockHash : B256
  blockNumber : Nat
  parentHash : B256
  timestamp : Nat
  prevRandao : B256
deriving DecidableEq, Repr

/-- `load_prev_randao`: the constant one. -/
def loadPrevRandao : B256 := 1

end Ultramarine
