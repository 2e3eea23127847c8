import Ultramarine.App.Walk

/-!
# Who can fill a slot

A received proposal is stored under the height and round its stream names. What the node checks of
the proposer is that it is in the validator set and that its key signed the parts; whose turn it is
(`LoadContext.selectProposer`) is not looked at on this path.

Results:

* `received_proposal_signed`: every slot a received stream fills was named in a stream that its
  proposer, a validator, signed.
-/

namespace Ultramarine

open Lib

/-- The message completes a stream, and the validator that the stream names as its proposer has
signed its parts. -/
structure SignedStream (cfg : Config) (m : Machine Disk Memory) (peer : PeerId)
    (part : StreamMessage) (parts : ProposalParts) (validator : Validator)
    (signature : Signature) : Prop where
  complete : (PartStreamsMap.insert m.mem.streamsMap peer part).2 = some parts
  member : cfg.validators.getByAddress parts.proposer = some validator
  fin : (parts.parts.filterMap ProposalPart.asFin).getLast? = some signature
  verified : cfg.oracles.verify validator.publicKey (proposalHash cfg.oracles parts.parts)
    signature = true

/-- The slot whose undecided rows a transaction fills. -/
def StoreWrite.fills : StoreWrite → Option Slot
  | .insertUndecidedProposal p => some ⟨p.height, p.round⟩
  | .insertUndecidedBlockData slot _ => some slot
  | .insertBlobMetadataUndecided slot _ => some slot
  | _ => none

variable {cfg : Config} {parts : ProposalParts} {a : Assembled} {m : Machine Disk Memory}
  {now : Nat} {part : StreamMessage} {peer : PeerId}

theorem verifyProposalSignature_eq_ok {u : Unit} (h : verifyProposalSignature cfg parts = .ok u) :
    ∃ validator signature, cfg.validators.getByAddress parts.proposer = some validator ∧
      (parts.parts.filterMap ProposalPart.asFin).getLast? = some signature ∧
      cfg.oracles.verify validator.publicKey (proposalHash cfg.oracles parts.parts) signature =
        true := by
  unfold verifyProposalSignature at h
  simp only [Exit.bind_eq_ok, Exit.ensure_eq_ok, Exit.ofOption_eq_ok, exists_const] at h
  obtain ⟨_, signature, hfin, validator, hmember, hverified⟩ := h
  exact ⟨validator, signature, hmember, hfin, hverified⟩

/-- A stream that is checked and assembled was signed by the proposer it names. -/
theorem Completes.signed (h : Completes cfg m now peer part parts a) :
    ∃ validator signature, SignedStream cfg m peer part parts validator signature := by
  obtain ⟨validator, signature, hmember, hfin, hverified⟩ :=
    verifyProposalSignature_eq_ok h.signature_ok
  exact ⟨validator, signature, h.complete, hmember, hfin, hverified⟩

theorem Completes.slot_eq (h : Completes cfg m now peer part parts a) :
    a.value.height = parts.height ∧ a.value.round = parts.round ∧
      a.value.proposer = parts.proposer := by
  obtain ⟨_, _, _, hfrom⟩ := assemble_eq_ok.1 h.assembled
  rw [hfrom.value_eq]
  exact ⟨rfl, rfl, rfl⟩

theorem Completes.hint_eq (h : Completes cfg m now peer part parts a) :
    a.blobMetadata.proposerIndexHint = cfg.validatorIndex parts.proposer := by
  obtain ⟨_, _, _, hfrom⟩ := assemble_eq_ok.1 h.assembled
  exact congrArg BlobCore.proposerIndexHint (core_blockMetadata? hfrom.blobMetadata_eq)

theorem StoreWrite.fills_of_isRemoval {w : StoreWrite} {slot : Slot} (h : w.isRemoval = true) :
    w.fills ≠ some slot := by
  cases w <;> simp_all [StoreWrite.isRemoval, StoreWrite.fills]

/-- **Who can fill a slot.** A proposal that `received_proposal_part` returns names the height, the
round and the proposer of its stream, and that proposer, a validator, has signed the stream. The
same holds of every row the call writes to the undecided tables, whatever it returns. -/
theorem received_proposal_signed (cfg : Config) (m : Machine Disk Memory) (now : Nat)
    (peer : PeerId) (part : StreamMessage) :
    (∀ v m', Prog.Returns (receivedProposalPart cfg now peer part) m (some v) m' →
        ∃ parts validator signature, SignedStream cfg m peer part parts validator signature ∧
          v.height = parts.height ∧ v.round = parts.round ∧ v.proposer = parts.proposer) ∧
      ∀ e ∈ ((receivedProposalPart cfg now peer part).run m).log, ∀ w slot, e.2 = .store w →
        w.fills = some slot →
        ∃ parts validator signature, SignedStream cfg m peer part parts validator signature ∧
          slot = ⟨parts.height, parts.round⟩ ∧
          (∀ p, w = .insertUndecidedProposal p → p.proposer = parts.proposer) ∧
          ∀ metadata, w = .insertBlobMetadataUndecided slot metadata →
            metadata.proposerIndexHint = cfg.validatorIndex parts.proposer := by
  refine ⟨fun v m' hr => ?_, fun e he w slot hw hslot => ?_⟩
  · obtain ⟨parts, hcomplete, hr⟩ := returns_receivedProposalPart.1 hr
    obtain ⟨hcurrent, hsig, a, ha, _, _, rfl, _⟩ := returns_receivedProposal.1 hr
    have hc : Completes cfg m now peer part parts a := ⟨hcomplete, hcurrent, hsig, ha⟩
    obtain ⟨validator, signature, hsigned⟩ := hc.signed
    exact ⟨parts, validator, signature, hsigned, hc.slot_eq⟩
  · have hwrites := walk_receivedProposalPart
      (effect_walk cfg m (.receivedProposalPart now peer part ⟨false, false, false⟩))
    have heffect := (hwrites e he).onStore
    rw [hw] at heffect
    cases heffect with
    | proposal hoffer =>
      cases hoffer with
      | received hc =>
        obtain ⟨validator, signature, hsigned⟩ := hc.signed
        obtain ⟨hh, hr, hp⟩ := hc.slot_eq
        cases hslot
        refine ⟨_, validator, signature, hsigned, by rw [hh, hr], ?_, ?_⟩
        · rintro p ⟨⟩
          exact hp
        · rintro metadata ⟨⟩
    | blockData hoffer =>
      cases hoffer with
      | received hc =>
        obtain ⟨validator, signature, hsigned⟩ := hc.signed
        cases hslot
        refine ⟨_, validator, signature, hsigned, rfl, ?_, ?_⟩
        · rintro p ⟨⟩
        · rintro metadata ⟨⟩
    | metadata hoffer =>
      cases hoffer with
      | received hc =>
        obtain ⟨validator, signature, hsigned⟩ := hc.signed
        cases hslot
        refine ⟨_, validator, signature, hsigned, rfl, ?_, ?_⟩
        · rintro p ⟨⟩
        · rintro metadata ⟨⟩
          exact hc.hint_eq
    | removal hremoval => exact absurd hslot (StoreWrite.fills_of_isRemoval hremoval)
    | _ => cases hslot

namespace Sample

/-- A block of validator 2. -/
def blockOfTwo : ExecutionPayloadV3 := payload 1 0 1 0

end Sample

open Sample in
/-- The theorem at the last message of a stream of validator 2. -/
theorem received_proposal_signed_sample :
    Prog.Returns (receivedProposalPart (config 1) 1 0 lastMessage) (beforeLast blockOfTwo)
        (some (proposalOfTwo blockOfTwo)) (afterLast blockOfTwo).state ∧
      ∃ parts validator signature,
        SignedStream (config 1) (beforeLast blockOfTwo) 0 lastMessage parts validator signature ∧
          1 = parts.height ∧ .some 0 = parts.round ∧ ⟨2⟩ = parts.proposer := by
  have hreturns : Prog.Returns (receivedProposalPart (config 1) 1 0 lastMessage)
      (beforeLast blockOfTwo) (some (proposalOfTwo blockOfTwo)) (afterLast blockOfTwo).state :=
    ⟨by decide +kernel, rfl⟩
  exact ⟨hreturns, (received_proposal_signed (config 1) (beforeLast blockOfTwo) 1 0 lastMessage).1
    (proposalOfTwo blockOfTwo) (afterLast blockOfTwo).state hreturns⟩

open Sample in
/-- The first round of height 1 is validator 1's turn. Its node accepts the block that validator 2
streams for that round, and all three tables then hold it. -/
theorem received_proposal_out_of_turn :
    (LoadContext.selectProposer (config 1).validators 1 (.some 0)).map (·.address) = some ⟨1⟩ ∧
      Node.Reachable (config 1) (fun _ _ => True)
        (node 1 (.start :: receive (fromTwo blockOfTwo).dropLast)) ∧
      (fromTwo blockOfTwo).getLast? = some lastMessage ∧
      (afterLast blockOfTwo).exit = .ok (some (proposalOfTwo blockOfTwo)) ∧
      (proposalOfTwo blockOfTwo).proposer = ⟨2⟩ ∧
      ((afterLast blockOfTwo).state.disk.store.undecidedProposals[Slot.mk 1 (.some 0)]?).map
        (·.proposer) = some ⟨2⟩ ∧
      ((afterLast blockOfTwo).state.disk.store.undecidedBlockData[Slot.mk 1 (.some 0)]?).isSome ∧
      ((afterLast blockOfTwo).state.disk.store.blobMetadataUndecided[Slot.mk 1 (.some 0)]?).map
        (·.proposerIndexHint) = some (some 1) := by
  refine ⟨by decide +kernel, Reach.refl.follow (by decide +kernel), by decide +kernel,
    by decide +kernel, rfl, by decide +kernel, by decide +kernel, by decide +kernel⟩

end Ultramarine
