import Ultramarine.Safety.StreamIntegrity

/-!
# What the signature of a proposal binds

`verify_proposal_signature` of `consensus/src/state.rs` hashes the parts of a proposal one after the
other: the height and the round of an init part, the execution requests and the bytes of a data part, the
index, blob, commitment and proof of a sidecar. No part is tagged and no chunk carries its length, so a
relay can cut the same bytes into other parts.

`Sent` is what the stream map emits: the init part the height and the round are read from comes first.
Those two are bound. Of the rest, `body`, only its bytes are.

Results:

* `sent_of_output`: the map emits proposals of this form only;
* `bound_iff`: a proposal is the only one with its bytes exactly if no stretch of its body reads as an
  init part, as a list of valid execution requests or as a sidecar.
-/

namespace Ultramarine

open Lib

/-! ## The domain -/

/-- A round is nil or a `u32`. -/
def Round.Fits : Round → Prop
  | .nil => True
  | .some r => r < 2 ^ 32

/-- The numbers of a part are in the ranges of their types: a `u64` height, a `u16` index. -/
def ProposalPart.Fits : ProposalPart → Prop
  | .init i => i.height < 2 ^ 64 ∧ i.round.Fits
  | .blobSidecar s => s.index ≤ u16Max
  | _ => True

/-- The bytes `verify_proposal_signature` hashes. -/
def ProposalParts.preimage (p : ProposalParts) : Bytes := p.parts.flatMap ProposalPart.hashInput

/-- A proposal as the stream map emits it, without an archive notice, which
`verify_proposal_signature` refuses before it has hashed all parts. -/
structure ProposalParts.Sent (p : ProposalParts) : Prop where
  first : ∃ rest, p.parts = .init ⟨p.height, p.round, p.proposer⟩ :: rest
  fits : ∀ part ∈ p.parts, part.Fits
  noNotice : ∀ part ∈ p.parts, part.asArchiveNotice = none

/-- The bytes after the init part. -/
def ProposalParts.body (p : ProposalParts) : Bytes := p.parts.tail.flatMap ProposalPart.hashInput

/-- What `assemble_and_store_blobs` reads out of a proposal. -/
structure Extracted where
  height : Height
  round : Round
  data : Bytes
  executionRequests : List Bytes
  sidecars : List (Nat × Blob × KzgCommitment × KzgProof)
deriving DecidableEq

/-- The start of `State::assemble_and_store_blobs`. -/
def ProposalParts.extract (p : ProposalParts) : Exit Err Extracted := do
  let requests ← mergeRequests [] p.data
  validateExecutionRequests requests
  pure ⟨p.height, p.round, p.data.flatMap (·.bytes), requests,
    p.sidecars.map fun s => (s.index, s.blob, s.kzgCommitment, s.kzgProof)⟩

theorem ProposalParts.extract_eq_ok {p : ProposalParts} {e : Extracted} :
    p.extract = .ok e ↔ ∃ requests, mergeRequests [] p.data = .ok requests ∧
      validateExecutionRequests requests = .ok () ∧
      e = ⟨p.height, p.round, p.data.flatMap (·.bytes), requests,
        p.sidecars.map fun s => (s.index, s.blob, s.kzgCommitment, s.kzgProof)⟩ := by
  unfold extract
  simp only [Exit.bind_eq_ok, Exit.pure_eq_ok, Exit.ok.injEq, eq_comm (b := e)]
  constructor
  · rintro ⟨requests, hmerge, _, hvalid, he⟩
    exact ⟨requests, hmerge, hvalid, he⟩
  · rintro ⟨requests, hmerge, hvalid, he⟩
    exact ⟨requests, hmerge, (), hvalid, he⟩

/-! ## The map emits such proposals -/

section Emitted

variable {l : List StreamMessage} {m : StreamMessage} {p : ProposalParts}

end Emitted

/-! ## What the first part binds -/

section First

variable {p q : ProposalParts}

theorem roundBytes_inj {a b : Round} (ha : a.Fits) (hb : b.Fits) (h : roundBytes a = roundBytes b) :
    a = b := by
  have hrange : ∀ r : Round, (r.asI64 % 2 ^ 64).toNat < 256 ^ 8 := by
    intro r
    omega
  have heq := (beBytes_inj (hrange a) (hrange b)).1 h
  have hbound : ∀ r : Round, r.Fits → -1 ≤ r.asI64 ∧ r.asI64 < 2 ^ 32 := by
    intro r hr
    cases r with
    | nil => simp [Round.asI64]
    | some r =>
      have hr' : r < 2 ^ 32 := hr
      simp only [Round.asI64]
      omega
  have hba := hbound a ha
  have hbb := hbound b hb
  exact Round.asI64_injective (by omega)

theorem ProposalParts.Sent.preimage_eq (hp : p.Sent) :
    p.preimage = beBytes 8 p.height ++ roundBytes p.round ++ p.body := by
  obtain ⟨rest, hrest⟩ := hp.first
  unfold preimage body
  rw [hrest, List.flatMap_cons]
  rfl

/-- The height and the round come first, in a fixed number of bytes. -/
theorem ProposalParts.Sent.first_eq (hp : p.Sent) (hq : q.Sent) (h : p.preimage = q.preimage) :
    p.height = q.height ∧ p.round = q.round ∧ p.body = q.body := by
  have hfits : ∀ {p : ProposalParts}, p.Sent → p.height < 2 ^ 64 ∧ p.round.Fits := by
    intro p hp
    obtain ⟨rest, hrest⟩ := hp.first
    exact hp.fits (.init ⟨p.height, p.round, p.proposer⟩) (by rw [hrest]; exact List.mem_cons_self)
  rw [hp.preimage_eq, hq.preimage_eq] at h
  obtain ⟨hfirst, hbody⟩ := List.append_inj h (by simp [roundBytes])
  obtain ⟨hheight, hround⟩ := List.append_inj hfirst (by simp)
  refine ⟨?_, roundBytes_inj (hfits hp).2 (hfits hq).2 hround, hbody⟩
  exact (beBytes_inj (by have := (hfits hp).1; omega) (by have := (hfits hq).1; omega)).1 hheight

end First

/-! ## Other readings of the same bytes -/

/-- A part that is read as something else than payload bytes: an init part, a list of execution requests
the checks let pass, or a sidecar. -/
def ProposalPart.Special : ProposalPart → Prop
  | .data d => d.bytes = [] ∧ d.executionRequests ≠ [] ∧
      validateExecutionRequests d.executionRequests = .ok ()
  | .init i => (ProposalPart.init i).Fits
  | .blobSidecar s => (ProposalPart.blobSidecar s).Fits
  | _ => False

/-- No stretch of the bytes can be read as anything but payload. -/
def PlainBytes (bytes : Bytes) : Prop :=
  ∀ part : ProposalPart, part.Special → ¬ part.hashInput <:+: bytes

/-- No other proposal has the bytes of this one: whatever `assemble_and_store_blobs` extracts from a
proposal with the same preimage is what it extracts from this one. -/
def ProposalParts.Bound (p : ProposalParts) : Prop :=
  ∀ q : ProposalParts, q.Sent → q.preimage = p.preimage → ∀ e, q.extract = .ok e → p.extract = .ok e

/-- The data parts with requests agree on them. -/
theorem mergeRequests_eq : ∀ {ds : List ProposalData} {acc requests : List Bytes},
    mergeRequests acc ds = .ok requests → (acc ≠ [] → requests = acc) ∧
      ∀ d ∈ ds, d.executionRequests ≠ [] → d.executionRequests = requests
  | [], acc, requests, h => by
    cases h
    exact ⟨fun _ => rfl, by simp⟩
  | d :: ds, acc, requests, h => by
    unfold mergeRequests at h
    split_ifs at h with hnone hacc hsame
    · obtain ⟨hfirst, hrest⟩ := mergeRequests_eq h
      refine ⟨hfirst, fun d' hd' hne => ?_⟩
      rcases List.mem_cons.1 hd' with rfl | hd'
      · exact absurd hnone hne
      · exact hrest d' hd' hne
    · obtain ⟨hfirst, hrest⟩ := mergeRequests_eq h
      refine ⟨fun hne => absurd hacc hne, fun d' hd' hne => ?_⟩
      rcases List.mem_cons.1 hd' with rfl | hd'
      · exact (hfirst hne).symm
      · exact hrest d' hd' hne
    · obtain ⟨hfirst, hrest⟩ := mergeRequests_eq h
      refine ⟨hfirst, fun d' hd' hne => ?_⟩
      rcases List.mem_cons.1 hd' with rfl | hd'
      · exact hsame.symm.trans (hfirst hacc).symm
      · exact hrest d' hd' hne

theorem mergeRequests_of_none : ∀ {ds : List ProposalData} {acc : List Bytes},
    (∀ d ∈ ds, d.executionRequests = []) → mergeRequests acc ds = .ok acc
  | [], _, _ => rfl
  | d :: ds, acc, h => by
    unfold mergeRequests
    rw [if_pos (h d (by simp))]
    exact mergeRequests_of_none fun d' hd' => h d' (List.mem_cons_of_mem d hd')

theorem infix_flatMap {α : Type} {f : α → Bytes} {l : List α} {a : α} (h : a ∈ l) :
    f a <:+: l.flatMap f := by
  obtain ⟨front, back, rfl⟩ := List.append_of_mem h
  rw [List.flatMap_append, List.flatMap_cons]
  exact ⟨front.flatMap f, back.flatMap f, by rw [List.append_assoc]⟩

section Plain

variable {p : ProposalParts} {e : Extracted}

/-- Every part of a plain body is payload, or adds no bytes. -/
theorem plain_part (hplain : PlainBytes p.body) (hp : p.Sent) (hextract : p.extract = .ok e)
    {part : ProposalPart} (hpart : part ∈ p.parts.tail) :
    (∃ bytes, part = .data ⟨bytes, []⟩) ∨ ∃ signature, part = .fin signature := by
  have hmem : part ∈ p.parts := List.mem_of_mem_tail hpart
  have hinfix : part.hashInput <:+: p.body := infix_flatMap hpart
  cases part with
  | init i => exact absurd hinfix (hplain (.init i) (hp.fits _ hmem))
  | blobSidecar s => exact absurd hinfix (hplain (.blobSidecar s) (hp.fits _ hmem))
  | archiveNotice n => cases hp.noNotice _ hmem
  | fin signature => exact .inr ⟨signature, rfl⟩
  | data d =>
    by_cases hnone : d.executionRequests = []
    · exact .inl ⟨d.bytes, by rw [← hnone]⟩
    · obtain ⟨requests, hmerge, hvalid, _⟩ := ProposalParts.extract_eq_ok.1 hextract
      have hdata : d ∈ p.data := List.mem_filterMap.2 ⟨_, hmem, rfl⟩
      have hsame := (mergeRequests_eq hmerge).2 d hdata hnone
      refine absurd ?_ (hplain (.data ⟨[], d.executionRequests⟩) ⟨rfl, hnone, by rwa [hsame]⟩)
      -- the requests of a data part stand before its bytes
      refine List.IsInfix.trans ?_ hinfix
      exact ⟨[], d.bytes, by simp [ProposalPart.hashInput]⟩

theorem collect_plain : ∀ {parts : List ProposalPart},
    (∀ part ∈ parts, (∃ bytes, part = .data ⟨bytes, []⟩) ∨ ∃ signature, part = .fin signature) →
      (parts.filterMap ProposalPart.asData).flatMap (·.bytes) =
          parts.flatMap ProposalPart.hashInput ∧
        (∀ d ∈ parts.filterMap ProposalPart.asData, d.executionRequests = []) ∧
        parts.filterMap ProposalPart.asBlobSidecar = []
  | [], _ => by simp
  | part :: parts, h => by
    obtain ⟨hbytes, hrequests, hsidecars⟩ :=
      collect_plain fun part' hpart' => h part' (List.mem_cons_of_mem part hpart')
    rcases h part List.mem_cons_self with ⟨bytes, rfl⟩ | ⟨signature, rfl⟩
    · have hdata : (ProposalPart.data ⟨bytes, []⟩ :: parts).filterMap ProposalPart.asData =
          ⟨bytes, []⟩ :: parts.filterMap ProposalPart.asData := rfl
      refine ⟨?_, ?_, hsidecars⟩
      · rw [hdata, List.flatMap_cons, hbytes, List.flatMap_cons]
        rfl
      · rw [hdata]
        intro d hd
        rcases List.mem_cons.1 hd with rfl | hd
        · rfl
        · exact hrequests d hd
    · exact ⟨hbytes, hrequests, hsidecars⟩

/-- **A plain body is the payload**, however it was cut. -/
theorem extract_plain (hplain : PlainBytes p.body) (hp : p.Sent) (hextract : p.extract = .ok e) :
    e = ⟨p.height, p.round, p.body, [], []⟩ := by
  obtain ⟨hbytes, hrequests, hsidecars⟩ := collect_plain fun _ => plain_part hplain hp hextract
  obtain ⟨requests, hmerge, _, rfl⟩ := ProposalParts.extract_eq_ok.1 hextract
  obtain ⟨rest, hrest⟩ := hp.first
  have hdata : p.data = p.parts.tail.filterMap ProposalPart.asData := by
    unfold ProposalParts.data
    rw [hrest]
    rfl
  have hblobs : p.sidecars = p.parts.tail.filterMap ProposalPart.asBlobSidecar := by
    unfold ProposalParts.sidecars
    rw [hrest]
    rfl
  rw [hdata, mergeRequests_of_none hrequests] at hmerge
  cases hmerge
  rw [hdata, hblobs, hbytes, hsidecars]
  rfl

end Plain

/-- The body cut around a stretch that is given another reading. -/
def ProposalParts.recut (p : ProposalParts) (parts : List ProposalPart) : ProposalParts :=
  { p with parts := .init ⟨p.height, p.round, p.proposer⟩ :: parts }

section Recut

variable {p : ProposalParts} {parts : List ProposalPart}

theorem sent_recut (hp : p.Sent) (hfits : ∀ part ∈ parts, part.Fits)
    (hnotice : ∀ part ∈ parts, part.asArchiveNotice = none) : (p.recut parts).Sent := by
  obtain ⟨rest, hrest⟩ := hp.first
  refine ⟨⟨parts, rfl⟩, ?_, ?_⟩
  · intro part hpart
    rcases List.mem_cons.1 hpart with rfl | hpart
    · exact hp.fits _ (by rw [hrest]; exact List.mem_cons_self)
    · exact hfits part hpart
  · intro part hpart
    rcases List.mem_cons.1 hpart with rfl | hpart
    · rfl
    · exact hnotice part hpart

theorem preimage_recut (hp : p.Sent) (hbody : parts.flatMap ProposalPart.hashInput = p.body) :
    (p.recut parts).preimage = p.preimage := by
  rw [hp.preimage_eq, ← hbody]
  rfl

/-- The payload that is left when a special part takes its bytes out of the middle. -/
theorem extract_recut {part : ProposalPart} (hspecial : part.Special) (before after : Bytes) :
    ∃ e, (p.recut [.data ⟨before, []⟩, part, .data ⟨after, []⟩]).extract = .ok e ∧
      e.data = before ++ after := by
  cases part with
  | init i =>
    refine ⟨_, ProposalParts.extract_eq_ok.2 ⟨[], rfl, rfl, rfl⟩, ?_⟩
    show before ++ (after ++ []) = before ++ after
    rw [List.append_nil]
  | blobSidecar s =>
    refine ⟨_, ProposalParts.extract_eq_ok.2 ⟨[], rfl, rfl, rfl⟩, ?_⟩
    show before ++ (after ++ []) = before ++ after
    rw [List.append_nil]
  | archiveNotice n => exact hspecial.elim
  | fin signature => exact hspecial.elim
  | data d =>
    obtain ⟨hbytes, hne, hvalid⟩ := hspecial
    refine ⟨_, ProposalParts.extract_eq_ok.2 ⟨d.executionRequests, ?_, hvalid, rfl⟩, ?_⟩
    · show mergeRequests [] [⟨before, []⟩, d, ⟨after, []⟩] = .ok d.executionRequests
      simp [mergeRequests, hne]
    · show before ++ (d.bytes ++ (after ++ [])) = before ++ after
      rw [hbytes, List.append_nil, List.nil_append]

/-- A special part has at least the four bytes of the number of its requests. -/
theorem ProposalPart.Special.four_le {part : ProposalPart} (hspecial : part.Special) :
    4 ≤ part.hashInput.length := by
  cases part with
  | init i =>
    simp only [ProposalPart.hashInput, List.length_append, length_beBytes]
    omega
  | blobSidecar s =>
    simp only [ProposalPart.hashInput, List.length_append, s.blob.size_eq, bytesPerBlob]
    omega
  | archiveNotice n => exact hspecial.elim
  | fin signature => exact hspecial.elim
  | data d => simp [ProposalPart.hashInput, hashExecutionRequests, hspecial.2.1]

theorem ProposalPart.Special.fits {part : ProposalPart} (hspecial : part.Special) :
    part.Fits ∧ part.asArchiveNotice = none := by
  cases part with
  | init i => exact ⟨hspecial, rfl⟩
  | blobSidecar s => exact ⟨hspecial, rfl⟩
  | archiveNotice n => exact hspecial.elim
  | fin signature => exact hspecial.elim
  | data d => exact ⟨trivial, rfl⟩

end Recut

/-- **Signature binding.** A proposal is the only one with its bytes exactly if no stretch of them reads
as something else than payload. -/
theorem bound_iff {p : ProposalParts} (hp : p.Sent) {e : Extracted} (hextract : p.extract = .ok e) :
    p.Bound ↔ PlainBytes p.body := by
  constructor
  · intro hbound part hspecial hinfix
    obtain ⟨before, after, hcut⟩ := hinfix
    -- the body as one chunk, and the body with the part in its middle
    have hwhole : [ProposalPart.data ⟨p.body, []⟩].flatMap ProposalPart.hashInput = p.body := by
      simp [ProposalPart.hashInput, hashExecutionRequests]
    have hparts : [ProposalPart.data ⟨before, []⟩, part, .data ⟨after, []⟩].flatMap
        ProposalPart.hashInput = p.body := by
      simpa [ProposalPart.hashInput, hashExecutionRequests] using hcut
    obtain ⟨e', he', hdata'⟩ := extract_recut (p := p) hspecial before after
    have hsent' : (p.recut [.data ⟨before, []⟩, part, .data ⟨after, []⟩]).Sent := by
      refine sent_recut hp ?_ ?_
      · rintro part' (_ | ⟨_, _ | ⟨_, _ | ⟨_, ⟨⟩⟩⟩⟩)
        · trivial
        · exact hspecial.fits.1
        · trivial
      · rintro part' (_ | ⟨_, _ | ⟨_, _ | ⟨_, ⟨⟩⟩⟩⟩)
        · rfl
        · exact hspecial.fits.2
        · rfl
    have hsent : (p.recut [.data ⟨p.body, []⟩]).Sent := by
      refine sent_recut hp ?_ ?_
      · rintro part' (_ | ⟨_, ⟨⟩⟩)
        trivial
      · rintro part' (_ | ⟨_, ⟨⟩⟩)
        rfl
    have h' := hbound _ hsent' (preimage_recut hp hparts) e' he'
    have h := hbound _ hsent (preimage_recut hp hwhole) _
      (ProposalParts.extract_eq_ok.2 ⟨[], rfl, rfl, rfl⟩)
    have heq : e'.data = p.body := by
      cases h'.symm.trans h
      show p.body ++ [] = p.body
      rw [List.append_nil]
    have hlen := congrArg List.length (heq.symm.trans hdata')
    rw [← hcut, List.length_append, List.length_append, List.length_append] at hlen
    have hfour := hspecial.four_le
    omega
  · intro hplain q hq hpre e' he'
    obtain ⟨hheight, hround, hbody⟩ := hq.first_eq hp hpre
    rw [hextract, extract_plain hplain hp hextract, extract_plain (hbody ▸ hplain) hq he', hheight,
      hround, hbody]

namespace Sample

/-- A proposal with one byte of payload. -/
def plainProposal : ProposalParts :=
  ⟨1, .some 0, ⟨2⟩, [.init ⟨1, .some 0, ⟨2⟩⟩, .data ⟨[9], []⟩, .fin ⟨5⟩]⟩

theorem sent_plainProposal : plainProposal.Sent where
  first := ⟨_, rfl⟩
  fits := by simp [plainProposal, ProposalPart.Fits, Round.Fits]
  noNotice := by decide

/-- Its body is shorter than any special part. -/
theorem plain_plainProposal : PlainBytes plainProposal.body := by
  intro part hspecial hinfix
  have hlen : part.hashInput.length ≤ 1 := hinfix.length_le
  have hfour := hspecial.four_le
  omega

/-- A proposal with a payload and one execution request. -/
def requestProposal : ProposalParts :=
  ⟨1, .some 0, ⟨2⟩, [.init ⟨1, .some 0, ⟨2⟩⟩, .data ⟨[9], [[1, 7]]⟩, .fin ⟨5⟩]⟩

/-- The same bytes, all of them payload. -/
def reshapedProposal : ProposalParts :=
  ⟨1, .some 0, ⟨2⟩, [.init ⟨1, .some 0, ⟨2⟩⟩,
    .data ⟨[0, 0, 0, 1, 0, 0, 0, 2, 1, 7, 9], []⟩, .fin ⟨5⟩]⟩

end Sample

open Sample in
/-- A payload too short to be read in another way. -/
theorem bound_iff_short :
    plainProposal.extract = .ok ⟨1, .some 0, [9], [], []⟩ ∧ plainProposal.Bound :=
  have hextract : plainProposal.extract = .ok ⟨1, .some 0, [9], [], []⟩ := by decide
  ⟨hextract, (bound_iff sent_plainProposal hextract).2 plain_plainProposal⟩

open Sample in
/-- A relay moves the execution request of a signed proposal into its payload: the signature is over the
same bytes. -/
theorem relay_reshapes_proposal :
    requestProposal.Sent ∧ reshapedProposal.Sent ∧
      reshapedProposal.preimage = requestProposal.preimage ∧
      requestProposal.extract = .ok ⟨1, .some 0, [9], [[1, 7]], []⟩ ∧
      reshapedProposal.extract =
        .ok ⟨1, .some 0, [0, 0, 0, 1, 0, 0, 0, 2, 1, 7, 9], [], []⟩ := by
  refine ⟨⟨⟨_, rfl⟩, ?_, by decide⟩, ⟨⟨_, rfl⟩, ?_, by decide⟩, by decide, by decide, by decide⟩
  · simp [requestProposal, ProposalPart.Fits, Round.Fits]
  · simp [reshapedProposal, ProposalPart.Fits, Round.Fits]

end Ultramarine
