import Mathlib.Data.List.ReduceOption
import Ultramarine.App.Run

/-!
# Delivering proposal streams

A node hears messages of many streams, from many peers, in any order and more than once. The map of
`consensus/src/streaming.rs` keeps the streams apart (`insertAll_at`), so what comes out of a stream is
what the messages of that stream make of one entry.

`proposal_emitted_once`: a stream of `stream_proposal` comes out once, complete and in order, with the
message that was missing last. It is the note of the sequences seen that makes it once: `insert` takes
`init_info` when the proposal comes out, so the entry is not removed, and what arrives later is dropped
as a duplicate.
-/

namespace Ultramarine

open Lib

/-- A message, and the peer it comes from. -/
abbrev Delivery := PeerId × StreamMessage

/-- The stream a delivery belongs to. -/
def Delivery.key (d : Delivery) : StreamKey := ⟨d.1, d.2.streamId⟩

/-- Deliveries one after the other: the map, and what comes out at each. -/
def PartStreamsMap.insertAll (streams : PartStreamsMap) :
    List Delivery → PartStreamsMap × List (Option ProposalParts)
  | [] => (streams, [])
  | d :: ds =>
    let r := PartStreamsMap.insert streams d.1 d.2
    let rest := insertAll r.1 ds
    (rest.1, r.2 :: rest.2)

/-- The messages of one stream, in the order of their delivery. -/
def messagesOf (key : StreamKey) (ds : List Delivery) : List StreamMessage :=
  (ds.filter fun d => d.key = key).map (·.2)

/-- What comes out at the deliveries of one stream. -/
def PartStreamsMap.outputsOf (streams : PartStreamsMap) (key : StreamKey) (ds : List Delivery) :
    List (Option ProposalParts) :=
  ((ds.zip (streams.insertAll ds).2).filter fun x => x.1.key = key).map (·.2)

/-- The messages of one stream on its own entry. -/
def StreamState.receiveAll (entry : Option StreamState) :
    List StreamMessage → Option StreamState × List (Option ProposalParts)
  | [] => (entry, [])
  | m :: ms =>
    let r := StreamState.receive entry m
    let rest := receiveAll r.1 ms
    (rest.1, r.2 :: rest.2)

/-! ## Streams are kept apart -/

section Apart

variable {streams : PartStreamsMap} {key : StreamKey}

/-- A message changes the entry of its stream and no other. -/
theorem PartStreamsMap.getElem?_insert (d : Delivery) :
    (PartStreamsMap.insert streams d.1 d.2).1[key]? =
      if d.key = key then (StreamState.receive streams[d.key]? d.2).1 else streams[key]? := by
  rw [PartStreamsMap.insert_eq]
  unfold Delivery.key
  cases (StreamState.receive streams[StreamKey.mk d.1 d.2.streamId]? d.2).1 with
  | none =>
    dsimp only
    rw [Table.getElem?_erase_eq]
  | some state =>
    dsimp only
    rw [Table.getElem?_insert_eq]

/-- **Streams are independent.** Through any deliveries, the entry of a stream and what comes out of it
are what its own messages make of the entry it had. -/
theorem PartStreamsMap.insertAll_at (ds : List Delivery) :
    ∀ streams : PartStreamsMap, (streams.insertAll ds).1[key]? =
        (StreamState.receiveAll streams[key]? (messagesOf key ds)).1 ∧
      streams.outputsOf key ds = (StreamState.receiveAll streams[key]? (messagesOf key ds)).2 := by
  induction ds with
  | nil =>
    intro streams
    exact ⟨rfl, rfl⟩
  | cons d ds ih =>
    intro streams
    obtain ⟨hentry, houtputs⟩ := ih (PartStreamsMap.insert streams d.1 d.2).1
    rw [PartStreamsMap.getElem?_insert] at hentry houtputs
    by_cases hkey : d.key = key
    · have hmessages : messagesOf key (d :: ds) = d.2 :: messagesOf key ds := by
        simp [messagesOf, hkey]
      have hout : streams.outputsOf key (d :: ds) = (PartStreamsMap.insert streams d.1 d.2).2 ::
          (PartStreamsMap.insert streams d.1 d.2).1.outputsOf key ds := by
        simp [PartStreamsMap.outputsOf, PartStreamsMap.insertAll, hkey]
      have hfirst : (PartStreamsMap.insert streams d.1 d.2).2 =
          (StreamState.receive streams[key]? d.2).2 := by
        rw [PartStreamsMap.insert_eq, ← hkey]
        rfl
      rw [if_pos hkey, hkey] at hentry houtputs
      rw [hmessages, hout, hfirst, houtputs]
      exact ⟨hentry, rfl⟩
    · have hmessages : messagesOf key (d :: ds) = messagesOf key ds := by
        simp [messagesOf, hkey]
      have hout : streams.outputsOf key (d :: ds) =
          (PartStreamsMap.insert streams d.1 d.2).1.outputsOf key ds := by
        simp [PartStreamsMap.outputsOf, PartStreamsMap.insertAll, hkey]
      rw [if_neg hkey] at hentry houtputs
      rw [hmessages, hout, houtputs]
      exact ⟨hentry, rfl⟩

end Apart

/-! ## One stream -/

section One

variable {streamId : Bytes} {i : ProposalInit} {rest : List ProposalPart}

theorem StreamState.receiveAll_concat (m : StreamMessage) (ms : List StreamMessage) :
    ∀ entry : Option StreamState, receiveAll entry (ms ++ [m]) =
      ((receive (receiveAll entry ms).1 m).1,
        (receiveAll entry ms).2 ++ [(receive (receiveAll entry ms).1 m).2]) := by
  induction ms with
  | nil =>
    intro entry
    rfl
  | cons m' ms ih =>
    intro entry
    rw [List.cons_append, receiveAll, ih]
    rfl

theorem StreamState.length_receiveAll (ms : List StreamMessage) :
    ∀ entry : Option StreamState, (receiveAll entry ms).2.length = ms.length := by
  induction ms with
  | nil =>
    intro entry
    rfl
  | cons m ms ih =>
    intro entry
    simp [receiveAll, ih]

/-- Every message of the stream has been delivered. -/
def Complete (messages delivered : List StreamMessage) : Prop := ∀ m ∈ messages, m ∈ delivered

instance {messages delivered : List StreamMessage} : Decidable (Complete messages delivered) :=
  inferInstanceAs (Decidable (∀ m ∈ messages, m ∈ delivered))

/-- The entry of a stream of which the messages `l` have arrived, in this order. -/
structure Arrived (streamId : Bytes) (i : ProposalInit) (rest : List ProposalPart)
    (l : List StreamMessage) (entry : Option StreamState) : Prop where
  nodup : l.Nodup
  mem : ∀ m ∈ l, m ∈ streamMessages streamId (.init i :: rest)
  state : entry.getD .new =
    if l.length = rest.length + 2 then .emitted streamId i rest l else .collected streamId i rest l

namespace Arrived

variable {l : List StreamMessage} {entry : Option StreamState} {m : StreamMessage}

theorem subperm (h : Arrived streamId i rest l entry) :
    l.Subperm (streamMessages streamId (.init i :: rest)) := List.subperm_of_subset h.nodup h.mem

/-- All messages have arrived when there are as many as the stream has. -/
theorem length_iff (h : Arrived streamId i rest l entry) :
    l.length = rest.length + 2 ↔ Complete (streamMessages streamId (.init i :: rest)) l := by
  constructor
  · intro hlen m hm
    exact (h.subperm.perm_of_length_le (by simp [hlen])).mem_iff.2 hm
  · intro hall
    have hle := h.subperm.length_le
    have hge := (List.subperm_of_subset nodup_streamMessages hall).length_le
    simp only [length_streamMessages, List.length_cons] at hle hge
    omega

theorem seen (h : Arrived streamId i rest l entry)
    (hm : m ∈ streamMessages streamId (.init i :: rest)) :
    m.sequence ∈ (entry.getD .new).seenSequences ↔ m ∈ l := by
  rw [← StreamState.mem_seenSequences h.mem hm, h.state]
  split
  · rfl
  · rfl

/-- **One delivery.** A duplicate changes nothing; a new message is kept, and the last one brings the
proposal out. -/
theorem step (h : Arrived streamId i rest l entry)
    (hm : m ∈ streamMessages streamId (.init i :: rest)) :
    ∃ l', Arrived streamId i rest l' (StreamState.receive entry m).1 ∧
      (∀ m', m' ∈ l' ↔ m' ∈ l ∨ m' = m) ∧
      (StreamState.receive entry m).2 =
        if Complete (streamMessages streamId (.init i :: rest)) l' ∧
            ¬ Complete (streamMessages streamId (.init i :: rest)) l
          then some ⟨i.height, i.round, i.proposer, .init i :: rest⟩ else none := by
  by_cases hold : m ∈ l
  · have hreceive : StreamState.receive entry m = (some (entry.getD .new), none) := by
      unfold StreamState.receive
      exact if_pos ((h.seen hm).2 hold)
    rw [hreceive]
    refine ⟨l, ⟨h.nodup, h.mem, h.state⟩, fun m' => ?_, ?_⟩
    · constructor
      · exact .inl
      · rintro (hm' | rfl)
        · exact hm'
        · exact hold
    · rw [if_neg fun hc => hc.2 hc.1]
  · have hnot : l.length ≠ rest.length + 2 := fun hlen => hold (h.length_iff.1 hlen m hm)
    have hnodup : (l ++ [m]).Nodup := by
      rw [List.nodup_append]
      refine ⟨h.nodup, List.nodup_singleton _, ?_⟩
      rintro a ha b hb rfl
      rw [List.mem_singleton.1 hb] at ha
      exact hold ha
    have hmem : ∀ m' ∈ l ++ [m], m' ∈ streamMessages streamId (.init i :: rest) := by
      intro m' hm'
      rcases List.mem_append.1 hm' with hm' | hm'
      · exact h.mem m' hm'
      · rwa [List.mem_singleton.1 hm']
    have hstate := h.state
    rw [if_neg hnot] at hstate
    rw [StreamState.receive_collected hstate (List.subperm_of_subset hnodup hmem)]
    have harrived : Arrived streamId i rest (l ++ [m])
        (if l.length = rest.length + 1 then some (.emitted streamId i rest (l ++ [m]))
          else some (.collected streamId i rest (l ++ [m]))) := by
      refine ⟨hnodup, hmem, ?_⟩
      simp only [List.length_append, List.length_singleton, Nat.add_right_cancel_iff]
      split
      · rfl
      · rfl
    refine ⟨l ++ [m], ?_, fun m' => by simp, ?_⟩
    · rwa [apply_ite Prod.fst]
    · rw [apply_ite Prod.snd]
      simp only [← harrived.length_iff, ← h.length_iff, List.length_append, List.length_singleton,
        Nat.add_right_cancel_iff, hnot, not_false_eq_true, and_true]

end Arrived

/-- **The messages of one stream**, in any order and any number of times. -/
theorem StreamState.receiveAll_stream (ms : List StreamMessage)
    (hms : ∀ m ∈ ms, m ∈ streamMessages streamId (.init i :: rest)) :
    (∃ l, Arrived streamId i rest l (receiveAll none ms).1 ∧ ∀ m, m ∈ l ↔ m ∈ ms) ∧
    (∀ n < ms.length, (receiveAll none ms).2[n]? = some (
      if Complete (streamMessages streamId (.init i :: rest)) (ms.take (n + 1)) ∧
          ¬ Complete (streamMessages streamId (.init i :: rest)) (ms.take n)
        then some ⟨i.height, i.round, i.proposer, .init i :: rest⟩ else none)) ∧
    (receiveAll none ms).2.reduceOption =
      if Complete (streamMessages streamId (.init i :: rest)) ms
        then [⟨i.height, i.round, i.proposer, .init i :: rest⟩] else [] := by
  induction ms using List.reverseRecOn with
  | nil =>
    refine ⟨⟨[], ⟨List.nodup_nil, by simp, ?_⟩, by simp⟩, by simp, ?_⟩
    · rw [if_neg (by simp)]
      simp [receiveAll, StreamState.new, StreamState.collected]
    · rw [if_neg]
      · rfl
      · intro hall
        have hfin : (⟨streamId, rest.length + 1, .fin⟩ : StreamMessage) ∈
            streamMessages streamId (.init i :: rest) := mem_streamMessages.2 (.inr rfl)
        exact absurd (hall _ hfin) List.not_mem_nil
  | append_singleton ms m ih =>
    obtain ⟨⟨l, harrived, hl⟩, hpoint, hlist⟩ := ih fun m' hm' => hms m' (by simp [hm'])
    obtain ⟨l', harrived', hl', hout⟩ := harrived.step (hms m (by simp))
    have hbefore : Complete (streamMessages streamId (.init i :: rest)) l ↔
        Complete (streamMessages streamId (.init i :: rest)) ms := by simp [Complete, hl]
    have hafter : Complete (streamMessages streamId (.init i :: rest)) l' ↔
        Complete (streamMessages streamId (.init i :: rest)) (ms ++ [m]) := by
      simp [Complete, hl', hl]
    have hmono : Complete (streamMessages streamId (.init i :: rest)) ms →
        Complete (streamMessages streamId (.init i :: rest)) (ms ++ [m]) :=
      fun h m' hm' => List.mem_append_left _ (h m' hm')
    simp only [hbefore, hafter] at hout
    rw [receiveAll_concat]
    refine ⟨⟨l', harrived', fun m' => by simp [hl', hl]⟩, ?_, ?_⟩
    · intro n hn
      rw [List.length_append, List.length_singleton] at hn
      by_cases hlast : n < ms.length
      · rw [List.getElem?_append_left (by rwa [length_receiveAll]), hpoint n hlast,
          List.take_append_of_le_length (by omega), List.take_append_of_le_length (by omega)]
      · have hn' : n = ms.length := by omega
        have hfull : (ms ++ [m]).take (n + 1) = ms ++ [m] := List.take_of_length_le (by simp [hn'])
        have hpre : (ms ++ [m]).take n = ms := by rw [hn', List.take_left]
        have hget : ((receiveAll none ms).2 ++ [(receive (receiveAll none ms).1 m).2])[n]? =
            some (receive (receiveAll none ms).1 m).2 := by
          rw [hn', ← length_receiveAll ms none]
          exact List.getElem?_concat_length
        rw [hfull, hpre, hget, hout]
    · rw [List.reduceOption_append, hlist, hout]
      by_cases hb : Complete (streamMessages streamId (.init i :: rest)) ms
      · simp [hb, hmono hb]
      · by_cases ha : Complete (streamMessages streamId (.init i :: rest)) (ms ++ [m])
        · simp [hb, ha]
        · simp [hb, ha]

end One

variable {cfg : Config} {data : Bytes} {m : Machine Disk Memory} {proposer : Address}
  {requests : List Bytes} {sidecars : List BlobSidecar}

/-! ## The streams of a proposer -/

/-- What `stream_proposal` sends. -/
theorem streamProposal_eq {value : LocallyProposedValue} {messages : List StreamMessage}
    {m' : Machine Disk Memory}
    (h : Prog.Returns (streamProposal cfg value data sidecars requests proposer) m messages m') :
    ∃ streamId, messages =
      streamMessages streamId (makeProposalParts cfg value data sidecars requests proposer) := by
  unfold streamProposal at h
  obtain ⟨streamId, _, _, h⟩ := Prog.returns_bind.1 h
  exact ⟨streamId, (Prog.returns_pure.1 h).1.symm⟩

/-- A proposal for a round is streamed under a fresh id. -/
theorem returns_streamProposal {value : LocallyProposedValue} {r : Nat}
    (hround : value.round = .some r) :
    Prog.Returns (streamProposal cfg value data sidecars requests proposer) m
      (streamMessages (beBytes 8 value.height ++ beBytes 4 r ++ beBytes 4 m.mem.streamNonce)
        (makeProposalParts cfg value data sidecars requests proposer))
      ⟨m.disk, { m.mem with streamNonce := m.mem.streamNonce + 1 }⟩ := by
  unfold streamProposal nextStreamId
  rw [hround]
  exact ⟨rfl, rfl⟩

/-- **A proposal comes out once.** The messages of a proposal stream arrive from one peer in any order,
any number of times, among messages of any other streams; the map may hold other streams already.

* At each of the deliveries of this stream, what comes out is the proposal if this delivery completes
  the stream, and nothing otherwise.
* When the stream is complete, the proposal has come out once.
* Every other stream is as if the messages of this one had not been there. -/
theorem proposal_emitted_once {cfg : Config} {value : LocallyProposedValue} {data : Bytes}
    {sidecars : List BlobSidecar} {requests : List Bytes} {proposer : Address}
    {messages : List StreamMessage} {m m' : Machine Disk Memory}
    (hstream : Prog.Returns (streamProposal cfg value data sidecars requests proposer) m messages m')
    {key : StreamKey} {streams : PartStreamsMap} (hnew : streams[key]? = none) {ds : List Delivery}
    (hds : ∀ d ∈ ds, d.key = key → d.2 ∈ messages) :
    (∀ n < (messagesOf key ds).length, (streams.outputsOf key ds)[n]? = some (
      if Complete messages ((messagesOf key ds).take (n + 1)) ∧
          ¬ Complete messages ((messagesOf key ds).take n)
        then some ⟨value.height, value.round, proposer,
          makeProposalParts cfg value data sidecars requests proposer⟩ else none)) ∧
    (Complete messages (messagesOf key ds) → (streams.outputsOf key ds).reduceOption =
      [⟨value.height, value.round, proposer,
        makeProposalParts cfg value data sidecars requests proposer⟩]) ∧
    ∀ other, other ≠ key →
      streams.outputsOf other ds = streams.outputsOf other (ds.filter fun d => d.key ≠ key) ∧
      (streams.insertAll ds).1[other]? =
        (streams.insertAll (ds.filter fun d => d.key ≠ key)).1[other]? := by
  obtain ⟨streamId, rfl⟩ := streamProposal_eq hstream
  -- the first part is the init part, with height, round and proposer
  obtain ⟨rest, hparts⟩ : ∃ rest, makeProposalParts cfg value data sidecars requests proposer =
      .init ⟨value.height, value.round, proposer⟩ :: rest := by
    unfold makeProposalParts unsignedParts
    exact ⟨_, by rw [List.cons_append]⟩
  have hms : ∀ message ∈ messagesOf key ds, message ∈ streamMessages streamId
      (makeProposalParts cfg value data sidecars requests proposer) := by
    intro message hmessage
    obtain ⟨d, hd, rfl⟩ := List.mem_map.1 hmessage
    rw [List.mem_filter] at hd
    exact hds d hd.1 (of_decide_eq_true hd.2)
  rw [hparts] at hms ⊢
  obtain ⟨_, hpoint, hlist⟩ := StreamState.receiveAll_stream _ hms
  rw [(PartStreamsMap.insertAll_at ds streams).2, hnew]
  refine ⟨hpoint, fun hall => by rw [hlist, if_pos hall], fun other hother => ?_⟩
  have hsame : messagesOf other (ds.filter fun d => d.key ≠ key) = messagesOf other ds := by
    unfold messagesOf
    rw [List.filter_filter]
    congr 1
    refine List.filter_congr fun d _ => ?_
    by_cases hd : d.key = other
    · simp [hd, hother]
    · simp [hd]
  obtain ⟨hentry, houtputs⟩ := @PartStreamsMap.insertAll_at other ds streams
  obtain ⟨hentry', houtputs'⟩ :=
    @PartStreamsMap.insertAll_at other (ds.filter fun d => d.key ≠ key) streams
  rw [hsame] at hentry' houtputs'
  exact ⟨houtputs.trans houtputs'.symm, hentry.trans hentry'.symm⟩

namespace Sample

/-- The parts of a proposal of validator 2. -/
def relayedParts : List ProposalPart :=
  makeProposalParts (config 2) ⟨1, .some 0, value (payload 1 0 1 0)⟩ [1, 0, 1, 0] [] [] ⟨2⟩

/-- The id of its first stream. -/
def firstId : Bytes := beBytes 8 1 ++ beBytes 4 0 ++ beBytes 4 0

/-- The stream arrives backwards, and then once more. -/
def relayed : List Delivery :=
  ((streamMessages firstId relayedParts).reverse ++ streamMessages firstId relayedParts).map fun m => (7, m)

theorem key_of_relayed {d : Delivery} (h : d ∈ relayed) :
    d.key = ⟨7, firstId⟩ ∧ d.2 ∈ streamMessages firstId relayedParts := by
  obtain ⟨message, hmessage, rfl⟩ := List.mem_map.1 h
  have hmem : message ∈ streamMessages firstId relayedParts := by simpa using hmessage
  exact ⟨StreamKey.ext rfl (streamId_of_mem hmem), hmem⟩

/-- Nothing is missing. -/
theorem complete_relayed :
    Complete (streamMessages firstId relayedParts) (messagesOf ⟨7, firstId⟩ relayed) := by
  intro message hmessage
  have hd : (7, message) ∈ relayed := List.mem_map.2 ⟨message, by simp [hmessage], rfl⟩
  refine List.mem_map.2 ⟨(7, message), List.mem_filter.2 ⟨hd, ?_⟩, rfl⟩
  exact decide_eq_true (key_of_relayed hd).1

end Sample

open Sample in
/-- A stream that arrives backwards, and then once more. -/
theorem proposal_emitted_once_relayed :
    (PartStreamsMap.outputsOf ∅ ⟨7, firstId⟩ relayed).reduceOption =
      [⟨1, .some 0, ⟨2⟩, relayedParts⟩] :=
  (@proposal_emitted_once (config 2) ⟨1, .some 0, value (payload 1 0 1 0)⟩ [1, 0, 1, 0] [] [] ⟨2⟩
    _ ⟨Disk.empty, Memory.new 1⟩ _ (returns_streamProposal rfl) ⟨7, firstId⟩ ∅ (by simp)
    relayed fun _ hd _ => (key_of_relayed hd).2).2.1 complete_relayed

end Ultramarine
