import Ultramarine.Types.Proposal

/-!
# Reassembling proposal streams

Model of `consensus/src/streaming.rs`. A stream is keyed by the peer that relays it and by its id.
Messages are buffered in any order; once the init part, the `Fin` message and as many messages as
`Fin` announces have arrived, the buffer is drained in order of sequence.

* The binary heap pops by sequence, and `seen_sequences` keeps sequences distinct, so draining is a
  stable sort by sequence.
* `StreamState::insert` takes `init_info` when it emits, so `is_done` is false right after an
  emission: the entry of a complete stream stays in the map.

Results:

* `StreamState.insert_collected`: delivering one more message of a well-formed stream;
* `drain_perm`: a complete stream drains to the parts it was cut from, whatever the order of
  arrival.
-/

namespace Ultramarine

open Lib

/-- `PeerId` -/
abbrev PeerId := Nat

/-- `ProposalParts`: a complete stream. -/
structure ProposalParts where
  height : Height
  round : Round
  proposer : Address
  parts : List ProposalPart
deriving DecidableEq

/-- `StreamContent::as_data` -/
def StreamContent.asData : StreamContent → Option ProposalPart
  | .data part => some part
  | .fin => none

/-- `StreamState` -/
structure StreamState where
  buffer : List StreamMessage
  initInfo : Option ProposalInit
  seenSequences : List Nat
  totalMessages : Nat
  finReceived : Bool
deriving DecidableEq

namespace StreamState

/-- `StreamState::default` -/
def new : StreamState := ⟨[], none, [], 0, false⟩

/-- `MinHeap::drain`: the data of the buffered messages, in order of sequence. -/
def drain (buffer : List StreamMessage) : List ProposalPart :=
  (buffer.insertionSort fun a b => a.sequence ≤ b.sequence).filterMap fun m => m.content.asData

/-- `StreamState::is_done` -/
def isDone (s : StreamState) : Bool :=
  s.initInfo.isSome && s.finReceived && s.buffer.length == s.totalMessages

/-- The bookkeeping of `StreamState::insert`, before it asks whether the stream is done. -/
def push (s : StreamState) (msg : StreamMessage) : StreamState where
  buffer := s.buffer ++ [msg]
  initInfo :=
    if msg.sequence = 0 then msg.content.asData.bind ProposalPart.asInit else s.initInfo
  seenSequences := s.seenSequences
  totalMessages := if msg.content = .fin then msg.sequence + 1 else s.totalMessages
  finReceived := if msg.content = .fin then true else s.finReceived

/-- `StreamState::insert` -/
def insert (s : StreamState) (msg : StreamMessage) : StreamState × Option ProposalParts :=
  let s := s.push msg
  if s.isDone then
    match s.initInfo with
    | some i =>
      ({ s with initInfo := none, buffer := [] },
        some ⟨i.height, i.round, i.proposer, drain s.buffer⟩)
    | none => (s, none)
  else (s, none)

end StreamState

/-- The key of a stream: who relays it, and its id. -/
@[ext]
structure StreamKey where
  peer : PeerId
  streamId : Bytes
deriving DecidableEq

namespace StreamKey

instance : Ord StreamKey := lexOn peer streamId

instance : Std.TransOrd StreamKey := lexOn_transOrd peer streamId

instance : Std.LawfulEqOrd StreamKey :=
  lexOn_lawfulEqOrd peer streamId fun _ _ h h' => StreamKey.ext h h'

end StreamKey

/-- `PartStreamsMap` -/
abbrev PartStreamsMap := Table StreamKey StreamState

/-- `PartStreamsMap::insert`; a sequence that was seen before is dropped. -/
def PartStreamsMap.insert (streams : PartStreamsMap) (peer : PeerId) (msg : StreamMessage) :
    PartStreamsMap × Option ProposalParts :=
  let key : StreamKey := ⟨peer, msg.streamId⟩
  let state := (streams[key]?).getD .new
  if msg.sequence ∈ state.seenSequences then (Std.ExtTreeMap.insert streams key state, none)
  else
    let (state, result) :=
      StreamState.insert { state with seenSequences := msg.sequence :: state.seenSequences } msg
    if state.isDone then (streams.erase key, result)
    else (Std.ExtTreeMap.insert streams key state, result)

/-- What one message does to the entry of its stream. -/
def StreamState.receive (entry : Option StreamState) (msg : StreamMessage) :
    Option StreamState × Option ProposalParts :=
  let state := entry.getD .new
  if msg.sequence ∈ state.seenSequences then (some state, none)
  else
    let r := StreamState.insert { state with seenSequences := msg.sequence :: state.seenSequences } msg
    (if r.1.isDone then none else some r.1, r.2)

/-- The map keeps its streams apart: a message reads and writes the entry of its own stream. -/
theorem PartStreamsMap.insert_eq (streams : PartStreamsMap) (peer : PeerId) (msg : StreamMessage) :
    PartStreamsMap.insert streams peer msg =
      (match (StreamState.receive streams[StreamKey.mk peer msg.streamId]? msg).1 with
        | some state => Std.ExtTreeMap.insert streams ⟨peer, msg.streamId⟩ state
        | none => streams.erase ⟨peer, msg.streamId⟩,
        (StreamState.receive streams[StreamKey.mk peer msg.streamId]? msg).2) := by
  unfold PartStreamsMap.insert StreamState.receive
  dsimp only
  split
  · rfl
  · split
    · rfl
    · rfl

/-- The messages of a stream: its parts in order, then the end marker. -/
def streamMessages (streamId : Bytes) (parts : List ProposalPart) : List StreamMessage :=
  parts.mapIdx (fun i part => ⟨streamId, i, .data part⟩) ++ [⟨streamId, parts.length, .fin⟩]

/-! ## A well-formed stream, delivered in any order -/

section WellFormed

variable {streamId : Bytes} {parts : List ProposalPart}

theorem mem_streamMessages {m : StreamMessage} :
    m ∈ streamMessages streamId parts ↔
      (∃ part, parts[m.sequence]? = some part ∧ m = ⟨streamId, m.sequence, .data part⟩) ∨
        m = ⟨streamId, parts.length, .fin⟩ := by
  unfold streamMessages
  rw [List.mem_append, List.mem_singleton]
  refine or_congr_left ?_
  rw [List.mem_mapIdx]
  constructor
  · rintro ⟨i, hi, rfl⟩
    exact ⟨parts[i], by simp [hi], rfl⟩
  · rintro ⟨part, hget, hm⟩
    obtain ⟨hlt, hpart⟩ := List.getElem?_eq_some_iff.1 hget
    exact ⟨m.sequence, hlt, by rw [hpart]; exact hm.symm⟩

@[simp] theorem length_streamMessages :
    (streamMessages streamId parts).length = parts.length + 1 := by
  simp [streamMessages]

theorem streamId_of_mem {m : StreamMessage} (h : m ∈ streamMessages streamId parts) :
    m.streamId = streamId := by
  rcases mem_streamMessages.1 h with ⟨_, _, hm⟩ | hm <;> rw [hm]

theorem sequence_sorted :
    (streamMessages streamId parts).Pairwise fun a b => a.sequence < b.sequence := by
  unfold streamMessages
  rw [List.pairwise_append]
  refine ⟨?_, List.pairwise_singleton _ _, ?_⟩
  · rw [List.pairwise_iff_getElem]
    intro i j _ _ hij
    simpa using hij
  · intro a ha b hb
    rw [List.mem_singleton] at hb
    obtain ⟨i, hi, rfl⟩ := List.mem_mapIdx.1 ha
    subst hb
    exact hi

/-- Two messages of a stream with one sequence number are the same message. -/
theorem eq_of_sequence {m m' : StreamMessage} (h : m ∈ streamMessages streamId parts)
    (h' : m' ∈ streamMessages streamId parts) (hs : m.sequence = m'.sequence) : m = m' := by
  have hnodup : ((streamMessages streamId parts).map (·.sequence)).Nodup :=
    List.pairwise_map.2 (sequence_sorted.imp fun hlt => ne_of_lt hlt)
  exact List.inj_on_of_nodup_map hnodup h h' hs

theorem nodup_streamMessages : (streamMessages streamId parts).Nodup :=
  sequence_sorted.imp fun {a b} hlt heq => by
    subst heq
    exact absurd hlt (lt_irrefl _)

/-- **Any order of arrival drains to the parts of the stream.** -/
theorem drain_perm {l : List StreamMessage} (h : l.Perm (streamMessages streamId parts)) :
    StreamState.drain l = parts := by
  have htotal : Std.Total fun a b : StreamMessage => a.sequence ≤ b.sequence :=
    ⟨fun a b => le_total a.sequence b.sequence⟩
  have htrans : IsTrans StreamMessage fun a b => a.sequence ≤ b.sequence := ⟨fun _ _ _ => le_trans⟩
  have hsort : (l.insertionSort fun a b => a.sequence ≤ b.sequence) =
      streamMessages streamId parts := by
    have hperm := (List.perm_insertionSort (fun a b : StreamMessage => a.sequence ≤ b.sequence)
      l).trans h
    refine @List.Perm.eq_of_pairwise _ (fun a b : StreamMessage => a.sequence ≤ b.sequence) _ _ ?_
      (List.pairwise_insertionSort _ l) (sequence_sorted.imp fun hlt => le_of_lt hlt) hperm
    intro a b ha hb hab hba
    exact eq_of_sequence (hperm.mem_iff.1 ha) hb (le_antisymm hab hba)
  unfold StreamState.drain
  rw [hsort, streamMessages, List.filterMap_append]
  simp [StreamContent.asData, List.mapIdx_eq_zipIdx_map, List.filterMap_map]

end WellFormed

section Collect

variable (streamId : Bytes) (i : ProposalInit) (rest : List ProposalPart)

/-- The state of a stream of which the messages `l` have arrived and that is not complete yet. -/
def StreamState.collected (l : List StreamMessage) : StreamState where
  buffer := l
  initInfo := if ⟨streamId, 0, .data (.init i)⟩ ∈ l then some i else none
  seenSequences := (l.map (·.sequence)).reverse
  totalMessages := if ⟨streamId, rest.length + 1, .fin⟩ ∈ l then rest.length + 2 else 0
  finReceived := decide (⟨streamId, rest.length + 1, .fin⟩ ∈ l)

/-- The entry a complete stream leaves behind. -/
def StreamState.emitted (l : List StreamMessage) : StreamState :=
  { StreamState.collected streamId i rest l with initInfo := none, buffer := [] }

variable {streamId i rest} {l : List StreamMessage} {m : StreamMessage}

namespace StreamState

theorem sequence_eq_zero (h : m ∈ streamMessages streamId (.init i :: rest)) :
    m.sequence = 0 ↔ m = ⟨streamId, 0, .data (.init i)⟩ := by
  constructor
  · intro h0
    have hfirst : (⟨streamId, 0, .data (.init i)⟩ : StreamMessage) ∈
        streamMessages streamId (.init i :: rest) := mem_streamMessages.2 (.inl ⟨_, rfl, rfl⟩)
    exact eq_of_sequence h hfirst h0
  · rintro rfl
    rfl

theorem content_eq_fin (h : m ∈ streamMessages streamId (.init i :: rest)) :
    m.content = .fin ↔ m = ⟨streamId, rest.length + 1, .fin⟩ := by
  constructor
  · intro hfin
    rcases mem_streamMessages.1 h with ⟨part, _, hm⟩ | hm
    · rw [hm] at hfin
      cases hfin
    · simpa using hm
  · rintro rfl
    rfl

theorem push_collected (h : m ∈ streamMessages streamId (.init i :: rest)) :
    push { collected streamId i rest l with
        seenSequences := m.sequence :: (collected streamId i rest l).seenSequences } m =
      collected streamId i rest (l ++ [m]) := by
  unfold push
  have hfirst : (⟨streamId, 0, .data (.init i)⟩ : StreamMessage) ∈ l ++ [m] ↔
      (⟨streamId, 0, .data (.init i)⟩ : StreamMessage) ∈ l ∨ m.sequence = 0 := by
    rw [List.mem_append, List.mem_singleton, sequence_eq_zero h, eq_comm]
  have hfin : (⟨streamId, rest.length + 1, .fin⟩ : StreamMessage) ∈ l ++ [m] ↔
      (⟨streamId, rest.length + 1, .fin⟩ : StreamMessage) ∈ l ∨ m.content = .fin := by
    rw [List.mem_append, List.mem_singleton, content_eq_fin h, eq_comm]
  have hinit : m.sequence = 0 → m.content.asData.bind ProposalPart.asInit = some i := by
    intro h0
    rw [(sequence_eq_zero h).1 h0]
    rfl
  have htotal : m.content = .fin → m.sequence + 1 = rest.length + 2 := by
    intro hf
    rw [(content_eq_fin h).1 hf]
  unfold collected
  simp only [hfirst, hfin, List.map_append, List.reverse_append, List.map_cons, List.map_nil,
    List.reverse_singleton, List.singleton_append, StreamState.mk.injEq, true_and]
  refine ⟨?_, ?_, ?_⟩
  · by_cases h0 : m.sequence = 0
    · simp [h0, hinit h0]
    · simp [h0]
  · by_cases hf : m.content = .fin
    · simp [hf, htotal hf]
    · simp [hf]
  · by_cases hf : m.content = .fin
    · simp [hf]
    · simp [hf]

/-- A stream of which only some messages have arrived is not done; one that has them all is. -/
theorem isDone_collected (hsub : l.Subperm (streamMessages streamId (.init i :: rest))) :
    (collected streamId i rest l).isDone = decide (l.length = rest.length + 2) := by
  unfold isDone collected
  by_cases hlen : l.length = rest.length + 2
  · have hperm : l.Perm (streamMessages streamId (.init i :: rest)) :=
      hsub.perm_of_length_le (by simp [hlen])
    have hfirst : (⟨streamId, 0, .data (.init i)⟩ : StreamMessage) ∈ l :=
      hperm.mem_iff.2 (mem_streamMessages.2 (.inl ⟨_, rfl, rfl⟩))
    have hfin : (⟨streamId, rest.length + 1, .fin⟩ : StreamMessage) ∈ l :=
      hperm.mem_iff.2 (mem_streamMessages.2 (.inr rfl))
    simp [hfirst, hfin, hlen]
  · by_cases hfin : (⟨streamId, rest.length + 1, .fin⟩ : StreamMessage) ∈ l
    · simp [hfin, hlen]
    · simp [hfin, hlen]

/-- Delivering one more message: nothing comes out before the last one, and then the whole
proposal does. -/
theorem insert_collected
    (hsub : (l ++ [m]).Subperm (streamMessages streamId (.init i :: rest))) :
    insert { collected streamId i rest l with
        seenSequences := m.sequence :: (collected streamId i rest l).seenSequences } m =
      if l.length = rest.length + 1 then
        (emitted streamId i rest (l ++ [m]),
          some ⟨i.height, i.round, i.proposer, .init i :: rest⟩)
      else (collected streamId i rest (l ++ [m]), none) := by
  have hm : m ∈ streamMessages streamId (.init i :: rest) := hsub.subset (by simp)
  unfold insert
  rw [push_collected hm]
  simp only [isDone_collected hsub, List.length_append, List.length_singleton, decide_eq_true_eq,
    Nat.add_right_cancel_iff]
  by_cases hlen : l.length = rest.length + 1
  · have hperm : (l ++ [m]).Perm (streamMessages streamId (.init i :: rest)) :=
      hsub.perm_of_length_le (by simp [hlen])
    have hfirst : (⟨streamId, 0, .data (.init i)⟩ : StreamMessage) ∈ l ++ [m] :=
      hperm.mem_iff.2 (mem_streamMessages.2 (.inl ⟨_, rfl, rfl⟩))
    have hinit : (collected streamId i rest (l ++ [m])).initInfo = some i := if_pos hfirst
    rw [if_pos hlen, if_pos (by omega), hinit]
    simp only [emitted, collected, drain_perm hperm]
  · rw [if_neg hlen, if_neg (by omega)]

/-- A message of the stream that has arrived has its sequence noted. -/
theorem mem_seenSequences (hl : ∀ m' ∈ l, m' ∈ streamMessages streamId (.init i :: rest))
    (hm : m ∈ streamMessages streamId (.init i :: rest)) :
    m.sequence ∈ (collected streamId i rest l).seenSequences ↔ m ∈ l := by
  simp only [collected, List.mem_reverse, List.mem_map]
  constructor
  · rintro ⟨m', hm', hseq⟩
    rwa [← eq_of_sequence (hl m' hm') hm hseq]
  · intro h
    exact ⟨m, h, rfl⟩

/-- Delivering one more message of a well-formed stream. -/
theorem receive_collected {entry : Option StreamState}
    (hentry : entry.getD .new = collected streamId i rest l)
    (hsub : (l ++ [m]).Subperm (streamMessages streamId (.init i :: rest))) :
    receive entry m =
      if l.length = rest.length + 1 then
        (some (emitted streamId i rest (l ++ [m])),
          some ⟨i.height, i.round, i.proposer, .init i :: rest⟩)
      else (some (collected streamId i rest (l ++ [m])), none) := by
  have hnodup : (l ++ [m]).Nodup := by
    obtain ⟨l', hperm, hl'⟩ := hsub
    exact hperm.nodup_iff.1 (nodup_streamMessages.sublist hl')
  have hfresh : m.sequence ∉ (collected streamId i rest l).seenSequences := by
    rw [mem_seenSequences (fun m' hm' => hsub.subset (by simp [hm'])) (hsub.subset (by simp))]
    intro hm
    exact (List.nodup_append.1 hnodup).2.2 _ hm _ (List.mem_singleton.2 rfl) rfl
  unfold receive
  simp only [hentry, if_neg hfresh, insert_collected hsub]
  by_cases hlen : l.length = rest.length + 1
  · simp [hlen, isDone, emitted]
  · simp [hlen, isDone_collected hsub]

end StreamState

/-- Delivering one more message of a well-formed stream to the map. -/
theorem PartStreamsMap.insert_collected {streams : PartStreamsMap} {peer : PeerId}
    (hstate : (streams[StreamKey.mk peer streamId]?).getD .new = .collected streamId i rest l)
    (hsub : (l ++ [m]).Subperm (streamMessages streamId (.init i :: rest))) :
    PartStreamsMap.insert streams peer m =
      if l.length = rest.length + 1 then
        (Std.ExtTreeMap.insert streams ⟨peer, streamId⟩
            (StreamState.emitted streamId i rest (l ++ [m])),
          some ⟨i.height, i.round, i.proposer, .init i :: rest⟩)
      else
        (Std.ExtTreeMap.insert streams ⟨peer, streamId⟩
          (.collected streamId i rest (l ++ [m])), none) := by
  have hid : m.streamId = streamId := streamId_of_mem (hsub.subset (by simp))
  rw [PartStreamsMap.insert_eq, hid, StreamState.receive_collected hstate hsub]
  by_cases hlen : l.length = rest.length + 1
  · simp only [if_pos hlen]
  · simp only [if_neg hlen]

end Collect

end Ultramarine
