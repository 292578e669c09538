import Gravioli.Server.Stream

set_option autoImplicit false

/-! # The wire format

What the client makes of the frames the server emits.

With every zmq call succeeding, the stream is one three-frame message for each `IMessage`, and the
client gets back the topic and the payload (`wire_roundTrip`): the framing is
`Multipart.group_stream_of_complete`, the payload is CFB decryption under the IV that was sent
along.

When calls fail, the three frames of a message are sent by three independent calls, and only the IV
and the ciphertext are tied together (`&&` in `cryptAndSendBytes`; the result of the topic send is
ignored). `framesAligned_iff` is the exact condition under which the multipart messages stay aligned
with the `IMessage`s, and `framesAligned_fails` a run in which they do not. -/

namespace Gravioli

open Multipart (group)

variable (aes : BlockCipher) (env : ℕ → SendEnv) (heap : Heap) (batches : List Messages)

/-! ## Sample inputs -/

/-- A block function that masks every byte with the first byte of the key. -/
def sampleCipher : BlockCipher := fun key block => block.map (· ^^^ key.toList.headD 0)

/-- All calls succeed; the IVs differ. -/
def sampleEnv (k : ℕ) : SendEnv where
  iv := Vector.replicate ivBlocksize (BitVec.ofNat 8 k)
  topic := ⟨true, true⟩
  ivCalls := ⟨true, true⟩
  data := ⟨true, true⟩

/-- Message `r` has key `r, r, …` and a payload of `r` bytes. -/
def sampleHeap (r : Ref) : Message where
  key := Vector.replicate keyBlocksize (BitVec.ofNat 8 r)
  data := List.replicate r 255

/-- Two messages for topic 7 (one of no bytes at all), and an empty batch. -/
def sampleBatches : List Messages := [⟨7, [(0, .nullptr), (20, .function)]⟩, ⟨8, []⟩]

/-- The IV of the first message cannot be sent; every other call succeeds. -/
def lostIVEnv (k : ℕ) : SendEnv :=
  if k = 0 then { sampleEnv k with ivCalls := ⟨true, false⟩ } else sampleEnv k

/-! ## Round trip -/

/-- With all calls succeeding an occurrence completes its own three frames. -/
theorem Occurrence.burst_complete {o : Occurrence} (h : o.env.allOk) :
    ∃ c, (o.burst aes).close = some c ∧ (o.burst aes).opens ++ [c] = o.frames aes := by
  unfold SendEnv.allOk at h
  simp only [Bool.and_eq_true] at h
  obtain ⟨⟨ht, hi⟩, hd⟩ := h
  exact ⟨o.cipher aes, by simp [completes, hi, hd], by simp [burst, burstOf, frames, ht, hi]⟩

/-- The client decrypts the three frames of a message that is as it was pushed. -/
theorem Occurrence.client_frames {o : Occurrence} (hheap : o.heap o.slot.ref = heap o.slot.ref) :
    client aes (heap o.slot.ref).key (o.frames aes)
      = some (o.slot.topicID.toNat, (heap o.slot.ref).data) := by
  unfold client frames cipher cipherOf
  simp only [Vector.length_toList, ↓reduceDIte, beValue_topicBytes, hheap, Cfb.toBlock_toList,
    Crypto.decrypt_encryptWith]

/-- With all calls succeeding the frames on the socket are those of the occurrences, three by
    three. -/
theorem group_processAll (hok : ∀ k, (env k).allOk) :
    group (processAll aes env (ServerState.start heap) batches).publisher.frames
      = { done := (occurrences aes env heap batches).map (Occurrence.frames aes), opened := [] } := by
  rw [frames_processAll]
  refine Multipart.group_stream_of_complete _ _ _ ?_
  intro o ho
  obtain ⟨k, hk⟩ := env_of_mem_occurrencesFrom aes env ho
  exact o.burst_complete aes (by rw [hk]; exact hok k)

/-- To compare the slots with their multipart messages is to look at every occurrence. -/
theorem forall₂_slots_frames {R : Slot → List (List Byte) → Prop} :
    List.Forall₂ R (slots batches) ((occurrences aes env heap batches).map (Occurrence.frames aes)) ↔
      ∀ o ∈ occurrences aes env heap batches, R o.slot (o.frames aes) := by
  have hslots : (occurrences aes env heap batches).map Occurrence.slot = slots batches :=
    occurrencesFrom_slot aes env _ _ _
  rw [← hslots, List.forall₂_map_left_iff, List.forall₂_map_right_iff, List.forall₂_same]

/-- **Wire round trip.** If every zmq call succeeds and every message object occurs once, the frame
    stream is exactly one three-frame multipart message per `IMessage`, in order, and the client
    that knows a message's key recovers its topic ID and its payload. -/
theorem wire_roundTrip (hok : ∀ k, (env k).allOk) (hdistinct : ((slots batches).map Slot.ref).Nodup) :
    ∃ multiparts,
      group (processAll aes env (ServerState.start heap) batches).publisher.frames
        = { done := multiparts, opened := [] } ∧
      List.Forall₂
        (fun x m =>
          (∃ topic iv cipher, m = [topic, iv, cipher] ∧ iv.length = ivBlocksize) ∧
          client aes (heap x.ref).key m = some (x.topicID.toNat, (heap x.ref).data))
        (slots batches) multiparts := by
  refine ⟨_, group_processAll aes env heap batches hok, ?_⟩
  rw [forall₂_slots_frames]
  intro o ho
  refine ⟨⟨_, _, _, rfl, by simp⟩, ?_⟩
  exact o.client_frames aes heap (heap_of_mem_occurrencesFrom aes env hdistinct ho)

/-- Two messages for topic 7 and an empty batch: the round trip of a concrete stream. -/
theorem wire_roundTrip_sample :
    ∃ multiparts,
      group (processAll sampleCipher sampleEnv (ServerState.start sampleHeap)
          sampleBatches).publisher.frames = { done := multiparts, opened := [] } ∧
      List.Forall₂
        (fun x m =>
          (∃ topic iv cipher, m = [topic, iv, cipher] ∧ iv.length = ivBlocksize) ∧
          client sampleCipher (sampleHeap x.ref).key m
            = some (x.topicID.toNat, (sampleHeap x.ref).data))
        (slots sampleBatches) multiparts :=
  wire_roundTrip sampleCipher sampleEnv sampleHeap sampleBatches (fun _ => rfl) (by decide)

/-! ## Alignment under failures -/

/-- The framing survives: the completed multipart messages are the three frames of the messages
    whose ciphertext goes out, one after the other. Every completed multipart message ends with such
    a ciphertext, so this says that it consists of exactly the topic, IV and ciphertext of that
    message. -/
def FramesAligned : Prop :=
  (group (processAll aes env (ServerState.start heap) batches).publisher.frames).done
    = ((occurrences aes env heap batches).filter Occurrence.completes).map (Occurrence.frames aes)

instance : Decidable (FramesAligned aes env heap batches) := inferInstanceAs (Decidable (_ = _))

/-- With all calls succeeding everything completes, and in frames of its own. -/
theorem framesAligned_of_allOk (hok : ∀ k, (env k).allOk) : FramesAligned aes env heap batches := by
  unfold FramesAligned
  rw [group_processAll aes env heap batches hok, List.filter_eq_self.2]
  intro o ho
  obtain ⟨k, hk⟩ := env_of_mem_occurrencesFrom aes env ho
  have hall := hok k
  rw [← hk] at hall
  unfold SendEnv.allOk at hall
  simp only [Bool.and_eq_true] at hall
  simp [Occurrence.completes, hall]

/-- The topic of the first message stays open and becomes the first frame of the second one. -/
theorem framesAligned_fails :
    ¬ FramesAligned sampleCipher lostIVEnv sampleHeap [⟨7, [(1, .nullptr), (2, .function)]⟩] := by
  decide +kernel

/-- The topic and IV frames that the occurrences since the last completed message let through. Only
    topics, IVs and the results of the calls are read. -/
def leftOpen (turns : List Occurrence) : List (List Byte) :=
  (turns.rtakeWhile (fun o => !o.completes)).flatMap (fun o =>
    (if o.env.topic.ok then [topicBytes o.slot.topicID] else [])
      ++ (if o.env.ivCalls.ok then [o.env.iv.toList] else []))

/-- Whenever a ciphertext goes out, exactly one frame precedes its IV: the message's own topic with
    nothing left open before it, or one topic frame of the same topic that an earlier message left
    open, its own topic send having failed. -/
def TopicPrecedesIV (turns : List Occurrence) : Prop :=
  ∀ k o, turns[k]? = some o → o.completes →
    (o.env.topic.ok ∧ leftOpen (turns.take k) = []) ∨
    (¬ o.env.topic.ok ∧ leftOpen (turns.take k) = [topicBytes o.slot.topicID])

theorem opened_eq_leftOpen (turns : List Occurrence) :
    (group (Multipart.stream (Occurrence.burst aes) turns)).opened = leftOpen turns := by
  have hnone : (fun o : Occurrence => (o.burst aes).close.isNone) = (fun o => !o.completes) := by
    funext o
    cases h : o.completes <;> simp [h]
  rw [Multipart.opened_stream, hnone]
  rfl

/-- The frames before a sent ciphertext, its own included, are the intended message. -/
theorem open_append_frames_iff {o : Occurrence} (left : List (List Byte)) (hc : o.completes) :
    left ++ (o.burst aes).opens ++ [o.cipher aes] = o.frames aes ↔
      (o.env.topic.ok ∧ left = []) ∨ (¬ o.env.topic.ok ∧ left = [topicBytes o.slot.topicID]) := by
  have hi : o.env.ivCalls.ok = true := by
    unfold Occurrence.completes at hc
    exact (Bool.and_eq_true_iff.1 hc).1
  have hframes : o.frames aes
      = [topicBytes o.slot.topicID] ++ [o.env.iv.toList] ++ [o.cipher aes] := rfl
  have hopens : (o.burst aes).opens
      = (if o.env.topic.ok then [topicBytes o.slot.topicID] else []) ++ [o.env.iv.toList] := by
    simp [Occurrence.burst, burstOf, hi]
  rw [hframes, hopens, ← List.append_assoc left, List.append_left_inj, List.append_left_inj]
  cases o.env.topic.ok <;> simp

/-- **Alignment, exactly.** The multipart messages stay aligned with the `IMessage`s if and only if
    every ciphertext that goes out finds exactly its topic frame open before its IV. -/
theorem framesAligned_iff :
    FramesAligned aes env heap batches ↔ TopicPrecedesIV (occurrences aes env heap batches) := by
  have hfilter : (fun o : Occurrence => (o.burst aes).close.isSome) = Occurrence.completes := by
    funext o
    cases h : o.completes <;> simp [h]
  unfold FramesAligned TopicPrecedesIV
  rw [frames_processAll, ← hfilter, Multipart.done_stream_iff]
  constructor
  · intro h k o hk hc
    replace hc : o.completes = true := by
      rwa [← congrFun hfilter o]
    have := h k o (o.cipher aes) hk (by simp [hc])
    rwa [opened_eq_leftOpen, open_append_frames_iff aes _ hc] at this
  · intro h k o c hk hclose
    have hc : o.completes = true := by
      rw [← congrFun hfilter o]
      simp only [hclose, Option.isSome_some]
    rw [Occurrence.close_burst, if_pos hc, Option.some.injEq] at hclose
    rw [← hclose, opened_eq_leftOpen, open_append_frames_iff aes _ hc]
    exact h k o hk (by simpa using hc)

end Gravioli
