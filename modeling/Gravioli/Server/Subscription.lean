import Gravioli.Server.Wire
import Gravioli.World

set_option autoImplicit false

/-! # Topics and subscriptions

A `SUB` socket receives the messages whose first frame starts with one of the byte strings it
subscribed to. The server's first frame is the topic of the player in four bytes, most significant
byte first; encodings of one width are prefixes of each other only if they are equal, so a
subscription to a topic is exact. -/

namespace Gravioli

open Multipart (group)

/-! ## Encodings of one width -/

/-- The value of an integer type of `n` bytes, signed or unsigned. -/
def intValue {n : ℕ} (signed : Bool) (x : BitVec (8 * n)) : ℤ := if signed then x.toInt else x.toNat

theorem intValue_emod {n : ℕ} (signed : Bool) (x : BitVec (8 * n)) :
    intValue signed x % 2 ^ (8 * n) = x.toNat := by
  have hlt : (x.toNat : ℤ) % 2 ^ (8 * n) = x.toNat := by
    have := x.isLt
    exact Int.emod_eq_of_lt (by omega) (by exact_mod_cast this)
  unfold intValue
  cases signed with
  | false => exact hlt
  | true =>
      have hbmod := Int.bmod_emod (x := x.toNat) (m := 2 ^ (8 * n))
      rw [if_pos rfl, BitVec.toInt_eq_toNat_bmod]
      push_cast at hbmod ⊢
      rw [hbmod, hlt]

theorem beValue_toLittleEndian (n : ℕ) (x : ℤ) :
    (BigEndian.beValue (toLittleEndian n x) : ℤ) = x % 2 ^ (8 * n) := by
  rw [toLittleEndian_eq, BigEndian.beValue_beDigits]

/-- Lists of one length are prefixes of each other only if they are equal. -/
theorem toLittleEndian_isPrefix_iff {n : ℕ} (signed : Bool) (a b : BitVec (8 * n)) :
    toLittleEndian n (intValue signed a) <+: toLittleEndian n (intValue signed b) ↔ a = b := by
  constructor
  · intro h
    have heq := h.eq_of_length (by simp)
    have hvalue : ((a.toNat : ℕ) : ℤ) = b.toNat := by
      calc ((a.toNat : ℕ) : ℤ) = BigEndian.beValue (toLittleEndian n (intValue signed a)) := by
            rw [beValue_toLittleEndian, intValue_emod]
        _ = BigEndian.beValue (toLittleEndian n (intValue signed b)) := by rw [heq]
        _ = b.toNat := by rw [beValue_toLittleEndian, intValue_emod]
    exact BitVec.eq_of_toNat_eq (by exact_mod_cast hvalue)
  · rintro rfl
    exact List.prefix_refl _

theorem topicBytes_isPrefix_iff (T T' : BitVec 32) : topicBytes T <+: topicBytes T' ↔ T = T' :=
  toLittleEndian_isPrefix_iff (n := 4) false T T'

/-! ## Publications and subscribers -/

/-- Messages published for the player with the ID `id`. -/
structure Publication where
  id : CInt
  key : Key
  msgs : List MsgPair

namespace Publication

/-- The player, as `getPlayerById` makes it. -/
def player (pub : Publication) : Player := ⟨pub.id.signExtend 64, pub.key⟩

/-- The batch, as `sendWorldToMsgQueue` makes it. -/
def batch (pub : Publication) : Messages := Messages.ofSizeT pub.player.id pub.msgs

theorem topicID_batch (pub : Publication) : pub.batch.topicID = pub.id :=
  World.setWidth_signExtend pub.id

end Publication

/-- The encoded topic of a player. -/
def topicOf (id : CInt) : List Byte := topicBytes (Messages.ofSizeT (id.signExtend 64) []).topicID

example : topicOf 0 = [0, 0, 0, 0] := by decide

theorem topicOf_eq (id : CInt) : topicOf id = topicBytes id :=
  congrArg topicBytes (World.setWidth_signExtend id)

/-- A `SUB` socket with the subscription `topic` lets a multipart message through. -/
def subscribed (topic : List Byte) (m : List (List Byte)) : Bool :=
  match m with
  | [] => false
  | frame :: _ => topic.isPrefixOf frame

/-- The player each message of a sequence of publications is for. -/
def receivers (pubs : List Publication) : List CInt :=
  pubs.flatMap (fun pub => List.replicate pub.msgs.length pub.id)

theorem topicIDs_slots (pubs : List Publication) :
    (slots (pubs.map Publication.batch)).map Slot.topicID = receivers pubs := by
  induction pubs with
  | nil => rfl
  | cons pub pubs ih =>
      have hbatch : pub.batch.slots.map Slot.topicID = List.replicate pub.msgs.length pub.id := by
        rw [← pub.topicID_batch]
        unfold Messages.slots
        rw [List.map_map]
        exact List.map_const' ..
      unfold slots receivers at ih ⊢
      rw [List.map_cons, List.flatMap_cons, List.flatMap_cons, List.map_append, ih, hbatch]

variable (aes : BlockCipher) (env : ℕ → SendEnv) (heap : Heap) (pubs : List Publication)

/-- The turns of the messages published, each with the player it is for. -/
def turns : List (CInt × Occurrence) :=
  (receivers pubs).zip (occurrences aes env heap (pubs.map Publication.batch))

theorem turns_eq :
    turns aes env heap pubs = (occurrences aes env heap (pubs.map Publication.batch)).map
      (fun o => (o.slot.topicID, o)) := by
  have hslots : (occurrences aes env heap (pubs.map Publication.batch)).map Occurrence.slot
      = slots (pubs.map Publication.batch) := occurrencesFrom_slot aes env _ _ _
  unfold turns
  rw [← topicIDs_slots, ← hslots, List.map_map]
  exact List.map_prod_right_eq_zip.symm

theorem subscribed_frames (id : CInt) (o : Occurrence) :
    subscribed (topicOf id) (o.frames aes) = decide (o.slot.topicID = id) := by
  unfold subscribed Occurrence.frames
  rw [topicOf_eq, Bool.eq_iff_iff, List.isPrefixOf_iff_prefix, topicBytes_isPrefix_iff,
    decide_eq_true_eq, eq_comm]

/-- What a `SUB` socket with one subscription receives of the frames on the publisher socket. -/
def received (topic : List Byte) : List (List (List Byte)) :=
  (group (processAll aes env (ServerState.start heap)
    (pubs.map Publication.batch)).publisher.frames).done.filter (subscribed topic)

/-- In an aligned stream a subscriber to the topic of a player receives the messages for this
    player, as far as they were completed, and no others. -/
theorem received_of_aligned (halign : FramesAligned aes env heap (pubs.map Publication.batch))
    (id : CInt) :
    received aes env heap pubs (topicOf id)
      = ((turns aes env heap pubs).filter (fun t => t.1 = id ∧ t.2.completes)).map
          (fun t => t.2.frames aes) := by
  unfold received
  rw [halign, turns_eq, List.filter_map, List.filter_filter, List.filter_map, List.map_map]
  congr 1
  refine List.filter_congr ?_
  intro o _
  simp [subscribed_frames]

/-- **Topics and subscriptions.** For every width and signedness the encoding has as many bytes as
    the integer, denotes it modulo the range of the width when read most significant byte first, and
    is a prefix of another encoding of its type only if the integers are the same; so of a stream
    that is aligned with the messages a subscriber receives exactly those for its player. -/
theorem topicEncoding_exact :
    (∀ (n : ℕ) (signed : Bool) (x : BitVec (8 * n)),
      (toLittleEndian n (intValue signed x)).length = n ∧
        (BigEndian.beValue (toLittleEndian n (intValue signed x)) : ℤ)
          = intValue signed x % 2 ^ (8 * n)) ∧
    (∀ (n : ℕ) (signed : Bool) (a b : BitVec (8 * n)),
      toLittleEndian n (intValue signed a) <+: toLittleEndian n (intValue signed b) ↔ a = b) ∧
    (FramesAligned aes env heap (pubs.map Publication.batch) →
      ∀ id : CInt, received aes env heap pubs (topicOf id)
        = ((turns aes env heap pubs).filter (fun t => t.1 = id ∧ t.2.completes)).map
            (fun t => t.2.frames aes)) := by
  refine ⟨?_, ?_, received_of_aligned aes env heap pubs⟩
  · intro n signed x
    exact ⟨length_toLittleEndian n _, beValue_toLittleEndian n _⟩
  · intro n signed a b
    exact toLittleEndian_isPrefix_iff signed a b

/-- Three publications for two players. -/
def samplePublications : List Publication :=
  [⟨7, Vector.replicate keyBlocksize 1, [(1, .nullptr), (2, .function)]⟩,
    ⟨-7, Vector.replicate keyBlocksize 3, [(3, .function)]⟩,
    ⟨7, Vector.replicate keyBlocksize 1, [(1, .nullptr)]⟩]

theorem topicEncoding_exact_sample :
    ∀ id : CInt, received sampleCipher sampleEnv sampleHeap samplePublications (topicOf id)
      = ((turns sampleCipher sampleEnv sampleHeap samplePublications).filter
          (fun t => t.1 = id ∧ t.2.completes)).map (fun t => t.2.frames sampleCipher) :=
  (topicEncoding_exact sampleCipher sampleEnv sampleHeap samplePublications).2.2
    (framesAligned_of_allOk sampleCipher sampleEnv sampleHeap _ (fun _ => rfl))

end Gravioli
