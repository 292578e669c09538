import Gravioli.Crypto
import Mathlib.Logic.Function.Basic

set_option autoImplicit false

/-! # Messages and the queue between worlds and server

An `IMessage *` is a reference into a heap of message objects; the key of an object is constant, its
buffer is overwritten by the encryption. A batch (`IMsgQueue::Messages`) carries references, each
with the custom free function that hands the object over, or none. `SimpleMsgQueue` is a mutex
around a `std::queue`, so each of its operations is one step. -/

namespace Gravioli

/-- A message object: its key, and the bytes `getBufferPointer` and `getSize` describe. -/
structure Message where
  key : Key
  data : List Byte
  deriving DecidableEq

/-- An `IMessage *`. -/
abbrev Ref := ℕ

/-- The objects behind the references. -/
abbrev Heap := Ref → Message

/-- `CustomFreePtr_t`: the null pointer, or a function that deletes the message. -/
inductive CustomFreePtr
  | nullptr
  | function
  deriving DecidableEq, Repr

/-- `Messages::msg_t`. -/
abbrev MsgPair := Ref × CustomFreePtr

/-- `IMsgQueue::Messages`: a batch of messages of one topic. -/
structure Messages where
  topicID : BitVec 32
  msgs : List MsgPair
  deriving DecidableEq

namespace Messages

/-- The default constructor. -/
def empty : Messages := ⟨0, []⟩

/-- The constructor from a `std::size_t`, which is narrowed to the 32 bits of `topicID`. -/
def ofSizeT (id : BitVec 64) (m : List MsgPair) : Messages := ⟨id.setWidth 32, m⟩

/-- The references of a batch. -/
def refs (b : Messages) : List Ref := b.msgs.map Prod.fst

end Messages

/-! ## The queue -/

/-- `SimpleMsgQueue`, oldest batch first. -/
structure SimpleMsgQueue where
  queue : List Messages
  deriving DecidableEq

namespace SimpleMsgQueue

def empty : SimpleMsgQueue := ⟨[]⟩

def push (q : SimpleMsgQueue) (msgs : Messages) : SimpleMsgQueue := ⟨q.queue ++ [msgs]⟩

/-- `pop(msgs)`: the result, the queue afterwards and the out-parameter afterwards. -/
def pop (q : SimpleMsgQueue) (msgs : Messages) : Bool × SimpleMsgQueue × Messages :=
  match q.queue with
  | [] => (false, q, msgs)
  | front :: rest => (true, ⟨rest⟩, front)

/-- A failed pop changes neither the queue nor the out-parameter. -/
theorem pop_eq_of_failed (q : SimpleMsgQueue) (msgs : Messages) (h : (q.pop msgs).1 = false) :
    q.pop msgs = (false, q, msgs) ∧ q.queue = [] := by
  unfold pop at *
  split at h
  · next hq => exact ⟨rfl, hq⟩
  · exact absurd h (by simp)

end SimpleMsgQueue

end Gravioli
