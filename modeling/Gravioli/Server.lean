import Gravioli.Library.BigEndian
import Gravioli.Library.Multipart
import Gravioli.Message

set_option autoImplicit false

/-! # The server: encrypting batches and sending them over zmq

`server.cpp` and the template of `server.hpp`, function by function. zmq is outside the repository:
whether a call succeeds is chosen by the environment (`ZmqCalls`), a failed call puts no frame on
the socket and takes no ownership, and a successful send appends the frame and, for data handed over
with `zmq_msg_init_data`, makes zmq the owner that will call the free function. A frame is recorded
when it is sent; zmq reads handed-over buffers later, but nothing writes to a buffer after it was
handed over.

`processMsg_eq` is the spec lemma everything else uses: one message contributes one burst of frames
(`burstOf`), and at most its own reference to zmq. -/

namespace Gravioli

open Multipart (Frame Burst)

/-! ## Topic encoding -/

/-- `Server::toLittleEndian` for an integer of `nbytes` bytes: the loop stores the lowest byte at
    the highest index (`>>` on a negative value is an arithmetic shift). -/
def toLittleEndian (nbytes : ℕ) (x : ℤ) : List Byte :=
  (List.range nbytes).foldl
    (fun bytes i => bytes.set (nbytes - 1 - i) (BitVec.ofInt 8 (x >>> (i * 8))))
    (List.replicate nbytes 0)

theorem shiftRight_eq_ediv (x : ℤ) (n : ℕ) : x >>> n = x / 2 ^ n := by
  rw [Int.shiftRight_eq_div_pow]
  push_cast
  rfl

/-- After `k` iterations the `k` last places hold the `k` lowest bytes. -/
theorem toLittleEndian_loop (nbytes : ℕ) (x : ℤ) (k : ℕ) (hk : k ≤ nbytes) :
    (List.range k).foldl
        (fun bytes i => bytes.set (nbytes - 1 - i) (BitVec.ofInt 8 (x >>> (i * 8))))
        (List.replicate nbytes (0 : Byte))
      = List.replicate (nbytes - k) 0 ++ BigEndian.beDigits 8 k x := by
  induction k with
  | zero => simp [BigEndian.beDigits]
  | succ k ih =>
      have hsplit : nbytes - k = nbytes - (k + 1) + 1 := by omega
      have hidx : nbytes - 1 - k = nbytes - (k + 1) := by omega
      rw [List.range_succ, List.foldl_append, ih (by omega)]
      simp only [List.foldl_cons, List.foldl_nil]
      rw [hsplit, hidx, List.replicate_succ', List.append_assoc, List.set_append_right _ _ (by simp)]
      rw [BigEndian.beDigits_succ, shiftRight_eq_ediv, Nat.mul_comm k 8]
      simp [BigEndian.digit]

/-- Despite its name the function writes the most significant byte first. -/
theorem toLittleEndian_eq (nbytes : ℕ) (x : ℤ) :
    toLittleEndian nbytes x = BigEndian.beDigits 8 nbytes x := by
  unfold toLittleEndian
  rw [toLittleEndian_loop nbytes x nbytes (Nat.le_refl _)]
  simp

@[simp] theorem length_toLittleEndian (nbytes : ℕ) (x : ℤ) :
    (toLittleEndian nbytes x).length = nbytes := by
  rw [toLittleEndian_eq, BigEndian.length_beDigits]

example : toLittleEndian 4 256 = [0, 0, 1, 0] := by decide

/-- The topic frame: `toLittleEndian` of a `std::uint32_t`. -/
def topicBytes (topicID : BitVec 32) : List Byte := toLittleEndian 4 topicID.toNat

theorem beValue_topicBytes (topicID : BitVec 32) :
    BigEndian.beValue (topicBytes topicID) = topicID.toNat := by
  have h := BigEndian.beValue_beDigits (w := 8) 4 (topicID.toNat : ℤ)
  rw [← toLittleEndian_eq] at h
  have hlt := topicID.isLt
  unfold topicBytes
  omega

/-! ## zmq -/

/-- Whether the calls of one `sendBytes` succeed, if they are made: `zmq_msg_init_size` or
    `zmq_msg_init_data`, then `zmq_msg_send`. -/
structure ZmqCalls where
  init : Bool
  send : Bool
  deriving DecidableEq, Repr

/-- Both calls succeed. -/
def ZmqCalls.ok (calls : ZmqCalls) : Bool := calls.init && calls.send

/-- A `zmq_msg_t`: its bytes and, for `zmq_msg_init_data`, the hint of its free function. -/
structure ZmqMsg where
  data : List Byte
  hint : Option Ref

/-- The publisher socket: the frames put on it, and the messages zmq owns, whose free function it
    has still to call. -/
structure Publisher where
  frames : List (Frame (List Byte))
  held : List Ref

/-- `INT_MAX`. -/
def intMax : ℕ := 2 ^ 31 - 1

/-- `zmq_msg_send`: the number of bytes (at most `INT_MAX`), or -1. -/
def zmqMsgSend (ok : Bool) (p : Publisher) (msg : ZmqMsg) (more : Bool) : ℤ × Publisher :=
  if ok then
    ((min msg.data.length intMax : ℕ),
      { frames := p.frames ++ [⟨msg.data, more⟩], held := p.held ++ msg.hint.toList })
  else (-1, p)

/-- `static_cast<std::size_t>` of an `int`. -/
def toSizeT (rc : ℤ) : ℕ := (rc % 2 ^ 64).toNat

/-! ## Sending -/

/-- `sendMessage`: succeeds if `zmq_msg_send` reports `size` bytes. -/
def sendMessage (ok : Bool) (p : Publisher) (msg : ZmqMsg) (size : ℕ) (more : Bool) :
    Bool × Publisher :=
  let (rc, p') := zmqMsgSend ok p msg more
  if toSizeT rc ≠ size then (false, p') else (true, p')

/-- `sendBytes` of bytes that zmq copies. -/
def sendBytes (calls : ZmqCalls) (p : Publisher) (bytes : List Byte) (size : ℕ) (more : Bool) :
    Bool × Publisher :=
  if calls.init then sendMessage calls.send p ⟨bytes.take size, none⟩ size more
  else (false, p)

/-- `sendBytes` with a custom free function: the buffer itself is handed to zmq. -/
def sendBytesWithFree (calls : ZmqCalls) (p : Publisher) (bytes : List Byte)
    (customFree : CustomFreePtr) (memOwner : Option Ref) (size : ℕ) (more : Bool) :
    Bool × Publisher :=
  if customFree = .nullptr then sendBytes calls p bytes size more
  else if calls.init then sendMessage calls.send p ⟨bytes.take size, memOwner⟩ size more
  else (false, p)

/-- What the environment decides while one message is processed: the IV the random pool generates
    and the results of the zmq calls for the topic, the IV and the ciphertext. -/
structure SendEnv where
  iv : IV
  topic : ZmqCalls
  ivCalls : ZmqCalls
  data : ZmqCalls

/-- Every zmq call of the environment succeeds. -/
def SendEnv.allOk (e : SendEnv) : Bool := e.topic.ok && e.ivCalls.ok && e.data.ok

/-- The state `Server::process` works on; `sent` counts the messages it went through. -/
structure ServerState where
  heap : Heap
  publisher : Publisher
  sent : ℕ

/-- Encrypt the buffer of `r` in place, send the IV and, only if that succeeded, the buffer. -/
def cryptAndSendBytes (aes : BlockCipher) (env : SendEnv) (s : ServerState) (r : Ref)
    (customFree : CustomFreePtr) (memOwner : Option Ref) (size : ℕ) (more : Bool := false) :
    Bool × ServerState :=
  let (iv, cipher) := Crypto.encrypt aes env.iv (s.heap r).data (s.heap r).key
  let heap := Function.update s.heap r { s.heap r with data := cipher }
  let (ivSent, p) := sendBytes env.ivCalls s.publisher iv.toList ivBlocksize true
  if ivSent then
    let (sent, p') := sendBytesWithFree env.data p cipher customFree memOwner size more
    (sent, { s with heap := heap, publisher := p' })
  else (false, { s with heap := heap, publisher := p })

/-- The body of the loop of `process`. The result of the topic send is ignored, and a failed
    transmission is only logged. -/
def processMsg (aes : BlockCipher) (env : SendEnv) (s : ServerState) (topicID : BitVec 32)
    (msg : MsgPair) : ServerState :=
  let topic := topicBytes topicID
  let (_, p) := sendBytes env.topic s.publisher topic topic.length true
  let container := msg.1
  let customFree := msg.2
  let memOwner := if customFree ≠ .nullptr then some container else none
  let (_, s') := cryptAndSendBytes aes env { s with publisher := p } container customFree memOwner
    (s.heap container).data.length
  { s' with sent := s.sent + 1 }

/-- `Server::process`; message number `k` meets the environment `env k`. -/
def process (aes : BlockCipher) (env : ℕ → SendEnv) (s : ServerState) (popped : Messages) :
    Bool × ServerState :=
  (true, popped.msgs.foldl (fun s msg => processMsg aes (env s.sent) s popped.topicID msg) s)

/-- Processing a sequence of batches, as the inner loop of `Server::loop` does. -/
def processAll (aes : BlockCipher) (env : ℕ → SendEnv) (s : ServerState) (batches : List Messages) :
    ServerState :=
  batches.foldl (fun s popped => (process aes env s popped).2) s

/-- The inner loop of `Server::loop` on a queue nobody else pushes to: pop and process until a pop
    fails. At most one iteration for each batch is needed, and that is the fuel. -/
def loop (aes : BlockCipher) (env : ℕ → SendEnv) :
    ℕ → SimpleMsgQueue → Messages → ServerState → SimpleMsgQueue × ServerState
  | 0, q, _, s => (q, s)
  | fuel + 1, q, popped, s =>
      match q.pop popped with
      | (true, q', popped') => loop aes env fuel q' popped' (process aes env s popped').2
      | (false, q', _) => (q', s)

/-- The loop drains the queue and processes its batches front to back. -/
theorem loop_eq (aes : BlockCipher) (env : ℕ → SendEnv) (q : SimpleMsgQueue) (popped : Messages)
    (s : ServerState) :
    loop aes env q.queue.length q popped s = (⟨[]⟩, processAll aes env s q.queue) := by
  obtain ⟨batches⟩ := q
  induction batches generalizing popped s with
  | nil => rfl
  | cons b batches ih =>
      simp only [List.length_cons, loop, SimpleMsgQueue.pop]
      rw [ih]
      rfl

/-! ## The client -/

/-- `client.py` on one received multipart message: it is unpacked into exactly three frames, the
    topic is read most significant byte first, and the cipher is decrypted with the received IV
    (which has to be one block). -/
def client (aes : BlockCipher) (key : Key) : List (List Byte) → Option (ℕ × List Byte)
  | [topicID, iv, cipher] =>
      if h : iv.length = ivBlocksize then
        some (BigEndian.beValue topicID, Crypto.decrypt aes cipher key (Cfb.toBlock iv h))
      else none
  | _ => none

/-! ## What one message does -/

/-- A frame goes out exactly when both calls succeed. -/
theorem sendBytes_publisher (calls : ZmqCalls) (p : Publisher) (bytes : List Byte) (size : ℕ)
    (more : Bool) (hsize : size = bytes.length) :
    (sendBytes calls p bytes size more).2
      = if calls.ok then { p with frames := p.frames ++ [⟨bytes, more⟩] } else p := by
  subst hsize
  unfold sendBytes sendMessage zmqMsgSend ZmqCalls.ok
  cases calls.init <;> cases calls.send <;> simp <;> split <;> rfl

/-- For the short frames (topic and IV) that is also the result. -/
theorem sendBytes_result (calls : ZmqCalls) (p : Publisher) (bytes : List Byte) (size : ℕ)
    (more : Bool) (hsize : size = bytes.length) (hmax : size ≤ intMax) :
    (sendBytes calls p bytes size more).1 = calls.ok := by
  have hval : intMax = 2147483647 := rfl
  have hok : toSizeT ((min size intMax : ℕ) : ℤ) = size := by
    unfold toSizeT
    rw [Nat.min_eq_left hmax]
    omega
  have hfail : toSizeT (-1) ≠ size := by
    have : toSizeT (-1) = 18446744073709551615 := by decide
    omega
  unfold sendBytes sendMessage zmqMsgSend ZmqCalls.ok
  rw [hsize] at hok hfail ⊢
  rw [List.take_length]
  cases calls.init <;> cases calls.send <;> simp only [if_true, if_false, Bool.false_eq_true, hok,
    ne_eq, hfail, not_true_eq_false, not_false_eq_true, Bool.and_true, Bool.and_false]

/-- With a custom free function the buffer is also handed over to zmq, when both calls succeed. -/
theorem sendBytesWithFree_publisher (calls : ZmqCalls) (p : Publisher) (bytes : List Byte)
    (customFree : CustomFreePtr) (r : Ref) (size : ℕ) (more : Bool) (hsize : size = bytes.length) :
    (sendBytesWithFree calls p bytes customFree
        (if customFree ≠ .nullptr then some r else none) size more).2
      = if calls.ok then
          { frames := p.frames ++ [⟨bytes, more⟩]
            held := p.held ++ (if customFree = .function then [r] else []) }
        else p := by
  unfold sendBytesWithFree
  cases customFree with
  | nullptr => simp [sendBytes_publisher _ _ _ _ _ hsize]
  | function =>
      subst hsize
      unfold sendMessage zmqMsgSend ZmqCalls.ok
      cases calls.init <;> cases calls.send <;> simp <;> split <;> rfl

/-- The bytes `process` leaves in the buffer of `r`. -/
def cipherOf (aes : BlockCipher) (heap : Heap) (iv : IV) (r : Ref) : List Byte :=
  Crypto.encryptWith aes (heap r).data (heap r).key iv

/-- The heap after the buffer of `r` was encrypted in place. -/
def encryptedHeap (aes : BlockCipher) (heap : Heap) (iv : IV) (r : Ref) : Heap :=
  Function.update heap r { heap r with data := cipherOf aes heap iv r }

/-- The frames one message puts on the socket: the topic if its send succeeded, the IV if its send
    succeeded, and the ciphertext if both the IV and the ciphertext went out. -/
def burstOf (aes : BlockCipher) (env : SendEnv) (heap : Heap) (topicID : BitVec 32) (r : Ref) :
    Burst (List Byte) where
  opens := (if env.topic.ok then [topicBytes topicID] else [])
    ++ (if env.ivCalls.ok then [env.iv.toList] else [])
  close := if env.ivCalls.ok && env.data.ok then some (cipherOf aes heap env.iv r) else none

/-- What zmq newly owns after one message. -/
def handedOver (env : SendEnv) (msg : MsgPair) : List Ref :=
  if env.ivCalls.ok && env.data.ok && decide (msg.2 = .function) then [msg.1] else []

/-- **Spec of one iteration of `process`**: one burst of frames, at most one hand-over, and the
    message's own buffer encrypted. -/
theorem processMsg_eq (aes : BlockCipher) (env : SendEnv) (s : ServerState) (topicID : BitVec 32)
    (msg : MsgPair) :
    processMsg aes env s topicID msg =
      { heap := encryptedHeap aes s.heap env.iv msg.1
        publisher :=
          { frames := s.publisher.frames ++ (burstOf aes env s.heap topicID msg.1).parts
            held := s.publisher.held ++ handedOver env msg }
        sent := s.sent + 1 } := by
  obtain ⟨r, customFree⟩ := msg
  have hlen : (s.heap r).data.length
      = (Crypto.encryptWith aes (s.heap r).data (s.heap r).key env.iv).length := by simp
  have hiv : ivBlocksize = env.iv.toList.length := by simp
  have hmax : ivBlocksize ≤ intMax := by decide
  unfold processMsg cryptAndSendBytes Crypto.encrypt
  simp only [sendBytes_publisher _ _ _ _ _ rfl, sendBytes_publisher _ _ _ _ _ hiv,
    sendBytes_result _ _ _ _ _ hiv hmax, sendBytesWithFree_publisher _ _ _ _ _ _ _ hlen,
    encryptedHeap, cipherOf, burstOf, handedOver, Burst.parts]
  cases env.topic.ok <;> cases env.ivCalls.ok <;> cases env.data.ok <;> cases customFree <;>
    simp

end Gravioli
