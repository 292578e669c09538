import Gravioli.Server

set_option autoImplicit false

/-! # The message stream of the server

A sequence of batches is flattened into message *occurrences*: the topic and the message, the
environment it meets and the heap as it is when the message's turn comes. `processAll_eq` says that
the server's run is a function of this list — the frames are the bursts of the occurrences one after
the other, zmq owns what the occurrences hand over, and the heap evolves by one in-place encryption
for each — so every statement about whole runs of `Server::process` is one about a list. -/

namespace Gravioli

open Multipart (Burst stream)

/-- A message of a batch together with the topic of the batch. -/
structure Slot where
  topicID : BitVec 32
  msg : MsgPair
  deriving DecidableEq

/-- The reference of a slot's message. -/
abbrev Slot.ref (x : Slot) : Ref := x.msg.1

/-- The slots of one batch, front to back. -/
def Messages.slots (b : Messages) : List Slot := b.msgs.map (Slot.mk b.topicID)

@[simp] theorem Messages.length_slots (b : Messages) : b.slots.length = b.msgs.length := by
  simp [slots]

@[simp] theorem Messages.getElem?_slots (b : Messages) (k : ℕ) :
    b.slots[k]? = b.msgs[k]?.map (Slot.mk b.topicID) := by
  simp [slots]

/-- The slots of a sequence of batches, in the order the server goes through them. -/
def slots (batches : List Messages) : List Slot := batches.flatMap Messages.slots

/-- One message's turn: what is sent, the environment it meets and the heap at that moment. -/
structure Occurrence where
  slot : Slot
  env : SendEnv
  heap : Heap

/-- The turns of a list of slots, the first of which is message number `n`. -/
def occurrencesFrom (aes : BlockCipher) (env : ℕ → SendEnv) : ℕ → Heap → List Slot → List Occurrence
  | _, _, [] => []
  | n, heap, x :: xs =>
      ⟨x, env n, heap⟩ :: occurrencesFrom aes env (n + 1) (encryptedHeap aes heap (env n).iv x.ref) xs

/-- The heap after the turns of a list of slots. -/
def heapAfter (aes : BlockCipher) (env : ℕ → SendEnv) : ℕ → Heap → List Slot → Heap
  | _, heap, [] => heap
  | n, heap, x :: xs => heapAfter aes env (n + 1) (encryptedHeap aes heap (env n).iv x.ref) xs

namespace Occurrence

variable (aes : BlockCipher)

/-- The frames the occurrence puts on the socket. -/
def burst (o : Occurrence) : Burst (List Byte) :=
  burstOf aes o.env o.heap o.slot.topicID o.slot.ref

/-- The ciphertext of the occurrence. -/
def cipher (o : Occurrence) : List Byte := cipherOf aes o.heap o.env.iv o.slot.ref

/-- The multipart message the client expects of the occurrence. -/
def frames (o : Occurrence) : List (List Byte) :=
  [topicBytes o.slot.topicID, o.env.iv.toList, o.cipher aes]

/-- The ciphertext goes out: the IV and the ciphertext are both sent. -/
def completes (o : Occurrence) : Bool := o.env.ivCalls.ok && o.env.data.ok

@[simp] theorem close_burst (o : Occurrence) :
    (o.burst aes).close = if o.completes then some (o.cipher aes) else none := rfl

end Occurrence

/-- The state `process` starts from: nothing sent. -/
def ServerState.start (heap : Heap) : ServerState := ⟨heap, ⟨[], []⟩, 0⟩

section Fold

variable (aes : BlockCipher) (env : ℕ → SendEnv)

/-- One turn, with the message number supplying the environment. -/
def serveSlot (s : ServerState) (x : Slot) : ServerState :=
  processMsg aes (env s.sent) s x.topicID x.msg

theorem process_eq_foldl (s : ServerState) (b : Messages) :
    (process aes env s b).2 = b.slots.foldl (serveSlot aes env) s := by
  unfold process Messages.slots
  rw [List.foldl_map]
  rfl

theorem processAll_eq_foldl (s : ServerState) (batches : List Messages) :
    processAll aes env s batches = (slots batches).foldl (serveSlot aes env) s := by
  unfold processAll slots
  induction batches generalizing s with
  | nil => rfl
  | cons b batches ih =>
      rw [List.foldl_cons, ih, process_eq_foldl, List.flatMap_cons, List.foldl_append]

/-- The run over a list of slots, in closed form. -/
theorem foldl_serveSlot (xs : List Slot) (s : ServerState) :
    xs.foldl (serveSlot aes env) s =
      { heap := heapAfter aes env s.sent s.heap xs
        publisher :=
          { frames := s.publisher.frames
              ++ stream (Occurrence.burst aes) (occurrencesFrom aes env s.sent s.heap xs)
            held := s.publisher.held
              ++ (occurrencesFrom aes env s.sent s.heap xs).flatMap
                (fun o => handedOver o.env o.slot.msg) }
        sent := s.sent + xs.length } := by
  induction xs generalizing s with
  | nil => simp [occurrencesFrom, heapAfter, stream]
  | cons x xs ih =>
      rw [List.foldl_cons, ih]
      simp only [serveSlot, processMsg_eq, occurrencesFrom, heapAfter, stream, List.flatMap_cons,
        List.length_cons, List.append_assoc, Occurrence.burst]
      rw [Nat.add_assoc, Nat.add_comm 1]

/-- The turns of a sequence of batches on a fresh server. -/
def occurrences (heap : Heap) (batches : List Messages) : List Occurrence :=
  occurrencesFrom aes env 0 heap (slots batches)

/-- The frames of a whole run. -/
theorem frames_processAll (heap : Heap) (batches : List Messages) :
    (processAll aes env (ServerState.start heap) batches).publisher.frames
      = stream (Occurrence.burst aes) (occurrences aes env heap batches) := by
  rw [processAll_eq_foldl, foldl_serveSlot]
  rfl

/-- The heap at the end of a whole run. -/
theorem heap_processAll (heap : Heap) (batches : List Messages) :
    (processAll aes env (ServerState.start heap) batches).heap
      = heapAfter aes env 0 heap (slots batches) := by
  rw [processAll_eq_foldl, foldl_serveSlot]
  rfl

/-! ## Looking up a turn -/

theorem occurrencesFrom_slot (xs : List Slot) (n : ℕ) (heap : Heap) :
    (occurrencesFrom aes env n heap xs).map Occurrence.slot = xs := by
  induction xs generalizing n heap with
  | nil => rfl
  | cons x xs ih => simp only [occurrencesFrom, List.map_cons, ih]

theorem length_occurrencesFrom (xs : List Slot) (n : ℕ) (heap : Heap) :
    (occurrencesFrom aes env n heap xs).length = xs.length := by
  simpa using congrArg List.length (occurrencesFrom_slot aes env xs n heap)

/-- Message number `k` of the list meets environment `n + k`. -/
theorem occurrencesFrom_getElem? (xs : List Slot) (n k : ℕ) (heap : Heap) {o : Occurrence}
    (h : (occurrencesFrom aes env n heap xs)[k]? = some o) :
    xs[k]? = some o.slot ∧ o.env = env (n + k) := by
  induction xs generalizing n k heap with
  | nil => simp [occurrencesFrom] at h
  | cons x xs ih =>
      cases k with
      | zero =>
          simp only [occurrencesFrom, List.getElem?_cons_zero, Option.some.injEq] at h
          subst h
          exact ⟨rfl, rfl⟩
      | succ k =>
          simp only [occurrencesFrom, List.getElem?_cons_succ] at h ⊢
          obtain ⟨hslot, henv⟩ := ih _ _ _ h
          exact ⟨hslot, by rw [henv, Nat.add_right_comm, Nat.add_assoc]⟩

theorem env_of_mem_occurrencesFrom {xs : List Slot} {n : ℕ} {heap : Heap} {o : Occurrence}
    (h : o ∈ occurrencesFrom aes env n heap xs) : ∃ k, o.env = env k := by
  obtain ⟨k, hk⟩ := List.mem_iff_getElem?.1 h
  exact ⟨n + k, (occurrencesFrom_getElem? aes env xs n k heap hk).2⟩

@[simp] theorem key_encryptedHeap (heap : Heap) (iv : IV) (r r' : Ref) :
    (encryptedHeap aes heap iv r r').key = (heap r').key := by
  unfold encryptedHeap
  by_cases h : r' = r
  · subst h
    simp
  · simp [Function.update_of_ne h]

theorem encryptedHeap_of_ne (heap : Heap) (iv : IV) {r r' : Ref} (h : r' ≠ r) :
    encryptedHeap aes heap iv r r' = heap r' := by
  unfold encryptedHeap
  rw [Function.update_of_ne h]

/-- Keys never change. -/
theorem key_of_mem_occurrencesFrom {xs : List Slot} {n : ℕ} {heap : Heap} {o : Occurrence}
    (h : o ∈ occurrencesFrom aes env n heap xs) (r : Ref) : (o.heap r).key = (heap r).key := by
  induction xs generalizing n heap with
  | nil => simp [occurrencesFrom] at h
  | cons x xs ih =>
      rcases List.mem_cons.1 h with rfl | h
      · rfl
      · rw [ih h, key_encryptedHeap]

theorem key_heapAfter (xs : List Slot) (n : ℕ) (heap : Heap) (r : Ref) :
    (heapAfter aes env n heap xs r).key = (heap r).key := by
  induction xs generalizing n heap with
  | nil => rfl
  | cons x xs ih => rw [heapAfter, ih, key_encryptedHeap]

/-- A message whose reference does not occur earlier is still as it was pushed when its turn
    comes. -/
theorem heap_of_mem_occurrencesFrom {xs : List Slot} {n : ℕ} {heap : Heap} {o : Occurrence}
    (hnodup : (xs.map Slot.ref).Nodup) (h : o ∈ occurrencesFrom aes env n heap xs) :
    o.heap o.slot.ref = heap o.slot.ref := by
  induction xs generalizing n heap with
  | nil => simp [occurrencesFrom] at h
  | cons x xs ih =>
      rw [List.map_cons, List.nodup_cons] at hnodup
      rcases List.mem_cons.1 h with rfl | h
      · rfl
      · have hslot : o.slot ∈ xs := by
          rw [← occurrencesFrom_slot aes env xs (n + 1) (encryptedHeap aes heap (env n).iv x.ref)]
          exact List.mem_map.2 ⟨o, h, rfl⟩
        have hne : o.slot.ref ≠ x.ref := by
          intro he
          exact hnodup.1 (he ▸ List.mem_map.2 ⟨o.slot, hslot, rfl⟩)
        rw [ih hnodup.2 h, encryptedHeap_of_ne aes heap (env n).iv hne]

end Fold

end Gravioli
