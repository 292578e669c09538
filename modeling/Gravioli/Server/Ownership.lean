import Gravioli.Server.Stream

set_option autoImplicit false

/-! # Who frees a message after a transmission

A message with a custom free function is deleted by that function, and `process` never calls it: it
passes it to zmq together with the buffer, in the last of the calls it makes for the message. A
message whose buffer zmq did not accept is therefore owned by nobody once `process` has returned.

`newlyHeld_process` lists what zmq accepted during a call of `process`; `freedAfterwards_iff` is the
exact condition under which no message of the batch is lost. -/

namespace Gravioli

variable (aes : BlockCipher) (env : ℕ → SendEnv)

/-- What zmq accepted, with its free function, between two states of the server. -/
def newlyHeld (s s' : ServerState) : List Ref := s'.publisher.held.drop s.publisher.held.length

/-- The ownership contract of `server.hpp` for one batch: every message with a custom free function
    is accepted by zmq, which is the only one left to call that function. -/
def FreedAfterwards (s : ServerState) (popped : Messages) : Prop :=
  ∀ msg ∈ popped.msgs, msg.2 = .function → msg.1 ∈ newlyHeld s (process aes env s popped).2

instance (s : ServerState) (popped : Messages) : Decidable (FreedAfterwards aes env s popped) :=
  inferInstanceAs (Decidable (∀ msg ∈ popped.msgs, _))

/-- During one call of `process` zmq accepts what the turns of the batch hand over. -/
theorem newlyHeld_process (s : ServerState) (popped : Messages) :
    newlyHeld s (process aes env s popped).2
      = (occurrencesFrom aes env s.sent s.heap popped.slots).flatMap
          (fun o => handedOver o.env o.slot.msg) := by
  unfold newlyHeld
  rw [process_eq_foldl, foldl_serveSlot]
  exact List.drop_left

theorem mem_handedOver {e : SendEnv} {msg : MsgPair} {r : Ref} :
    r ∈ handedOver e msg ↔ (e.ivCalls.ok ∧ e.data.ok) ∧ msg = (r, .function) := by
  obtain ⟨r', customFree⟩ := msg
  unfold handedOver
  cases e.ivCalls.ok <;> cases e.data.ok <;> cases customFree <;> simp [eq_comm]

/-- The turn of message `k` of a batch. -/
theorem exists_turn (s : ServerState) (popped : Messages) {k : ℕ} {msg : MsgPair}
    (hk : popped.msgs[k]? = some msg) :
    ∃ o ∈ occurrencesFrom aes env s.sent s.heap popped.slots,
      o.slot.msg = msg ∧ o.env = env (s.sent + k) := by
  have hlen : k < (occurrencesFrom aes env s.sent s.heap popped.slots).length := by
    rw [length_occurrencesFrom, Messages.length_slots]
    exact (List.getElem?_eq_some_iff.1 hk).1
  have hturn := List.getElem?_eq_getElem hlen
  obtain ⟨hslot, henv⟩ := occurrencesFrom_getElem? aes env _ _ _ _ hturn
  rw [Messages.getElem?_slots, hk, Option.map_some, Option.some.injEq] at hslot
  exact ⟨_, List.getElem_mem hlen, by rw [← hslot], henv⟩

/-- **No leak, exactly.** Every message with a custom free function is deleted after `process` if
    and only if the sends of its IV and of its ciphertext succeed (in one of its places, should a
    batch name the same message twice). The topic send does not matter. -/
theorem freedAfterwards_iff (s : ServerState) (popped : Messages) :
    FreedAfterwards aes env s popped ↔
      ∀ msg ∈ popped.msgs, msg.2 = .function →
        ∃ k, popped.msgs[k]? = some msg ∧
          (env (s.sent + k)).ivCalls.ok ∧ (env (s.sent + k)).data.ok := by
  unfold FreedAfterwards
  rw [newlyHeld_process]
  constructor
  · intro h msg hmsg hfree
    obtain ⟨o, ho, hmem⟩ := List.mem_flatMap.1 (h msg hmsg hfree)
    obtain ⟨hok, hpair⟩ := mem_handedOver.1 hmem
    obtain ⟨k, hk⟩ := List.mem_iff_getElem?.1 ho
    obtain ⟨hslot, henv⟩ := occurrencesFrom_getElem? aes env _ _ _ _ hk
    refine ⟨k, ?_, henv ▸ hok⟩
    rw [Messages.getElem?_slots] at hslot
    obtain ⟨msg', hmsg', hslot⟩ := Option.map_eq_some_iff.1 hslot
    rw [hmsg', Option.some.injEq]
    calc msg' = o.slot.msg := by rw [← hslot]
      _ = (msg.1, .function) := hpair
      _ = msg := by rw [← hfree]
  · intro h msg hmsg hfree
    obtain ⟨k, hk, hok⟩ := h msg hmsg hfree
    obtain ⟨o, ho, hslot, henv⟩ := exists_turn aes env s popped hk
    refine List.mem_flatMap.2 ⟨o, ho, mem_handedOver.2 ⟨henv ▸ hok, ?_⟩⟩
    rw [hslot, ← hfree]

/-- The environment in which the first ciphertext cannot be sent. -/
def lostDataEnv (k : ℕ) : SendEnv where
  iv := Vector.replicate ivBlocksize 0
  topic := ⟨true, true⟩
  ivCalls := ⟨true, true⟩
  data := ⟨true, k ≠ 0⟩

/-- When `zmq_msg_send` fails for the ciphertext, nobody is left to free the message. -/
theorem freedAfterwards_fails :
    ¬ FreedAfterwards (fun _ block => block) lostDataEnv
        (ServerState.start (fun _ => ⟨Vector.replicate keyBlocksize 0, [1]⟩))
        ⟨7, [(0, .function), (1, .function)]⟩ := by
  decide +kernel

end Gravioli
