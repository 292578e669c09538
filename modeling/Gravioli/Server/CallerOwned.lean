import Gravioli.Server.Wire

set_option autoImplicit false

/-! # Messages the caller keeps

A message pushed without a custom free function stays with its caller: zmq gets a copy of the bytes
(`zmq_msg_init_size` and `memcpy`). The encryption, however, has been done before in the buffer of
the message itself, for this way of sending as for the other. So the caller finds the ciphertext in
its message, and sending the message again encrypts the ciphertext.

`undisturbed_iff` follows one buffer through a run; `callerOwnedSurvive_iff` says when callers do
not notice. -/

namespace Gravioli

open Multipart (group)

variable (aes : BlockCipher) (env : ℕ → SendEnv)

/-! ## One buffer -/

/-- The message `r` is as it was whenever it is sent, and at the end. -/
structure Undisturbed (n : ℕ) (heap : Heap) (xs : List Slot) (r : Ref) : Prop where
  turns : ∀ o ∈ occurrencesFrom aes env n heap xs, o.slot.ref = r → o.heap r = heap r
  after : heapAfter aes env n heap xs r = heap r

theorem encryptedHeap_eq_iff (heap : Heap) (iv : IV) (r : Ref) :
    encryptedHeap aes heap iv r r = heap r ↔
      Cfb.Blank (aes (heap r).key) iv (heap r).data := by
  rw [← Cfb.encrypt_eq_self_iff _ Crypto.ivBlocksize_pos]
  unfold encryptedHeap cipherOf Crypto.encryptWith
  rw [Function.update_self]
  constructor
  · intro h
    exact congrArg Message.data h
  · intro h
    rw [h]

/-- A later turn, or the end, shows the buffer as it is now. -/
theorem eq_of_undisturbed {xs : List Slot} {n : ℕ} {heap : Heap} {r : Ref} {m : Message}
    (hturns : ∀ o ∈ occurrencesFrom aes env n heap xs, o.slot.ref = r → o.heap r = m)
    (hafter : heapAfter aes env n heap xs r = m) : heap r = m := by
  induction xs generalizing n heap with
  | nil => exact hafter
  | cons x xs ih =>
      by_cases hx : x.ref = r
      · exact hturns _ List.mem_cons_self hx
      · have hrest := ih (fun o ho => hturns o (List.mem_cons_of_mem _ ho)) hafter
        rwa [encryptedHeap_of_ne aes heap (env n).iv (Ne.symm hx)] at hrest

theorem encryptedHeap_eq_of_cases {heap : Heap} {iv : IV} {x : Slot} {r : Ref}
    (h : x.ref = r → encryptedHeap aes heap iv x.ref r = heap r) :
    encryptedHeap aes heap iv x.ref r = heap r := by
  by_cases hx : x.ref = r
  · exact h hx
  · exact encryptedHeap_of_ne aes heap iv (Ne.symm hx)

/-- One turn: if it is a turn of `r`, it has to leave the buffer alone, because another turn or the
    end is there to see it. -/
theorem undisturbed_cons (x : Slot) (xs : List Slot) (n : ℕ) (heap : Heap) (r : Ref) :
    Undisturbed aes env n heap (x :: xs) r ↔
      (x.ref = r → encryptedHeap aes heap (env n).iv x.ref r = heap r) ∧
        Undisturbed aes env (n + 1) (encryptedHeap aes heap (env n).iv x.ref) xs r := by
  constructor
  · intro h
    have hturns : ∀ o ∈ occurrencesFrom aes env (n + 1)
        (encryptedHeap aes heap (env n).iv x.ref) xs, o.slot.ref = r → o.heap r = heap r :=
      fun o ho => h.turns o (List.mem_cons_of_mem _ ho)
    have hkept := eq_of_undisturbed aes env hturns h.after
    exact ⟨fun _ => hkept, ⟨hkept ▸ hturns, h.after.trans hkept.symm⟩⟩
  · rintro ⟨hx, h⟩
    have hkept := encryptedHeap_eq_of_cases aes hx
    refine ⟨?_, h.after.trans hkept⟩
    intro o ho href
    rcases List.mem_cons.1 ho with rfl | ho
    · rfl
    · exact (h.turns o ho href).trans hkept

theorem undisturbed_iff (xs : List Slot) (n : ℕ) (heap : Heap) (r : Ref) :
    Undisturbed aes env n heap xs r ↔
      ∀ k x, xs[k]? = some x → x.ref = r →
        Cfb.Blank (aes (heap r).key) (env (n + k)).iv (heap r).data := by
  induction xs generalizing n heap with
  | nil =>
      constructor
      · intro _ k x hk
        exact absurd hk (by simp)
      · intro _
        exact ⟨fun o ho => absurd ho List.not_mem_nil, rfl⟩
  | cons x xs ih =>
      rw [undisturbed_cons, ih]
      constructor
      · rintro ⟨hx, h⟩ k y hk href
        cases k with
        | zero =>
            obtain rfl : x = y := by simpa using hk
            subst href
            exact (encryptedHeap_eq_iff aes heap _ _).1 (hx rfl)
        | succ k =>
            have hblank := h k y (by simpa using hk) href
            rwa [encryptedHeap_eq_of_cases aes hx, Nat.add_assoc, Nat.add_comm 1] at hblank
      · intro h
        have hx : x.ref = r → encryptedHeap aes heap (env n).iv x.ref r = heap r := by
          rintro rfl
          exact (encryptedHeap_eq_iff aes heap _ _).2 (h 0 x rfl rfl)
        refine ⟨hx, ?_⟩
        intro k y hk href
        rw [encryptedHeap_eq_of_cases aes hx, Nat.add_assoc, Nat.add_comm 1]
        exact h (k + 1) y (by simpa using hk) href

/-! ## All buffers -/

variable (heap : Heap) (batches : List Messages)

/-- The message `r` is never handed over: it is only pushed without a custom free function. -/
def KeptByCaller (r : Ref) : Prop := ∀ x ∈ slots batches, x.ref = r → x.msg.2 = .nullptr

/-- Callers can go on using the messages they keep. -/
structure CallerOwnedSurvive : Prop where
  /-- Each time such a message occurs, the client gets the payload it had at first, -/
  delivered : ∃ multiparts,
    group (processAll aes env (ServerState.start heap) batches).publisher.frames
      = { done := multiparts, opened := [] } ∧
    List.Forall₂
      (fun x m => KeptByCaller batches x.ref →
        client aes (heap x.ref).key m = some (x.topicID.toNat, (heap x.ref).data))
      (slots batches) multiparts
  /-- and after each call of `process` the caller finds this payload in the buffer. -/
  buffers : ∀ done, done <+: batches → ∀ r, KeptByCaller batches r →
    ((processAll aes env (ServerState.start heap) done).heap r).data = (heap r).data

theorem Message.eq_of_data {m m' : Message} (hkey : m.key = m'.key) (hdata : m.data = m'.data) :
    m = m' := by
  cases m
  cases m'
  simp_all

variable {aes env heap batches}

/-- What the client gets is the buffer as it was at the turn of the message. -/
theorem data_of_client {o : Occurrence} (ho : o ∈ occurrences aes env heap batches)
    (h : client aes (heap o.slot.ref).key (o.frames aes)
      = some (o.slot.topicID.toNat, (heap o.slot.ref).data)) :
    o.heap o.slot.ref = heap o.slot.ref := by
  have hkey := key_of_mem_occurrencesFrom aes env ho o.slot.ref
  have hturn := o.client_frames aes o.heap rfl
  rw [hkey, h] at hturn
  simp only [Option.some.injEq, Prod.mk.injEq, true_and] at hturn
  exact Message.eq_of_data hkey hturn.symm

theorem undisturbed_of_survive (hok : ∀ k, (env k).allOk)
    (h : CallerOwnedSurvive aes env heap batches) {r : Ref} (hr : KeptByCaller batches r) :
    Undisturbed aes env 0 heap (slots batches) r := by
  obtain ⟨multiparts, hgroup, hclient⟩ := h.delivered
  rw [group_processAll aes env heap batches hok, Multipart.Grouped.mk.injEq] at hgroup
  obtain ⟨rfl, -⟩ := hgroup
  rw [forall₂_slots_frames] at hclient
  constructor
  · intro o ho href
    subst href
    exact data_of_client ho (hclient o ho hr)
  · refine Message.eq_of_data (key_heapAfter aes env _ _ _ _) ?_
    rw [← heap_processAll]
    exact h.buffers batches (List.prefix_refl _) r hr

/-- **Messages the caller keeps, exactly.** With every zmq call succeeding, all occurrences are
    delivered and all buffers survive if and only if no occurrence changes anything: the key stream
    that masks the payload is zero. -/
theorem callerOwnedSurvive_iff (hok : ∀ k, (env k).allOk) :
    CallerOwnedSurvive aes env heap batches ↔
      ∀ k x, (slots batches)[k]? = some x → KeptByCaller batches x.ref →
        Cfb.Blank (aes (heap x.ref).key) (env k).iv (heap x.ref).data := by
  constructor
  · intro h k x hk hx
    have hblank := (undisturbed_iff aes env _ _ _ _).1 (undisturbed_of_survive hok h hx) k x hk rfl
    rwa [Nat.zero_add] at hblank
  · intro h
    have hundisturbed : ∀ done, done <+: batches → ∀ r, KeptByCaller batches r →
        Undisturbed aes env 0 heap (slots done) r := by
      rintro done ⟨rest, rfl⟩ r hr
      refine (undisturbed_iff aes env _ _ _ _).2 ?_
      rintro k x hk rfl
      rw [Nat.zero_add]
      refine h k x ?_ hr
      have hlt : k < (slots done).length := (List.getElem?_eq_some_iff.1 hk).1
      unfold slots at hk hlt ⊢
      rw [List.flatMap_append, List.getElem?_append_left hlt, hk]
    refine ⟨⟨_, group_processAll aes env heap batches hok, ?_⟩, ?_⟩
    · rw [forall₂_slots_frames]
      intro o ho hr
      exact o.client_frames aes heap ((hundisturbed _ (List.prefix_refl _) _ hr).turns o ho rfl)
    · intro done hdone r hr
      rw [heap_processAll, (hundisturbed done hdone r hr).after]

/-- A handed-over message, and one whose only byte meets a zero byte of key stream. -/
theorem callerOwnedSurvive_sample :
    CallerOwnedSurvive sampleCipher sampleEnv sampleHeap
      [⟨7, [(20, .function), (1, .nullptr)]⟩] := by
  refine (callerOwnedSurvive_iff (fun _ => rfl)).2 ?_
  intro k x hk hx
  match k with
  | 0 =>
      obtain rfl : Slot.mk 7 (20, .function) = x := by simpa [slots, Messages.slots] using hk
      exact absurd (hx _ (by decide) rfl) (by decide)
  | 1 =>
      obtain rfl : Slot.mk 7 (1, .nullptr) = x := by simpa [slots, Messages.slots] using hk
      exact (Cfb.encrypt_eq_self_iff _ Crypto.ivBlocksize_pos _ _).1 (by decide +kernel)
  | k + 2 => exact absurd hk (by simp [slots, Messages.slots])

/-- A message of one byte is sent under two topics: after the first batch the caller's buffer holds
    another byte, and this byte is what the second batch delivers. -/
theorem callerOwnedSurvive_fails :
    ¬ CallerOwnedSurvive sampleCipher sampleEnv sampleHeap
        [⟨7, [(1, .nullptr)]⟩, ⟨8, [(1, .nullptr)]⟩] := by
  intro h
  have hbuffer := h.buffers [⟨7, [(1, .nullptr)]⟩] (by decide) 1 (by unfold KeptByCaller; decide)
  exact absurd hbuffer (by decide +kernel)

end Gravioli
