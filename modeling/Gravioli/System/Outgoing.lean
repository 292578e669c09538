import Gravioli.System.Conservation

set_option autoImplicit false

/-! # What leaves the server

The only thing that overwrites a buffer is the encryption, and by the ledger the message that was
just encrypted is in no other place. So a message in transit is still as it was made
(`intact_of_reach`), and what the server puts on the wire for it is the topic of the player it was
made for and the encryption of what was serialized for this player, under this player's key
(`outgoing_of_reach`). -/

namespace Gravioli

namespace System

universe u

open Multipart (group)

section Records

variable {ι : Type u}

/-- The message of the slot is the one made in the allocation `c`, for the player of the slot's
    topic. -/
def MadeIn (s : System ι) (x : Slot) (c : Creation ι) : Prop :=
  s.created[x.ref]? = some c ∧ x.topicID = c.player.id.setWidth 32

theorem MadeIn.mono {s s' : System ι} {x : Slot} {c : Creation ι} (h : MadeIn s x c)
    (hcreated : s.created <+: s'.created) : MadeIn s' x c :=
  ⟨getElem?_mono hcreated h.1, h.2⟩

/-- The message of the slot is still as it was made. -/
def Intact (s : System ι) (x : Slot) : Prop := ∃ c, MadeIn s x c ∧ s.server.heap x.ref = c.message

/-- The multipart message is the topic of the slot, an IV and the encryption under it of the message
    as it was made. -/
def Carries (aes : BlockCipher) (s : System ι) (x : Slot) (m : List (List Byte)) : Prop :=
  ∃ c iv, MadeIn s x c ∧
    m = [topicBytes x.topicID, iv.toList, Crypto.encryptWith aes c.message.data c.message.key iv]

theorem Carries.mono {aes : BlockCipher} {s s' : System ι} {x : Slot} {m : List (List Byte)}
    (h : Carries aes s x m) (hcreated : s.created <+: s'.created) : Carries aes s' x m := by
  obtain ⟨c, iv, hmade, hm⟩ := h
  exact ⟨c, iv, hmade.mono hcreated, hm⟩

/-- What is in transit is in a place of its own, not with zmq and not lost. -/
theorem InTransit.place {s : System ι} {x : Slot} (h : InTransit s x) :
    ∃ p : Place ι, x.ref ∈ s.contents p ∧ p ≠ .inr .zmq ∧ p ≠ .inr .abandoned := by
  have hmem : ∀ {xs : List Slot}, x ∈ xs → x.ref ∈ refs xs := fun hx =>
    Multiset.mem_coe.2 (List.mem_map_of_mem hx)
  rcases h with ⟨w, hx⟩ | hx | hx
  · exact ⟨.inl w, hmem hx, by simp, by simp⟩
  · exact ⟨.inr .queue, hmem hx, by simp, by simp⟩
  · exact ⟨.inr .server, hmem hx, by simp, by simp⟩

end Records

variable {ι : Type u} [Fintype ι] [DecidableEq ι] {lib : JsonLib} {aes : BlockCipher}
  {s s' : System ι} {ok : System ι → Event ι → Prop}

/-! ## Messages in transit are intact -/

/-- The message just sent is not in transit any more. -/
theorem ref_ne_of_sent (h : (machine lib aes).Reach ok s) {env : SendEnv}
    (hmove : Moves lib aes s (.server (.send env)) s') {popped : Messages} {msg : MsgPair}
    {rest : List MsgPair} (hpc : s.serverPc = .processing popped (msg :: rest)) {x : Slot}
    (hx : InTransit s' x) : x.ref ≠ msg.1 := by
  have hfunction : ∀ y, InTransit s y → y.msg.2 = .function := fun y hy => function_of_inTransit h hy
  have hbal : Balanced s' := (balanced_of_reach h).transfer (transfer_of_moves hmove hfunction)
  obtain ⟨p, hp, hzmq, habandoned⟩ := hx.place
  intro heq
  rw [heq] at hp
  cases hmove with
  | send env' popped' msg' rest' hpc' =>
      rw [hpc] at hpc'
      obtain ⟨rfl, rfl, rfl⟩ : popped = popped' ∧ msg = msg' ∧ rest = rest' := by simpa using hpc'
      have hmsg : msg.2 = .function :=
        hfunction ⟨popped.topicID, msg⟩ (Or.inr (Or.inr (by simp [serverHand, hpc])))
      -- zmq has it, or it is lost
      by_cases hok : (env.ivCalls.ok && env.data.ok) = true
      · refine hzmq (Ledger.place_unique hbal.nodup.1 hp (q := .inr .zmq) ?_)
        simp [contents, processMsg_eq, handedOver, hok, hmsg]
      · refine habandoned (Ledger.place_unique hbal.nodup.1 hp (q := .inr .abandoned) ?_)
        simp [contents, notHandedOver, hok, hmsg]

/-- Encrypting another message, or making a new one, does not touch it. -/
theorem Intact.step {e : Event ι} {x : Slot} (h : Intact s x) (hreach : (machine lib aes).Reach ok s)
    (hmove : Moves lib aes s e s') (hx : InTransit s' x) : Intact s' x := by
  obtain ⟨c, hmade, hheap⟩ := h
  refine ⟨c, hmade.mono (created_of_moves hmove), ?_⟩
  cases handling_of_moves hmove with
  | untouched _ _ hsame => rw [hsame.server, hheap]
  | alloc w payload i n player hpc hplayer =>
      have hlt := (List.getElem?_eq_some_iff.1 hmade.1).1
      show Function.update _ _ _ _ = _
      rw [Function.update_of_ne (ne_of_lt hlt), hheap]
  | send env popped msg rest hpc =>
      have hne := ref_ne_of_sent hreach hmove hpc hx
      simp only [processMsg_eq]
      rw [encryptedHeap_of_ne _ _ _ hne, hheap]
  | _ => exact hheap

theorem intact_of_reach (h : (machine lib aes).Reach ok s) {x : Slot} (hx : InTransit s x) :
    Intact s x := by
  refine forall_inTransit (P := Intact) ?_ ?_ h hx
  · intro s w i n player payload
    exact ⟨⟨w, player, (s.worlds w).ticks.length - 1, (s.worlds w).provider.installed.length,
      ⟨player.key, payload⟩⟩, ⟨by simp [nextSlot, allocNewMsg], rfl⟩, by simp [nextSlot, allocNewMsg]⟩
  · intro s e s' x hreach _ hintact hmove hx
    exact hintact.step hreach hmove hx

/-! ## The wire -/

/-- When all calls succeed, one message is one complete multipart message. -/
theorem group_processMsg (aes : BlockCipher) {env : SendEnv} (hok : env.allOk) (st : ServerState)
    (topicID : BitVec 32) (msg : MsgPair) (hopened : (group st.publisher.frames).opened = []) :
    group (processMsg aes env st topicID msg).publisher.frames =
      { done := (group st.publisher.frames).done
          ++ [[topicBytes topicID, env.iv.toList, cipherOf aes st.heap env.iv msg.1]]
        opened := [] } := by
  unfold SendEnv.allOk at hok
  simp only [Bool.and_eq_true] at hok
  obtain ⟨⟨ht, hi⟩, hd⟩ := hok
  simp only [processMsg_eq]
  rw [Multipart.group_append_parts]
  simp [Multipart.Grouped.burst, burstOf, ht, hi, hd, hopened]

/-- The messages `sent` are those of the batches popped by the server without what it still has to
    send, and they are on the wire, one complete multipart message each. -/
structure Outgoing (aes : BlockCipher) (s : System ι) (sent : List Slot) : Prop where
  popped : slots (s.processed ++ s.serving) = sent ++ s.serverHand
  opened : (group s.server.publisher.frames).opened = []
  done : List.Forall₂ (Carries aes s) sent (group s.server.publisher.frames).done

omit [Fintype ι] [DecidableEq ι] in
/-- Nothing is sent. -/
theorem Outgoing.same {sent : List Slot} (h : Outgoing aes s sent)
    (hpopped : slots (s'.processed ++ s'.serving) = sent ++ s'.serverHand)
    (hframes : s'.server.publisher.frames = s.server.publisher.frames)
    (hcreated : s.created <+: s'.created) : Outgoing aes s' sent where
  popped := hpopped
  opened := by rw [hframes, h.opened]
  done := by
    rw [hframes]
    exact h.done.imp (fun _ _ hcarries => hcarries.mono hcreated)

theorem Outgoing.step {e : Event ι} {sent : List Slot} (h : Outgoing aes s sent)
    (hreach : (machine lib aes).Reach ok s) (hzmq : zmqOk s e) (hmove : Moves lib aes s e s') :
    ∃ sent', Outgoing aes s' sent' := by
  have hcreated := created_of_moves hmove
  have hpopped := h.popped
  cases handling_of_moves hmove with
  | untouched _ _ hsame =>
      refine ⟨sent, h.same ?_ (by rw [hsame.server]) hcreated⟩
      rw [hsame.popped, hsame.serverHand, hpopped]
  | send env popped msg rest hpc =>
      have hx : InTransit s ⟨popped.topicID, msg⟩ := Or.inr (Or.inr (by simp [serverHand, hpc]))
      obtain ⟨c, hmade, hheap⟩ := intact_of_reach hreach hx
      have hgroup := group_processMsg aes hzmq s.server popped.topicID msg h.opened
      refine ⟨sent ++ [⟨popped.topicID, msg⟩], ?_, ?_, ?_⟩
      · simpa [serving, serverHand, hpc] using hpopped
      · show (group (processMsg _ _ _ _ _).publisher.frames).opened = _
        rw [hgroup]
      · show List.Forall₂ _ _ (group (processMsg _ _ _ _ _).publisher.frames).done
        rw [hgroup]
        refine List.rel_append h.done (.cons ⟨c, env.iv, hmade, ?_⟩ .nil)
        simp only [cipherOf, hheap]
  | take popped front rest hpc hqueue =>
      refine ⟨sent, h.same ?_ rfl hcreated⟩
      simpa [serving, serverHand, hpc, slots, Messages.slots] using hpopped
  | _ => exact ⟨sent, h.same hpopped rfl hcreated⟩

theorem outgoing_of_reach (h : (machine lib aes).Reach ok s) (hzmq : ∀ s e, ok s e → zmqOk s e) :
    ∃ sent, Outgoing aes s sent := by
  induction h using Machine.Reach.induct with
  | init s hinit =>
      obtain ⟨connected, rfl⟩ := hinit
      exact ⟨[], rfl, rfl, .nil⟩
  | step s e s' hreach ih hok hstep =>
      obtain ⟨sent, hsent⟩ := ih
      exact hsent.step hreach (hzmq s e hok) (moves_of_step hstep)

end System

end Gravioli
