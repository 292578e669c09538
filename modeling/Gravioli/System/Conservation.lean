import Gravioli.GravioliWebClient
import Gravioli.Library.Ledger
import Gravioli.System.Transit
import Mathlib.Data.Fintype.Sum
import Mathlib.Tactic.Abel

set_option autoImplicit false

/-! # Conservation of messages

The messages that are allocated and not freed form a ledger (`Library.Ledger`) over the places where
a message can be: the hands of the worlds, the queue, the hand of the server, zmq, and the messages
nobody owns any more because their transmission failed. Whatever a step does, it moves messages
between places, frees one message or allocates one (`transfer_of_moves`); `Balanced` follows for
every reachable state, and everything else from `Balanced`. -/

namespace Gravioli

namespace System

universe u

open Ledger (total)

/-- The owners of messages besides the worlds. -/
inductive Owner
  | queue
  | server
  | zmq
  | abandoned
  deriving DecidableEq

instance : Fintype Owner where
  elems := {.queue, .server, .zmq, .abandoned}
  complete o := by cases o <;> simp

/-- The places where a message can be. -/
abbrev Place (ι : Type u) := ι ⊕ Owner

/-- The messages of some slots. -/
def refs (xs : List Slot) : Multiset Ref := (xs.map Slot.ref : List Ref)

@[simp] theorem refs_nil : refs [] = 0 := rfl

@[simp] theorem refs_append (xs ys : List Slot) : refs (xs ++ ys) = refs xs + refs ys := by
  simp [refs]

@[simp] theorem refs_cons (x : Slot) (xs : List Slot) : refs (x :: xs) = refs xs + {x.ref} := by
  simp [refs, ← Multiset.cons_coe, ← Multiset.singleton_add, add_comm]

section Contents

variable {ι : Type u} {s s' : System ι}

/-- What is where. -/
def contents (s : System ι) : Place ι → Multiset Ref
  | .inl w => refs (s.worlds w).hand
  | .inr .queue => refs (slots s.queue.queue)
  | .inr .server => refs s.serverHand
  | .inr .zmq => (s.server.publisher.held : List Ref)
  | .inr .abandoned => (s.abandoned : List Ref)

theorem contents_of_update [DecidableEq ι] {w : ι} {y : World}
    (hworlds : s'.worlds = Function.update s.worlds w y) {w' : ι} (hne : w' ≠ w) :
    s'.contents (.inl w') = s.contents (.inl w') := by
  simp only [contents]
  rw [hworlds, Function.update_of_ne hne]

/-- What a step does to the ledger. -/
inductive Transfer [Fintype ι] (s s' : System ι) : Prop
  | moved (htotal : total s'.contents = total s.contents)
      (hcounter : s'.currentlyAllocatedMsgInstances = s.currentlyAllocatedMsgInstances)
      (hfreed : s'.freed = s.freed) (hcreated : s'.created = s.created)
  | freed (r : Ref) (htotal : total s.contents = total s'.contents + {r})
      (hcounter : s'.currentlyAllocatedMsgInstances = decrement s.currentlyAllocatedMsgInstances)
      (hfreed : s'.freed = s.freed ++ [r]) (hcreated : s'.created = s.created)
  | allocated (c : Creation ι) (htotal : total s'.contents = total s.contents + {s.created.length})
      (hcounter : s'.currentlyAllocatedMsgInstances = s.currentlyAllocatedMsgInstances + 1)
      (hfreed : s'.freed = s.freed) (hcreated : s'.created = s.created ++ [c])

theorem Transfer.of_untouched [Fintype ι] (h : Untouched s s') : Transfer s s' := by
  refine .moved (congrArg total (funext ?_)) h.counter h.freed h.created
  intro p
  rcases p with w | o
  · simp only [contents, h.hand]
  · cases o <;> simp only [contents, h.queue, h.serverHand, h.server, h.abandoned]

section Balance

variable [Fintype ι]

/-- The ledger is balanced: what is somewhere and what is freed are together what was allocated,
    each once, and the counter counts what is somewhere. -/
structure Balanced (s : System ι) : Prop where
  ledger : total s.contents + (s.freed : List Ref) = Multiset.range s.created.length
  counter : s.currentlyAllocatedMsgInstances = (total s.contents).card

theorem Balanced.start (connected : Bool) : Balanced (System.start connected : System ι) := by
  have hempty : total (System.start connected : System ι).contents = 0 := by
    refine Finset.sum_eq_zero ?_
    intro p _
    rcases p with w | o
    · rfl
    · cases o <;> rfl
  exact ⟨by rw [hempty]; rfl, by rw [hempty]; rfl⟩

theorem Balanced.transfer (h : Balanced s) (ht : Transfer s s') : Balanced s' := by
  cases ht with
  | moved htotal hcounter hfreed hcreated =>
      exact ⟨by rw [htotal, hfreed, hcreated, h.ledger], by rw [hcounter, h.counter, htotal]⟩
  | freed r htotal hcounter hfreed hcreated =>
      constructor
      · rw [hfreed, hcreated, ← h.ledger, htotal, ← Multiset.coe_add, Multiset.coe_singleton]
        abel
      · have hcard : s.currentlyAllocatedMsgInstances = (total s'.contents).card + 1 := by
          rw [h.counter, htotal, Multiset.card_add, Multiset.card_singleton]
        rw [hcounter, hcard]
        rfl
  | allocated c htotal hcounter hfreed hcreated =>
      constructor
      · rw [hfreed, hcreated, htotal, List.length_append, List.length_singleton, Multiset.range_succ,
          ← h.ledger, ← Multiset.singleton_add]
        abel
      · rw [hcounter, h.counter, htotal, Multiset.card_add, Multiset.card_singleton]

theorem Balanced.nodup (h : Balanced s) : (total s.contents).Nodup ∧ s.freed.Nodup ∧
    Disjoint (total s.contents) (s.freed : List Ref) := by
  have hrange := Multiset.nodup_range s.created.length
  rw [← h.ledger, Multiset.nodup_add] at hrange
  obtain ⟨hplaces, hfreed, hdisjoint⟩ := hrange
  exact ⟨hplaces, Multiset.coe_nodup.1 hfreed, hdisjoint⟩

/-- A message that is somewhere counts. -/
theorem Balanced.pos_of_mem (h : Balanced s) {r : Ref} {p : Place ι} (hr : r ∈ s.contents p) :
    0 < s.currentlyAllocatedMsgInstances := by
  rw [h.counter]
  exact Multiset.card_pos_iff_exists_mem.2 ⟨r, Ledger.mem_total.2 ⟨p, hr⟩⟩

end Balance

end Contents

section Shutdown

variable {ι : Type u} [DecidableEq ι] {lib : JsonLib} {aes : BlockCipher} {s : System ι}

/-- When no call fails, nothing is abandoned. -/
theorem abandoned_of_zmqOk (h : (machine lib aes).Reach zmqOk s) : s.abandoned = [] := by
  induction h using Machine.Reach.induct with
  | init s hinit =>
      obtain ⟨connected, rfl⟩ := hinit
      rfl
  | step s e s' hreach ih hok hstep =>
      cases moves_of_step hstep with
      | send env popped msg rest hpc =>
          have hallOk : env.allOk = true := hok
          unfold SendEnv.allOk at hallOk
          simp only [Bool.and_eq_true] at hallOk
          simp [ih, notHandedOver, hallOk.1.2, hallOk.2]
      | _ => exact ih

/-- The last destructor leaves the queue empty. -/
theorem queue_of_destroyed {ok : System ι → Event ι → Prop} (h : (machine lib aes).Reach ok s)
    (hall : ∀ w, (s.worlds w).pc = .destroyed) : s.queue.queue = [] := by
  induction h using Machine.Reach.induct with
  | init s hinit =>
      obtain ⟨connected, rfl⟩ := hinit
      rfl
  | step s e s' hreach ih hok hstep =>
      have hmove := moves_of_step hstep
      by_cases hworld : ∃ w we, e = .world w we
      · -- the thread that made the step ends up destroyed, so it has just found the queue empty
        obtain ⟨w, we, rfl⟩ := hworld
        have hw := hall w
        cases hmove with
        | drained _ popped hpc hqueue => exact hqueue
        | reader _ _ _ hpc => simp [setWorld, hpc] at hw
        | _ => simp [setWorld, allocNewMsg, customFree] at hw
      · have hbefore : ∀ w, (s.worlds w).pc = .destroyed := by
          intro w
          have hsame := (pc_of_moves hmove w).resolve_right (fun h => hworld ⟨w, h⟩)
          rw [← hsame, hall w]
        have hempty := ih hbefore
        cases hmove with
        | take popped front rest hpc hqueue => simp [hempty] at hqueue
        | proceed | leave | pass | wait | reader | gotPlayers | alloc | push | endTick | join
        | destroy | drain | drained | free | skip | freedAll => exact absurd ⟨_, _, rfl⟩ hworld
        | _ => exact hempty

end Shutdown

section Transfer

variable {ι : Type u} [Fintype ι] [DecidableEq ι] {lib : JsonLib} {aes : BlockCipher}
  {s s' : System ι}

/-- **Ledger.** A step moves messages between places, frees one or allocates one. -/
theorem transfer_of_moves {e : Event ι} (hmove : Moves lib aes s e s')
    (hfun : ∀ x, InTransit s x → x.msg.2 = .function) : Transfer s s' := by
  cases handling_of_moves hmove with
  | untouched _ _ h => exact .of_untouched h
  | alloc w payload i n player hpc hplayer =>
      refine .allocated _ (Ledger.total_gain (.inl w) _ ?_ ?_) rfl rfl rfl
      · simp [contents, allocNewMsg, World.hand, hpc, slots_batchFor]
      · intro p hp
        rcases p with w' | o
        · exact contents_of_update rfl (fun hw => hp (congrArg Sum.inl hw))
        · cases o <;> rfl
  | push w i n msgs hpc =>
      refine .moved (Ledger.total_move (refs msgs.slots) (p := .inl w) (q := .inr .queue) (by simp)
        ?_ ?_ ?_) rfl rfl rfl
      · simp [contents, World.hand, hpc]
      · simp [contents, SimpleMsgQueue.push, slots]
      · intro p hp hq
        rcases p with w' | o
        · exact contents_of_update rfl (fun hw => hp (congrArg Sum.inl hw))
        · cases o <;> first | rfl | exact absurd rfl hq
  | drain w popped front rest hpc hqueue =>
      refine .moved (Ledger.total_move (refs front.slots) (p := .inr .queue) (q := .inl w) (by simp)
        ?_ ?_ ?_) rfl rfl rfl
      · simp [contents, hqueue, slots, add_comm]
      · simp [contents, World.hand, hpc, setWorld, Messages.slots]
      · intro p hp hq
        rcases p with w' | o
        · exact contents_of_update rfl (fun hw => hq (congrArg Sum.inl hw))
        · cases o <;> first | rfl | exact absurd rfl hp
  | free w popped r rest hpc =>
      refine .freed r (Ledger.total_gain (.inl w) _ ?_ ?_) rfl rfl rfl
      · simp [contents, customFree, setWorld, World.hand, hpc]
      · intro p hp
        rcases p with w' | o
        · exact (contents_of_update rfl (fun hw => hp (congrArg Sum.inl hw))).symm
        · cases o <;> rfl
  | skip w popped r rest hpc =>
      -- worlds make no such messages
      have hfunction := hfun ⟨popped.topicID, (r, .nullptr)⟩ (Or.inl ⟨w, by simp [World.hand, hpc]⟩)
      exact absurd hfunction (by simp)
  | take popped front rest hpc hqueue =>
      refine .moved (Ledger.total_move (refs front.slots) (p := .inr .queue) (q := .inr .server)
        (by simp) ?_ ?_ ?_) rfl rfl rfl
      · simp [contents, hqueue, slots, add_comm]
      · simp [contents, serverHand, hpc, Messages.slots]
      · intro p hp hq
        rcases p with w' | o
        · rfl
        · cases o <;> first | rfl | exact absurd rfl hp | exact absurd rfl hq
  | send env popped msg rest hpc =>
      have hfunction : msg.2 = .function :=
        hfun ⟨popped.topicID, msg⟩ (Or.inr (Or.inr (by simp [serverHand, hpc])))
      -- zmq takes the message over, or nobody does
      by_cases hok : (env.ivCalls.ok && env.data.ok) = true
      · refine .moved (Ledger.total_move {msg.1} (p := .inr .server) (q := .inr .zmq) (by simp) ?_ ?_ ?_)
          rfl rfl rfl
        · simp [contents, serverHand, hpc]
        · simp [contents, processMsg_eq, handedOver, hok, hfunction, ← Multiset.coe_add]
        · intro p hp hq
          rcases p with w' | o
          · rfl
          · cases o with
            | queue => rfl
            | server => exact absurd rfl hp
            | zmq => exact absurd rfl hq
            | abandoned => simp [contents, notHandedOver, hok]
      · refine .moved (Ledger.total_move {msg.1} (p := .inr .server) (q := .inr .abandoned) (by simp)
          ?_ ?_ ?_) rfl rfl rfl
        · simp [contents, serverHand, hpc]
        · simp [contents, notHandedOver, hok, hfunction, ← Multiset.coe_add]
        · intro p hp hq
          rcases p with w' | o
          · rfl
          · cases o with
            | queue => rfl
            | server => exact absurd rfl hp
            | zmq => simp [contents, processMsg_eq, handedOver, hok]
            | abandoned => exact absurd rfl hq
  | release r hheld =>
      refine .freed r (Ledger.total_gain (.inr .zmq) _ ?_ ?_) rfl rfl rfl
      · have herase := List.perm_cons_erase hheld
        simp only [contents, customFree]
        rw [Multiset.coe_eq_coe.2 herase, ← Multiset.cons_coe, ← Multiset.singleton_add, add_comm]
      · intro p hp
        rcases p with w' | o
        · rfl
        · cases o <;> first | rfl | exact absurd rfl hp

theorem balanced_of_reach {ok : System ι → Event ι → Prop} (h : (machine lib aes).Reach ok s) :
    Balanced s := by
  induction h using Machine.Reach.induct with
  | init s hinit =>
      obtain ⟨connected, rfl⟩ := hinit
      exact Balanced.start connected
  | step s e s' hreach ih hok hstep =>
      exact ih.transfer (transfer_of_moves (moves_of_step hstep)
        (fun x hx => function_of_inTransit hreach hx))

/-- Every message is accounted for, in one state. -/
structure Conserved (lib : JsonLib) (aes : BlockCipher) (s : System ι) : Prop where
  /-- An allocated message that is not freed is in exactly one place, -/
  place : ∀ r, r < s.created.length → r ∉ s.freed → ∃! p, r ∈ s.contents p
  /-- and there once; -/
  once : ∀ p, (s.contents p).Nodup
  /-- nothing else is anywhere. -/
  live : ∀ p, ∀ r ∈ s.contents p, r < s.created.length ∧ r ∉ s.freed
  /-- No message is freed twice. -/
  freedOnce : s.freed.Nodup
  freedAllocated : ∀ r ∈ s.freed, r < s.created.length
  /-- The counter is the number of messages allocated and not freed, -/
  counter : s.currentlyAllocatedMsgInstances + s.freed.length = s.created.length
  /-- and is not zero when a message is freed. -/
  decrement : ∀ e s', (machine lib aes).step s e = some s' → s'.freed ≠ s.freed →
    0 < s.currentlyAllocatedMsgInstances

theorem conserved_of_reach {ok : System ι → Event ι → Prop} (h : (machine lib aes).Reach ok s) :
    Conserved lib aes s := by
  have hbal := balanced_of_reach h
  obtain ⟨hnodup, hfreed, hdisjoint⟩ := hbal.nodup
  have hmem : ∀ r, r ∈ total s.contents ∨ r ∈ s.freed ↔ r < s.created.length := by
    intro r
    rw [← Multiset.mem_range, ← hbal.ledger, Multiset.mem_add, Multiset.mem_coe]
  constructor
  · intro r hr hnot
    exact Ledger.existsUnique_place hnodup (((hmem r).2 hr).resolve_right hnot)
  · exact Ledger.nodup_place hnodup
  · intro p r hr
    have htotal : r ∈ total s.contents := Ledger.mem_total.2 ⟨p, hr⟩
    exact ⟨(hmem r).1 (Or.inl htotal),
      fun hf => Multiset.disjoint_left.1 hdisjoint htotal (Multiset.mem_coe.2 hf)⟩
  · exact hfreed
  · intro r hr
    exact (hmem r).1 (Or.inr hr)
  · rw [hbal.counter, ← Multiset.coe_card s.freed, ← Multiset.card_add, hbal.ledger,
      Multiset.card_range]
  · intro e s' hstep hne
    have htransfer := transfer_of_moves (moves_of_step hstep) (fun x hx => function_of_inTransit h hx)
    cases htransfer with
    | moved _ _ hsame => exact absurd hsame hne
    | allocated _ _ _ hsame => exact absurd hsame hne
    | freed r htotal =>
        rw [hbal.counter, htotal, Multiset.card_add, Multiset.card_singleton]
        exact Nat.succ_pos _

/-! ## After the shutdown -/

/-- Everything is over: the worlds are destroyed, the server has returned, zmq holds nothing. -/
structure Finished (s : System ι) : Prop where
  worlds : ∀ w, (s.worlds w).pc = .destroyed
  server : ∃ rc, s.serverPc = .returned rc
  zmq : s.server.publisher.held = []

theorem total_of_finished (h : (machine lib aes).Reach zmqOk s) (hfin : Finished s) :
    total s.contents = 0 := by
  refine Finset.sum_eq_zero ?_
  intro p _
  rcases p with w | o
  · simp [contents, World.hand, hfin.worlds w]
  · obtain ⟨rc, hserver⟩ := hfin.server
    cases o with
    | queue => simp [contents, queue_of_destroyed h hfin.worlds, slots]
    | server => simp [contents, serverHand, hserver]
    | zmq => simp [contents, hfin.zmq]
    | abandoned => simp [contents, abandoned_of_zmqOk h]

/-- **Conservation.** In every reachable state of every interleaving, with any worlds destroyed and
    any zmq calls failing, every message is accounted for; and when no zmq call failed and
    everything is over, every message was freed exactly once and the counter is 0. -/
theorem messages_conserved :
    (∀ s : System ι, (machine lib aes).Reach Machine.anyLabel s → Conserved lib aes s) ∧
      ∀ s : System ι, (machine lib aes).Reach zmqOk s → Finished s →
        s.freed.Perm (List.range s.created.length) ∧ s.currentlyAllocatedMsgInstances = 0 := by
  refine ⟨fun s h => conserved_of_reach h, ?_⟩
  intro s h hfin
  have hbal := balanced_of_reach h
  have htotal := total_of_finished h hfin
  constructor
  · rw [← Multiset.coe_eq_coe, Multiset.coe_range, ← hbal.ledger, htotal, zero_add]
  · rw [hbal.counter, htotal, Multiset.card_zero]

end Transfer

/-! A run of one world from its first tick to its destruction: both messages of the tick are sent.
-/

def fullRun : List (Event Unit) :=
  refreshEvents gravioliLib GravioliWebClient.get () ++ tickEvents () true [[1, 2], [3]]
    ++ [.server .enter, .server .test] ++ batchEvents sampleEnv 1 ++ batchEvents sampleEnv 1
    ++ stopEvents () ++ [.provider () .test, .world () .test, .world () .join, .server .pop,
      .stopServer, .server .test, .release 1, .world () .destroy, .world () .pop, .release 0]

theorem isSome_fullRun :
    ((machine gravioliLib sampleCipher).exec zmqOk (start true) fullRun).isSome := by
  decide +kernel

/-- The state at the end of `fullRun`. -/
def finalState : System Unit :=
  ((machine gravioliLib sampleCipher).exec zmqOk (start true) fullRun).get isSome_fullRun

theorem reach_finalState : (machine gravioliLib sampleCipher).Reach zmqOk finalState :=
  Machine.reach_of_exec (M := machine gravioliLib sampleCipher) ⟨true, rfl⟩ fullRun isSome_fullRun

theorem finished_finalState : Finished finalState where
  worlds w := by
    cases w
    decide +kernel
  server := ⟨true, by decide +kernel⟩
  zmq := by decide +kernel

/-- The messages of `fullRun`: accounted for, and in the end freed. -/
theorem messages_conserved_fullRun :
    Conserved gravioliLib sampleCipher finalState ∧
      finalState.freed.Perm (List.range finalState.created.length) ∧
      finalState.currentlyAllocatedMsgInstances = 0 :=
  ⟨messages_conserved.1 _ reach_finalState.any,
    messages_conserved.2 _ reach_finalState finished_finalState⟩

end System

end Gravioli
