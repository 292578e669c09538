import Gravioli.System.Moves

set_option autoImplicit false

/-! # Messages in transit

Between its allocation and its transmission a message is in the hand of a world, in a queued batch
or in the hand of the server (or of the destructor of a world). `Handling` lists what a step can do
to messages. A message keeps its slot, that is its topic and its free function, on the way:
`inTransit_of_moves` says that a step brings nothing into transit but the message it allocates, so
what holds of every new message and is never lost holds of every message in transit. -/

namespace Gravioli

/-- An entry of a record stays where it is when the record grows. -/
theorem getElem?_mono {α : Type*} {xs ys : List α} (h : xs <+: ys) {k : ℕ} {a : α}
    (ha : xs[k]? = some a) : ys[k]? = some a := by
  obtain ⟨more, rfl⟩ := h
  rw [List.getElem?_append_left (List.getElem?_eq_some_iff.1 ha).1, ha]

/-- What the thread of a world holds: the batch about to be pushed, or what its destructor
    popped. -/
def World.hand (x : World) : List Slot :=
  match x.pc with
  | .push _ _ msgs => msgs.slots
  | .freeing popped rest => rest.map (Slot.mk popped.topicID)
  | _ => []

namespace System

universe u

variable {ι : Type u}

/-- The batch the server is processing. -/
def serving (s : System ι) : List Messages :=
  match s.serverPc with
  | .processing popped _ => [popped]
  | _ => []

/-- What the server has popped and not sent yet. -/
def serverHand (s : System ι) : List Slot :=
  match s.serverPc with
  | .processing popped rest => rest.map (Slot.mk popped.topicID)
  | _ => []

/-- The message of the slot is on its way to the server. -/
def InTransit (s : System ι) (x : Slot) : Prop :=
  (∃ w, x ∈ (s.worlds w).hand) ∨ x ∈ slots s.queue.queue ∨ x ∈ s.serverHand

variable [DecidableEq ι] {lib : JsonLib} {aes : BlockCipher} {s s' : System ι}

/-! ## What a step does to messages -/

/-- Nothing happens to any message: they are where they were, in the same order. -/
structure Untouched (s s' : System ι) : Prop where
  hand : ∀ w, (s'.worlds w).hand = (s.worlds w).hand
  queue : s'.queue = s.queue
  serverHand : s'.serverHand = s.serverHand
  popped : s'.processed ++ s'.serving = s.processed ++ s.serving
  server : s'.server = s.server
  pushed : s'.pushed = s.pushed
  created : s'.created = s.created
  freed : s'.freed = s.freed
  abandoned : s'.abandoned = s.abandoned
  counter : s'.currentlyAllocatedMsgInstances = s.currentlyAllocatedMsgInstances

/-- A world goes on with the same hand. -/
theorem Untouched.of_setWorld {w : ι} {y : World} (hhand : y.hand = (s.worlds w).hand) :
    Untouched s (s.setWorld w y) where
  hand v := by
    by_cases hv : v = w
    · subst hv
      simp [setWorld, hhand]
    · simp [setWorld, hv]
  queue := rfl
  serverHand := rfl
  popped := rfl
  server := rfl
  pushed := rfl
  created := rfl
  freed := rfl
  abandoned := rfl
  counter := rfl

omit [DecidableEq ι] in
/-- The server goes on with the same hand. -/
theorem Untouched.of_server {pc : ServerPc} {processed : List Messages} {stopped : Bool}
    (hhand : System.serverHand { s with
        serverPc := pc, processed := processed, serverStopped := stopped } = s.serverHand)
    (hpopped : processed
        ++ serving { s with serverPc := pc, processed := processed, serverStopped := stopped }
      = s.processed ++ s.serving) :
    Untouched s { s with serverPc := pc, processed := processed, serverStopped := stopped } where
  hand _ := rfl
  queue := rfl
  serverHand := hhand
  popped := hpopped
  server := rfl
  pushed := rfl
  created := rfl
  freed := rfl
  abandoned := rfl
  counter := rfl

/-- Seen from the messages, the steps are few: most touch none of them, and the others make a
    message, hand it on, or free it. -/
inductive Handling (aes : BlockCipher) (s : System ι) : Event ι → System ι → Prop
  | untouched (e : Event ι) (s' : System ι) (h : Untouched s s') : Handling aes s e s'
  | alloc (w : ι) (payload : List Byte) (i n : ℕ) (player : Player)
      (hpc : (s.worlds w).pc = .iterate i n)
      (hplayer : (s.worlds w).provider.data.players[i]? = some player) :
      Handling aes s (.world w (.alloc payload)) (s.allocNewMsg w i n player payload)
  | push (w : ι) (i n : ℕ) (msgs : Messages) (hpc : (s.worlds w).pc = .push i n msgs) :
      Handling aes s (.world w .push) { s with
        worlds := Function.update s.worlds w { s.worlds w with
          pc := .iterate (i + 1) n
          ticks := World.record (s.worlds w).ticks msgs }
        queue := s.queue.push msgs
        pushed := s.pushed ++ [(w, msgs)] }
  | drain (w : ι) (popped front : Messages) (rest : List Messages)
      (hpc : (s.worlds w).pc = .draining popped) (hqueue : s.queue.queue = front :: rest) :
      Handling aes s (.world w .pop)
        { s.setWorld w { s.worlds w with pc := .freeing front front.msgs } with queue := ⟨rest⟩ }
  | free (w : ι) (popped : Messages) (r : Ref) (rest : List MsgPair)
      (hpc : (s.worlds w).pc = .freeing popped ((r, .function) :: rest)) :
      Handling aes s (.world w .free)
        ((s.setWorld w { s.worlds w with pc := .freeing popped rest }).customFree r)
  | skip (w : ι) (popped : Messages) (r : Ref) (rest : List MsgPair)
      (hpc : (s.worlds w).pc = .freeing popped ((r, .nullptr) :: rest)) :
      Handling aes s (.world w .free) (s.setWorld w { s.worlds w with pc := .freeing popped rest })
  | take (popped front : Messages) (rest : List Messages) (hpc : s.serverPc = .popping popped)
      (hqueue : s.queue.queue = front :: rest) :
      Handling aes s (.server .pop)
        { s with queue := ⟨rest⟩, serverPc := .processing front front.msgs }
  | send (env : SendEnv) (popped : Messages) (msg : MsgPair) (rest : List MsgPair)
      (hpc : s.serverPc = .processing popped (msg :: rest)) :
      Handling aes s (.server (.send env)) { s with
        serverPc := .processing popped rest
        server := processMsg aes env s.server popped.topicID msg
        abandoned := s.abandoned ++ notHandedOver env msg }
  | release (r : Ref) (hheld : r ∈ s.server.publisher.held) :
      Handling aes s (.release r)
        ({ s with
          server := { s.server with
            publisher := { s.server.publisher with held := s.server.publisher.held.erase r } }
        }.customFree r)

theorem handling_of_moves {e : Event ι} (hmove : Moves lib aes s e s') : Handling aes s e s' := by
  cases hmove with
  | stopProvider w => exact .untouched _ _ (.of_setWorld rfl)
  | stop w => exact .untouched _ _ (.of_setWorld rfl)
  | providerTest w => exact .untouched _ _ (.of_setWorld rfl)
  | update w => exact .untouched _ _ (.of_setWorld rfl)
  | reader w => exact .untouched _ _ (.of_setWorld rfl)
  | proceed w hpc => exact .untouched _ _ (.of_setWorld (by simp [World.hand, hpc]))
  | leave w hpc => exact .untouched _ _ (.of_setWorld (by simp [World.hand, hpc]))
  | pass w hpc =>
      exact .untouched _ _ (.of_setWorld (by rcases hpc with hpc | hpc <;> simp [World.hand, hpc]))
  | wait w hpc =>
      exact .untouched _ _ (.of_setWorld (by rcases hpc with hpc | hpc <;> simp [World.hand, hpc]))
  | gotPlayers w p hpc => exact .untouched _ _ (.of_setWorld (by simp [World.hand, hpc]))
  | endTick w i n hpc => exact .untouched _ _ (.of_setWorld (by simp [World.hand, hpc]))
  | join w threw hpc => exact .untouched _ _ (.of_setWorld (by simp [World.hand, hpc]))
  | destroy w threw hpc => exact .untouched _ _ (.of_setWorld (by simp [World.hand, hpc]))
  | drained w popped hpc => exact .untouched _ _ (.of_setWorld (by simp [World.hand, hpc]))
  | freedAll w popped hpc => exact .untouched _ _ (.of_setWorld (by simp [World.hand, hpc]))
  | stopServer => exact .untouched _ _ (.of_server rfl rfl)
  | enter hpc | refuse hpc | serve hpc | exit hpc | sleep _ hpc | finish _ hpc =>
      exact .untouched _ _ (.of_server (by simp [serverHand, hpc]) (by simp [serving, hpc]))
  | alloc w payload i n player hpc hi hplayer => exact .alloc w payload i n player hpc hplayer
  | push w i n msgs hpc => exact .push w i n msgs hpc
  | drain w popped front rest hpc hqueue => exact .drain w popped front rest hpc hqueue
  | free w popped r rest hpc => exact .free w popped r rest hpc
  | skip w popped r rest hpc => exact .skip w popped r rest hpc
  | take popped front rest hpc hqueue => exact .take popped front rest hpc hqueue
  | send env popped msg rest hpc => exact .send env popped msg rest hpc
  | release r hheld => exact .release r hheld

/-- A step allocates no message, or one for the current entry of a world. -/
theorem created_cases {e : Event ι} (hmove : Moves lib aes s e s') :
    s'.created = s.created ∨
      ∃ w i n player payload, s' = s.allocNewMsg w i n player payload ∧
        (s.worlds w).pc = .iterate i n ∧ (s.worlds w).provider.data.players[i]? = some player := by
  cases handling_of_moves hmove with
  | untouched _ _ h => exact Or.inl h.created
  | alloc w payload i n player hpc hplayer =>
      exact Or.inr ⟨w, i, n, player, payload, rfl, hpc, hplayer⟩
  | _ => exact Or.inl rfl

/-- Allocations stay on record. -/
theorem created_of_moves {e : Event ι} (hmove : Moves lib aes s e s') : s.created <+: s'.created := by
  rcases created_cases hmove with hsame | ⟨w, i, n, player, payload, rfl, -, -⟩
  · exact hsame ▸ List.prefix_refl _
  · exact List.prefix_append _ _

/-! ## Nothing comes into transit but what is allocated -/

/-- The slot of the message that `allocNewMsg` makes next. -/
def nextSlot (s : System ι) (player : Player) : Slot :=
  ⟨player.id.setWidth 32, (s.created.length, .function)⟩

theorem slots_batchFor (player : Player) (r : Ref) :
    (World.batchFor player r).slots = [⟨player.id.setWidth 32, (r, .function)⟩] := rfl

/-- A world changes and holds nothing that was not in transit before. -/
theorem InTransit.of_update {x : Slot} {w : ι} {y : World} (h : InTransit s' x)
    (hworlds : s'.worlds = Function.update s.worlds w y) (hhand : ∀ x ∈ y.hand, InTransit s x)
    (hqueue : ∀ x ∈ slots s'.queue.queue, InTransit s x) (hserver : s'.serverHand = s.serverHand) :
    InTransit s x := by
  rcases h with ⟨w', hx⟩ | hx | hx
  · rcases world_cases hworlds w' with ⟨rfl, hw⟩ | ⟨-, hw⟩
    · exact hhand x (hw ▸ hx)
    · exact Or.inl ⟨w', hw ▸ hx⟩
  · exact hqueue x hx
  · exact Or.inr (Or.inr (hserver ▸ hx))

/-- A world changes and holds what it held, or less. -/
theorem InTransit.of_setWorld {x : Slot} {w : ι} {y : World} (h : InTransit (s.setWorld w y) x)
    (hhand : ∀ x ∈ y.hand, x ∈ (s.worlds w).hand) : InTransit s x :=
  h.of_update rfl (fun x hx => Or.inl ⟨w, hhand x hx⟩) (fun _ hx => Or.inr (Or.inl hx)) rfl

/-- **Transit.** A step brings only the message it allocates into transit. -/
theorem inTransit_of_moves {e : Event ι} (hmove : Moves lib aes s e s') {x : Slot}
    (h : InTransit s' x) :
    InTransit s x ∨
      ∃ w i n player payload, s' = s.allocNewMsg w i n player payload ∧ x = s.nextSlot player := by
  cases handling_of_moves hmove with
  | untouched _ _ hsame =>
      unfold InTransit at h ⊢
      rw [hsame.queue, hsame.serverHand] at h
      simp only [hsame.hand] at h
      exact Or.inl h
  | alloc w payload i n player hpc hplayer =>
      -- the one step that makes something new
      rcases h with ⟨w', hx⟩ | hx | hx
      · by_cases hw : w' = w
        · subst hw
          simp only [allocNewMsg, Function.update_self, World.hand, slots_batchFor,
            List.mem_singleton] at hx
          exact Or.inr ⟨w', i, n, player, payload, rfl, hx⟩
        · simp only [allocNewMsg, Function.update_of_ne hw] at hx
          exact Or.inl (Or.inl ⟨w', hx⟩)
      · exact Or.inl (Or.inr (Or.inl hx))
      · exact Or.inl (Or.inr (Or.inr hx))
  | push w i n msgs hpc =>
      have hhand : (s.worlds w).hand = msgs.slots := by simp [World.hand, hpc]
      refine Or.inl (h.of_update rfl (fun x hx => by simp [World.hand] at hx) ?_ rfl)
      intro x hx
      simp only [SimpleMsgQueue.push, slots, List.flatMap_append, List.flatMap_singleton,
        List.mem_append] at hx
      rcases hx with hx | hx
      · exact Or.inr (Or.inl hx)
      · exact Or.inl ⟨w, hhand ▸ hx⟩
  | drain w popped front rest hpc hqueue =>
      have hslots : slots s.queue.queue = front.slots ++ slots rest := by simp [hqueue, slots]
      refine Or.inl (h.of_update rfl ?_ ?_ rfl)
      · intro x hx
        exact Or.inr (Or.inl (hslots ▸ List.mem_append_left _ hx))
      · intro x hx
        exact Or.inr (Or.inl (hslots ▸ List.mem_append_right _ hx))
  | free w popped r rest hpc =>
      have hhand : (s.worlds w).hand = ⟨popped.topicID, (r, .function)⟩ ::
          rest.map (Slot.mk popped.topicID) := by simp [World.hand, hpc]
      have h' : InTransit (s.setWorld w { s.worlds w with pc := .freeing popped rest }) x := h
      exact Or.inl (h'.of_setWorld (fun x hx => hhand ▸ List.mem_cons_of_mem _ hx))
  | skip w popped r rest hpc =>
      have hhand : (s.worlds w).hand = ⟨popped.topicID, (r, .nullptr)⟩ ::
          rest.map (Slot.mk popped.topicID) := by simp [World.hand, hpc]
      exact Or.inl (h.of_setWorld (fun x hx => hhand ▸ List.mem_cons_of_mem _ hx))
  | take popped front rest hpc hqueue =>
      have hslots : slots s.queue.queue = front.slots ++ slots rest := by simp [hqueue, slots]
      rcases h with hx | hx | hx
      · exact Or.inl (Or.inl hx)
      · exact Or.inl (Or.inr (Or.inl (hslots ▸ List.mem_append_right _ hx)))
      · exact Or.inl (Or.inr (Or.inl (hslots ▸ List.mem_append_left _ hx)))
  | send env popped msg rest hpc =>
      have hhand : s.serverHand = ⟨popped.topicID, msg⟩ :: rest.map (Slot.mk popped.topicID) := by
        simp [serverHand, hpc]
      rcases h with hx | hx | hx
      · exact Or.inl (Or.inl hx)
      · exact Or.inl (Or.inr (Or.inl hx))
      · exact Or.inl (Or.inr (Or.inr (hhand ▸ List.mem_cons_of_mem _ hx)))
  | release r => exact Or.inl h

/-- The rule that goes with it: what every new message satisfies and no step destroys holds of every
    message in transit, in every reachable state. -/
theorem forall_inTransit {ok : System ι → Event ι → Prop} {P : System ι → Slot → Prop}
    (hnew : ∀ (s : System ι) w i n player payload,
      P (s.allocNewMsg w i n player payload) (s.nextSlot player))
    (hkeep : ∀ s e s' x, (machine lib aes).Reach ok s → InTransit s x → P s x →
      Moves lib aes s e s' → InTransit s' x → P s' x)
    (h : (machine lib aes).Reach ok s) {x : Slot} (hx : InTransit s x) : P s x := by
  induction h using Machine.Reach.induct generalizing x with
  | init s hinit =>
      obtain ⟨connected, rfl⟩ := hinit
      rcases hx with ⟨w, hx⟩ | hx | hx
      · simp [start, World.new, World.hand] at hx
      · simp [start, SimpleMsgQueue.empty, slots] at hx
      · simp [start, serverHand] at hx
  | step s e s' hreach ih hok hstep =>
      have hmove := moves_of_step hstep
      rcases inTransit_of_moves hmove hx with hold | ⟨w, i, n, player, payload, rfl, rfl⟩
      · exact hkeep s e s' x hreach hold (ih hold) hmove hx
      · exact hnew s w i n player payload

/-- Worlds always hand their messages over: nothing in transit has a null free function. -/
theorem function_of_inTransit {ok : System ι → Event ι → Prop} (h : (machine lib aes).Reach ok s)
    {x : Slot} (hx : InTransit s x) : x.msg.2 = .function :=
  forall_inTransit (P := fun _ x => x.msg.2 = .function) (fun _ _ _ _ _ _ => rfl)
    (fun _ _ _ _ _ _ hp _ _ => hp) h hx

end System

end Gravioli
