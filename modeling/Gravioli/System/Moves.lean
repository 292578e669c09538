import Gravioli.System

set_option autoImplicit false

/-! # What a step can do

`Moves` lists the steps of the composed system, one constructor for each branch of the step
functions, with the guards that hold and the state that results. `moves_of_step` is the only place
where the step functions are taken apart; every invariant is proved by a case analysis on `Moves`.
-/

namespace Gravioli

namespace System

universe u

variable {ι : Type u} [DecidableEq ι]

/-- The steps of the system, one constructor for each branch. -/
inductive Moves (lib : JsonLib) (aes : BlockCipher) (s : System ι) : Event ι → System ι → Prop
  | stopProvider (w : ι) :
      Moves lib aes s (.stopProvider w) (s.setWorld w { s.worlds w with providerStopped := true })
  | stop (w : ι) (hprovider : (s.worlds w).providerStopped) :
      Moves lib aes s (.stop w) (s.setWorld w { s.worlds w with stopped := true })
  | stopServer : Moves lib aes s .stopServer { s with serverStopped := true }
  | providerTest (w : ι) (hthread : (s.worlds w).providerThread = .testing) :
      Moves lib aes s (.provider w .test)
        (s.setWorld w { s.worlds w with
          providerThread := if (s.worlds w).providerStopped then .exited false else .updating })
  | update (w : ι) (e : SharedProvider.UpdaterEvent) (p : SharedProvider Unit) (thread : ProviderThread)
      (hthread : (s.worlds w).providerThread = .updating)
      (hstep : (s.worlds w).provider.stepUpdater lib e = some p) :
      Moves lib aes s (.provider w (.update e))
        (s.setWorld w { s.worlds w with provider := p, providerThread := thread })
  | proceed (w : ι) (hpc : (s.worlds w).pc = .test) (hrun : (s.worlds w).stopped = false) :
      Moves lib aes s (.world w .test) (s.setWorld w { s.worlds w with pc := .load })
  | leave (w : ι) (hpc : (s.worlds w).pc = .test) (hstop : (s.worlds w).stopped = true) :
      Moves lib aes s (.world w .test) (s.setWorld w { s.worlds w with pc := .join })
  | pass (w : ι) (hpc : (s.worlds w).pc = .load ∨ (s.worlds w).pc = .waiting)
      (hlow : s.currentlyAllocatedMsgInstances ≤ maxAllocatedMsgInstances) :
      Moves lib aes s (.world w .load) (s.setWorld w { s.worlds w with pc := .getPlayers })
  | wait (w : ι) (hpc : (s.worlds w).pc = .load ∨ (s.worlds w).pc = .waiting)
      (hhigh : maxAllocatedMsgInstances < s.currentlyAllocatedMsgInstances) :
      Moves lib aes s (.world w .load) (s.setWorld w { s.worlds w with pc := .waiting })
  | reader (w : ι) (e : SharedProvider.ReaderEvent) (p : SharedProvider Unit)
      (hpc : (s.worlds w).pc = .getPlayers) (hne : e ≠ .unlock)
      (hstep : (s.worlds w).provider.stepReader () e = some p) :
      Moves lib aes s (.world w (.reader e)) (s.setWorld w { s.worlds w with provider := p })
  | gotPlayers (w : ι) (p : SharedProvider Unit) (hpc : (s.worlds w).pc = .getPlayers)
      (hstep : (s.worlds w).provider.stepReader () .unlock = some p) :
      Moves lib aes s (.world w (.reader .unlock))
        (s.setWorld w { s.worlds w with
          provider := p
          pc := .iterate 0 p.data.players.length
          ticks := (s.worlds w).ticks ++ [⟨p.data.players, []⟩] })
  | alloc (w : ι) (payload : List Byte) (i n : ℕ) (player : Player)
      (hpc : (s.worlds w).pc = .iterate i n) (hi : i < n)
      (hplayer : (s.worlds w).provider.data.players[i]? = some player) :
      Moves lib aes s (.world w (.alloc payload)) (s.allocNewMsg w i n player payload)
  | push (w : ι) (i n : ℕ) (msgs : Messages) (hpc : (s.worlds w).pc = .push i n msgs) :
      Moves lib aes s (.world w .push) { s with
        worlds := Function.update s.worlds w { s.worlds w with
          pc := .iterate (i + 1) n
          ticks := World.record (s.worlds w).ticks msgs }
        queue := s.queue.push msgs
        pushed := s.pushed ++ [(w, msgs)] }
  | endTick (w : ι) (i n : ℕ) (hpc : (s.worlds w).pc = .iterate i n) (hi : ¬ i < n) :
      Moves lib aes s (.world w .endTick) (s.setWorld w { s.worlds w with pc := .test })
  | join (w : ι) (threw : Bool) (hpc : (s.worlds w).pc = .join)
      (hthread : (s.worlds w).providerThread = .exited threw) :
      Moves lib aes s (.world w .join) (s.setWorld w { s.worlds w with pc := .returned threw })
  | destroy (w : ι) (threw : Bool) (hpc : (s.worlds w).pc = .returned threw) :
      Moves lib aes s (.world w .destroy) (s.setWorld w { s.worlds w with pc := .draining .empty })
  | drain (w : ι) (popped front : Messages) (rest : List Messages)
      (hpc : (s.worlds w).pc = .draining popped) (hqueue : s.queue.queue = front :: rest) :
      Moves lib aes s (.world w .pop)
        { s.setWorld w { s.worlds w with pc := .freeing front front.msgs } with queue := ⟨rest⟩ }
  | drained (w : ι) (popped : Messages) (hpc : (s.worlds w).pc = .draining popped)
      (hqueue : s.queue.queue = []) :
      Moves lib aes s (.world w .pop) (s.setWorld w { s.worlds w with pc := .destroyed })
  | free (w : ι) (popped : Messages) (r : Ref) (rest : List MsgPair)
      (hpc : (s.worlds w).pc = .freeing popped ((r, .function) :: rest)) :
      Moves lib aes s (.world w .free)
        ((s.setWorld w { s.worlds w with pc := .freeing popped rest }).customFree r)
  | skip (w : ι) (popped : Messages) (r : Ref) (rest : List MsgPair)
      (hpc : (s.worlds w).pc = .freeing popped ((r, .nullptr) :: rest)) :
      Moves lib aes s (.world w .free) (s.setWorld w { s.worlds w with pc := .freeing popped rest })
  | freedAll (w : ι) (popped : Messages) (hpc : (s.worlds w).pc = .freeing popped []) :
      Moves lib aes s (.world w .free) (s.setWorld w { s.worlds w with pc := .draining popped })
  | enter (hpc : s.serverPc = .entry) (hconnected : s.connected) :
      Moves lib aes s (.server .enter) { s with serverPc := .test }
  | refuse (hpc : s.serverPc = .entry) (hconnected : s.connected = false) :
      Moves lib aes s (.server .enter) { s with serverPc := .returned false }
  | serve (hpc : s.serverPc = .test) (hrun : s.serverStopped = false) :
      Moves lib aes s (.server .test) { s with serverPc := .popping .empty }
  | exit (hpc : s.serverPc = .test) (hstop : s.serverStopped = true) :
      Moves lib aes s (.server .test) { s with serverPc := .returned true }
  | take (popped front : Messages) (rest : List Messages) (hpc : s.serverPc = .popping popped)
      (hqueue : s.queue.queue = front :: rest) :
      Moves lib aes s (.server .pop)
        { s with queue := ⟨rest⟩, serverPc := .processing front front.msgs }
  | sleep (popped : Messages) (hpc : s.serverPc = .popping popped) (hqueue : s.queue.queue = []) :
      Moves lib aes s (.server .pop) { s with serverPc := .test }
  | send (env : SendEnv) (popped : Messages) (msg : MsgPair) (rest : List MsgPair)
      (hpc : s.serverPc = .processing popped (msg :: rest)) :
      Moves lib aes s (.server (.send env)) { s with
        serverPc := .processing popped rest
        server := processMsg aes env s.server popped.topicID msg
        abandoned := s.abandoned ++ notHandedOver env msg }
  | finish (popped : Messages) (hpc : s.serverPc = .processing popped []) :
      Moves lib aes s (.server .finish)
        { s with serverPc := .popping popped, processed := s.processed ++ [popped] }
  | release (r : Ref) (hheld : r ∈ s.server.publisher.held) :
      Moves lib aes s (.release r)
        ({ s with
          server := { s.server with
            publisher := { s.server.publisher with held := s.server.publisher.held.erase r } }
        }.customFree r)

variable {lib : JsonLib} {aes : BlockCipher} {s s' : System ι}

theorem moves_of_stepProvider {w : ι} {e : World.ProviderEvent}
    (h : ((s.worlds w).stepProvider lib e).map (s.setWorld w) = some s') :
    Moves lib aes s (.provider w e) s' := by
  obtain ⟨x, hx, rfl⟩ := Option.map_eq_some_iff.1 h
  cases e with
  | test =>
      simp only [World.stepProvider, require_eq_some] at hx
      obtain ⟨hthread, rfl⟩ := hx
      exact .providerTest w hthread
  | update e =>
      simp only [World.stepProvider] at hx
      split at hx
      · next hthread =>
          obtain ⟨p, hp, rfl⟩ := Option.map_eq_some_iff.1 hx
          exact .update w e p _ hthread hp
      · exact absurd hx (by simp)

theorem moves_of_stepWorld {w : ι} {e : WorldEvent} (h : s.stepWorld w e = some s') :
    Moves lib aes s (.world w e) s' := by
  cases e with
  | test =>
      simp only [stepWorld, require_eq_some] at h
      obtain ⟨hpc, rfl⟩ := h
      by_cases hstop : (s.worlds w).stopped
      · rw [if_pos hstop]
        exact .leave w hpc hstop
      · rw [if_neg hstop]
        exact .proceed w hpc (Bool.eq_false_iff.2 hstop)
  | load =>
      simp only [stepWorld, require_eq_some] at h
      obtain ⟨hpc, rfl⟩ := h
      by_cases hhigh : maxAllocatedMsgInstances < s.currentlyAllocatedMsgInstances
      · rw [if_pos hhigh]
        exact .wait w hpc hhigh
      · rw [if_neg hhigh]
        exact .pass w hpc (not_lt.1 hhigh)
  | reader e =>
      simp only [stepWorld] at h
      obtain ⟨x, hx, rfl⟩ := Option.map_eq_some_iff.1 h
      simp only [World.stepReader] at hx
      split at hx
      · next hpc =>
          obtain ⟨p, hp, rfl⟩ := Option.map_eq_some_iff.1 hx
          by_cases hunlock : e = .unlock
          · subst hunlock
            exact .gotPlayers w p hpc hp
          · rw [if_neg hunlock]
            exact .reader w e p hpc hunlock hp
      · exact absurd hx (by simp)
  | alloc payload =>
      simp only [stepWorld] at h
      split at h
      · next i n hpc =>
          split at h
          · next hi =>
              obtain ⟨player, hplayer, rfl⟩ := Option.map_eq_some_iff.1 h
              exact .alloc w payload i n player hpc hi hplayer
          · exact absurd h (by simp)
      · exact absurd h (by simp)
  | push =>
      simp only [stepWorld] at h
      split at h
      · next i n msgs hpc =>
          obtain rfl := Option.some.inj h
          exact .push w i n msgs hpc
      · exact absurd h (by simp)
  | endTick =>
      simp only [stepWorld] at h
      split at h
      · next i n hpc =>
          obtain ⟨hi, rfl⟩ := require_eq_some.1 h
          exact .endTick w i n hpc hi
      · exact absurd h (by simp)
  | join =>
      simp only [stepWorld] at h
      split at h
      · next threw hpc hthread =>
          obtain rfl := Option.some.inj h
          exact .join w threw hpc hthread
      · exact absurd h (by simp)
  | destroy =>
      simp only [stepWorld] at h
      split at h
      · next threw hpc =>
          obtain rfl := Option.some.inj h
          exact .destroy w threw hpc
      · exact absurd h (by simp)
  | pop =>
      simp only [stepWorld, SimpleMsgQueue.pop] at h
      split at h
      · next popped hpc =>
          cases hqueue : s.queue.queue with
          | nil =>
              simp only [hqueue] at h
              obtain rfl := Option.some.inj h
              exact .drained w popped hpc hqueue
          | cons front rest =>
              simp only [hqueue] at h
              obtain rfl := Option.some.inj h
              exact .drain w popped front rest hpc hqueue
      · exact absurd h (by simp)
  | free =>
      simp only [stepWorld] at h
      split at h
      · next popped msg rest hpc =>
          obtain rfl := Option.some.inj h
          obtain ⟨r, customFree⟩ := msg
          cases customFree with
          | nullptr => exact .skip w popped r rest hpc
          | function => exact .free w popped r rest hpc
      · next popped hpc =>
          obtain rfl := Option.some.inj h
          exact .freedAll w popped hpc
      · exact absurd h (by simp)

theorem moves_of_stepServer {e : ServerEvent} (h : s.stepServer aes e = some s') :
    Moves lib aes s (.server e) s' := by
  cases e with
  | enter =>
      simp only [stepServer, require_eq_some] at h
      obtain ⟨hpc, rfl⟩ := h
      by_cases hconnected : s.connected
      · rw [if_pos hconnected]
        exact .enter hpc hconnected
      · rw [if_neg hconnected]
        exact .refuse hpc (Bool.eq_false_iff.2 hconnected)
  | test =>
      simp only [stepServer, require_eq_some] at h
      obtain ⟨hpc, rfl⟩ := h
      by_cases hstop : s.serverStopped
      · rw [if_pos hstop]
        exact .exit hpc hstop
      · rw [if_neg hstop]
        exact .serve hpc (Bool.eq_false_iff.2 hstop)
  | pop =>
      simp only [stepServer, SimpleMsgQueue.pop] at h
      split at h
      · next popped hpc =>
          cases hqueue : s.queue.queue with
          | nil =>
              simp only [hqueue] at h
              obtain rfl := Option.some.inj h
              exact .sleep popped hpc hqueue
          | cons front rest =>
              simp only [hqueue] at h
              obtain rfl := Option.some.inj h
              exact .take popped front rest hpc hqueue
      · exact absurd h (by simp)
  | send env =>
      simp only [stepServer] at h
      split at h
      · next popped msg rest hpc =>
          obtain rfl := Option.some.inj h
          exact .send env popped msg rest hpc
      · exact absurd h (by simp)
  | finish =>
      simp only [stepServer] at h
      split at h
      · next popped hpc =>
          obtain rfl := Option.some.inj h
          exact .finish popped hpc
      · exact absurd h (by simp)

/-- **Inversion of a step.** -/
theorem moves_of_step {e : Event ι} (h : (machine lib aes).step s e = some s') :
    Moves lib aes s e s' := by
  simp only [machine] at h
  cases e with
  | stopProvider w =>
      obtain rfl := Option.some.inj h
      exact .stopProvider w
  | stop w =>
      simp only [step, require_eq_some] at h
      obtain ⟨hprovider, rfl⟩ := h
      exact .stop w hprovider
  | stopServer =>
      obtain rfl := Option.some.inj h
      exact .stopServer
  | provider w e => exact moves_of_stepProvider h
  | world w e => exact moves_of_stepWorld h
  | server e => exact moves_of_stepServer h
  | release r =>
      simp only [step, require_eq_some] at h
      obtain ⟨hheld, rfl⟩ := h
      exact .release r hheld

/-- When one world changes, a world is the one that changed, or as it was. -/
theorem world_cases {v : ι} {y : World} (hworlds : s'.worlds = Function.update s.worlds v y) (w : ι) :
    (w = v ∧ s'.worlds w = y) ∨ (w ≠ v ∧ s'.worlds w = s.worlds w) := by
  rw [hworlds]
  by_cases hw : w = v
  · exact Or.inl ⟨hw, by rw [hw, Function.update_self]⟩
  · exact Or.inr ⟨hw, Function.update_of_ne hw _ _⟩

theorem pc_of_update {w v : ι} {y : World} (hworlds : s'.worlds = Function.update s.worlds v y)
    (hy : y.pc = (s.worlds v).pc) : (s'.worlds w).pc = (s.worlds w).pc := by
  rcases world_cases hworlds w with ⟨rfl, hw⟩ | ⟨-, hw⟩
  · rw [hw, hy]
  · rw [hw]

/-- Only its own thread moves a world on. -/
theorem pc_of_moves {e : Event ι} (hmove : Moves lib aes s e s') (w : ι) :
    (s'.worlds w).pc = (s.worlds w).pc ∨ ∃ we, e = .world w we := by
  -- a step of the thread of another world
  have hother : ∀ (v : ι) (y : World) (we : WorldEvent), s'.worlds = Function.update s.worlds v y →
      (s'.worlds w).pc = (s.worlds w).pc ∨ ∃ we', Event.world v we = .world w we' := by
    intro v y we hworlds
    rcases world_cases hworlds w with ⟨rfl, -⟩ | ⟨-, hw⟩
    · exact Or.inr ⟨we, rfl⟩
    · exact Or.inl (by rw [hw])
  cases hmove with
  | stopProvider v => exact Or.inl (pc_of_update rfl rfl)
  | stop v => exact Or.inl (pc_of_update rfl rfl)
  | providerTest v => exact Or.inl (pc_of_update rfl rfl)
  | update v => exact Or.inl (pc_of_update rfl rfl)
  | stopServer | enter | refuse | serve | exit | take | sleep | send | finish | release =>
      exact Or.inl rfl
  | _ => exact hother _ _ _ rfl

/-- A world gets into its destructor only when it is destroyed. -/
theorem destructing_of_moves {e : Event ι} (hmove : Moves lib aes s e s') {w : ι}
    (h : (s'.worlds w).pc.destructing) : (s.worlds w).pc.destructing ∨ e.isDestroy := by
  rcases pc_of_moves hmove w with hsame | ⟨we, rfl⟩
  · exact Or.inl (hsame ▸ h)
  · cases hmove with
    | destroy w threw hpc => exact Or.inr rfl
    | drain _ _ _ _ hpc => exact Or.inl (by rw [hpc]; rfl)
    | drained _ _ hpc => exact Or.inl (by rw [hpc]; rfl)
    | free _ _ _ _ hpc => exact Or.inl (by rw [hpc]; rfl)
    | skip _ _ _ _ hpc => exact Or.inl (by rw [hpc]; rfl)
    | freedAll _ _ hpc => exact Or.inl (by rw [hpc]; rfl)
    | reader _ _ _ hpc => simp [setWorld, hpc, WorldPc.destructing] at h
    | _ => simp [setWorld, allocNewMsg, WorldPc.destructing] at h

end System

end Gravioli
