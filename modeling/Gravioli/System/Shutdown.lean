import Gravioli.System.Conservation

set_option autoImplicit false

/-! # Shutdown

`main` stops the worlds and then the server, waits for the worlds and then for the server, and the
destructors of the worlds come last. The waiting loop of a world does not look at `_stopped`, and
once `Server::run` has returned only zmq and the destructors free messages. So a world in this loop
stays there if more messages than the threshold are *stranded*, that is neither freed nor with zmq.

`wedged_iff_strands` says which steps bring this about: without them the shutdown goes through, and
each of them can be continued to a state in which `main` waits forever (`wedged_forever`).
`shutdown_wedges` is a run in which `zmq_bind` failed. -/

namespace Gravioli

universe u

namespace System

section Definitions

variable {ι : Type u}

/-! ## The order `main` keeps -/

/-- `Server::run` has returned. -/
def serverReturned (s : System ι) : Bool :=
  match s.serverPc with
  | .returned _ => true
  | _ => false

def Event.isStopServer : Event ι → Bool
  | .stopServer => true
  | _ => false

/-- The signal handler stops all worlds before the server; the worlds are destroyed when all threads
    have returned. -/
def mainOrder (s : System ι) (e : Event ι) : Prop :=
  (e.isStopServer → ∀ w, (s.worlds w).stopped) ∧
    (e.isDestroy → (∀ w, (s.worlds w).pc.over) ∧ s.serverReturned)

instance [Fintype ι] (s : System ι) (e : Event ι) : Decidable (mainOrder s e) :=
  inferInstanceAs (Decidable ((_ → _) ∧ (_ → _)))

/-! ## Wedged states -/

/-- World `w` is wedged: everything has been told to stop, the server has returned, zmq has given
    everything back, and `w` is still waiting for the counter to go down. -/
structure WedgedAt (s : System ι) (w : ι) : Prop where
  stopped : ∀ v, (s.worlds v).stopped
  serverStopped : s.serverStopped
  serverReturned : s.serverReturned
  released : s.server.publisher.held = []
  waiting : (s.worlds w).pc = .waiting
  high : maxAllocatedMsgInstances < s.currentlyAllocatedMsgInstances

/-- Some world is wedged. -/
def Wedged (s : System ι) : Prop := ∃ w, WedgedAt s w

/-! ## Steps that strand messages -/

/-- Some world is in its waiting loop. -/
def Waits (s : System ι) : Prop := ∃ w, (s.worlds w).pc = .waiting

instance [Fintype ι] (s : System ι) : Decidable s.Waits := inferInstanceAs (Decidable (∃ _, _))

/-- zmq has called the free function of `r`. -/
def released (s : System ι) (r : Ref) : System ι :=
  customFree { s with
    server := { s.server with
      publisher := { s.server.publisher with held := s.server.publisher.held.erase r } } } r

/-- The messages that are neither freed nor with zmq. -/
def stranded (s : System ι) : ℕ :=
  s.currentlyAllocatedMsgInstances - s.server.publisher.held.length

/-- `Server::run` returns with this step: `_connected` is false, or `_stopped` is true. -/
def leavesRun (s : System ι) : Event ι → Bool
  | .server .enter => s.serverPc = .entry && !s.connected
  | .server .test => s.serverPc = .test && s.serverStopped
  | _ => false

/-- The load of the counter before a tick. -/
def Event.isLoad : Event ι → Bool
  | .world _ .load => true
  | _ => false

def Event.isAlloc : Event ι → Bool
  | .world _ (.alloc _) => true
  | _ => false

/-- The server leaves while a world waits and more messages than the threshold are stranded; or,
    after it has left, a world comes to wait for them, or allocates one too many while another world
    waits. -/
def Strands (s : System ι) (e : Event ι) : Prop :=
  (s.leavesRun e ∧ s.Waits ∧ maxAllocatedMsgInstances < s.stranded) ∨
  (e.isLoad ∧ s.serverReturned ∧ maxAllocatedMsgInstances < s.stranded) ∨
  (e.isAlloc ∧ s.serverReturned ∧ s.Waits ∧ maxAllocatedMsgInstances ≤ s.stranded)

instance [Fintype ι] (s : System ι) (e : Event ι) : Decidable (Strands s e) :=
  inferInstanceAs (Decidable (_ ∨ _ ∨ _))

/-- The steps `main` allows, without those that strand messages. -/
def orderly (s : System ι) (e : Event ι) : Prop := mainOrder s e ∧ ¬ Strands s e

instance [Fintype ι] (s : System ι) (e : Event ι) : Decidable (orderly s e) :=
  inferInstanceAs (Decidable (_ ∧ _))

end Definitions

variable {ι : Type u} [DecidableEq ι] {lib : JsonLib} {aes : BlockCipher} {s s' : System ι}

/-! ## What a step changes -/

theorem serverReturned_of_moves {e : Event ι} (hmove : Moves lib aes s e s') (h : s'.serverReturned) :
    s.serverReturned ∨ s.leavesRun e := by
  cases hmove with
  | refuse hpc hconnected => exact Or.inr (by simp [leavesRun, hpc, hconnected])
  | exit hpc hstop => exact Or.inr (by simp [leavesRun, hpc, hstop])
  | enter | serve | take | sleep | send | finish => simp [serverReturned] at h
  | _ => exact Or.inl h

/-- Once the server has returned it stays so. -/
theorem serverReturned_mono {e : Event ι} (hmove : Moves lib aes s e s') (h : s.serverReturned) :
    s'.serverReturned := by
  cases hmove with
  | enter hpc | refuse hpc | serve hpc | exit hpc | take _ _ _ hpc | sleep _ hpc | send _ _ _ _ hpc
  | finish _ hpc => simp [serverReturned, hpc] at h
  | _ => exact h

theorem stopped_of_moves {e : Event ι} (hmove : Moves lib aes s e s') {w : ι}
    (h : (s.worlds w).stopped) : (s'.worlds w).stopped := by
  have hupdate : ∀ (v : ι) (y : World), s'.worlds = Function.update s.worlds v y →
      ((s.worlds v).stopped → y.stopped) → (s'.worlds w).stopped := by
    intro v y hworlds hy
    rcases world_cases hworlds w with ⟨rfl, hw⟩ | ⟨-, hw⟩
    · rw [hw]
      exact hy h
    · rwa [hw]
  cases hmove with
  | stop v => exact hupdate v _ rfl (fun _ => rfl)
  | stopServer | enter | refuse | serve | exit | take | sleep | send | finish | release => exact h
  | _ => exact hupdate _ _ rfl id

theorem over_of_moves {e : Event ι} (hmove : Moves lib aes s e s') {w : ι}
    (h : (s.worlds w).pc.over) : (s'.worlds w).pc.over := by
  rcases pc_of_moves hmove w with hsame | ⟨we, rfl⟩
  · rwa [hsame]
  · cases hmove with
    | destroy | drain | drained | free | skip | freedAll | join =>
        simp [setWorld, customFree, WorldPc.over, WorldPc.destructing]
    | pass _ hpc | wait _ hpc =>
        rcases hpc with hpc | hpc <;> simp [hpc, WorldPc.over, WorldPc.destructing] at h
    | proceed _ hpc | leave _ hpc | reader _ _ _ hpc | gotPlayers _ _ hpc | alloc _ _ _ _ _ hpc
    | push _ _ _ _ hpc | endTick _ _ _ hpc => simp [hpc, WorldPc.over, WorldPc.destructing] at h

/-- A world comes to wait only by a load. -/
theorem waiting_of_moves {e : Event ι} (hmove : Moves lib aes s e s') {w : ι}
    (h : (s'.worlds w).pc = .waiting) : (s.worlds w).pc = .waiting ∨ e.isLoad := by
  rcases pc_of_moves hmove w with hsame | ⟨we, rfl⟩
  · exact Or.inl (hsame ▸ h)
  · cases hmove with
    | wait => exact Or.inr rfl
    | reader _ _ _ hpc => simp [setWorld, hpc] at h
    | _ => simp [setWorld, allocNewMsg, customFree] at h

section Stranded

variable [Fintype ι] {ok : System ι → Event ι → Prop}

omit [DecidableEq ι] in
/-- What zmq holds is counted. -/
theorem held_le_counter (hbal : Balanced s) :
    s.server.publisher.held.length ≤ s.currentlyAllocatedMsgInstances := by
  rw [hbal.counter, ← Multiset.coe_card]
  exact Multiset.card_le_card (Ledger.le_total (c := s.contents) (.inr .zmq))

omit [DecidableEq ι] in
/-- A message that zmq gives back was not stranded before. -/
theorem stranded_released (hbal : Balanced s) {r : Ref} (hheld : r ∈ s.server.publisher.held) :
    (s.released r).stranded = s.stranded := by
  have hle := held_le_counter hbal
  have hpos := List.length_pos_of_mem hheld
  simp only [stranded, released, customFree, List.length_erase_of_mem hheld]
  rw [decrement_of_pos (by omega)]
  omega

/-- Only an allocation strands a message. -/
theorem stranded_of_moves (hbal : Balanced s) {e : Event ι} (hmove : Moves lib aes s e s') :
    s'.stranded ≤ s.stranded ∨ (e.isAlloc ∧ s'.stranded ≤ s.stranded + 1) := by
  cases hmove with
  | alloc w payload i n player =>
      refine Or.inr ⟨rfl, ?_⟩
      simp only [stranded, allocNewMsg]
      omega
  | free w popped r rest hpc =>
      have hpos : 0 < s.currentlyAllocatedMsgInstances :=
        hbal.pos_of_mem (p := .inl w) (r := r) (by simp [contents, World.hand, hpc])
      refine Or.inl ?_
      show decrement s.currentlyAllocatedMsgInstances - _ ≤ s.currentlyAllocatedMsgInstances - _
      rw [decrement_of_pos hpos]
      exact Nat.sub_le_sub_right (Nat.sub_le _ 1) _
  | send env popped msg rest hpc =>
      refine Or.inl ?_
      simp only [stranded, processMsg_eq, List.length_append]
      omega
  | release r hheld => exact Or.inl (stranded_released hbal hheld).le
  | _ => exact Or.inl le_rfl

/-! ## Without stranding steps the shutdown goes through -/

/-- The invariant: after the server has left, a waiting world has not too many messages to
    wait for. -/
def Unblocked (s : System ι) : Prop :=
  s.serverReturned → s.Waits → s.stranded ≤ maxAllocatedMsgInstances

theorem Unblocked.step (h : Unblocked s) (hbal : Balanced s) {e : Event ι} (hok : ¬ Strands s e)
    (hmove : Moves lib aes s e s') : Unblocked s' := by
  rintro hreturned ⟨w, hw⟩
  unfold Strands at hok
  push Not at hok
  obtain ⟨hleave, hload, halloc⟩ := hok
  have hstranded := stranded_of_moves hbal hmove
  rcases serverReturned_of_moves hmove hreturned with hbefore | hleaves
  · rcases waiting_of_moves hmove hw with hwait | hisLoad
    · -- the world waited before, so only an allocation could do harm
      have hle := h hbefore ⟨w, hwait⟩
      rcases hstranded with hless | ⟨hisAlloc, hless⟩
      · omega
      · have hroom := halloc hisAlloc hbefore ⟨w, hwait⟩
        omega
    · have hle := hload hisLoad hbefore
      have hnot : ¬ e.isAlloc := by
        cases hmove <;> simp [Event.isLoad, Event.isAlloc] at hisLoad ⊢
      have hless := hstranded.resolve_right (fun h => hnot h.1)
      omega
  · -- the server has just left
    have hnot : ¬ e.isAlloc ∧ ¬ e.isLoad := by
      cases hmove <;> simp [leavesRun, Event.isLoad, Event.isAlloc] at hleaves ⊢
    have hwait := (waiting_of_moves hmove hw).resolve_right hnot.2
    have hless := hstranded.resolve_right (fun h => hnot.1 h.1)
    have hle := hleave hleaves ⟨w, hwait⟩
    omega

theorem unblocked_of_reach (h : (machine lib aes).Reach orderly s) : Unblocked s := by
  induction h using Machine.Reach.induct with
  | init s hinit =>
      obtain ⟨connected, rfl⟩ := hinit
      intro hreturned
      simp [start, serverReturned] at hreturned
  | step s e s' hreach ih hok hstep =>
      exact ih.step (balanced_of_reach hreach) hok.2 (moves_of_step hstep)

theorem not_wedged_of_reach (h : (machine lib aes).Reach orderly s) : ¬ Wedged s := by
  rintro ⟨w, hw⟩
  have hle := unblocked_of_reach h hw.serverReturned ⟨w, hw.waiting⟩
  have hhigh := hw.high
  simp only [stranded, hw.released, List.length_nil] at hle
  omega

/-! ## After a stranding step the shutdown can wedge -/

/-- The server has left, and a world waits for more messages than will ever be freed. -/
structure Doomed (s : System ι) : Prop where
  serverReturned : s.serverReturned
  waits : s.Waits
  stranded : maxAllocatedMsgInstances < s.stranded

theorem doomed_of_strands (hbal : Balanced s) {e : Event ι} (h : Strands s e)
    (hmove : Moves lib aes s e s') : Doomed s' := by
  have hle := held_le_counter hbal
  rcases h with ⟨hleaves, hwaits, hstranded⟩ | ⟨hload, hreturned, hstranded⟩ |
    ⟨halloc, hreturned, ⟨w, hw⟩, hstranded⟩
  · cases hmove with
    | refuse hpc hconnected => exact ⟨rfl, hwaits, hstranded⟩
    | exit hpc hstop => exact ⟨rfl, hwaits, hstranded⟩
    | _ => simp_all [leavesRun]
  · cases hmove with
    | wait w hpc hhigh => exact ⟨hreturned, ⟨w, by simp [setWorld]⟩, hstranded⟩
    | pass w hpc hlow =>
        unfold stranded at hstranded
        omega
    | _ => simp [Event.isLoad] at hload
  · cases hmove with
    | alloc v payload i n player hpc hi hplayer =>
        refine ⟨hreturned, ⟨w, ?_⟩, ?_⟩
        · have hne : w ≠ v := by
            rintro rfl
            simp [hpc] at hw
          simpa [allocNewMsg, hne] using hw
        · simp only [stranded, allocNewMsg] at hstranded ⊢
          omega
    | _ => simp [Event.isAlloc] at halloc

/-- zmq may give back everything it holds. -/
theorem Doomed.leads_released (h : Doomed s) (hreach : (machine lib aes).Reach mainOrder s) :
    ∃ t, (machine lib aes).Leads mainOrder s t ∧ Doomed t ∧ t.server.publisher.held = [] := by
  generalize hheld : s.server.publisher.held = held
  induction held generalizing s with
  | nil => exact ⟨s, Machine.Leads.refl s, h, hheld⟩
  | cons r rest ih =>
      have hmem : r ∈ s.server.publisher.held := by simp [hheld]
      have hok : mainOrder s (.release r) := by simp [mainOrder, Event.isStopServer, Event.isDestroy]
      have hstep : (machine lib aes).step s (.release r) = some (s.released r) := by
        simp [machine, step, require, hmem, released]
      have hstranded := stranded_released (balanced_of_reach hreach) hmem
      have hdoomed : Doomed (s.released r) := ⟨h.serverReturned, h.waits, hstranded ▸ h.stranded⟩
      obtain ⟨t, hleads, ht⟩ := ih hdoomed (hreach.next hok hstep)
        (by simp [released, customFree, hheld])
      exact ⟨t, (Machine.Leads.single hok hstep).trans hleads, ht⟩

omit [Fintype ι] in
theorem Doomed.setWorld (h : Doomed s) {w : ι} {y : World} (hy : y.pc = (s.worlds w).pc) :
    Doomed (s.setWorld w y) := by
  obtain ⟨v, hv⟩ := h.waits
  refine ⟨h.serverReturned, ⟨v, ?_⟩, h.stranded⟩
  rw [pc_of_update (s := s) (v := w) rfl hy, hv]

omit [Fintype ι] in
/-- The worlds may be stopped, one after the other. -/
theorem Doomed.leads_stopped (h : Doomed s) (hheld : s.server.publisher.held = []) (worlds : List ι) :
    ∃ t, (machine lib aes).Leads mainOrder s t ∧ Doomed t ∧ t.server.publisher.held = [] ∧
      ∀ w ∈ worlds, (t.worlds w).stopped := by
  induction worlds with
  | nil => exact ⟨s, Machine.Leads.refl s, h, hheld, by simp⟩
  | cons w worlds ih =>
      obtain ⟨t, hleads, ht, hreleased, hstopped⟩ := ih
      let t₁ := t.setWorld w { t.worlds w with providerStopped := true }
      let t₂ := t₁.setWorld w { t₁.worlds w with stopped := true }
      have hprovider : (machine lib aes).step t (.stopProvider w) = some t₁ := rfl
      have hworld : (machine lib aes).step t₁ (.stop w) = some t₂ := by
        simp [machine, step, require, t₁, t₂, System.setWorld]
      have hok : ∀ (s : System ι), mainOrder s (.stopProvider w) ∧ mainOrder s (.stop w) := by
        simp [mainOrder, Event.isStopServer, Event.isDestroy]
      have ht₁ : Doomed t₁ := ht.setWorld rfl
      have ht₂ : Doomed t₂ := ht₁.setWorld rfl
      refine ⟨t₂, (hleads.trans (.single (hok t).1 hprovider)).trans (.single (hok t₁).2 hworld),
        ht₂, hreleased, ?_⟩
      intro v hv
      by_cases hvw : v = w
      · subst hvw
        simp [t₂, System.setWorld]
      · rcases List.mem_cons.1 hv with hvw' | hv
        · exact absurd hvw' hvw
        · simpa [t₁, t₂, System.setWorld, hvw] using hstopped v hv

/-- Whatever happens next, the shutdown can go wrong. -/
theorem Doomed.leads_wedged (h : Doomed s) (hreach : (machine lib aes).Reach mainOrder s) :
    ∃ t, (machine lib aes).Leads mainOrder s t ∧ Wedged t := by
  obtain ⟨t₁, hleads₁, h₁, hreleased⟩ := h.leads_released hreach
  obtain ⟨t₂, hleads₂, h₂, hreleased₂, hstopped⟩ : ∃ t₂, (machine lib aes).Leads mainOrder t₁ t₂ ∧ _ :=
    h₁.leads_stopped hreleased Finset.univ.toList
  replace hstopped : ∀ w, (t₂.worlds w).stopped := fun w => hstopped w (by simp)
  have hok : mainOrder t₂ .stopServer := ⟨fun _ => hstopped, by simp [Event.isDestroy]⟩
  have hstep : (machine lib aes).step t₂ .stopServer = some { t₂ with serverStopped := true } := rfl
  refine ⟨_, (hleads₁.trans hleads₂).trans (.single hok hstep), ?_⟩
  obtain ⟨w, hw⟩ := h₂.waits
  exact ⟨w, hstopped, rfl, h₂.serverReturned, hreleased₂, hw,
    lt_of_lt_of_le h₂.stranded (Nat.sub_le _ _)⟩

end Stranded

/-! ## Wedged for good -/

/-- While a world has still to return no world is destroyed. -/
theorem over_of_destructing (h : (machine lib aes).Reach mainOrder s) {w : ι}
    (hw : (s.worlds w).pc.destructing) (v : ι) : (s.worlds v).pc.over := by
  induction h using Machine.Reach.induct generalizing w v with
  | init s hinit =>
      obtain ⟨connected, rfl⟩ := hinit
      simp [start, World.new, WorldPc.destructing] at hw
  | step s e s' hreach ih hok hstep =>
      have hmove := moves_of_step hstep
      have hbefore : ∀ v, (s.worlds v).pc.over := by
        rcases destructing_of_moves hmove hw with hdestructing | hdestroy
        · exact ih hdestructing
        · exact (hok.2 hdestroy).1
      exact over_of_moves hmove (hbefore v)

/-- No step of any thread lowers the counter or lets the world out of its loop. -/
theorem WedgedAt.step {w : ι} {e : Event ι} (h : WedgedAt s w)
    (hreach : (machine lib aes).Reach mainOrder s) (hmove : Moves lib aes s e s') : WedgedAt s' w := by
  have hkeep : s'.server.publisher.held = [] ∧
      s.currentlyAllocatedMsgInstances ≤ s'.currentlyAllocatedMsgInstances := by
    cases hmove with
    | alloc => exact ⟨h.released, Nat.le_succ _⟩
    | free v popped r rest hpc =>
        -- the destructor of one world does not run while another one is in its loop
        have hover := over_of_destructing hreach (w := v) (by rw [hpc]; rfl) w
        simp [h.waiting, WorldPc.over, WorldPc.destructing] at hover
    | send env popped msg rest hpc =>
        have hreturned := h.serverReturned
        simp [System.serverReturned, hpc] at hreturned
    | release r hheld => simp [h.released] at hheld
    | _ => exact ⟨h.released, le_rfl⟩
  refine ⟨fun v => stopped_of_moves hmove (h.stopped v), ?_,
    serverReturned_mono hmove h.serverReturned, hkeep.1, ?_, lt_of_lt_of_le h.high hkeep.2⟩
  · have hserver := h.serverStopped
    cases hmove <;> first | exact hserver | rfl
  · rcases pc_of_moves hmove w with hsame | ⟨we, rfl⟩
    · rw [hsame, h.waiting]
    · have hwaiting := h.waiting
      have hhigh := h.high
      cases hmove with
      | wait => simp [setWorld]
      | pass _ _ hlow => omega
      | proceed _ hpc | leave _ hpc | reader _ _ _ hpc | gotPlayers _ _ hpc | alloc _ _ _ _ _ hpc
      | push _ _ _ _ hpc | endTick _ _ _ hpc | join _ _ hpc | destroy _ _ hpc | drain _ _ _ _ hpc
      | drained _ _ hpc | free _ _ _ _ hpc | skip _ _ _ _ hpc | freedAll _ _ hpc =>
          simp [hwaiting] at hpc

/-- **Wedged for good**: the world never leaves its loop, so `main` waits forever. -/
theorem wedged_forever {w : ι} {t : System ι} (hreach : (machine lib aes).Reach mainOrder s)
    (h : WedgedAt s w) (hleads : (machine lib aes).Leads mainOrder s t) : WedgedAt t w := by
  induction hleads with
  | refl => exact h
  | tail hpre hlast ih =>
      obtain ⟨e, hok, hstep⟩ := hlast
      exact ih.step (hreach.leads hpre) (moves_of_step hstep)

/-- **Shutdown.** No run that keeps to `main`'s order and avoids the stranding steps is ever wedged;
    and after any stranding step the shutdown can wedge. -/
theorem wedged_iff_strands [Fintype ι] :
    (∀ s : System ι, (machine lib aes).Reach orderly s → ¬ Wedged s) ∧
      ∀ (s : System ι) (e : Event ι) (s' : System ι), (machine lib aes).Reach mainOrder s →
        mainOrder s e → Strands s e → (machine lib aes).step s e = some s' →
        ∃ t, (machine lib aes).Leads mainOrder s' t ∧ Wedged t := by
  refine ⟨fun s h => not_wedged_of_reach h, ?_⟩
  intro s e s' hreach hok hstrands hstep
  have hdoomed := doomed_of_strands (balanced_of_reach hreach) hstrands (moves_of_step hstep)
  exact hdoomed.leads_wedged (hreach.next hok hstep)

/-! ## A failed bind

`zmq_bind` fails, and the server returns at once. One world with two players ticks six times; before
its seventh tick 12 messages are allocated, and nobody will ever send them. -/

def unboundRun : List (Event Unit) :=
  [.server .enter] ++ refreshEvents gravioliLib GravioliWebClient.get ()
    ++ tickEvents () true [[1], [2]] ++ (List.replicate 5 (tickEvents () false [[1], [2]])).flatten ++ [.world () .test]

theorem isSome_unboundRun :
    ((machine gravioliLib sampleCipher).exec mainOrder (start false) unboundRun).isSome := by
  decide +kernel

/-- The state before the load that sees the 12 messages. -/
def unboundState : System Unit :=
  ((machine gravioliLib sampleCipher).exec mainOrder (start false) unboundRun).get isSome_unboundRun

theorem reach_unboundState : (machine gravioliLib sampleCipher).Reach mainOrder unboundState :=
  Machine.reach_of_exec (M := machine gravioliLib sampleCipher) ⟨false, rfl⟩ unboundRun
    isSome_unboundRun

/-- The load, and then the signal. -/
def signalRun : List (Event Unit) := [.world () .load] ++ stopEvents () ++ [.stopServer]

theorem isSome_signalRun :
    ((machine gravioliLib sampleCipher).exec mainOrder unboundState signalRun).isSome := by
  decide +kernel

def wedgedState : System Unit :=
  ((machine gravioliLib sampleCipher).exec mainOrder unboundState signalRun).get isSome_signalRun

theorem wedgedAt_wedgedState : WedgedAt wedgedState () where
  stopped v := by
    cases v
    decide +kernel
  serverStopped := by decide +kernel
  serverReturned := by decide +kernel
  released := by decide +kernel
  waiting := by decide +kernel
  high := by decide +kernel

/-- A run in `main`'s order in which the shutdown is wedged. -/
theorem shutdown_wedges :
    ¬ ∀ s : System Unit, (machine gravioliLib sampleCipher).Reach mainOrder s → ¬ Wedged s := by
  intro h
  refine h wedgedState ?_ ⟨(), wedgedAt_wedgedState⟩
  exact reach_unboundState.leads
    (Machine.leads_of_exec signalRun (Option.some_get isSome_signalRun).symm)

theorem isSome_orderly_fullRun :
    ((machine gravioliLib sampleCipher).exec orderly (start true) fullRun).isSome := by
  decide +kernel

theorem isSome_load_unboundState :
    ((machine gravioliLib sampleCipher).step unboundState (.world () .load)).isSome := by
  decide +kernel

/-- `fullRun` is orderly; the load after `unboundRun` is a stranding step. -/
theorem wedged_iff_strands_runs :
    ¬ Wedged (((machine gravioliLib sampleCipher).exec orderly (start true) fullRun).get
        isSome_orderly_fullRun) ∧
      ∃ t, (machine gravioliLib sampleCipher).Leads mainOrder
        (((machine gravioliLib sampleCipher).step unboundState (.world () .load)).get
          isSome_load_unboundState) t ∧ Wedged t :=
  ⟨wedged_iff_strands.1 _ (Machine.reach_of_exec (M := machine gravioliLib sampleCipher) ⟨true, rfl⟩
      fullRun isSome_orderly_fullRun),
    wedged_iff_strands.2 unboundState (.world () .load) _ reach_unboundState (by decide +kernel)
      (by decide +kernel) (Option.some_get isSome_load_unboundState).symm⟩

end System

end Gravioli
