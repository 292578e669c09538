import Gravioli.Main

set_option autoImplicit false

/-! # The order of the shutdown

`main` keeps the order that the composed system was examined under: every reachable state of the
process has a system that is reachable under `mainOrder` (`reach_system`). `Kept` says what holds of
the system at each place of `main`; it is proved together for all of them, because each step of `main`
relies on the place before it. -/

namespace Gravioli

universe u

/-! ## The places of `main` -/

namespace MainPc

/-- The number of worlds that have been stopped. -/
def stops (n : ℕ) : MainPc → ℕ
  | serving => 0
  | stopping k => k
  | stoppingWorld k => k
  | _ => n

/-- The handler has returned. -/
def handled : MainPc → Bool
  | serving => false
  | stopping _ => false
  | stoppingWorld _ => false
  | _ => true

/-- The world whose `stop` is under way. -/
def inStop : MainPc → Option ℕ
  | stoppingWorld k => some k
  | _ => none

/-- The number of worlds whose future has been read. -/
def joins (n : ℕ) : MainPc → ℕ
  | awaitingWorld k _ => k
  | awaitingServer _ => n
  | destroying _ _ => n
  | closing _ _ => n
  | returned _ _ => n
  | _ => 0

/-- What is, or will be, logged about the worlds. -/
def worldsLog : MainPc → Bool
  | awaitingWorld _ all => all
  | awaitingServer all => all
  | destroying worlds _ => worlds
  | closing worlds _ => worlds
  | returned worlds _ => worlds
  | _ => true

/-- What has been logged about the server. -/
def serverLog : MainPc → Option Bool
  | destroying _ server => some server
  | closing _ server => some server
  | returned _ server => some server
  | _ => none

/-- `main` has been left by an exception. -/
def hasThrown : MainPc → Bool
  | terminated => true
  | _ => false

/-- All worlds have been destroyed. -/
def emptied : MainPc → Bool
  | closing _ _ => true
  | returned _ _ => true
  | _ => false

def exited : MainPc → Bool
  | returned _ _ => true
  | _ => false

end MainPc

/-! ## What stays -/

namespace System

variable {ι : Type u} [DecidableEq ι] {lib : JsonLib} {aes : BlockCipher} {s s' : System ι}

/-- A provider thread that has exited stays so. -/
theorem exited_of_moves {e : Event ι} (hmove : Moves lib aes s e s') {w : ι} {threw : Bool}
    (h : (s.worlds w).providerThread = .exited threw) :
    (s'.worlds w).providerThread = .exited threw := by
  have hupdate : ∀ (v : ι) (y : World), s'.worlds = Function.update s.worlds v y →
      (v = w → y.providerThread = (s.worlds v).providerThread) →
      (s'.worlds w).providerThread = .exited threw := by
    intro v y hworlds hy
    rcases world_cases hworlds w with ⟨rfl, hw⟩ | ⟨-, hw⟩
    · rw [hw, hy rfl, h]
    · rw [hw, h]
  cases hmove with
  | stopServer | enter | refuse | serve | exit | take | sleep | send | finish | release => exact h
  | providerTest v hthread =>
      exact hupdate v _ rfl (fun hv => by subst hv; simp [h] at hthread)
  | update v e p thread hthread =>
      exact hupdate v _ rfl (fun hv => by subst hv; simp [h] at hthread)
  | _ => exact hupdate _ _ rfl (fun _ => rfl)

/-- A world that is destroyed stays so. -/
theorem destroyed_of_moves {e : Event ι} (hmove : Moves lib aes s e s') {w : ι}
    (h : (s.worlds w).pc = .destroyed) : (s'.worlds w).pc = .destroyed := by
  rcases pc_of_moves hmove w with hsame | ⟨we, rfl⟩
  · rw [hsame, h]
  · cases hmove with
    | pass _ hpc | wait _ hpc => rcases hpc with hpc | hpc <;> simp [h] at hpc
    | proceed _ hpc | leave _ hpc | reader _ _ _ hpc | gotPlayers _ _ hpc | alloc _ _ _ _ _ hpc
    | push _ _ _ _ hpc | endTick _ _ _ hpc | join _ _ hpc | destroy _ _ hpc | drain _ _ _ _ hpc
    | drained _ _ hpc | free _ _ _ _ hpc | skip _ _ _ _ hpc | freedAll _ _ hpc => simp [h] at hpc

/-- A provider that has been stopped stays so. -/
theorem providerStopped_of_moves {e : Event ι} (hmove : Moves lib aes s e s') {w : ι}
    (h : (s.worlds w).providerStopped) : (s'.worlds w).providerStopped := by
  have hupdate : ∀ (v : ι) (y : World), s'.worlds = Function.update s.worlds v y →
      ((s.worlds v).providerStopped → y.providerStopped) → (s'.worlds w).providerStopped := by
    intro v y hworlds hy
    rcases world_cases hworlds w with ⟨rfl, hw⟩ | ⟨-, hw⟩
    · rw [hw]
      exact hy h
    · rwa [hw]
  cases hmove with
  | stopProvider v => exact hupdate v _ rfl (fun _ => rfl)
  | stopServer | enter | refuse | serve | exit | take | sleep | send | finish | release => exact h
  | _ => exact hupdate _ _ rfl id

omit [DecidableEq ι] in
theorem eq_destroy_of_isDestroy {e : Event ι} (h : e.isDestroy) : ∃ w, e = .world w .destroy := by
  cases e with
  | world w e => cases e <;> first | exact ⟨w, rfl⟩ | exact absurd h Bool.false_ne_true
  | _ => exact absurd h Bool.false_ne_true

/-- A world gets into its destructor by `destroy`. -/
theorem inDestructor_of_moves {e : Event ι} (hmove : Moves lib aes s e s') {w : ι}
    (h : (s'.worlds w).pc.inDestructor) :
    (s.worlds w).pc.inDestructor ∨ e = .world w .destroy := by
  rcases pc_of_moves hmove w with hsame | ⟨we, rfl⟩
  · exact .inl (hsame ▸ h)
  · cases hmove with
    | destroy => exact .inr rfl
    | drain _ _ _ _ hpc | free _ _ _ _ hpc | skip _ _ _ _ hpc | freedAll _ _ hpc =>
        exact .inl (by rw [hpc]; rfl)
    | reader _ _ _ hpc => simp [setWorld, hpc, WorldPc.inDestructor] at h
    | _ => simp [setWorld, allocNewMsg, WorldPc.inDestructor] at h

/-- What `World::run` has thrown is what the provider thread has thrown. -/
theorem returned_of_moves {e : Event ι} (hmove : Moves lib aes s e s') {w : ι}
    (h : ∀ threw, (s.worlds w).pc = .returned threw → (s.worlds w).providerThread = .exited threw)
    {threw : Bool} (hpc : (s'.worlds w).pc = .returned threw) :
    (s'.worlds w).providerThread = .exited threw := by
  rcases pc_of_moves hmove w with hsame | ⟨we, rfl⟩
  · exact exited_of_moves hmove (h threw (hsame ▸ hpc))
  · cases hmove with
    | join _ threw' hjoin hthread =>
        simp only [setWorld, Function.update_self, WorldPc.returned.injEq] at hpc ⊢
        rw [← hpc, hthread]
    | reader _ _ _ hgetPlayers => simp [setWorld, hgetPlayers] at hpc
    | _ => simp [setWorld, allocNewMsg, customFree] at hpc

theorem serverPc_of_moves {e : Event ι} (hmove : Moves lib aes s e s') {rc : Bool}
    (h : s.serverPc = .returned rc) : s'.serverPc = .returned rc := by
  cases hmove with
  | enter hpc | refuse hpc | serve hpc | exit hpc | take _ _ _ hpc | sleep _ hpc | send _ _ _ _ hpc
  | finish _ hpc => simp [h] at hpc
  | _ => exact h

theorem serverStopped_of_moves {e : Event ι} (hmove : Moves lib aes s e s') (h : s.serverStopped) :
    s'.serverStopped := by
  cases hmove <;> first | exact h | rfl

/-- `Server::run` returns `true` if and only if `zmq_bind` has succeeded. -/
theorem rc_of_reach {ok : System ι → Event ι → Prop} (h : (machine lib aes).Reach ok s) {rc : Bool}
    (hpc : s.serverPc = .returned rc) : rc = s.connected := by
  have hserved : ∀ s : System ι, (machine lib aes).Reach ok s →
      s.serverPc = .entry ∨ s.serverPc = .returned s.connected ∨
        s.connected = true ∧ s.serverReturned = false := by
    intro s h
    induction h using Machine.Reach.induct with
    | init s hinit =>
        obtain ⟨connected, rfl⟩ := hinit
        exact .inl rfl
    | step s e s' hreach ih hok hstep =>
        have hconnected : s.serverPc ≠ .entry → s.serverReturned = false → s.connected = true := by
          intro hentry hserving
          obtain hpc | hpc | hpc := ih
          · exact absurd hpc hentry
          · simp [serverReturned, hpc] at hserving
          · exact hpc.1
        cases moves_of_step hstep with
        | enter hpc hbind => exact .inr (.inr ⟨hbind, rfl⟩)
        | refuse hpc hbind => exact .inr (.inl (by simp [hbind]))
        | exit hpc =>
            have hbind := hconnected (by simp [hpc]) (by simp [serverReturned, hpc])
            exact .inr (.inl (by simp [hbind]))
        | serve hpc | take _ _ _ hpc | sleep _ hpc | send _ _ _ _ hpc | finish _ hpc =>
            exact .inr (.inr ⟨hconnected (by simp [hpc]) (by simp [serverReturned, hpc]), rfl⟩)
        | _ => exact ih
  obtain hentry | hreturned | ⟨-, hserving⟩ := hserved s h
  · simp [hpc] at hentry
  · simpa [hpc] using hreturned
  · simp [serverReturned, hpc] at hserving

end System

/-! ## The system while `main` goes on -/

namespace Process

variable {n : ℕ} {lib : JsonLib} {aes : BlockCipher} {p p' : Process n}

/-- What holds of a process in every run, by how far `main` has got. -/
structure Kept (p : Process n) : Prop where
  half : ∀ k, p.main.inStop = some k → ∃ w : Fin n, w = k ∧ (p.system.worlds w).providerStopped
  stopped : ∀ w : Fin n, w < p.main.stops n → (p.system.worlds w).stopped
  serverStopped : p.main.handled → p.system.serverStopped
  threads : ∀ w threw, (p.system.worlds w).pc = .returned threw →
    (p.system.worlds w).providerThread = .exited threw
  joined : ∀ w : Fin n, w < p.main.joins n →
    (p.system.worlds w).pc.over ∧ (p.system.worlds w).providerThread = .exited false
  threw : p.main.hasThrown → ∃ w, (p.system.worlds w).providerThread = .exited true
  undestroyed : p.main.serverLog = none → ∀ w, (p.system.worlds w).pc.destructing = false
  sole : ∀ v w, (p.system.worlds v).pc.inDestructor → (p.system.worlds w).pc.inDestructor → v = w
  worldsLog : p.main.worldsLog = true
  serverLog : ∀ rc, p.main.serverLog = some rc → p.system.serverPc = .returned rc
  emptied : p.main.emptied → ∀ w, (p.system.worlds w).pc = .destroyed
  closed : p.main.exited → p.system.server.publisher.held = []

theorem Kept.start (connected : Bool) : Kept (start connected : Process n) where
  half k h := by simp [Process.start, MainPc.inStop] at h
  stopped _ hw := absurd hw (Nat.not_lt_zero _)
  serverStopped h := absurd h Bool.false_ne_true
  threads w threw hpc := by simp [Process.start, System.start, World.new] at hpc
  joined _ hw := absurd hw (Nat.not_lt_zero _)
  threw h := absurd h Bool.false_ne_true
  undestroyed _ _ := rfl
  sole _ _ h := absurd h Bool.false_ne_true
  worldsLog := rfl
  serverLog rc h := by simp [Process.start, MainPc.serverLog] at h
  emptied h := absurd h Bool.false_ne_true
  closed h := absurd h Bool.false_ne_true

/-- A step of the system leaves all this as it is, as long as no world is destroyed at the wrong
    time. -/
theorem Kept.system (h : Kept p) {e : System.Event (Fin n)} {s : System (Fin n)}
    (hmove : System.Moves lib aes p.system e s) (hmain : p.main.exited = false)
    (hdestroy : ∀ w, e = .world w .destroy → p.main.serverLog ≠ none ∧
      ∀ v, v ≠ w → (p.system.worlds v).pc.inDestructor = false) :
    Kept { p with system := s } where
  half k hk := by
    obtain ⟨w, hw, hprovider⟩ := h.half k hk
    exact ⟨w, hw, System.providerStopped_of_moves hmove hprovider⟩
  stopped w hw := System.stopped_of_moves hmove (h.stopped w hw)
  serverStopped hhandled := System.serverStopped_of_moves hmove (h.serverStopped hhandled)
  threads w _ hpc := System.returned_of_moves hmove (h.threads w) hpc
  joined w hw :=
    ⟨System.over_of_moves hmove (h.joined w hw).1, System.exited_of_moves hmove (h.joined w hw).2⟩
  threw hthrown := by
    obtain ⟨w, hw⟩ := h.threw hthrown
    exact ⟨w, System.exited_of_moves hmove hw⟩
  undestroyed hlog w := by
    by_contra hw
    obtain hbefore | he := System.destructing_of_moves hmove (Bool.eq_true_of_not_eq_false hw)
    · exact Bool.false_ne_true ((h.undestroyed hlog w).symm.trans hbefore)
    · obtain ⟨v, rfl⟩ := System.eq_destroy_of_isDestroy he
      exact (hdestroy v rfl).1 hlog
  sole v w hv hw := by
    obtain hv | hv := System.inDestructor_of_moves hmove hv
    · obtain hw | hw := System.inDestructor_of_moves hmove hw
      · exact h.sole v w hv hw
      · by_contra hne
        exact Bool.false_ne_true (((hdestroy w hw).2 v hne).symm.trans hv)
    · obtain hw | hw := System.inDestructor_of_moves hmove hw
      · by_contra hne
        exact Bool.false_ne_true (((hdestroy v hv).2 w (Ne.symm hne)).symm.trans hw)
      · rw [hv] at hw
        cases hw
        rfl
  worldsLog := h.worldsLog
  serverLog rc hlog := System.serverPc_of_moves hmove (h.serverLog rc hlog)
  emptied hemptied w := System.destroyed_of_moves hmove (h.emptied hemptied w)
  closed hexited := absurd (hmain.symm.trans hexited) Bool.false_ne_true

theorem Kept.step {e : Event n} (h : Kept p) (hmove : Moves lib aes p e p') : Kept p' := by
  obtain ⟨main, system⟩ := p
  cases hmove with
  | signal hmain =>
      cases hmain
      exact { h with }
  | stopProvider w hmain s hstep =>
      cases hmain
      have hs := h.system (System.moves_of_step hstep) rfl (fun v he => by cases he)
      refine { hs with half := fun k hk => ⟨w, Option.some.inj hk, ?_⟩ }
      cases hstep
      simp [System.setWorld]
  | stop w hmain s hstep =>
      cases hmain
      have hs := h.system (System.moves_of_step hstep) rfl (fun v he => by cases he)
      refine { hs with half := fun k hk => absurd hk.symm (Option.some_ne_none k), stopped := fun v hv => ?_ }
      obtain hbefore | hlast := Nat.lt_succ_iff_lt_or_eq.1 hv
      · exact hs.stopped v hbefore
      · cases Fin.ext hlast
        obtain ⟨-, rfl⟩ := require_eq_some.1 hstep
        simp [System.setWorld]
  | stopServer k hmain hk s hstep =>
      cases hmain
      have hs := h.system (System.moves_of_step hstep) rfl (fun v he => by cases he)
      exact { hs with
        stopped := fun v _ => hs.stopped v (lt_of_lt_of_le v.2 hk)
        serverStopped := fun _ => by cases hstep; rfl }
  | rethrow w all hmain hpc =>
      cases hmain
      exact { h with
        joined := fun v hv => absurd hv (Nat.not_lt_zero _)
        threw := fun _ => ⟨w, h.threads w true hpc⟩
        worldsLog := rfl }
  | joined w all hmain hpc =>
      cases hmain
      refine { h with joined := fun v hv => ?_ }
      obtain hbefore | hlast := Nat.lt_succ_iff_lt_or_eq.1 hv
      · exact h.joined v hbefore
      · cases Fin.ext hlast
        refine ⟨?_, h.threads w false hpc⟩
        rw [hpc]
        rfl
  | joinedAll k all hmain hk =>
      cases hmain
      exact { h with joined := fun v _ => h.joined v (lt_of_lt_of_le v.2 hk) }
  | joinedServer all rc hmain hpc =>
      cases hmain
      exact { h with
        undestroyed := fun hlog => absurd hlog (Option.some_ne_none rc)
        serverLog := fun rc' hlog => Option.some.inj hlog ▸ hpc }
  | destroyedAll worlds server hmain hall =>
      cases hmain
      exact { h with emptied := fun _ => hall }
  | closed worlds server hmain hheld =>
      cases hmain
      exact { h with closed := fun _ => hheld }
  | destructor w e he worlds server hmain hsole s hstep =>
      cases hmain
      refine h.system (System.moves_of_step hstep) rfl (fun v hv => ⟨Option.some_ne_none server, ?_⟩)
      cases hv
      exact hsole
  | other e he hmain s hstep =>
      refine h.system (System.moves_of_step hstep) ?_ ?_
      · cases main <;> first | rfl | exact hmain
      · rintro w rfl
        exact absurd he.symm Bool.false_ne_true

theorem kept_of_reach {ok : Process n → Event n → Prop} (h : (machine n lib aes).Reach ok p) : Kept p := by
  induction h using Machine.Reach.induct with
  | init p hinit =>
      obtain ⟨connected, rfl⟩ := hinit
      exact .start connected
  | step p e p' hreach ih hok hstep => exact ih.step (moves_of_step hstep)

/-! ## Refinement -/

/-- A step of the process takes the system along in `main`'s order, or leaves it alone. -/
theorem system_of_moves {e : Event n} (h : Kept p) (hmove : Moves lib aes p e p') :
    p'.system = p.system ∨ ∃ e', (System.machine lib aes).step p.system e' = some p'.system ∧
      System.mainOrder p.system e' ∧ (zmqOk p e → e'.callsOk) := by
  have hquiet : ∀ {e' : System.Event (Fin n)}, e'.isStopServer = false → e'.isDestroy = false →
      System.mainOrder p.system e' := fun hstop hdestroy =>
    ⟨fun h => absurd (hstop.symm.trans h) Bool.false_ne_true,
      fun h => absurd (hdestroy.symm.trans h) Bool.false_ne_true⟩
  cases hmove with
  | stopProvider w hmain s hstep => exact .inr ⟨_, hstep, hquiet rfl rfl, fun _ => rfl⟩
  | stop w hmain s hstep => exact .inr ⟨_, hstep, hquiet rfl rfl, fun _ => rfl⟩
  | stopServer k hmain hk s hstep =>
      have hstopped : ∀ w, (p.system.worlds w).stopped := by
        intro w
        refine h.stopped w ?_
        rw [hmain]
        exact lt_of_lt_of_le w.2 hk
      exact .inr ⟨_, hstep, ⟨fun _ => hstopped, fun hd => absurd hd Bool.false_ne_true⟩, fun _ => rfl⟩
  | destructor w e he worlds server hmain hsole s hstep =>
      have hover : ∀ v, (p.system.worlds v).pc.over := by
        intro v
        refine (h.joined v ?_).1
        rw [hmain]
        exact v.2
      have hreturned : p.system.serverReturned := by
        rw [System.serverReturned, h.serverLog server (by rw [hmain]; rfl)]
      exact .inr ⟨_, hstep, ⟨fun hs => absurd hs Bool.false_ne_true, fun _ => ⟨hover, hreturned⟩⟩,
        fun _ => rfl⟩
  | other e he hmain s hstep =>
      refine .inr ⟨e, hstep, ?_, id⟩
      cases e with
      | world w e =>
          cases e <;> first | exact hquiet rfl rfl | exact absurd he.symm Bool.false_ne_true
      | stopServer => exact absurd he.symm Bool.false_ne_true
      | _ => exact hquiet rfl rfl
  | _ => exact .inl rfl

/-- The system of a process is one in `main`'s order; no call fails in it if none fails in the
    process. -/
theorem reach_system {ok : Process n → Event n → Prop} (h : (machine n lib aes).Reach ok p) :
    (System.machine lib aes).Reach
      (fun s e => System.mainOrder s e ∧ ((∀ p e, ok p e → zmqOk p e) → e.callsOk)) p.system := by
  induction h using Machine.Reach.induct with
  | init p hinit =>
      obtain ⟨connected, rfl⟩ := hinit
      exact Machine.Reach.init ⟨connected, rfl⟩
  | step p e p' hreach ih hok hstep =>
      obtain hsame | ⟨e', hstep', horder, hcalls⟩ :=
        system_of_moves (kept_of_reach hreach) (moves_of_step hstep)
      · rwa [hsame]
      · exact ih.next ⟨horder, fun hzmq => hcalls (hzmq p e hok)⟩ hstep'

theorem mainOrder_of_reach {ok : Process n → Event n → Prop} (h : (machine n lib aes).Reach ok p) :
    (System.machine lib aes).Reach System.mainOrder p.system :=
  (reach_system h).mono (fun _ _ h => h.1)

theorem orderedOk_of_reach (h : (machine n lib aes).Reach zmqOk p) :
    (System.machine lib aes).Reach System.orderedOk p.system :=
  (reach_system h).mono (fun _ _ h => ⟨h.1, h.2 (fun _ _ => id)⟩)

/-! ## How the process ends -/

/-- Some web client has thrown. -/
def Threw (p : Process n) : Prop := ∃ w, (p.system.worlds w).providerThread = .exited true

instance (p : Process n) : Decidable (Threw p) := inferInstanceAs (Decidable (∃ _, _))

theorem threw_of_terminated (h : Kept p) (hmain : p.main = .terminated) : Threw p :=
  h.threw (by rw [hmain]; rfl)

theorem exited_of_returned (h : Kept p) {worlds server : Bool}
    (hmain : p.main = .returned worlds server) (w : Fin n) :
    (p.system.worlds w).providerThread = .exited false :=
  (h.joined w (by rw [hmain]; exact w.2)).2

theorem not_threw_of_returned (h : Kept p) {worlds server : Bool}
    (hmain : p.main = .returned worlds server) : ¬ Threw p := by
  rintro ⟨w, hw⟩
  rw [exited_of_returned h hmain w] at hw
  cases hw

theorem finished_of_returned (h : Kept p) {worlds server : Bool}
    (hmain : p.main = .returned worlds server) : System.Finished p.system where
  worlds := h.emptied (by rw [hmain]; rfl)
  server := ⟨server, h.serverLog server (by rw [hmain]; rfl)⟩
  zmq := h.closed (by rw [hmain]; rfl)

theorem logged_of_returned {ok : Process n → Event n → Prop} (hreach : (machine n lib aes).Reach ok p)
    {worlds server : Bool} (hmain : p.main = .returned worlds server) :
    worlds = true ∧ server = p.system.connected := by
  have h := kept_of_reach hreach
  have hworlds := h.worldsLog
  rw [hmain] at hworlds
  exact ⟨hworlds,
    System.rc_of_reach (mainOrder_of_reach hreach) (h.serverLog server (by rw [hmain]; rfl))⟩

theorem freed_of_returned (hreach : (machine n lib aes).Reach zmqOk p) {worlds server : Bool}
    (hmain : p.main = .returned worlds server) :
    p.system.freed.Perm (List.range p.system.created.length) ∧
      p.system.currentlyAllocatedMsgInstances = 0 := by
  have hsystem := (orderedOk_of_reach hreach).mono (fun _ _ h => h.2)
  have hbalanced := System.balanced_of_reach hsystem
  have htotal := System.total_of_finished hsystem (finished_of_returned (kept_of_reach hreach) hmain)
  refine ⟨?_, ?_⟩
  · rw [← Multiset.coe_eq_coe, Multiset.coe_range, ← hbalanced.ledger, htotal, zero_add]
  · rw [hbalanced.counter, htotal, Multiset.card_zero]

/-- **The end of `main`.** In every reachable state: if `main` has returned, everything is over, all
    provider threads have exited without an exception, no web client has thrown, and it has logged
    success for the worlds and for the server what `zmq_bind` did. If it was terminated, some web client has thrown, and no world has been
    destroyed. When `main` returns and no zmq call has failed, all messages have been freed exactly
    once and the counter is zero. -/
theorem outcome_of_reach :
    (∀ p : Process n, (machine n lib aes).Reach Machine.anyLabel p →
      (∀ worlds server, p.main = .returned worlds server →
        System.Finished p.system ∧
          (∀ w, (p.system.worlds w).providerThread = .exited false) ∧ ¬ Threw p ∧
          worlds = true ∧ server = p.system.connected) ∧
      (p.main = .terminated → Threw p ∧ ∀ w, (p.system.worlds w).pc.destructing = false)) ∧
    ∀ p : Process n, (machine n lib aes).Reach zmqOk p →
      ∀ worlds server, p.main = .returned worlds server →
        p.system.freed.Perm (List.range p.system.created.length) ∧
          p.system.currentlyAllocatedMsgInstances = 0 := by
  refine ⟨fun p hreach => ?_, fun p hreach worlds server hmain => freed_of_returned hreach hmain⟩
  have h := kept_of_reach hreach
  refine ⟨fun worlds server hmain => ?_, fun hmain => ?_⟩
  · exact ⟨finished_of_returned h hmain, exited_of_returned h hmain, not_threw_of_returned h hmain,
      logged_of_returned hreach hmain⟩
  · exact ⟨threw_of_terminated h hmain, h.undestroyed (by rw [hmain]; rfl)⟩

/-! Two runs of a process with one world: the tick is sent, and a signal ends it; the first answer does
not come, and the exception ends it. -/

/-- The world that `SerializableWorld::init` makes. -/
def onlyWorld : Fin 1 := 0

/-- The threads refresh the players, make one tick and send it. -/
def servedTick : List (System.Event (Fin 1)) :=
  System.refreshEvents gravioliLib GravioliWebClient.get onlyWorld
    ++ System.tickEvents onlyWorld true [[1, 2], [3]]
    ++ [.server .enter, .server .test] ++ System.batchEvents sampleEnv 1
    ++ System.batchEvents sampleEnv 1

def returningRun : List (Event 1) :=
  servedTick.map .other ++ [.signal, .main, .main, .main, .other (.provider 0 .test),
    .other (.world 0 .test), .other (.world 0 .join), .main, .main, .other (.server .pop),
    .other (.server .test), .main, .destructor 0 .destroy, .destructor 0 .pop, .main,
    .other (.release 0), .other (.release 1), .main]

def terminatingRun : List (Event 1) :=
  [.other (.provider 0 .test), .other (.provider 0 (.update .check)),
    .other (.provider 0 (.update .clear)), .other (.provider 0 (.update (.getIDs none))), .signal, .main,
    .main, .main, .other (.world 0 .test), .other (.world 0 .join), .main]

instance : ∀ (p : Process n) (e : Event n), Decidable (zmqOk p e)
  | _, .other e => inferInstanceAs (Decidable (e.callsOk = true))
  | _, .signal => isTrue trivial
  | _, .main => isTrue trivial
  | _, .destructor _ _ => isTrue trivial

theorem isSome_returningRun :
    ((machine 1 gravioliLib sampleCipher).exec zmqOk (start true) returningRun).isSome := by
  decide +kernel

theorem isSome_terminatingRun :
    ((machine 1 gravioliLib sampleCipher).exec zmqOk (start true) terminatingRun).isSome := by
  decide +kernel

/-- The first process frees both messages and returns, the second one is terminated. -/
theorem outcome_bothRuns :
    ∃ p q : Process 1, (p.system.created.length = 2 ∧ System.Finished p.system ∧
        p.system.freed.Perm (List.range p.system.created.length)) ∧
      q.main = .terminated ∧ Threw q := by
  have hp := Machine.reach_of_exec (M := machine 1 gravioliLib sampleCipher) ⟨true, rfl⟩ returningRun
    isSome_returningRun
  have hq := Machine.reach_of_exec (M := machine 1 gravioliLib sampleCipher) ⟨true, rfl⟩ terminatingRun
    isSome_terminatingRun
  have hreturned := (outcome_of_reach.1 _ hp.any).1 true true (by decide +kernel)
  have hfreed := outcome_of_reach.2 _ hp true true (by decide +kernel)
  have hterminated := (outcome_of_reach.1 _ hq.any).2 (by decide +kernel)
  exact ⟨_, _, ⟨by decide +kernel, hreturned.1, hfreed.1⟩, by decide +kernel, hterminated.1⟩

end Process

end Gravioli
