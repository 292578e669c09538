import Gravioli.Main.Order
import Gravioli.Main.Progress

set_option autoImplicit false

/-! # When the shutdown can be completed

From every reachable state of the process in which no world is stuck, it can be brought to its end:
`main` returns, or, if a web client has thrown, is terminated. Once a world is stuck `main` never
returns, whatever happens (`completes_iff_not_stuck`). The threads have no other dead ends, so what
remains is `main`, which stops the server when the worlds have returned. -/

namespace Gravioli

/-- Steps of `main` up to its end. -/
def MainPc.stepsLeft (n : ℕ) : MainPc → ℕ
  | serving => 3 * n + 6
  | stopping k => 2 * (n - k) + n + 5
  | stoppingWorld k => 2 * (n - k) + n + 4
  | awaitingWorld k _ => n - k + 4
  | awaitingServer _ => 3
  | destroying _ _ => 2
  | closing _ _ => 1
  | returned _ _ => 0
  | terminated => 0

namespace System

universe u

variable {ι : Type u} [DecidableEq ι] {lib : JsonLib} {aes : BlockCipher} {s s' : System ι} {w : ι}

/-! ## Stuck for good -/

theorem leaving_of_moves {e : Event ι} (hmove : Moves lib aes s e s') (h : s.leaving) : s'.leaving := by
  cases hmove with
  | enter hpc hconnected => simpa [leaving, hpc, hconnected] using h
  | refuse | exit => rfl
  | serve hpc hrun => simp [leaving, hpc, hrun] at h
  | stopServer =>
      cases hpc : s.serverPc with
      | entry | test | returned => simp [leaving]
      | _ => simp [leaving, hpc] at h
  | take _ _ _ hpc | sleep _ hpc | send _ _ _ _ hpc | finish _ hpc => simp [leaving, hpc] at h
  | _ => exact h

/-- A stuck world stays so: nothing is sent any more, and nothing is freed before all worlds have
    returned. -/
theorem Stuck.step [Fintype ι] {e : Event ι} (h : Stuck s)
    (hreach : (machine lib aes).Reach mainOrder s) (hmove : Moves lib aes s e s') : Stuck s' := by
  obtain ⟨hleaving, ⟨w, hw⟩, hstranded⟩ := h
  have hbalanced := balanced_of_reach hreach
  have hkeep : s.stranded ≤ s'.stranded := by
    cases hmove with
    | alloc =>
        simp only [stranded, allocNewMsg]
        omega
    | free v popped r rest hpc =>
        have hover := over_of_destructing hreach (w := v) (by rw [hpc]; rfl) w
        exact absurd ((atLoad_of_over hover).symm.trans hw) Bool.false_ne_true
    | send env popped msg rest hpc => simp [leaving, hpc] at hleaving
    | release r hheld => exact (stranded_released hbalanced hheld).ge
    | _ => exact le_rfl
  refine ⟨leaving_of_moves hmove hleaving, ⟨w, ?_⟩, lt_of_lt_of_le hstranded hkeep⟩
  obtain hsame | ⟨we, rfl⟩ := pc_of_moves hmove w
  · rwa [hsame]
  · cases hmove with
    | wait => simp [setWorld, WorldPc.atLoad]
    | pass _ _ hlow =>
        -- the counter counts the stranded messages
        have hle : s.stranded ≤ s.currentlyAllocatedMsgInstances := Nat.sub_le _ _
        omega
    | reader _ _ _ hpc => simp [hpc, WorldPc.atLoad] at hw
    | proceed _ hpc | leave _ hpc | gotPlayers _ _ hpc | alloc _ _ _ _ _ hpc | push _ _ _ _ hpc
    | endTick _ _ _ hpc | join _ _ hpc | destroy _ _ hpc | drain _ _ _ _ hpc | drained _ _ hpc
    | free _ _ _ _ hpc | skip _ _ _ _ hpc | freedAll _ _ hpc => simp [hpc, WorldPc.atLoad] at hw

/-! ## Flags and exceptions -/

/-- A world is stopped after its provider. -/
theorem providerStopped_of_reach {ok : System ι → Event ι → Prop} (h : (machine lib aes).Reach ok s)
    (hw : (s.worlds w).stopped) : (s.worlds w).providerStopped := by
  induction h using Machine.Reach.induct generalizing w with
  | init s hinit =>
      obtain ⟨connected, rfl⟩ := hinit
      exact absurd hw Bool.false_ne_true
  | step s e s' hreach ih hok hstep =>
      have hupdate : ∀ (v : ι) (y : World), s'.worlds = Function.update s.worlds v y →
          (y.stopped → y.providerStopped) → (s'.worlds w).providerStopped := by
        intro v y hworlds hy
        obtain ⟨rfl, hsame⟩ | ⟨-, hsame⟩ := world_cases hworlds w
        · rw [hsame] at hw ⊢
          exact hy hw
        · rw [hsame] at hw ⊢
          exact ih hw
      cases moves_of_step hstep with
      | stopProvider v => exact hupdate v _ rfl (fun _ => rfl)
      | stop v hprovider => exact hupdate v _ rfl (fun _ => hprovider)
      | stopServer | enter | refuse | serve | exit | take | sleep | send | finish | release => exact ih hw
      | _ => exact hupdate _ _ rfl ih

/-- A provider thread exits with an exception only when the web client throws. -/
theorem threw_of_step {e : Event ι} (hstep : (machine lib aes).step s e = some s')
    (hthrows : e.throws = false) (h : (s'.worlds w).providerThread = .exited true) :
    (s.worlds w).providerThread = .exited true := by
  have hupdate : ∀ (v : ι) (y : World), s'.worlds = Function.update s.worlds v y →
      (y.providerThread = .exited true → (s.worlds v).providerThread = .exited true) →
      (s.worlds w).providerThread = .exited true := by
    intro v y hworlds hy
    obtain ⟨rfl, hsame⟩ | ⟨-, hsame⟩ := world_cases hworlds w
    · exact hy (hsame ▸ h)
    · rwa [hsame] at h
  by_cases hanswer : ∃ v e', e = .provider v (.update e')
  · obtain ⟨v, e', rfl⟩ := hanswer
    have hanswered : World.throws e' = false := hthrows
    obtain ⟨y, hy, rfl⟩ := Option.map_eq_some_iff.1 hstep
    refine hupdate v y rfl (fun hthrew => ?_)
    simp only [World.stepProvider] at hy
    split at hy
    · obtain ⟨q, -, rfl⟩ := Option.map_eq_some_iff.1 hy
      simp only [hanswered, Bool.false_eq_true, if_false] at hthrew
      split at hthrew <;> cases hthrew
    · exact absurd hy (by simp)
  · cases moves_of_step hstep with
    | update v e' => exact absurd ⟨v, e', rfl⟩ hanswer
    | providerTest v =>
        refine hupdate v _ rfl (fun hthrew => ?_)
        simp only at hthrew
        split at hthrew <;> cases hthrew
    | stopServer | enter | refuse | serve | exit | take | sleep | send | finish | release => exact h
    | _ => exact hupdate _ _ rfl id

end System

/-! ## `main` -/

namespace Process

variable {n : ℕ} {lib : JsonLib} {aes : BlockCipher} {p p' : Process n}

/-- No zmq call fails, and no web client throws. -/
def smooth (_ : Process n) : Event n → Prop
  | .other e => e.smooth
  | _ => True

/-- `p'` is further on the way than `p`. -/
def Further (p' p : Process n) : Prop :=
  p'.main.stepsLeft n < p.main.stepsLeft n ∨
    p'.main.stepsLeft n = p.main.stepsLeft n ∧ System.Further p'.system p.system

theorem wellFounded_further : WellFounded (Further : Process n → Process n → Prop) := by
  refine Subrelation.wf ?_ (InvImage.wf (fun p : Process n => (p.main.stepsLeft n, p.system))
    (Prod.lex Nat.lt_wfRel ⟨System.Further, System.wellFounded_further⟩).wf)
  intro p' p h
  obtain h | ⟨hsteps, h⟩ := h
  · exact .left _ _ h
  · exact Prod.Lex.right' _ hsteps.le h

variable (lib aes) in
/-- A step that gets further, and no world stuck. -/
def Progress (p : Process n) : Prop :=
  ∃ e p', smooth p e ∧ (machine n lib aes).step p e = some p' ∧ ¬ p'.system.Stuck ∧ Further p' p

/-- `main` goes on without doing anything in the system. -/
theorem progress_main (h : ¬ p.system.Stuck) {main : MainPc} (hturn : p.mainTurn = some (main, none))
    (hleft : main.stepsLeft n < p.main.stepsLeft n) : Progress lib aes p :=
  ⟨.main, { p with main := main }, trivial, by simp [machine, step, hturn], h, .inl hleft⟩

/-- `main` goes on with a step in the system. -/
theorem progress_turn {main : MainPc} {e : System.Event (Fin n)} {s : System (Fin n)}
    (hturn : p.mainTurn = some (main, some e)) (hstep : p.system.step lib aes e = some s)
    (h : ¬ s.Stuck) (hleft : main.stepsLeft n < p.main.stepsLeft n) : Progress lib aes p :=
  ⟨.main, ⟨main, s⟩, trivial, by simp [machine, step, hturn, hstep], h, .inl hleft⟩

/-- Another thread goes on. -/
theorem progress_other (h : System.Progress lib aes p.system) (hmain : p.main.over = false) :
    Progress lib aes p := by
  obtain ⟨e, s, he, hsmooth, hstep, hsafe, hfurther⟩ := h
  have hmove : (machine n lib aes).step p (.other e) = some { p with system := s } := by
    simp [machine, step, he, hmain, show p.system.step lib aes e = some s from hstep]
  exact ⟨.other e, _, hsmooth, hmove, hsafe, .inr ⟨rfl, hfurther⟩⟩

/-- The world to destroy next: the one whose destructor runs, if there is one. -/
theorem Kept.exists_sole (h : Kept p) (hall : ¬ ∀ w, (p.system.worlds w).pc = .destroyed) :
    ∃ w, (p.system.worlds w).pc ≠ .destroyed ∧
      ∀ v, v ≠ w → (p.system.worlds v).pc.inDestructor = false := by
  by_cases hrunning : ∃ w, (p.system.worlds w).pc.inDestructor
  · obtain ⟨w, hw⟩ := hrunning
    refine ⟨w, fun hdestroyed => ?_, fun v hv => ?_⟩
    · rw [hdestroyed] at hw
      exact Bool.false_ne_true hw
    · exact Bool.eq_false_of_not_eq_true (fun hrun => hv (h.sole v w hrun hw))
  · obtain ⟨w, hw⟩ := not_forall.1 hall
    exact ⟨w, hw, fun v _ => Bool.eq_false_of_not_eq_true (fun hrun => hrunning ⟨v, hrun⟩)⟩

/-- Setting a flag of a world gets no world stuck. -/
theorem not_stuck_setWorld (h : ¬ p.system.Stuck) {w : Fin n} {y : World}
    (hy : y.pc = (p.system.worlds w).pc) : ¬ (p.system.setWorld w y).Stuck := by
  rintro ⟨hleaving, ⟨v, hv⟩, hstranded⟩
  rw [System.pc_of_update (s := p.system) rfl hy] at hv
  exact h ⟨hleaving, ⟨v, hv⟩, hstranded⟩

/-- While the handler stops the worlds, `main` goes on. -/
theorem progress_handler (h : ¬ p.system.Stuck) (hkept : Kept p) (hmain : p.main.handled = false)
    (hstopping : ∀ k, p.main = .stopping k → k < n) : Progress lib aes p := by
  cases hpc : p.main with
  | serving =>
      refine ⟨.signal, { p with main := .stopping 0 }, trivial, if_pos hpc, h, .inl ?_⟩
      simp only [hpc, MainPc.stepsLeft]
      omega
  | stopping k =>
      have hk := hstopping k hpc
      have hturn : p.mainTurn = some (.stoppingWorld k, some (.stopProvider ⟨k, hk⟩)) := by
        simp [mainTurn, hpc, hk]
      exact progress_turn hturn rfl (not_stuck_setWorld h rfl) (by simp [hpc, MainPc.stepsLeft])
  | stoppingWorld k =>
      obtain ⟨w, rfl, hprovider⟩ := hkept.half k (by rw [hpc]; rfl)
      have hturn : p.mainTurn = some (.stopping (w + 1), some (.stop w)) := by simp [mainTurn, hpc]
      refine progress_turn hturn (if_pos hprovider) (not_stuck_setWorld h rfl) ?_
      simp only [hpc, MainPc.stepsLeft]
      omega
  | _ => simp [hpc, MainPc.handled] at hmain

/-- `get` on the future of a world that has returned. -/
theorem progress_awaitingWorld (hkept : Kept p) (hover : ∀ w, (p.system.worlds w).pc.over) {k : ℕ}
    {all : Bool} (hpc : p.main = .awaitingWorld k all) : Progress lib aes p := by
  have hsafe : ¬ p.system.Stuck := (System.safe_of_over hover).not_stuck
  by_cases hk : k < n
  · have hundestroyed := hkept.undestroyed (by rw [hpc]; rfl) ⟨k, hk⟩
    cases hworld : (p.system.worlds ⟨k, hk⟩).pc with
    | returned threw =>
        cases threw with
        | true =>
            have hturn : p.mainTurn = some (.terminated, none) := by
              simp [mainTurn, hpc, hk, hworld]
            exact progress_main hsafe hturn (by simp [hpc, MainPc.stepsLeft])
        | false =>
            have hturn : p.mainTurn = some (.awaitingWorld (k + 1) all, none) := by
              simp [mainTurn, hpc, hk, hworld]
            refine progress_main hsafe hturn ?_
            simp only [hpc, MainPc.stepsLeft]
            omega
    -- the destructors run later
    | draining | freeing | destroyed => simp [hworld, WorldPc.destructing] at hundestroyed
    | _ =>
        have hreturned := hover ⟨k, hk⟩
        simp [hworld, WorldPc.over, WorldPc.destructing] at hreturned
  · have hturn : p.mainTurn = some (.awaitingServer all, none) := by simp [mainTurn, hpc, hk]
    refine progress_main hsafe hturn ?_
    simp only [hpc, MainPc.stepsLeft]
    omega

/-- While the worlds are being destroyed, one of them is next. -/
theorem progress_destroying (hkept : Kept p) (hover : ∀ w, (p.system.worlds w).pc.over)
    {worlds server : Bool} (hpc : p.main = .destroying worlds server) : Progress lib aes p := by
  by_cases hall : ∀ w, (p.system.worlds w).pc = .destroyed
  · have hturn : p.mainTurn = some (.closing worlds server, none) := by simp [mainTurn, hpc, hall]
    exact progress_main (System.safe_of_over hover).not_stuck hturn (by simp [hpc, MainPc.stepsLeft])
  · obtain ⟨w, hw, hsole⟩ := hkept.exists_sole hall
    have hreturned : p.system.serverReturned := by
      rw [System.serverReturned, hkept.serverLog server (by rw [hpc]; rfl)]
    obtain ⟨e, s, he, hstep, hfurther⟩ : ∃ e s, e.ofDestructor ∧
        (System.machine lib aes).step p.system (.world w e) = some s ∧
        System.Further s p.system := System.exists_destruction (hover w) hreturned hw
    have hguard : e.ofDestructor ∧ p.main.isDestroying ∧
        ∀ v, v ≠ w → (p.system.worlds v).pc.inDestructor = false :=
      ⟨he, by rw [hpc]; rfl, hsole⟩
    have hmove : (machine n lib aes).step p (.destructor w e) = some { p with system := s } := by
      simp only [machine, step, if_pos hguard]
      exact Option.map_eq_some_iff.2 ⟨s, hstep, rfl⟩
    have hover' : ∀ v, (s.worlds v).pc.over :=
      fun v => System.over_of_moves (System.moves_of_step hstep) (hover v)
    exact ⟨.destructor w e, _, trivial, hmove, (System.safe_of_over hover').not_stuck,
      .inr ⟨rfl, hfurther⟩⟩

/-- When the worlds have returned, `main` gets to its end. -/
theorem progress_closing (hkept : Kept p) (hbalanced : System.Balanced p.system)
    (hover : ∀ w, (p.system.worlds w).pc.over) (hstopping : ∀ k, p.main = .stopping k → n ≤ k)
    (hmain : p.main.handled = true ∨ ∃ k, p.main = .stopping k) : p.main.over ∨ Progress lib aes p := by
  have hsafe : ∀ s : System (Fin n), s.worlds = p.system.worlds → ¬ s.Stuck :=
    fun s hworlds => (System.safe_of_over (hworlds ▸ hover)).not_stuck
  cases hpc : p.main with
  | returned | terminated => exact .inl rfl
  | serving | stoppingWorld => simp [hpc, MainPc.handled] at hmain
  | stopping k =>
      have hk := not_lt.2 (hstopping k hpc)
      have hturn : p.mainTurn = some (.awaitingWorld 0 true, some .stopServer) := by
        simp [mainTurn, hpc, hk]
      refine .inr (progress_turn hturn rfl (hsafe _ rfl) ?_)
      simp only [hpc, MainPc.stepsLeft]
      omega
  | awaitingWorld => exact .inr (progress_awaitingWorld hkept hover hpc)
  | awaitingServer all =>
      cases hserver : p.system.serverPc with
      | returned rc =>
          have hturn : p.mainTurn = some (.destroying all rc, none) := by simp [mainTurn, hpc, hserver]
          exact .inr (progress_main (hsafe _ rfl) hturn (by simp [hpc, MainPc.stepsLeft]))
      | _ =>
          have hstopped := hkept.serverStopped (by rw [hpc]; rfl)
          have hserving : p.system.serverReturned = false := by simp [System.serverReturned, hserver]
          exact .inr (progress_other (System.progress_exit hover hstopped hserving) (by rw [hpc]; rfl))
  | destroying => exact .inr (progress_destroying hkept hover hpc)
  | closing worlds server =>
      by_cases hheld : p.system.server.publisher.held = []
      · have hturn : p.mainTurn = some (.returned worlds server, none) := by simp [mainTurn, hpc, hheld]
        exact .inr (progress_main (hsafe _ rfl) hturn (by simp [hpc, MainPc.stepsLeft]))
      · exact .inr (progress_other (System.progress_release hbalanced (hsafe _ rfl) hheld)
          (by rw [hpc]; rfl))

/-- As long as `main` is not at its end and no world is stuck, there is a step that gets further. -/
theorem exists_progress (hreach : (machine n lib aes).Reach zmqOk p) (h : ¬ p.system.Stuck) :
    p.main.over ∨ Progress lib aes p := by
  have hkept := kept_of_reach hreach
  have hsystem := orderedOk_of_reach hreach
  by_cases hhandler : p.main.handled = false ∧ ∀ k, p.main = .stopping k → k < n
  · exact .inr (progress_handler h hkept hhandler.1 hhandler.2)
  · -- the worlds have been stopped
    obtain ⟨hstops, hstopping, hmain⟩ : n ≤ p.main.stops n ∧ (∀ k, p.main = .stopping k → n ≤ k) ∧
        (p.main.handled = true ∨ ∃ k, p.main = .stopping k) := by
      cases hpc : p.main with
      | serving | stoppingWorld =>
          exact absurd ⟨by rw [hpc]; rfl, fun k hk => by simp [hpc] at hk⟩ hhandler
      | stopping k =>
          have hk : n ≤ k := by
            by_contra hk
            refine hhandler ⟨by rw [hpc]; rfl, fun k' hk' => ?_⟩
            rw [hpc, MainPc.stopping.injEq] at hk'
            omega
          exact ⟨hk, fun k' hk' => by cases hk'; exact hk, .inr ⟨k, rfl⟩⟩
      | _ =>
          refine ⟨le_refl n, fun k hk => ?_, .inl rfl⟩
          cases hk
    have hstopped : ∀ w, (p.system.worlds w).stopped :=
      fun w => hkept.stopped w (lt_of_lt_of_le w.2 hstops)
    by_cases hover : ∀ w, (p.system.worlds w).pc.over
    · exact progress_closing hkept (System.balanced_of_reach hsystem) hover hstopping hmain
    · obtain ⟨w, hw⟩ := not_forall.1 hover
      have hprogress : System.Progress lib aes p.system := System.exists_progress hsystem
        (fun w => System.providerStopped_of_reach hsystem (hstopped w)) hstopped h
        (Bool.eq_false_of_not_eq_true hw)
      cases hend : p.main.over with
      | true => exact .inl rfl
      | false => exact .inr (progress_other hprogress hend)

/-! ## Exceptions -/

theorem threw_of_moves {e : Event n} (hmove : Moves lib aes p e p') (h : Threw p) : Threw p' := by
  obtain ⟨w, hw⟩ := h
  cases hmove with
  | stopProvider _ _ s hstep | stop _ _ s hstep | stopServer _ _ _ s hstep
  | destructor _ _ _ _ _ _ _ s hstep | other _ _ _ s hstep =>
      exact ⟨w, System.exited_of_moves (System.moves_of_step hstep) hw⟩
  | _ => exact ⟨w, hw⟩

/-- Without an exception on the way, as many web clients have thrown at the end as at the start. -/
theorem threw_iff_of_leads (h : (machine n lib aes).Leads smooth p p') : Threw p ↔ Threw p' := by
  induction h with
  | refl => rfl
  | tail _ hlast ih =>
      obtain ⟨e, hsmooth, hnext⟩ := hlast
      have hmove := moves_of_step hnext
      rw [ih]
      refine ⟨threw_of_moves hmove, ?_⟩
      rintro ⟨w, hw⟩
      cases hmove with
      | stopProvider _ _ s hstep | stop _ _ s hstep | stopServer _ _ _ s hstep =>
          exact ⟨w, System.threw_of_step hstep rfl hw⟩
      | destructor _ _ _ _ _ _ _ s hstep => exact ⟨w, System.threw_of_step hstep rfl hw⟩
      | other e _ _ s hstep =>
          have hthrows : e.throws = false := by
            simp only [smooth, System.Event.smooth, Bool.and_eq_true, Bool.not_eq_true'] at hsmooth
            exact hsmooth.2
          exact ⟨w, System.threw_of_step hstep hthrows hw⟩
      | _ => exact ⟨w, hw⟩

theorem stuck_of_leads (hreach : (machine n lib aes).Reach zmqOk p) (h : p.system.Stuck)
    (hleads : (machine n lib aes).Leads Machine.anyLabel p p') : p'.system.Stuck := by
  induction hleads with
  | refl => exact h
  | tail hpre hlast ih =>
      obtain ⟨e, -, hnext⟩ := hlast
      have hbefore := hreach.any.leads hpre
      obtain hsame | ⟨e', hstep, -⟩ := system_of_moves (kept_of_reach hbefore) (moves_of_step hnext)
      · rwa [hsame]
      · exact ih.step (mainOrder_of_reach hbefore) (System.moves_of_step hstep)

theorem threw_of_leads (h : Threw p) (hleads : (machine n lib aes).Leads Machine.anyLabel p p') :
    Threw p' := by
  induction hleads with
  | refl => exact h
  | tail _ hlast ih =>
      obtain ⟨e, -, hnext⟩ := hlast
      exact threw_of_moves (moves_of_step hnext) ih

/-- The process gets to its end. -/
theorem exists_end (hreach : (machine n lib aes).Reach zmqOk p) (h : ¬ p.system.Stuck) :
    ∃ t, (machine n lib aes).Leads smooth p t ∧ (machine n lib aes).Reach zmqOk t ∧ t.main.over ∧
      (Threw t ↔ Threw p) := by
  have hcalls : ∀ (p : Process n) e, smooth p e → zmqOk p e := by
    intro p e hsmooth
    cases e with
    | other e =>
        simp only [smooth, System.Event.smooth, Bool.and_eq_true] at hsmooth
        exact hsmooth.1
    | _ => trivial
  obtain ⟨t, hleads, hover⟩ := hreach.leads_of_progress (Q := fun p => p.main.over)
    wellFounded_further hcalls (fun p hreach h => exists_progress hreach h) h
  exact ⟨t, hleads, hreach.leads (hleads.mono hcalls), hover, (threw_iff_of_leads hleads).symm⟩

/-- **Completion.** If no world is stuck, the process can be continued without another failure to its
    end: if no web client has thrown so far, `main` can return, with success in the log for the worlds
    and all messages freed exactly once; if one has, it can be terminated. If a world is stuck, or a
    web client has thrown, `main` never returns, whatever happens. -/
theorem completes_iff_not_stuck (hreach : (machine n lib aes).Reach zmqOk p) :
    (¬ p.system.Stuck → ¬ Threw p → ∃ t, (machine n lib aes).Leads smooth p t ∧
      t.main = .returned true t.system.connected ∧
      t.system.freed.Perm (List.range t.system.created.length) ∧
      t.system.currentlyAllocatedMsgInstances = 0) ∧
    (¬ p.system.Stuck → Threw p → ∃ t, (machine n lib aes).Leads smooth p t ∧ t.main = .terminated) ∧
    (p.system.Stuck ∨ Threw p → ∀ t, (machine n lib aes).Leads Machine.anyLabel p t →
      ∀ worlds server, t.main ≠ .returned worlds server) := by
  refine ⟨fun h hnone => ?_, fun h hsome => ?_, ?_⟩
  · obtain ⟨t, hleads, hend, hover, hthrew⟩ := exists_end hreach h
    refine ⟨t, hleads, ?_⟩
    cases hmain : t.main with
    | returned worlds server =>
        obtain ⟨rfl, rfl⟩ := logged_of_returned hend hmain
        exact ⟨rfl, freed_of_returned hend hmain⟩
    | terminated => exact absurd (hthrew.1 (threw_of_terminated (kept_of_reach hend) hmain)) hnone
    | _ =>
        rw [hmain] at hover
        exact absurd hover Bool.false_ne_true
  · obtain ⟨t, hleads, hend, hover, hthrew⟩ := exists_end hreach h
    refine ⟨t, hleads, ?_⟩
    cases hmain : t.main with
    | returned worlds server =>
        exact absurd (hthrew.2 hsome) (not_threw_of_returned (kept_of_reach hend) hmain)
    | terminated => rfl
    | _ =>
        rw [hmain] at hover
        exact absurd hover Bool.false_ne_true
  · intro hlost t hleads worlds server hmain
    have hkept := kept_of_reach (hreach.any.leads hleads)
    obtain hstuck | hsome := hlost
    · obtain ⟨-, ⟨w, hw⟩, -⟩ := stuck_of_leads hreach hstuck hleads
      rw [hkept.emptied (by rw [hmain]; rfl) w] at hw
      exact Bool.false_ne_true hw
    · exact not_threw_of_returned hkept hmain (threw_of_leads hsome hleads)

/-! Two processes. In the first one the server has sent a tick and is about to look for more, the
provider thread is in an update, the world holds the mutex of the provider, and `main` has captured a
signal. In the second one nobody sends anything. -/

def busyRun : List (Event 1) :=
  servedTick.map .other ++ [.other (.provider onlyWorld .test),
    .other (.provider onlyWorld (.update .check)), .other (.provider onlyWorld (.update .clear)),
    .other (.world onlyWorld .test), .other (.world onlyWorld .load),
    .other (.world onlyWorld (.reader .lock)), .signal, .main]

theorem isSome_busyRun :
    ((machine 1 gravioliLib sampleCipher).exec zmqOk (start true) busyRun).isSome := by
  decide +kernel

/-- The state at the end of `busyRun`. -/
def busyProcess : Process 1 :=
  ((machine 1 gravioliLib sampleCipher).exec zmqOk (start true) busyRun).get isSome_busyRun

theorem reach_busyProcess : (machine 1 gravioliLib sampleCipher).Reach zmqOk busyProcess :=
  Machine.reach_of_exec (M := machine 1 gravioliLib sampleCipher) ⟨true, rfl⟩ busyRun isSome_busyRun

/-- `zmq_bind` has failed, and the world waits for the 12 messages of its first six ticks. -/
def unsentTicks : List (System.Event (Fin 1)) :=
  [.server .enter] ++ System.refreshEvents gravioliLib GravioliWebClient.get onlyWorld
    ++ System.tickEvents onlyWorld true [[1], [2]]
    ++ (List.replicate 5 (System.tickEvents onlyWorld false [[1], [2]])).flatten
    ++ [.world onlyWorld .test, .world onlyWorld .load]

def unsentRun : List (Event 1) :=
  unsentTicks.map .other

theorem isSome_unsentRun :
    ((machine 1 gravioliLib sampleCipher).exec zmqOk (start false) unsentRun).isSome := by
  decide +kernel

/-- The state at the end of `unsentRun`. -/
def stuckProcess : Process 1 :=
  ((machine 1 gravioliLib sampleCipher).exec zmqOk (start false) unsentRun).get isSome_unsentRun

theorem reach_stuckProcess : (machine 1 gravioliLib sampleCipher).Reach zmqOk stuckProcess :=
  Machine.reach_of_exec (M := machine 1 gravioliLib sampleCipher) ⟨false, rfl⟩ unsentRun
    isSome_unsentRun

/-- The first process can return, the second one never does. -/
theorem completes_bothProcesses :
    (∃ t, (machine 1 gravioliLib sampleCipher).Leads smooth busyProcess t ∧
      t.main = .returned true t.system.connected ∧
      t.system.freed.Perm (List.range t.system.created.length) ∧
      t.system.currentlyAllocatedMsgInstances = 0) ∧
    ∀ t, (machine 1 gravioliLib sampleCipher).Leads Machine.anyLabel stuckProcess t →
      ∀ worlds server, t.main ≠ .returned worlds server :=
  ⟨(completes_iff_not_stuck reach_busyProcess).1 (by decide +kernel) (by decide +kernel),
    (completes_iff_not_stuck reach_stuckProcess).2.2 (.inl (by decide +kernel))⟩

end Process

end Gravioli
