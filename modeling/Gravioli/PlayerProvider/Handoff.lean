import Gravioli.GravioliWebClient
import Gravioli.Library.Mailbox
import Gravioli.PlayerProvider.Shared

set_option autoImplicit false

/-! # The double buffer hands lists over

The status flag and the two lists implement a one-place mailbox (`Library.Mailbox`): the publication
of an update puts its list into the slot and the swap of a reader takes it. `Disciplined` is the
invariant that makes this work without a lock on the updater's side; `simulates_mailbox` is the
simulation, and order and completeness of the hand-off are those of the mailbox. -/

namespace Gravioli

namespace SharedProvider

universe u

variable {ρ : Type u} {lib : JsonLib} {s s' : SharedProvider ρ}

/-! ## What one step of the updater can do -/

/-- Only the updater's own data change; `_updatedPlayers` only once the status was checked. -/
def updaterOnly (s : SharedProvider ρ) (pc : UpdaterPc) (updatedPlayers : List Player)
    (fetches : List Fetch) : SharedProvider ρ :=
  { s with
    updater := pc
    data := { s.data with updatedPlayers := updatedPlayers }
    fetches := fetches }

/-- The publication. -/
def published (s : SharedProvider ρ) (players : Response) : SharedProvider ρ :=
  { s with
    updater := .idle
    data := { s.data with playerDataStatus := .NEW_DATA_READY }
    completed := s.completed ++ [⟨⟨players, s.fetches, s.data.updatedPlayers⟩, none⟩] }

/-- A step of the updater either prepares, or publishes at the end of the loop. -/
theorem updater_cases {e : UpdaterEvent} (h : s.stepUpdater lib e = some s') :
    (∃ pc updatedPlayers fetches, s' = s.updaterOnly pc updatedPlayers fetches ∧
      (pc = .idle ∨ s.updater ≠ .idle ∨ s.data.playerDataStatus = .AWAIT_NEW_DATA) ∧
      (updatedPlayers = s.data.updatedPlayers ∨ s.updater ≠ .idle)) ∨
    (∃ players, s.updater = .fetching players [] ∧ s' = s.published players) := by
  cases e with
  | check =>
      simp only [stepUpdater, require_eq_some] at h
      obtain ⟨hpc, rfl⟩ := h
      refine Or.inl ⟨_, _, _, rfl, ?_, Or.inl rfl⟩
      by_cases hstatus : s.data.playerDataStatus = .AWAIT_NEW_DATA
      · exact Or.inr (Or.inr hstatus)
      · exact Or.inl (if_pos hstatus)
  | clear =>
      simp only [stepUpdater, require_eq_some] at h
      obtain ⟨hpc, rfl⟩ := h
      exact Or.inl ⟨_, _, _, rfl, Or.inr (Or.inl (by simp [hpc])), Or.inr (by simp [hpc])⟩
  | getIDs res =>
      cases res with
      | none =>
          simp only [stepUpdater, require_eq_some] at h
          obtain ⟨hpc, rfl⟩ := h
          exact Or.inl ⟨_, _, _, rfl, Or.inl rfl, Or.inl rfl⟩
      | some res =>
          simp only [stepUpdater, require_eq_some] at h
          obtain ⟨hpc, rfl⟩ := h
          exact Or.inl ⟨_, _, _, rfl, Or.inr (Or.inl (by simp [hpc])), Or.inl rfl⟩
  | getPlayer res =>
      simp only [stepUpdater] at h
      split at h
      · next players id rest hpc =>
          cases res with
          | none =>
              obtain rfl := Option.some.inj h
              exact Or.inl ⟨_, _, _, rfl, Or.inl rfl, Or.inl rfl⟩
          | some res =>
              obtain rfl := Option.some.inj h
              exact Or.inl ⟨_, _, _, rfl, Or.inr (Or.inl (by simp [hpc])), Or.inr (by simp [hpc])⟩
      · exact absurd h (by simp)
  | publish =>
      simp only [stepUpdater] at h
      split at h
      · next players hpc =>
          obtain rfl := Option.some.inj h
          exact Or.inr ⟨players, hpc, rfl⟩
      · exact absurd h (by simp)

/-! ## What a step leaves alone -/

/-- The completed updates, without the tests that followed. -/
def updates (s : SharedProvider ρ) : List Update := s.completed.map (·.toUpdate)

/-- The updater only adds to the completed updates, and leaves everything alone that readers see. -/
theorem stepUpdater_frame {e : UpdaterEvent} (h : s.stepUpdater lib e = some s') :
    s.updates <+: s'.updates ∧ s'.data.players = s.data.players ∧ s'.installed = s.installed ∧
      s'.returned = s.returned := by
  rcases updater_cases h with ⟨pc, updatedPlayers, fetches, rfl, -, -⟩ | ⟨players, -, rfl⟩
  · exact ⟨List.prefix_refl _, rfl, rfl, rfl⟩
  · exact ⟨by simp [updates, published], rfl, rfl, rfl⟩

/-- A reader leaves the completed updates alone and only adds to the installed lists. -/
theorem stepReader_frame [DecidableEq ρ] {r : ρ} {e : ReaderEvent} (h : s.stepReader r e = some s') :
    s'.updates = s.updates ∧ s.installed <+: s'.installed ∧
      (e ≠ .unlock → s'.returned = s.returned) := by
  cases e <;> simp only [stepReader, require_eq_some] at h <;> obtain ⟨-, rfl⟩ := h <;>
    simp [updates, setReader, Completed.tested]

theorem unlock_frame [DecidableEq ρ] {r : ρ} (h : s.stepReader r .unlock = some s') :
    s'.data = s.data ∧ s'.installed = s.installed ∧
      s'.returned = s.returned ++ [(r, s.data.players)] := by
  simp only [stepReader, require_eq_some] at h
  obtain ⟨-, rfl⟩ := h
  exact ⟨rfl, rfl, rfl⟩

/-! ## Mutual exclusion -/

/-- Readers exclude each other by the mutex, and readers and updater by the status. -/
structure Disciplined (s : SharedProvider ρ) : Prop where
  mutex : ∀ r, s.readers r ≠ .outside ↔ s.mutex = some r
  ready : ∀ r, (s.readers r).sawReady → s.data.playerDataStatus = .NEW_DATA_READY
  await : s.updater ≠ .idle → s.data.playerDataStatus = .AWAIT_NEW_DATA

theorem Disciplined.new : Disciplined (SharedProvider.new : SharedProvider ρ) where
  mutex r := by simp [SharedProvider.new]
  ready r h := by simp [SharedProvider.new, ReaderPc.sawReady] at h
  await h := absurd rfl h

theorem Disciplined.updater (hs : Disciplined s) {e : UpdaterEvent}
    (h : s.stepUpdater lib e = some s') : Disciplined s' := by
  rcases updater_cases h with ⟨pc, updatedPlayers, fetches, rfl, hpc, -⟩ | ⟨players, hpc, rfl⟩
  · refine ⟨hs.mutex, hs.ready, ?_⟩
    intro hne
    rcases hpc with hidle | hbusy | hawait
    · exact absurd hidle hne
    · exact hs.await hbusy
    · exact hawait
  · exact ⟨hs.mutex, fun _ _ => rfl, fun hne => absurd rfl hne⟩

/-- Nobody but the holder of the mutex is inside `getPlayers`. -/
theorem Disciplined.outside (hs : Disciplined s) {r r' : ρ} (hin : s.readers r ≠ .outside)
    (hne : r' ≠ r) : s.readers r' = .outside := by
  by_contra hin'
  have hr := (hs.mutex r).1 hin
  have hr' := (hs.mutex r').1 hin'
  rw [hr, Option.some.injEq] at hr'
  exact hne hr'.symm

/-! ## The published list -/

/-- Where the holder of the mutex is. -/
def holder (s : SharedProvider ρ) : Option ReaderPc := s.mutex.map s.readers

/-- The published list that no reader has swapped in yet. -/
def waiting (s : SharedProvider ρ) : Option (List Player) :=
  if s.data.playerDataStatus = .NEW_DATA_READY ∧ s.holder ≠ some .swapped then
    some s.data.updatedPlayers
  else none

theorem waiting_of_await (h : s.data.playerDataStatus = .AWAIT_NEW_DATA) : s.waiting = none := by
  simp [waiting, h]

theorem waiting_of_ready (h : s.data.playerDataStatus = .NEW_DATA_READY)
    (hh : s.holder ≠ some .swapped) :
    s.waiting = some s.data.updatedPlayers := by
  simp [waiting, h, hh]

theorem Disciplined.holder_eq (hs : Disciplined s) {r : ρ} (hin : s.readers r ≠ .outside) :
    s.holder = some (s.readers r) := by
  rw [holder, (hs.mutex r).1 hin, Option.map_some]

/-- While the status is `AWAIT_NEW_DATA` nobody is between test and reset. -/
theorem Disciplined.holder_of_await (hs : Disciplined s)
    (h : s.data.playerDataStatus = .AWAIT_NEW_DATA) {pc : ReaderPc} (hpc : pc.sawReady) :
    s.holder ≠ some pc := by
  intro hh
  obtain ⟨r, -, rfl⟩ := Option.map_eq_some_iff.1 hh
  simp [hs.ready r hpc] at h

/-- The first test after the publication of the waiting list, if there was one: it is that of the
    reader about to swap. -/
def waitingTest (s : SharedProvider ρ) : List (Option ρ) :=
  if s.waiting.isSome then [if s.holder = some .ready then s.mutex else none] else []

theorem waitingTest_of_waiting {list : List Player} (h : s.waiting = some list) :
    s.waitingTest = [if s.holder = some .ready then s.mutex else none] := by
  simp [waitingTest, h]

theorem waitingTest_of_none (h : s.waiting = none) : s.waitingTest = [] := by
  simp [waitingTest, h]

/-- What the provider shows of a mailbox. -/
structure Shows (s : SharedProvider ρ) (m : Mailbox (List Player)) : Prop where
  sent : m.sent = s.completed.map (·.players)
  received : m.received = s.installed.map (·.players)
  slot : m.slot = s.waiting

/-- A step that leaves history and slot alone. -/
theorem Shows.same {m : Mailbox (List Player)} (h : Shows s m)
    (hsent : s'.completed.map (·.players) = s.completed.map (·.players))
    (hreceived : s'.installed = s.installed) (hwait : s'.waiting = s.waiting) :
    ∃ m', Mailbox.machine.Leads Machine.anyLabel m m' ∧ Shows s' m' :=
  ⟨m, Machine.Leads.refl m, by rw [h.sent, hsent], by rw [h.received, hreceived], by
    rw [h.slot, hwait]⟩

theorem Shows.updater {m : Mailbox (List Player)} (h : Shows s m) (hs : Disciplined s)
    {e : UpdaterEvent} (hstep : s.stepUpdater lib e = some s') :
    ∃ m', Mailbox.machine.Leads Machine.anyLabel m m' ∧ Shows s' m' := by
  rcases updater_cases hstep with ⟨pc, updatedPlayers, fetches, rfl, -, hupd⟩ | ⟨players, hpc, rfl⟩
  · refine h.same rfl rfl ?_
    rcases hupd with rfl | hbusy
    · rfl
    · rw [waiting_of_await (hs.await hbusy)]
      exact waiting_of_await (hs.await hbusy)
  · have hawait := hs.await (by simp [hpc])
    have hempty : m.slot = none := by rw [h.slot, waiting_of_await hawait]
    refine ⟨m.put s.data.updatedPlayers hempty,
      Machine.Leads.single trivial (Mailbox.machine_put _ hempty), ?_, h.received, ?_⟩
    · simp [Mailbox.put, published, h.sent]
    · have hholder : (s.published players).holder ≠ some .swapped :=
        hs.holder_of_await hawait (Or.inr rfl)
      rw [waiting_of_ready rfl hholder]
      rfl

/-- Moving the holder on within `getPlayers`. -/
theorem Disciplined.setReader [DecidableEq ρ] (hs : Disciplined s) {r : ρ} (pc : ReaderPc)
    (hin : s.readers r ≠ .outside) (hpc : pc ≠ .outside)
    (hready : pc.sawReady → s.data.playerDataStatus = .NEW_DATA_READY) :
    Disciplined (s.setReader r pc) where
  mutex r' := by
    by_cases hr : r' = r
    · subst hr
      simpa [hpc] using (hs.mutex r').1 hin
    · simpa [hr] using hs.mutex r'
  ready r' h := by
    by_cases hr : r' = r
    · subst hr
      exact hready (by simpa using h)
    · exact hs.ready r' (by simpa [hr] using h)
  await := hs.await

theorem Disciplined.reader [DecidableEq ρ] (hs : Disciplined s) {r : ρ} {e : ReaderEvent}
    (h : s.stepReader r e = some s') : Disciplined s' := by
  cases e with
  | lock =>
      simp only [stepReader, require_eq_some] at h
      obtain ⟨⟨hpc, hfree⟩, rfl⟩ := h
      have hout : ∀ r', s.readers r' = .outside := by
        intro r'
        by_contra hin
        simp [(hs.mutex r').1 hin] at hfree
      refine ⟨?_, ?_, hs.await⟩
      · intro r'
        by_cases hr : r' = r
        · subst hr
          simp
        · simp [hr, hout r', Ne.symm hr]
      · intro r' h
        by_cases hr : r' = r
        · subst hr
          simp [ReaderPc.sawReady] at h
        · simp [hr, hout r', ReaderPc.sawReady] at h
  | test =>
      simp only [stepReader, require_eq_some] at h
      obtain ⟨hpc, rfl⟩ := h
      have hmove := hs.setReader (r := r)
        (if s.data.playerDataStatus = .NEW_DATA_READY then .ready else .leaving) (by simp [hpc])
        (by split <;> simp) (by split <;> simp_all [ReaderPc.sawReady])
      exact ⟨hmove.mutex, hmove.ready, hmove.await⟩
  | swap =>
      simp only [stepReader, require_eq_some] at h
      obtain ⟨hpc, rfl⟩ := h
      have hstatus := hs.ready r (Or.inl hpc)
      have hmove := hs.setReader (r := r) .swapped (by simp [hpc]) (by simp) (fun _ => hstatus)
      exact ⟨hmove.mutex, hmove.ready, hmove.await⟩
  | reset =>
      simp only [stepReader, require_eq_some] at h
      obtain ⟨hpc, rfl⟩ := h
      have hmove := hs.setReader (r := r) .leaving (by simp [hpc]) (by simp)
        (by simp [ReaderPc.sawReady])
      refine ⟨hmove.mutex, ?_, fun _ => rfl⟩
      intro r' h
      -- nobody is left who saw the flag set
      by_cases hr : r' = r
      · subst hr
        simp [ReaderPc.sawReady] at h
      · have hout := hs.outside (r := r) (by simp [hpc]) hr
        simp [hr, hout, ReaderPc.sawReady] at h
  | unlock =>
      simp only [stepReader, require_eq_some] at h
      obtain ⟨hpc, rfl⟩ := h
      have hout : ∀ r', (s.setReader r .outside).readers r' = .outside := by
        intro r'
        by_cases hr : r' = r
        · simp [hr]
        · simp [hr, hs.outside (r := r) (by simp [hpc]) hr]
      refine ⟨?_, ?_, hs.await⟩
      · intro r'
        simp [hout r']
      · intro r' h
        simp [hout r', ReaderPc.sawReady] at h

theorem disciplined_of_reach [DecidableEq ρ] {ok : SharedProvider ρ → Event ρ → Prop}
    (h : (machine lib).Reach ok s) : Disciplined s := by
  induction h using Machine.Reach.induct with
  | init s hinit =>
      subst hinit
      exact Disciplined.new
  | step s e s' hreach ih hok hstep =>
      cases e with
      | updater e => exact ih.updater hstep
      | reader r e => exact ih.reader hstep

/-! ## The mailbox -/

theorem Shows.reader [DecidableEq ρ] {m : Mailbox (List Player)} (h : Shows s m)
    (hs : Disciplined s) {r : ρ} {e : ReaderEvent} (hstep : s.stepReader r e = some s') :
    ∃ m', Mailbox.machine.Leads Machine.anyLabel m m' ∧ Shows s' m' := by
  cases e with
  | lock =>
      simp only [stepReader, require_eq_some] at hstep
      obtain ⟨⟨hpc, hfree⟩, rfl⟩ := hstep
      refine h.same rfl rfl ?_
      simp [waiting, holder, hfree, setReader]
  | test =>
      simp only [stepReader, require_eq_some] at hstep
      obtain ⟨hpc, rfl⟩ := hstep
      have hmutex := (hs.mutex r).1 (by simp [hpc])
      refine h.same (by simp [Completed.tested]) rfl ?_
      simp only [waiting, holder, setReader, hmutex, Option.map_some, Function.update_self, hpc]
      split <;> simp_all
  | swap =>
      simp only [stepReader, require_eq_some] at hstep
      obtain ⟨hpc, rfl⟩ := hstep
      have hmutex := (hs.mutex r).1 (by simp [hpc])
      have hfull : m.slot = some s.data.updatedPlayers := by
        rw [h.slot, waiting_of_ready (hs.ready r (Or.inl hpc))]
        simp [hs.holder_eq (r := r), hpc]
      refine ⟨m.take _ hfull, Machine.Leads.single trivial (Mailbox.machine_take hfull),
        h.sent, ?_, ?_⟩
      · simp [Mailbox.take, h.received]
      · simp [Mailbox.take, waiting, holder, setReader, hmutex]
  | reset =>
      simp only [stepReader, require_eq_some] at hstep
      obtain ⟨hpc, rfl⟩ := hstep
      refine h.same rfl rfl ?_
      rw [waiting_of_await rfl]
      simp [waiting, hs.holder_eq (r := r), hpc]
  | unlock =>
      simp only [stepReader, require_eq_some] at hstep
      obtain ⟨hpc, rfl⟩ := hstep
      refine h.same rfl rfl ?_
      have hmutex := (hs.mutex r).1 (by simp [hpc])
      simp [waiting, holder, setReader, hmutex, hpc]

/-- **The double buffer refines the mailbox.** -/
theorem simulates_mailbox [DecidableEq ρ] (ok : SharedProvider ρ → Event ρ → Prop) :
    Machine.Simulates Mailbox.machine (machine lib) ok (Shows (ρ := ρ)) where
  init := by
    rintro s rfl
    exact ⟨Mailbox.empty, rfl, rfl, rfl, rfl⟩
  step := by
    intro s e s' m hreach _ hstep h
    have hs := disciplined_of_reach hreach
    cases e with
    | updater e => exact h.updater hs hstep
    | reader r e => exact h.reader hs hstep

/-! ## Who installs a list -/

/-- Lists are installed by the first readers to test the status after their publication. -/
def Tested (s : SharedProvider ρ) : Prop :=
  s.completed.map (·.firstTest) = s.installed.map (fun i => some i.reader) ++ s.waitingTest

theorem Tested.updater (h : Tested s) (hs : Disciplined s) {e : UpdaterEvent}
    (hstep : s.stepUpdater lib e = some s') : Tested s' := by
  rcases updater_cases hstep with ⟨pc, updatedPlayers, fetches, rfl, -, hupd⟩ | ⟨players, hpc, rfl⟩
  · have hwait : (s.updaterOnly pc updatedPlayers fetches).waitingTest = s.waitingTest := by
      rcases hupd with rfl | hbusy
      · rfl
      · rw [waitingTest_of_none (waiting_of_await (hs.await hbusy))]
        exact waitingTest_of_none (waiting_of_await (hs.await hbusy))
    exact h.trans (by rw [hwait]; rfl)
  · have hawait := hs.await (by simp [hpc])
    have hnone : s.waitingTest = [] := waitingTest_of_none (waiting_of_await hawait)
    have hsome : (s.published players).waitingTest = [none] := by
      have hready : (s.published players).holder ≠ some .ready :=
        hs.holder_of_await hawait (Or.inl rfl)
      have hswapped : (s.published players).holder ≠ some .swapped :=
        hs.holder_of_await hawait (Or.inr rfl)
      rw [waitingTest_of_waiting (waiting_of_ready rfl hswapped), if_neg hready]
    unfold Tested at h ⊢
    rw [hnone, List.append_nil] at h
    rw [hsome]
    simp [published, h]

theorem Tested.reader [DecidableEq ρ] (h : Tested s) (hs : Disciplined s) {r : ρ} {e : ReaderEvent}
    (hstep : s.stepReader r e = some s') : Tested s' := by
  unfold Tested at h ⊢
  cases e with
  | lock =>
      simp only [stepReader, require_eq_some] at hstep
      obtain ⟨⟨hpc, hfree⟩, rfl⟩ := hstep
      simpa [waitingTest, waiting, holder, hfree, setReader] using h
  | test =>
      simp only [stepReader, require_eq_some] at hstep
      obtain ⟨hpc, rfl⟩ := hstep
      have hmutex := (hs.mutex r).1 (by simp [hpc])
      have htest : (s.completed.map (Completed.tested r)).map (·.firstTest)
          = (s.completed.map (·.firstTest)).map (· <|> some r) := by simp [Completed.tested]
      rw [htest, h, List.map_append, List.map_map]
      cases hstatus : s.data.playerDataStatus with
      | AWAIT_NEW_DATA => simp [waitingTest, waiting, hstatus, setReader]
      | NEW_DATA_READY =>
          simp [waitingTest, waiting, holder, hstatus, setReader, hmutex, hpc]
  | swap =>
      simp only [stepReader, require_eq_some] at hstep
      obtain ⟨hpc, rfl⟩ := hstep
      have hmutex := (hs.mutex r).1 (by simp [hpc])
      have hstatus := hs.ready r (Or.inl hpc)
      simpa [waitingTest, waiting, holder, hstatus, setReader, hmutex, hpc] using h
  | reset =>
      simp only [stepReader, require_eq_some] at hstep
      obtain ⟨hpc, rfl⟩ := hstep
      have hmutex := (hs.mutex r).1 (by simp [hpc])
      simpa [waitingTest, waiting, holder, setReader, hmutex, hpc] using h
  | unlock =>
      simp only [stepReader, require_eq_some] at hstep
      obtain ⟨hpc, rfl⟩ := hstep
      have hmutex := (hs.mutex r).1 (by simp [hpc])
      simpa [waitingTest, waiting, holder, setReader, hmutex, hpc] using h

/-! ## What an update collects -/

/-- The update under way has collected exactly the players of the answers so far, and completed
    updates are complete. -/
structure Collected (lib : JsonLib) (s : SharedProvider ρ) : Prop where
  cleared : s.updater = .cleared → s.fetches = [] ∧ s.data.updatedPlayers = []
  fetching : ∀ players rest, s.updater = .fetching players rest →
    s.fetches.map Fetch.id ++ rest = idsOfResponse lib players ∧
      s.data.updatedPlayers = s.fetches.filterMap (Fetch.player? lib)
  completed : ∀ c ∈ s.completed, c.Complete lib

/-- The loop appends the player of the next answer. -/
theorem filterMap_concat (fetches : List Fetch) (f : Fetch) :
    (fetches ++ [f]).filterMap (Fetch.player? lib)
      = fetches.filterMap (Fetch.player? lib) ++ (f.player? lib).toList := by
  rw [List.filterMap_append]
  cases h : f.player? lib <;> simp [h]

/-- Outside the loop there is nothing to say about the update under way. -/
theorem Collected.of_not_collecting (hpc : ¬ s.updater.collecting)
    (hcompleted : ∀ c ∈ s.completed, c.Complete lib) : Collected lib s where
  cleared h := absurd (by rw [h]; trivial) hpc
  fetching _ _ h := absurd (by rw [h]; trivial) hpc
  completed := hcompleted

theorem Collected.updater (h : Collected lib s) {e : UpdaterEvent}
    (hstep : s.stepUpdater lib e = some s') : Collected lib s' := by
  cases e with
  | check =>
      simp only [stepUpdater, require_eq_some] at hstep
      obtain ⟨-, rfl⟩ := hstep
      exact .of_not_collecting (by simp only; split <;> exact not_false) h.completed
  | clear =>
      simp only [stepUpdater, require_eq_some] at hstep
      obtain ⟨-, rfl⟩ := hstep
      exact ⟨fun _ => ⟨rfl, rfl⟩, fun _ _ hf => absurd hf (by simp), h.completed⟩
  | getIDs res =>
      cases res with
      | none =>
          simp only [stepUpdater, require_eq_some] at hstep
          obtain ⟨-, rfl⟩ := hstep
          exact .of_not_collecting not_false h.completed
      | some res =>
          simp only [stepUpdater, require_eq_some] at hstep
          obtain ⟨hpc, rfl⟩ := hstep
          obtain ⟨hfetches, hplayers⟩ := h.cleared hpc
          refine ⟨fun hc => absurd hc (by simp), ?_, h.completed⟩
          intro players rest hf
          obtain ⟨rfl, rfl⟩ := UpdaterPc.fetching.inj hf
          simp [hfetches, hplayers]
  | getPlayer res =>
      simp only [stepUpdater] at hstep
      split at hstep
      · next players id rest hpc =>
          cases res with
          | none =>
              obtain rfl := Option.some.inj hstep
              exact .of_not_collecting not_false h.completed
          | some res =>
              obtain rfl := Option.some.inj hstep
              obtain ⟨hids, hplayers⟩ := h.fetching _ _ hpc
              refine ⟨fun hc => absurd hc (by simp), ?_, h.completed⟩
              intro players' rest' hf
              obtain ⟨rfl, rfl⟩ := UpdaterPc.fetching.inj hf
              refine ⟨by simpa using hids, ?_⟩
              rw [filterMap_concat, ← hplayers]
              rfl
      · exact absurd hstep (by simp)
  | publish =>
      simp only [stepUpdater] at hstep
      split at hstep
      · next players hpc =>
          obtain rfl := Option.some.inj hstep
          obtain ⟨hids, hplayers⟩ := h.fetching _ _ hpc
          refine .of_not_collecting not_false ?_
          intro c hc
          rcases List.mem_append.1 hc with hc | hc
          · exact h.completed c hc
          · obtain rfl := List.mem_singleton.1 hc
            exact ⟨by simpa using hids, hplayers⟩
      · exact absurd hstep (by simp)

theorem Collected.reader [DecidableEq ρ] (h : Collected lib s) (hs : Disciplined s) {r : ρ}
    {e : ReaderEvent} (hstep : s.stepReader r e = some s') : Collected lib s' := by
  cases e with
  | lock =>
      simp only [stepReader, require_eq_some] at hstep
      obtain ⟨-, rfl⟩ := hstep
      exact ⟨h.cleared, h.fetching, h.completed⟩
  | test =>
      simp only [stepReader, require_eq_some] at hstep
      obtain ⟨-, rfl⟩ := hstep
      refine ⟨h.cleared, h.fetching, ?_⟩
      intro c hc
      obtain ⟨c, hmem, rfl⟩ := List.mem_map.1 hc
      exact h.completed c hmem
  | swap =>
      simp only [stepReader, require_eq_some] at hstep
      obtain ⟨hpc, rfl⟩ := hstep
      -- the updater does not collect while a reader may swap
      have hidle : s.updater = .idle := by
        by_contra hbusy
        have hready := hs.ready r (Or.inl hpc)
        simp [hs.await hbusy] at hready
      exact .of_not_collecting (by simp [setReader, hidle, UpdaterPc.collecting]) h.completed
  | reset =>
      simp only [stepReader, require_eq_some] at hstep
      obtain ⟨-, rfl⟩ := hstep
      exact ⟨h.cleared, h.fetching, h.completed⟩
  | unlock =>
      simp only [stepReader, require_eq_some] at hstep
      obtain ⟨-, rfl⟩ := hstep
      exact ⟨h.cleared, h.fetching, h.completed⟩

/-! ## The hand-off -/

/-- The list in `_players` is the one installed last. -/
def Current (s : SharedProvider ρ) : Prop :=
  s.data.players = (s.installed.getLast?.map (·.players)).getD []

theorem Current.updater (h : Current s) {e : UpdaterEvent} (hstep : s.stepUpdater lib e = some s') :
    Current s' := by
  rcases updater_cases hstep with ⟨pc, updatedPlayers, fetches, rfl, -, -⟩ | ⟨players, hpc, rfl⟩
  · exact h
  · exact h

theorem Current.reader [DecidableEq ρ] (h : Current s) {r : ρ} {e : ReaderEvent}
    (hstep : s.stepReader r e = some s') : Current s' := by
  cases e <;> simp only [stepReader, require_eq_some] at hstep <;> obtain ⟨-, rfl⟩ := hstep <;>
    first | exact h | simp [Current]

theorem collected_of_reach [DecidableEq ρ] {ok : SharedProvider ρ → Event ρ → Prop}
    (h : (machine lib).Reach ok s) : Collected lib s := by
  induction h using Machine.Reach.induct with
  | init s hinit =>
      subst hinit
      exact .of_not_collecting not_false (fun c hc => absurd hc List.not_mem_nil)
  | step s e s' hreach ih hok hstep =>
      cases e with
      | updater e => exact ih.updater hstep
      | reader r e => exact ih.reader (disciplined_of_reach hreach) hstep

theorem current_of_reach [DecidableEq ρ] {ok : SharedProvider ρ → Event ρ → Prop}
    (h : (machine lib).Reach ok s) : Current s := by
  induction h using Machine.Reach.induct with
  | init s hinit =>
      subst hinit
      rfl
  | step s e s' hreach ih hok hstep =>
      cases e with
      | updater e => exact ih.updater hstep
      | reader r e => exact ih.reader hstep

theorem order_of_reach [DecidableEq ρ] {ok : SharedProvider ρ → Event ρ → Prop}
    (h : (machine lib).Reach ok s) :
    s.installed.map (·.players) <+: s.completed.map (·.players) ∧
      s.completed.length ≤ s.installed.length + 1 := by
  obtain ⟨m, -, hm⟩ := (simulates_mailbox ok).reach h
  constructor
  · rw [← hm.received, ← hm.sent]
    exact m.received_prefix
  · have hpending := m.pending_le_one
    simpa [hm.sent, hm.received] using hpending

/-- The list in `_players` is the initial one, or that of the update completed as number
    `installed.length`. -/
theorem players_of_reach [DecidableEq ρ] {ok : SharedProvider ρ → Event ρ → Prop}
    (h : (machine lib).Reach ok s) :
    (s.installed = [] ∧ s.data.players = []) ∨
      ∃ k c, s.completed[k]? = some c ∧ k + 1 = s.installed.length ∧ s.data.players = c.players := by
  have hcurrent := current_of_reach h
  unfold Current at hcurrent
  rcases List.eq_nil_or_concat s.installed with hnil | ⟨pre, last, hlast⟩
  · exact Or.inl ⟨hnil, by simpa [hnil] using hcurrent⟩
  · rw [List.concat_eq_append] at hlast
    obtain ⟨rest, hrest⟩ := (order_of_reach h).1
    have hk : (s.completed.map (·.players))[pre.length]? = some last.players := by
      rw [← hrest, hlast]
      simp
    rw [List.getElem?_map] at hk
    obtain ⟨c, hc, hplayers⟩ := Option.map_eq_some_iff.1 hk
    exact Or.inr ⟨pre.length, c, hc, by simp [hlast], by simpa [hlast, hplayers] using hcurrent⟩

theorem getPlayers_uninterrupted [DecidableEq ρ] {r : ρ} (hout : s.readers r = .outside)
    (hfree : s.mutex = none) :
    ∃ es, ((machine lib).exec Machine.anyLabel s es).map (fun s' => (s'.data, s'.returned))
      = some (s.data.getPlayers.2, s.returned ++ [(r, s.data.getPlayers.1)]) := by
  cases hstatus : s.data.playerDataStatus with
  | AWAIT_NEW_DATA =>
      refine ⟨[.reader r .lock, .reader r .test, .reader r .unlock], ?_⟩
      simp [Machine.exec, Machine.anyLabel, machine, step, stepReader, require, setReader, hout, hfree,
        hstatus, PlayerProvider.getPlayers]
  | NEW_DATA_READY =>
      refine ⟨[.reader r .lock, .reader r .test, .reader r .swap, .reader r .reset,
        .reader r .unlock], ?_⟩
      simp [Machine.exec, Machine.anyLabel, machine, step, stepReader, require, setReader, hout, hfree,
        hstatus, PlayerProvider.getPlayers]

/-- The loop of `updatePlayers` from its middle on, against a fixed web service. -/
theorem collectPlayers_uninterrupted [DecidableEq ρ] (lib : JsonLib) (web : WebClient)
    {players : Response} (ids : List CInt) (s : SharedProvider ρ) (hpc : s.updater = .fetching players ids) :
    ∃ es, ((machine lib).exec Machine.anyLabel s es).map SharedProvider.data
      = some (s.data.finishUpdate
          (PlayerProvider.collectPlayers lib web ids s.data.updatedPlayers)).2 := by
  induction ids generalizing s with
  | nil =>
      refine ⟨[.updater .publish], ?_⟩
      simp [Machine.exec, Machine.anyLabel, machine, step, stepUpdater, hpc,
        PlayerProvider.collectPlayers, PlayerProvider.finishUpdate]
  | cons id ids ih =>
      simp only [PlayerProvider.collectPlayers, getPlayerById]
      cases hres : web (playerUrl id) with
      | none =>
          refine ⟨[.updater (.getPlayer none)], ?_⟩
          simp [Machine.exec, Machine.anyLabel, machine, step, stepUpdater, hpc,
            PlayerProvider.finishUpdate]
      | some res =>
          obtain ⟨es, hes⟩ := ih { s with
            updater := .fetching players ids
            data := { s.data with
              updatedPlayers := s.data.updatedPlayers ++ (playerOfResponse lib id res).toList }
            fetches := s.fetches ++ [⟨id, res⟩] } rfl
          refine ⟨.updater (.getPlayer (some res)) :: es, ?_⟩
          simp only [Machine.exec, Machine.anyLabel, machine, step, stepUpdater, hpc, if_true,
            Option.bind_some, Option.map_some]
          exact hes

theorem updatePlayers_uninterrupted [DecidableEq ρ] (web : WebClient) (hidle : s.updater = .idle) :
    ∃ es, ((machine lib).exec Machine.anyLabel s es).map SharedProvider.data
      = some (s.data.updatePlayers lib web).2 := by
  cases hstatus : s.data.playerDataStatus with
  | NEW_DATA_READY =>
      refine ⟨[.updater .check], ?_⟩
      simp [Machine.exec, Machine.anyLabel, machine, step, stepUpdater, require, hidle, hstatus,
        PlayerProvider.updatePlayers]
  | AWAIT_NEW_DATA =>
      simp only [PlayerProvider.updatePlayers, hstatus, ne_eq, not_true_eq_false, if_false,
        PlayerProvider.fetchAndPublish, getPlayerIDs]
      cases hres : web "players" with
      | none =>
          refine ⟨[.updater .check, .updater .clear, .updater (.getIDs none)], ?_⟩
          simp [Machine.exec, Machine.anyLabel, machine, step, stepUpdater, require, hidle, hstatus]
      | some res =>
          obtain ⟨es, hes⟩ := collectPlayers_uninterrupted lib web (idsOfResponse lib res)
            { s with
              updater := .fetching res (idsOfResponse lib res)
              data := s.data.clearUpdated
              fetches := [] } rfl
          refine ⟨.updater .check :: .updater .clear :: .updater (.getIDs (some res)) :: es, ?_⟩
          simp only [Machine.exec, Machine.anyLabel, machine, step, stepUpdater, require, hidle, hstatus,
            if_true, ne_eq, not_true_eq_false, if_false, Option.bind_some, Option.map_some]
          exact hes

end SharedProvider

end Gravioli
