import Gravioli.PlayerProvider.Handoff
import Gravioli.System.Moves

set_option autoImplicit false

/-! # One world at a time

Seen from one world, the composed system does few things: `World.Steps` lists what can happen to a
world, whoever does it, and `forall_worlds` is the induction rule for properties of single worlds.
Two of these are used throughout: the provider of a world runs as `SharedProvider.machine` with the
world as its only reader, and a world ticks over the list that `getPlayers` returned, entry by entry
(`Ticking`). -/

namespace Gravioli

universe u

namespace World

/-- Inside the iteration over the list: the current entry and the number of entries. -/
def inTick (x : World) : Option (ℕ × ℕ) :=
  match x.pc with
  | .iterate i n => some (i, n)
  | .push i n _ => some (i, n)
  | _ => none

/-- What can happen to a world. -/
inductive Steps (lib : JsonLib) (x : World) : World → Prop
  | control (providerStopped stopped : Bool) (thread : ProviderThread) :
      Steps lib x { x with
        providerStopped := providerStopped
        stopped := stopped
        providerThread := thread }
  | update (e : SharedProvider.UpdaterEvent) (p : SharedProvider Unit) (thread : ProviderThread)
      (hstep : x.provider.stepUpdater lib e = some p) :
      Steps lib x { x with provider := p, providerThread := thread }
  | reader (e : SharedProvider.ReaderEvent) (p : SharedProvider Unit) (hpc : x.pc = .getPlayers)
      (hne : e ≠ .unlock) (hstep : x.provider.stepReader () e = some p) :
      Steps lib x { x with provider := p }
  | gotPlayers (p : SharedProvider Unit) (hpc : x.pc = .getPlayers)
      (hstep : x.provider.stepReader () .unlock = some p) :
      Steps lib x { x with
        provider := p
        pc := .iterate 0 p.data.players.length
        ticks := x.ticks ++ [⟨p.data.players, []⟩] }
  | alloc (i n : ℕ) (player : Player) (r : Ref) (hpc : x.pc = .iterate i n) (hi : i < n)
      (hplayer : x.provider.data.players[i]? = some player) :
      Steps lib x { x with pc := .push i n (batchFor player r) }
  | push (i n : ℕ) (msgs : Messages) (hpc : x.pc = .push i n msgs) :
      Steps lib x { x with pc := .iterate (i + 1) n, ticks := record x.ticks msgs }
  | endTick (i n : ℕ) (hpc : x.pc = .iterate i n) (hi : ¬ i < n) : Steps lib x { x with pc := .test }
  | goto (pc : WorldPc) (hfrom : x.inTick = none) (hto : inTick { x with pc := pc } = none) :
      Steps lib x { x with pc := pc }

/-! ## Ticking -/

/-- The state of the iteration. Every list a world went through is one `getPlayers` returned, and
    all of its entries have had their batch, up to the current entry for the list it is in. -/
structure Ticking (x : World) : Prop where
  returned : x.ticks.map Tick.players = x.provider.returned.map Prod.snd
  current : ∀ i n, x.inTick = some (i, n) → n = x.provider.data.players.length ∧ i ≤ n ∧
    ∃ done batches, x.ticks = done ++ [⟨x.provider.data.players, batches⟩] ∧ batches.length = i ∧
      ∀ t ∈ done, t.batches.length = t.players.length
  pushing : ∀ i n msgs, x.pc = .push i n msgs → i < n
  complete : x.inTick = none → ∀ t ∈ x.ticks, t.batches.length = t.players.length

theorem pc_ne_push {x : World} (h : x.inTick = none) {i n : ℕ} {msgs : Messages} :
    x.pc ≠ .push i n msgs := by
  intro hpc
  simp [inTick, hpc] at h

/-- Between ticks only the completed ones have to be looked at. -/
theorem Ticking.of_inTick_none {x y : World} (h : Ticking x) (hfrom : x.inTick = none)
    (hto : y.inTick = none) (hticks : y.ticks = x.ticks)
    (hreturned : y.provider.returned = x.provider.returned) : Ticking y where
  returned := by rw [hticks, hreturned, h.returned]
  current i n hin := by simp [hto] at hin
  pushing i n msgs hpc := absurd hpc (pc_ne_push hto)
  complete _ := by
    rw [hticks]
    exact h.complete hfrom

/-- Nothing changes but what the iteration does not look at. -/
theorem Ticking.of_same {x y : World} (h : Ticking x) (hpc : y.pc = x.pc) (hticks : y.ticks = x.ticks)
    (hreturned : y.provider.returned = x.provider.returned)
    (hplayers : y.provider.data.players = x.provider.data.players) : Ticking y := by
  have hin : y.inTick = x.inTick := by simp [inTick, hpc]
  constructor
  · rw [hticks, hreturned, h.returned]
  · rw [hin, hticks, hplayers]
    exact h.current
  · rw [hpc]
    exact h.pushing
  · rw [hin, hticks]
    exact h.complete

theorem Ticking.step {lib : JsonLib} {x y : World} (h : Ticking x) (hstep : x.Steps lib y) :
    Ticking y := by
  cases hstep with
  | control providerStopped stopped thread => exact h.of_same rfl rfl rfl rfl
  | update e p thread hstep =>
      obtain ⟨-, hplayers, -, hreturned⟩ := SharedProvider.stepUpdater_frame hstep
      exact h.of_same rfl rfl hreturned hplayers
  | reader e p hpc hne hstep =>
      obtain ⟨-, -, hreturned⟩ := SharedProvider.stepReader_frame hstep
      have hnone : x.inTick = none := by simp [inTick, hpc]
      exact h.of_inTick_none hnone hnone rfl (hreturned hne)
  | gotPlayers p hpc hstep =>
      obtain ⟨hdata, -, hreturned⟩ := SharedProvider.unlock_frame hstep
      refine ⟨?_, ?_, fun i n msgs hpush => by simp at hpush, fun hin => by simp [inTick] at hin⟩
      · simp [h.returned, hreturned, hdata]
      · intro i n hin
        simp only [inTick, Option.some.injEq, Prod.mk.injEq] at hin
        obtain ⟨rfl, rfl⟩ := hin
        exact ⟨rfl, Nat.zero_le _, x.ticks, [], rfl, rfl, h.complete (by simp [inTick, hpc])⟩
  | alloc i n player r hpc hi hplayer =>
      have hin : inTick { x with pc := .push i n (batchFor player r) } = x.inTick := by
        simp [inTick, hpc]
      refine ⟨h.returned, fun i' n' hin' => h.current i' n' (hin ▸ hin'), ?_, ?_⟩
      · intro i' n' msgs hpush
        simp only [WorldPc.push.injEq] at hpush
        obtain ⟨rfl, rfl, -⟩ := hpush
        exact hi
      · intro hin'
        exact h.complete (hin ▸ hin')
  | push i n msgs hpc =>
      obtain ⟨hn, hle, done, batches, hticks, hlen, hdone⟩ := h.current i n (by simp [inTick, hpc])
      have hrecord : record x.ticks msgs = done ++ [⟨x.provider.data.players, batches ++ [msgs]⟩] := by
        rw [hticks, record_concat]
      have hplayers : (record x.ticks msgs).map Tick.players = x.ticks.map Tick.players := by
        rw [hrecord, hticks]
        simp
      refine ⟨hplayers.trans h.returned, ?_, fun i n msgs hpush => by simp at hpush,
        fun hin => by simp [inTick] at hin⟩
      intro i' n' hin
      simp only [inTick, Option.some.injEq, Prod.mk.injEq] at hin
      obtain ⟨rfl, rfl⟩ := hin
      exact ⟨hn, h.pushing i n msgs hpc, done, _, hrecord, by simp [hlen], hdone⟩
  | endTick i n hpc hi =>
      obtain ⟨hn, hle, done, batches, hticks, hlen, hdone⟩ := h.current i n (by simp [inTick, hpc])
      refine ⟨h.returned, fun i' n' hin => by simp [inTick] at hin,
        fun i n msgs hpush => by simp at hpush, ?_⟩
      intro _ t ht
      simp only [hticks, List.mem_append, List.mem_singleton] at ht
      rcases ht with ht | rfl
      · exact hdone t ht
      · show batches.length = x.provider.data.players.length
        omega
  | goto pc hfrom hto => exact h.of_inTick_none hfrom hto rfl rfl

/-- The ticks a world is through with: all but the one it is in. -/
def pastTicks (x : World) : List Tick := if x.inTick = none then x.ticks else x.ticks.dropLast

theorem Ticking.past {x : World} (h : Ticking x) :
    ∀ t ∈ x.pastTicks, t.batches.length = t.players.length := by
  unfold pastTicks
  cases hin : x.inTick with
  | none => simpa using h.complete hin
  | some entry =>
      obtain ⟨-, -, done, batches, hticks, -, hdone⟩ := h.current entry.1 entry.2 hin
      simpa [hticks] using hdone

/-- The provider of a world runs on its own. -/
theorem provider_step {lib : JsonLib} {x y : World}
    (h : (SharedProvider.machine lib).Reach Machine.anyLabel x.provider) (hstep : x.Steps lib y) :
    (SharedProvider.machine lib).Reach Machine.anyLabel y.provider := by
  cases hstep with
  | update e p thread hstep => exact h.next (e := .updater e) trivial hstep
  | reader e p hpc hne hstep => exact h.next (e := .reader () e) trivial hstep
  | gotPlayers p hpc hstep => exact h.next (e := .reader () .unlock) trivial hstep
  | _ => exact h

/-- Completed updates and installed lists stay on record. -/
theorem history_step {lib : JsonLib} {x y : World} (hstep : x.Steps lib y) :
    x.provider.updates <+: y.provider.updates ∧ x.provider.installed <+: y.provider.installed := by
  cases hstep with
  | update e p thread hstep =>
      obtain ⟨hupdates, -, hinstalled, -⟩ := SharedProvider.stepUpdater_frame hstep
      exact ⟨hupdates, hinstalled ▸ List.prefix_refl _⟩
  | reader e p hpc hne hstep =>
      obtain ⟨hupdates, hinstalled, -⟩ := SharedProvider.stepReader_frame hstep
      exact ⟨hupdates ▸ List.prefix_refl _, hinstalled⟩
  | gotPlayers p hpc hstep =>
      obtain ⟨hupdates, hinstalled, -⟩ := SharedProvider.stepReader_frame hstep
      exact ⟨hupdates ▸ List.prefix_refl _, hinstalled⟩
  | _ => exact ⟨List.prefix_refl _, List.prefix_refl _⟩

/-- The lists of the ticks stay on record. -/
theorem ticks_step {lib : JsonLib} {x y : World} (h : x.Ticking) (hstep : x.Steps lib y) :
    x.ticks.map Tick.players <+: y.ticks.map Tick.players := by
  have hreturned : x.provider.returned <+: y.provider.returned := by
    cases hstep with
    | update e p thread hstep =>
        obtain ⟨-, -, -, hreturned⟩ := SharedProvider.stepUpdater_frame hstep
        exact hreturned ▸ List.prefix_refl _
    | reader e p hpc hne hstep =>
        obtain ⟨-, -, hreturned⟩ := SharedProvider.stepReader_frame hstep
        exact hreturned hne ▸ List.prefix_refl _
    | gotPlayers p hpc hstep =>
        obtain ⟨-, -, hreturned⟩ := SharedProvider.unlock_frame hstep
        exact hreturned ▸ List.prefix_append _ _
    | _ => exact List.prefix_refl _
  rw [h.returned, (h.step hstep).returned]
  exact hreturned.map _

end World

/-! ## The worlds of the system -/

namespace System

variable {ι : Type u} [DecidableEq ι] {lib : JsonLib} {aes : BlockCipher} {s s' : System ι}

theorem steps_of_update {w : ι} {y : World} (hworlds : s'.worlds = Function.update s.worlds w y)
    (hstep : (s.worlds w).Steps lib y) (w' : ι) :
    s'.worlds w' = s.worlds w' ∨ (s.worlds w').Steps lib (s'.worlds w') := by
  rcases world_cases hworlds w' with ⟨rfl, hw⟩ | ⟨-, hw⟩
  · exact Or.inr (hw ▸ hstep)
  · exact Or.inl hw

/-- A step of the system is at most one step of each world. -/
theorem worlds_of_moves {e : Event ι} (hmove : Moves lib aes s e s') (w : ι) :
    s'.worlds w = s.worlds w ∨ (s.worlds w).Steps lib (s'.worlds w) := by
  cases hmove with
  | stopProvider v => exact steps_of_update rfl (.control _ _ _) w
  | stop v => exact steps_of_update rfl (.control _ _ _) w
  | providerTest v => exact steps_of_update rfl (.control _ _ _) w
  | update v e p thread _ hstep => exact steps_of_update rfl (.update e p thread hstep) w
  | reader v e p hpc hne hstep => exact steps_of_update rfl (.reader e p hpc hne hstep) w
  | gotPlayers v p hpc hstep => exact steps_of_update rfl (.gotPlayers p hpc hstep) w
  | alloc v payload i n player hpc hi hplayer =>
      exact steps_of_update rfl (.alloc i n player _ hpc hi hplayer) w
  | push v i n msgs hpc => exact steps_of_update rfl (.push i n msgs hpc) w
  | endTick v i n hpc hi => exact steps_of_update rfl (.endTick i n hpc hi) w
  | proceed v hpc => exact steps_of_update rfl (.goto _ (by simp [World.inTick, hpc]) rfl) w
  | leave v hpc => exact steps_of_update rfl (.goto _ (by simp [World.inTick, hpc]) rfl) w
  | pass v hpc =>
      exact steps_of_update rfl (.goto _ (by rcases hpc with h | h <;> simp [World.inTick, h]) rfl) w
  | wait v hpc =>
      exact steps_of_update rfl (.goto _ (by rcases hpc with h | h <;> simp [World.inTick, h]) rfl) w
  | join v threw hpc => exact steps_of_update rfl (.goto _ (by simp [World.inTick, hpc]) rfl) w
  | destroy v threw hpc => exact steps_of_update rfl (.goto _ (by simp [World.inTick, hpc]) rfl) w
  | drain v popped front rest hpc =>
      exact steps_of_update rfl (.goto _ (by simp [World.inTick, hpc]) rfl) w
  | drained v popped hpc => exact steps_of_update rfl (.goto _ (by simp [World.inTick, hpc]) rfl) w
  | free v popped r rest hpc => exact steps_of_update rfl (.goto _ (by simp [World.inTick, hpc]) rfl) w
  | skip v popped r rest hpc => exact steps_of_update rfl (.goto _ (by simp [World.inTick, hpc]) rfl) w
  | freedAll v popped hpc => exact steps_of_update rfl (.goto _ (by simp [World.inTick, hpc]) rfl) w
  | _ => exact Or.inl rfl

/-- **Induction for one world**: what holds of a new world and is kept by `World.Steps` holds of all
    worlds in every reachable state. -/
theorem forall_worlds {ok : System ι → Event ι → Prop} {P : World → Prop} (hnew : P World.new)
    (hkeep : ∀ x y : World, P x → x.Steps lib y → P y) (h : (machine lib aes).Reach ok s) (w : ι) :
    P (s.worlds w) := by
  induction h using Machine.Reach.induct generalizing w with
  | init s hinit =>
      obtain ⟨connected, rfl⟩ := hinit
      exact hnew
  | step s e s' hreach ih hok hstep =>
      rcases worlds_of_moves (moves_of_step hstep) w with hsame | hsteps
      · rw [hsame]
        exact ih w
      · exact hkeep _ _ (ih w) hsteps

theorem provider_reach {ok : System ι → Event ι → Prop} (h : (machine lib aes).Reach ok s) (w : ι) :
    (SharedProvider.machine lib).Reach Machine.anyLabel (s.worlds w).provider :=
  forall_worlds (P := fun x => (SharedProvider.machine lib).Reach Machine.anyLabel x.provider)
    (Machine.Reach.init rfl) (fun _ _ => World.provider_step) h w

theorem ticking_of_reach {ok : System ι → Event ι → Prop} (h : (machine lib aes).Reach ok s) (w : ι) :
    (s.worlds w).Ticking :=
  forall_worlds ⟨rfl, fun _ _ hin => by simp [World.inTick, World.new] at hin,
      fun _ _ _ hpc => by simp [World.new] at hpc, fun _ t ht => absurd ht List.not_mem_nil⟩
    (fun _ _ => World.Ticking.step) h w

end System

end Gravioli
