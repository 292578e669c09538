import Gravioli.PlayerProvider.Handoff
import Mathlib.Data.Fintype.Basic

set_option autoImplicit false

/-! # Lists in the hands of callers

`getPlayers` gives its caller a reference to `_players` and unlocks the mutex, so what the caller
sees from then on is whatever `_players` holds. Here the callers of `SharedProvider` keep the
reference until they call again, and may go through the list entry by entry in between, each time
through the reference and by index. (A range `for` has taken iterators: after a swap they stay with
the old buffer, which is then `_updatedPlayers`, until the updater clears it.)

The updater never touches `_players`, but the swap of another caller does. `stable_of_quiet`:
without such a swap the list stays what it was, and a swap of a different list takes it away from
everybody who holds it. A provider with a single caller, as every world has, is never disturbed
(`stable_of_subsingleton`). -/

namespace Gravioli

universe u

/-- A list a caller has obtained: its entries when `getPlayers` returned, and the entries the
    caller's loop has visited since. -/
structure Snapshot where
  players : List Player
  visited : List Player
  deriving DecidableEq

/-- The callers of `getPlayers` and what they hold. -/
structure Callers (ρ : Type u) where
  provider : SharedProvider ρ
  held : ρ → Option Snapshot

namespace Callers

variable {ρ : Type u} [DecidableEq ρ]

/-- Nobody has called yet. -/
def new : Callers ρ := ⟨.new, fun _ => none⟩

/-- A label: what a caller does outside `getPlayers`, or a step of the provider. -/
inductive Event (ρ : Type u)
  /-- caller `r` is done with its list and calls `getPlayers` -/
  | call (r : ρ)
  /-- the loop of caller `r` reads the next entry, by index, of what the reference refers to now -/
  | visit (r : ρ)
  | provider (e : SharedProvider.Event ρ)
  deriving DecidableEq

/-- Replace what one caller holds. -/
def setHeld (s : Callers ρ) (r : ρ) (snapshot : Option Snapshot) : Callers ρ :=
  { s with held := Function.update s.held r snapshot }

/-- Steps of the updater and of `getPlayers`; a call gives its list when it unlocks the mutex. -/
def stepProvider (lib : JsonLib) (s : Callers ρ) : SharedProvider.Event ρ → Option (Callers ρ)
  | .reader r .lock =>
      if s.held r = none then
        (s.provider.stepReader r .lock).map (fun provider => { s with provider := provider })
      else none
  | .reader r .unlock =>
      (s.provider.stepReader r .unlock).map (fun provider =>
        { s with provider := provider }.setHeld r (some ⟨provider.data.players, []⟩))
  | e => (s.provider.step lib e).map (fun provider => { s with provider := provider })

/-- One step. A visit reads `_players` as it is at that moment, at the index behind the entries
    visited. -/
def step (lib : JsonLib) (s : Callers ρ) : Event ρ → Option (Callers ρ)
  | .call r => require (s.provider.readers r = .outside) (s.setHeld r none)
  | .visit r =>
      (s.held r).bind (fun snapshot =>
        (s.provider.data.players[snapshot.visited.length]?).map (fun player =>
          s.setHeld r (some { snapshot with visited := snapshot.visited ++ [player] })))
  | .provider e => s.stepProvider lib e

/-- The callers from the construction of the provider on. -/
def machine (lib : JsonLib) : Machine (Callers ρ) (Event ρ) where
  init s := s = new
  step s e := s.step lib e

variable {lib : JsonLib} {s s' : Callers ρ}

/-- A step of the provider is one of `SharedProvider`, and gives a list to the caller that unlocks
    the mutex only. -/
theorem provider_cases {e : SharedProvider.Event ρ} (h : s.stepProvider lib e = some s') :
    s.provider.step lib e = some s'.provider ∧
      ((∃ r, e = .reader r .unlock ∧
          s'.held = Function.update s.held r (some ⟨s'.provider.data.players, []⟩)) ∨
        ((∀ r, e ≠ .reader r .unlock) ∧ (∀ r, e = .reader r .lock → s.held r = none) ∧
          s'.held = s.held)) := by
  cases e with
  | updater e =>
      obtain ⟨provider, hstep, rfl⟩ := Option.map_eq_some_iff.1 h
      exact ⟨hstep, Or.inr ⟨by simp, by simp, rfl⟩⟩
  | reader r e =>
      cases e with
      | lock =>
          simp only [stepProvider] at h
          split at h
          · next hnone =>
              obtain ⟨provider, hstep, rfl⟩ := Option.map_eq_some_iff.1 h
              refine ⟨hstep, Or.inr ⟨by simp, ?_, rfl⟩⟩
              intro r' hr'
              obtain ⟨rfl, -⟩ := SharedProvider.Event.reader.inj hr'
              exact hnone
          · exact absurd h (by simp)
      | unlock =>
          obtain ⟨provider, hstep, rfl⟩ := Option.map_eq_some_iff.1 h
          exact ⟨hstep, Or.inl ⟨r, rfl, rfl⟩⟩
      | _ =>
          obtain ⟨provider, hstep, rfl⟩ := Option.map_eq_some_iff.1 h
          exact ⟨hstep, Or.inr ⟨by simp, by simp, rfl⟩⟩

theorem provider_reach {ok : Callers ρ → Event ρ → Prop} (h : (machine lib).Reach ok s) :
    (SharedProvider.machine lib).Reach Machine.anyLabel s.provider := by
  induction h using Machine.Reach.induct with
  | init s hinit =>
      subst hinit
      exact Machine.Reach.init rfl
  | step s e s' hreach ih hok hstep =>
      cases e with
      | call r =>
          simp only [machine, step, require_eq_some] at hstep
          obtain ⟨-, rfl⟩ := hstep
          exact ih
      | visit r =>
          simp only [machine, step] at hstep
          obtain ⟨snapshot, -, hstep⟩ := Option.bind_eq_some_iff.1 hstep
          obtain ⟨player, -, rfl⟩ := Option.map_eq_some_iff.1 hstep
          exact ih
      | provider e => exact ih.next (e := e) trivial (provider_cases hstep).1

/-! ## Stability -/

/-- Every caller still sees the list it obtained, which is a complete published one, and a loop over
    it visits this list: its entries from the front, and all of them by the time it ends. -/
structure Stable (lib : JsonLib) (s : Callers ρ) : Prop where
  same : ∀ r snapshot, s.held r = some snapshot → s.provider.data.players = snapshot.players
  published : ∀ r snapshot, s.held r = some snapshot →
    snapshot.players = [] ∨
      ∃ c ∈ s.provider.completed, c.Complete lib ∧ snapshot.players = c.players
  visited : ∀ r snapshot, s.held r = some snapshot → snapshot.visited <+: snapshot.players
  finished : ∀ r snapshot, s.held r = some snapshot →
    s.provider.data.players.length ≤ snapshot.visited.length → snapshot.visited = snapshot.players

/-- The step swaps the two lists. -/
def Event.isSwap : Event ρ → Bool
  | .provider (.reader _ .swap) => true
  | _ => false

omit [DecidableEq ρ] in
theorem exists_of_isSwap {e : Event ρ} (h : e.isSwap) : ∃ r, e = .provider (.reader r .swap) := by
  cases e with
  | provider e =>
      cases e with
      | updater e => exact absurd h (by simp [Event.isSwap])
      | reader r e => cases e <;> first | exact ⟨r, rfl⟩ | exact absurd h (by simp [Event.isSwap])
  | _ => exact absurd h (by simp [Event.isSwap])

/-- Nobody swaps while a caller holds a list. (The caller that swaps is in its call and holds
    none.) -/
def quiet (s : Callers ρ) (e : Event ρ) : Prop := e.isSwap → ∀ r, s.held r = none

instance [Fintype ρ] (s : Callers ρ) (e : Event ρ) : Decidable (quiet s e) :=
  inferInstanceAs (Decidable (_ → _))

/-- The part of stability that steps preserve. -/
structure Kept (s : Callers ρ) : Prop where
  same : ∀ r snapshot, s.held r = some snapshot → s.provider.data.players = snapshot.players
  visited : ∀ r snapshot, s.held r = some snapshot → snapshot.visited <+: snapshot.players

theorem Kept.stable {ok : Callers ρ → Event ρ → Prop} (h : Kept s)
    (hreach : (machine lib).Reach ok s) : Stable lib s := by
  have hprovider := provider_reach hreach
  refine ⟨h.same, ?_, h.visited, ?_⟩
  · intro r snapshot hheld
    rw [← h.same r snapshot hheld]
    rcases SharedProvider.players_of_reach hprovider with ⟨-, hnil⟩ | ⟨k, c, hc, -, hplayers⟩
    · exact Or.inl hnil
    · have hmem := List.mem_of_getElem? hc
      have hcomplete := (SharedProvider.collected_of_reach hprovider).completed c hmem
      exact Or.inr ⟨c, hmem, hcomplete, hplayers⟩
  · intro r snapshot hheld hend
    rw [h.same r snapshot hheld] at hend
    exact (h.visited r snapshot hheld).eq_of_length_le hend

/-- Only a swap changes `_players`. -/
theorem players_of_step {p p' : SharedProvider ρ} {e : SharedProvider.Event ρ}
    (h : p.step lib e = some p') (hswap : ∀ r, e ≠ .reader r .swap) :
    p'.data.players = p.data.players := by
  cases e with
  | updater e => exact (SharedProvider.stepUpdater_frame h).2.1
  | reader r e =>
      cases e with
      | swap => exact absurd rfl (hswap r)
      | _ =>
          simp only [SharedProvider.step, SharedProvider.stepReader, require_eq_some] at h
          obtain ⟨-, rfl⟩ := h
          rfl

/-- What one caller holds changes. -/
theorem Kept.of_update {r : ρ} {held : Option Snapshot} (h : Kept s)
    (hplayers : s'.provider.data.players = s.provider.data.players)
    (hupdate : s'.held = Function.update s.held r held)
    (hheld : ∀ snapshot, held = some snapshot →
      s.provider.data.players = snapshot.players ∧ snapshot.visited <+: snapshot.players) :
    Kept s' := by
  have hcases : ∀ r' snapshot, s'.held r' = some snapshot →
      s.provider.data.players = snapshot.players ∧ snapshot.visited <+: snapshot.players := by
    intro r' snapshot hr'
    rw [hupdate] at hr'
    by_cases heq : r' = r
    · subst heq
      rw [Function.update_self] at hr'
      exact hheld snapshot hr'
    · rw [Function.update_of_ne heq] at hr'
      exact ⟨h.same r' snapshot hr', h.visited r' snapshot hr'⟩
  constructor
  · intro r' snapshot hr'
    rw [hplayers]
    exact (hcases r' snapshot hr').1
  · intro r' snapshot hr'
    exact (hcases r' snapshot hr').2

theorem Kept.step {e : Event ρ} (h : Kept s) (hquiet : quiet s e)
    (hstep : (machine lib).step s e = some s') : Kept s' := by
  cases e with
  | call r =>
      simp only [machine, Callers.step, require_eq_some] at hstep
      obtain ⟨-, rfl⟩ := hstep
      exact h.of_update rfl rfl (by simp)
  | visit r =>
      simp only [machine, Callers.step] at hstep
      obtain ⟨snapshot, hheld, hstep⟩ := Option.bind_eq_some_iff.1 hstep
      obtain ⟨player, hplayer, rfl⟩ := Option.map_eq_some_iff.1 hstep
      refine h.of_update rfl rfl ?_
      intro snapshot' hsnapshot'
      obtain rfl := Option.some.inj hsnapshot'
      have hsame := h.same r snapshot hheld
      rw [hsame] at hplayer
      obtain ⟨hlt, rfl⟩ := List.getElem?_eq_some_iff.1 hplayer
      exact ⟨hsame, List.concat_get_prefix (h.visited r snapshot hheld) hlt⟩
  | provider e =>
      obtain ⟨hprovider, hheld⟩ := provider_cases hstep
      by_cases hswap : ∃ r, e = .reader r .swap
      · -- nobody holds a list
        obtain ⟨r, rfl⟩ := hswap
        have hnone := hquiet rfl
        rcases hheld with ⟨r', hr', -⟩ | ⟨-, -, hsame⟩
        · exact absurd hr' (by simp)
        · constructor <;> intro r' snapshot hr' <;> rw [hsame, hnone r'] at hr' <;>
            exact absurd hr' (by simp)
      · have hplayers := players_of_step hprovider (fun r hr => hswap ⟨r, hr⟩)
        rcases hheld with ⟨r, -, hupdate⟩ | ⟨-, -, hsame⟩
        · refine h.of_update hplayers hupdate ?_
          intro snapshot hsnapshot
          obtain rfl := Option.some.inj hsnapshot
          exact ⟨hplayers.symm, List.nil_prefix⟩
        · constructor
          · rw [hsame, hplayers]
            exact h.same
          · rw [hsame]
            exact h.visited

theorem kept_of_reach (h : (machine lib).Reach quiet s) : Kept s := by
  induction h using Machine.Reach.induct with
  | init s hinit =>
      subst hinit
      exact ⟨fun r snapshot hheld => absurd hheld (by simp [new]),
        fun r snapshot hheld => absurd hheld (by simp [new])⟩
  | step s e s' hreach ih hquiet hstep => exact ih.step hquiet hstep

/-- **Stable lists.** In every interleaving without a swap while a caller holds a list, every caller
    sees the list it obtained until it calls again; and such a swap, when it installs a different
    list, ends this at once. -/
theorem stable_of_quiet (h : (machine lib).Reach quiet s) :
    Stable lib s ∧ ∀ r s', (machine lib).step s (.provider (.reader r .swap)) = some s' →
      (∃ r', s.held r' ≠ none) → s.provider.data.updatedPlayers ≠ s.provider.data.players →
        ¬ Stable lib s' := by
  refine ⟨(kept_of_reach h).stable h, ?_⟩
  rintro r s' hstep ⟨r', hr'⟩ hdifferent hstable
  obtain ⟨snapshot, hheld⟩ := Option.ne_none_iff_exists'.1 hr'
  replace hstep : s.stepProvider lib (.reader r .swap) = some s' := hstep
  obtain ⟨hprovider, hkeep⟩ := provider_cases hstep
  have hheld' : s'.held r' = some snapshot := by
    rcases hkeep with ⟨r'', hr'', -⟩ | ⟨-, -, hsame⟩
    · exact absurd hr'' (by simp)
    · rw [hsame, hheld]
  simp only [SharedProvider.step, SharedProvider.stepReader, require_eq_some] at hprovider
  have hplayers : s'.provider.data.players = s.provider.data.updatedPlayers := by
    rw [← hprovider.2]
  have hbefore := (kept_of_reach h).same r' snapshot hheld
  have hafter := hstable.same r' snapshot hheld'
  exact hdifferent (by rw [← hplayers, hafter, hbefore])

/-! ## A single caller -/

/-- A caller in its call holds no list. -/
def Calling (s : Callers ρ) : Prop := ∀ r, s.provider.readers r ≠ .outside → s.held r = none

/-- Who is in a call after a step was in it before, or has just locked the mutex. -/
theorem readers_of_step {p p' : SharedProvider ρ} {e : SharedProvider.Event ρ}
    (h : p.step lib e = some p') {r : ρ} (hr : p'.readers r ≠ .outside) :
    e ≠ .reader r .unlock ∧ (p.readers r ≠ .outside ∨ e = .reader r .lock) := by
  cases e with
  | updater e =>
      refine ⟨by simp, Or.inl ?_⟩
      rcases SharedProvider.updater_cases h with
        ⟨pc, updatedPlayers, fetches, rfl, -, -⟩ | ⟨_, -, rfl⟩
      · exact hr
      · exact hr
  | reader r' e =>
      by_cases heq : r = r'
      · subst heq
        cases e with
        | lock => exact ⟨by simp, Or.inr rfl⟩
        | unlock =>
            simp only [SharedProvider.step, SharedProvider.stepReader, require_eq_some] at h
            obtain ⟨-, rfl⟩ := h
            exact absurd (SharedProvider.readers_setReader_self _ _ _) hr
        | _ =>
            simp only [SharedProvider.step, SharedProvider.stepReader, require_eq_some] at h
            obtain ⟨hpc, rfl⟩ := h
            exact ⟨by simp, Or.inl (by simp [hpc])⟩
      · refine ⟨by simp [Ne.symm heq], Or.inl ?_⟩
        cases e <;>
          simp only [SharedProvider.step, SharedProvider.stepReader, require_eq_some] at h <;>
          obtain ⟨-, rfl⟩ := h <;> simpa [SharedProvider.setReader, heq] using hr

theorem Calling.step {e : Event ρ} (h : Calling s) (hstep : (machine lib).step s e = some s') :
    Calling s' := by
  intro r hr
  cases e with
  | call r' =>
      simp only [machine, Callers.step, require_eq_some] at hstep
      obtain ⟨-, rfl⟩ := hstep
      by_cases heq : r = r'
      · simp [setHeld, heq]
      · simpa [setHeld, heq] using h r hr
  | visit r' =>
      simp only [machine, Callers.step] at hstep
      obtain ⟨snapshot, hheld, hstep⟩ := Option.bind_eq_some_iff.1 hstep
      obtain ⟨player, -, rfl⟩ := Option.map_eq_some_iff.1 hstep
      have hnone := h r hr
      have hne : r ≠ r' := by
        rintro rfl
        simp [hheld] at hnone
      simpa [setHeld, hne] using hnone
  | provider e =>
      obtain ⟨hprovider, hheld⟩ := provider_cases hstep
      obtain ⟨hunlock, hbefore⟩ := readers_of_step hprovider hr
      rcases hheld with ⟨r', rfl, hupdate⟩ | ⟨-, hlock, hsame⟩
      · have hne : r ≠ r' := by
          rintro rfl
          exact hunlock rfl
        rcases hbefore with hbefore | hlock
        · rw [hupdate, Function.update_of_ne hne]
          exact h r hbefore
        · exact absurd hlock (by simp)
      · rw [hsame]
        rcases hbefore with hbefore | hlocked
        · exact h r hbefore
        · exact hlock r hlocked

/-- The swap of the only caller disturbs nobody. -/
theorem stable_of_subsingleton [Subsingleton ρ] (h : (machine lib).Reach Machine.anyLabel s) :
    Stable lib s := by
  have hquiet : (machine lib).Reach quiet s ∧ Calling s := by
    induction h using Machine.Reach.induct with
    | init s hinit =>
        subst hinit
        exact ⟨Machine.Reach.init rfl, fun r _ => rfl⟩
    | step s e s' hreach ih hok hstep =>
        obtain ⟨hquiet, hcalling⟩ := ih
        refine ⟨hquiet.next ?_ hstep, hcalling.step hstep⟩
        intro hswap r
        obtain ⟨r', rfl⟩ := exists_of_isSwap hswap
        replace hstep : s.stepProvider lib (.reader r' .swap) = some s' := hstep
        have hprovider := (provider_cases hstep).1
        simp only [SharedProvider.step, SharedProvider.stepReader, require_eq_some] at hprovider
        rw [Subsingleton.elim r r']
        exact hcalling r' (by simp [hprovider.1])
  exact (kept_of_reach hquiet.1).stable hquiet.1

/-! ## A run with two callers -/

/-- One update, answered by `GravioliWebClient` except for the two players. -/
def refreshEvents (player0 player1 : Option Response) : List (Event Bool) :=
  [SharedProvider.UpdaterEvent.check, .clear, .getIDs (GravioliWebClient.get "players"),
    .getPlayer player0, .getPlayer player1, .publish].map (fun e => .provider (.updater e))

/-- A call that finds new data. -/
def getEvents (r : Bool) : List (Event Bool) :=
  .call r :: [SharedProvider.ReaderEvent.lock, .test, .swap, .reset, .unlock].map
    (fun e => .provider (.reader r e))

/-- The first caller is between the two entries of its list when the second one swaps in a list with
    the keys of the two players exchanged. -/
def tornRun : List (Event Bool) :=
  refreshEvents (GravioliWebClient.get "player/0") (GravioliWebClient.get "player/1")
    ++ getEvents false ++ [.visit false]
    ++ refreshEvents (GravioliWebClient.get "player/1") (GravioliWebClient.get "player/0")
    ++ getEvents true ++ [.visit false]

theorem isSome_tornRun :
    ((machine gravioliLib).exec Machine.anyLabel (new : Callers Bool) tornRun).isSome := by
  decide +kernel

/-- The key of player `first` of the repository. -/
def sampleKey (first : Byte) : Key := #v[first, 1, 2, 3, 4, 5, 6, 7, 8, 9, 10, 11, 12, 13, 14, 15]

/-- The first caller visits the first player with its own key and the second player with the key of
    the first, a list that was never published. -/
theorem stable_fails :
    ∃ s : Callers Bool, (machine gravioliLib).Reach Machine.anyLabel s ∧
      ¬ Stable gravioliLib s := by
  refine ⟨_, Machine.reach_of_exec rfl tornRun isSome_tornRun, ?_⟩
  intro h
  have hvisited := h.visited false
    ⟨[⟨0, sampleKey 0⟩, ⟨1, sampleKey 1⟩], [⟨0, sampleKey 0⟩, ⟨1, sampleKey 0⟩]⟩ (by decide +kernel)
  exact absurd hvisited (by decide)

/-- A call of one caller after the other has called again. -/
def quietRun : List (Event Bool) :=
  refreshEvents (GravioliWebClient.get "player/0") (GravioliWebClient.get "player/1")
    ++ getEvents false ++ [.visit false, .visit false, .call false]
    ++ refreshEvents (GravioliWebClient.get "player/1") (GravioliWebClient.get "player/0")
    ++ getEvents true ++ [.visit true]

theorem isSome_quietRun :
    ((machine gravioliLib).exec quiet (new : Callers Bool) quietRun).isSome := by
  decide +kernel

/-- The list of the second caller at the end of `quietRun`. -/
theorem stable_quietRun :
    let s := ((machine gravioliLib).exec quiet (new : Callers Bool) quietRun).get isSome_quietRun
    Stable gravioliLib s ∧ ∀ r s',
      (machine gravioliLib).step s (.provider (.reader r .swap)) = some s' →
      (∃ r', s.held r' ≠ none) → s.provider.data.updatedPlayers ≠ s.provider.data.players →
        ¬ Stable gravioliLib s' :=
  stable_of_quiet (Machine.reach_of_exec rfl quietRun isSome_quietRun)

end Callers

end Gravioli
