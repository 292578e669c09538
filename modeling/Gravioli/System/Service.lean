import Gravioli.PlayerProvider.Documents
import Gravioli.System.Isolation

set_option autoImplicit false

/-! # Runs against a constant web service

Every answer a provider gets is that of one web service which lists a roster. Whatever the threads do
in between, a world ticks over the empty list until it has installed its first update, and from then on
over exactly the roster (`settled_of_reach`); so every tick that is over pushed nothing, or one batch
for each player of the roster, in its order, with the player's topic and key (`roster_published`). -/

namespace Gravioli

universe u

namespace SharedProvider

variable {ρ : Type u}

/-- The label with the answer of `web` to the request that is due. -/
def answered (web : WebClient) (p : SharedProvider ρ) : UpdaterEvent → UpdaterEvent
  | .getIDs _ => .getIDs (web "players")
  | .getPlayer res =>
      match p.updater with
      | .fetching _ (id :: _) => .getPlayer (web (playerUrl id))
      | _ => .getPlayer res
  | e => e

/-- The label has the answer of `web`, if it has one. -/
def AnsweredBy (web : WebClient) (p : SharedProvider ρ) (e : UpdaterEvent) : Prop :=
  e = p.answered web e

instance (web : WebClient) (p : SharedProvider ρ) (e : UpdaterEvent) :
    Decidable (p.AnsweredBy web e) := inferInstanceAs (Decidable (_ = _))

/-- All answers on record are those of `web`. -/
structure Truthful (web : WebClient) (p : SharedProvider ρ) : Prop where
  updates : ∀ u ∈ p.updates, web "players" = some u.response ∧
    ∀ f ∈ u.fetches, web f.url = some f.response
  fetches : ∀ f ∈ p.fetches, web f.url = some f.response
  players : ∀ res rest, p.updater = .fetching res rest → web "players" = some res

theorem Truthful.new (web : WebClient) : Truthful web (SharedProvider.new : SharedProvider ρ) where
  updates u hu := absurd hu List.not_mem_nil
  fetches f hf := absurd hf List.not_mem_nil
  players res rest h := absurd h (by simp [SharedProvider.new])

variable {lib : JsonLib} {web : WebClient} {p p' : SharedProvider ρ}

theorem Truthful.updater (h : Truthful web p) {e : UpdaterEvent} (hanswer : p.AnsweredBy web e)
    (hstep : p.stepUpdater lib e = some p') : Truthful web p' := by
  cases e with
  | check =>
      simp only [stepUpdater, require_eq_some] at hstep
      obtain ⟨-, rfl⟩ := hstep
      refine ⟨h.updates, h.fetches, ?_⟩
      intro res rest hpc
      split at hpc <;> exact absurd hpc (by simp)
  | clear =>
      simp only [stepUpdater, require_eq_some] at hstep
      obtain ⟨-, rfl⟩ := hstep
      exact ⟨h.updates, by simp, fun res rest hpc => absurd hpc (by simp)⟩
  | getIDs res =>
      cases res with
      | none =>
          simp only [stepUpdater, require_eq_some] at hstep
          obtain ⟨-, rfl⟩ := hstep
          exact ⟨h.updates, h.fetches, fun res rest hpc => absurd hpc (by simp)⟩
      | some res =>
          simp only [stepUpdater, require_eq_some] at hstep
          obtain ⟨-, rfl⟩ := hstep
          refine ⟨h.updates, h.fetches, ?_⟩
          intro res' rest hpc
          simp only [UpdaterPc.fetching.injEq] at hpc
          rw [← hpc.1]
          exact (UpdaterEvent.getIDs.inj hanswer).symm
  | getPlayer res =>
      simp only [stepUpdater] at hstep
      split at hstep
      · next players id rest hpc =>
          simp only [AnsweredBy, answered, hpc, UpdaterEvent.getPlayer.injEq] at hanswer
          cases res with
          | none =>
              obtain rfl := Option.some.inj hstep
              exact ⟨h.updates, h.fetches, fun res rest hpc => absurd hpc (by simp)⟩
          | some res =>
              obtain rfl := Option.some.inj hstep
              refine ⟨h.updates, ?_, ?_⟩
              · exact List.forall_mem_append.2 ⟨h.fetches,
                  List.forall_mem_singleton.2 hanswer.symm⟩
              · intro res' rest' hpc'
                simp only [UpdaterPc.fetching.injEq] at hpc'
                rw [← hpc'.1]
                exact h.players players _ hpc
      · exact absurd hstep (by simp)
  | publish =>
      simp only [stepUpdater] at hstep
      split at hstep
      · next players hpc =>
          obtain rfl := Option.some.inj hstep
          refine ⟨?_, h.fetches, fun res rest hpc => absurd hpc (by simp)⟩
          intro u hu
          simp only [SharedProvider.updates, List.map_append, List.mem_append] at hu
          obtain hu | hu := hu
          · exact h.updates u hu
          · obtain rfl := List.mem_singleton.1 hu
            exact ⟨h.players players [] hpc, h.fetches⟩
      · exact absurd hstep (by simp)

theorem Truthful.reader [DecidableEq ρ] (h : Truthful web p) {r : ρ} {e : ReaderEvent}
    (hstep : p.stepReader r e = some p') : Truthful web p' := by
  have hsame : p'.updates = p.updates ∧ p'.fetches = p.fetches ∧ p'.updater = p.updater := by
    refine ⟨(stepReader_frame hstep).1, ?_⟩
    cases e <;> simp only [stepReader, require_eq_some] at hstep <;> obtain ⟨-, rfl⟩ := hstep <;>
      exact ⟨rfl, rfl⟩
  obtain ⟨hupdates, hfetches, hupdater⟩ := hsame
  exact ⟨by rw [hupdates]; exact h.updates, by rw [hfetches]; exact h.fetches,
    by rw [hupdater]; exact h.players⟩

/-- A completed update has published the roster. -/
theorem players_of_complete {roster : Roster} (hanswers : Answers lib web roster) {u : Update}
    (hcomplete : u.Complete lib) (hres : web "players" = some u.response)
    (hfetches : ∀ f ∈ u.fetches, web f.url = some f.response) : u.players = roster.players := by
  have hids : u.fetches.map Fetch.id = roster.map Prod.fst := by
    have h := hanswers.ids
    rw [getPlayerIDs, hres, Option.map_some, Option.some.injEq] at h
    rw [hcomplete.ids, h]
  have hfetch : ∀ f ∈ u.fetches, f.player? lib = (getPlayerById lib web f.id).join := by
    intro f hf
    have hf := hfetches f hf
    rw [Fetch.url] at hf
    rw [getPlayerById, hf]
    rfl
  rw [hcomplete.players, List.filterMap_congr hfetch, ← hanswers.players, ← hids, List.filterMap_map]
  rfl

/-- The list callers get. -/
theorem players_of_answers [DecidableEq ρ] {roster : Roster} (hanswers : Answers lib web roster)
    {ok : SharedProvider ρ → Event ρ → Prop} (hreach : (machine lib).Reach ok p)
    (h : Truthful web p) :
    (p.installed = [] ∧ p.data.players = []) ∨
      (p.installed ≠ [] ∧ p.data.players = roster.players) := by
  obtain hnone | ⟨k, c, hc, hk, hplayers⟩ := players_of_reach hreach
  · exact .inl hnone
  · have hmem := List.mem_of_getElem? hc
    obtain ⟨hres, hfetches⟩ := h.updates c.toUpdate (List.mem_map_of_mem hmem)
    refine .inr ⟨fun hnil => by simp [hnil] at hk, ?_⟩
    rw [hplayers]
    exact players_of_complete hanswers ((collected_of_reach hreach).completed c hmem) hres hfetches

end SharedProvider

namespace System

variable {ι : Type u}

/-- The web service answers all requests, and always in the same way. -/
def answeredBy (web : WebClient) (s : System ι) : Event ι → Prop
  | .provider w (.update e) => (s.worlds w).provider.AnsweredBy web e
  | _ => True

instance (web : WebClient) (s : System ι) : (e : Event ι) → Decidable (answeredBy web s e)
  | .provider w (.update e) => inferInstanceAs (Decidable ((s.worlds w).provider.AnsweredBy web e))
  | .provider _ .test => isTrue trivial
  | .stopProvider _ => isTrue trivial
  | .stop _ => isTrue trivial
  | .stopServer => isTrue trivial
  | .world _ _ => isTrue trivial
  | .server _ => isTrue trivial
  | .release _ => isTrue trivial

variable [DecidableEq ι] {lib : JsonLib} {aes : BlockCipher} {s s' : System ι} {web : WebClient}
  {roster : Roster} {ok : System ι → Event ι → Prop}

/-- What a step does to the provider of a world. -/
theorem provider_of_moves {e : Event ι} (hmove : Moves lib aes s e s') (w : ι) :
    (s'.worlds w).provider = (s.worlds w).provider ∨
    (∃ ue, e = .provider w (.update ue) ∧
      (s.worlds w).provider.stepUpdater lib ue = some (s'.worlds w).provider) ∨
    ∃ re, (s.worlds w).provider.stepReader () re = some (s'.worlds w).provider := by
  -- it is enough to look at the world that made the step
  have hupdate : ∀ (v : ι) (y : World), s'.worlds = Function.update s.worlds v y →
      y.provider = (s.worlds v).provider → (s'.worlds w).provider = (s.worlds w).provider := by
    intro v y hworlds hy
    obtain ⟨rfl, hw⟩ | ⟨-, hw⟩ := world_cases hworlds w
    · rw [hw, hy]
    · rw [hw]
  cases hmove with
  | update v ue p thread hthread hstep =>
      by_cases hv : w = v
      · subst hv
        exact .inr (.inl ⟨ue, rfl, by simpa [setWorld] using hstep⟩)
      · exact .inl (by simp [setWorld, hv])
  | reader v re p hpc hne hstep =>
      by_cases hv : w = v
      · subst hv
        exact .inr (.inr ⟨re, by simpa [setWorld] using hstep⟩)
      · exact .inl (by simp [setWorld, hv])
  | gotPlayers v p hpc hstep =>
      by_cases hv : w = v
      · subst hv
        exact .inr (.inr ⟨.unlock, by simpa [setWorld] using hstep⟩)
      · exact .inl (by simp [setWorld, hv])
  | stopServer | enter | refuse | serve | exit | take | sleep | send | finish | release =>
      exact .inl rfl
  | _ => exact .inl (hupdate _ _ rfl rfl)

theorem truthful_of_reach (h : (machine lib aes).Reach ok s)
    (hweb : ∀ s e, ok s e → answeredBy web s e) (w : ι) :
    (s.worlds w).provider.Truthful web := by
  induction h using Machine.Reach.induct with
  | init s hinit =>
      obtain ⟨connected, rfl⟩ := hinit
      exact .new web
  | step s e s' hreach ih hok hstep =>
      obtain hsame | ⟨ue, rfl, hprovider⟩ | ⟨re, hprovider⟩ :=
        provider_of_moves (moves_of_step hstep) w
      · rw [hsame]
        exact ih
      · exact ih.updater (hweb s _ hok) hprovider
      · exact ih.reader hprovider

/-- The lists of the ticks: empty ones first, then the roster. -/
def Settled (roster : Roster) (x : World) : Prop :=
  ∃ k m, x.ticks.map Tick.players = List.replicate k [] ++ List.replicate m roster.players ∧
    (m ≠ 0 → x.provider.installed ≠ [])

/-- A step that adds no tick. -/
theorem Settled.same {x y : World} (h : Settled roster x)
    (hticks : y.ticks.map Tick.players = x.ticks.map Tick.players)
    (hinstalled : x.provider.installed <+: y.provider.installed) : Settled roster y := by
  obtain ⟨k, m, hx, hm⟩ := h
  refine ⟨k, m, hticks.trans hx, fun hne hnil => hm hne ?_⟩
  rw [hnil] at hinstalled
  exact List.prefix_nil.1 hinstalled

theorem Settled.gotPlayers {x : World} (h : Settled roster x) {p : SharedProvider Unit}
    (hplayers : (x.provider.installed = [] ∧ x.provider.data.players = []) ∨
      (x.provider.installed ≠ [] ∧ x.provider.data.players = roster.players))
    (hdata : p.data = x.provider.data) (hinstalled : p.installed = x.provider.installed)
    {pc : WorldPc} :
    Settled roster { x with
      provider := p
      pc := pc
      ticks := x.ticks ++ [⟨p.data.players, []⟩] } := by
  obtain ⟨k, m, hx, hm⟩ := h
  obtain ⟨hnil, hempty⟩ | ⟨hne, hroster⟩ := hplayers
  · obtain rfl : m = 0 := by
      by_contra hne
      exact hm hne hnil
    refine ⟨k + 1, 0, ?_, fun hne => absurd rfl hne⟩
    simp [hx, hdata, hempty, List.replicate_succ']
  · refine ⟨k, m + 1, ?_, fun _ => by rwa [hinstalled]⟩
    simp [hx, hdata, hroster, List.replicate_succ']

theorem settled_of_reach (hanswers : Answers lib web roster) (h : (machine lib aes).Reach ok s)
    (hweb : ∀ s e, ok s e → answeredBy web s e) (w : ι) : Settled roster (s.worlds w) := by
  induction h using Machine.Reach.induct with
  | init s hinit =>
      obtain ⟨connected, rfl⟩ := hinit
      exact ⟨0, 0, rfl, fun hne => absurd rfl hne⟩
  | step s e s' hreach ih hok hstep =>
      obtain hsame | hsteps := worlds_of_moves (moves_of_step hstep) w
      · rw [hsame]
        exact ih
      · have hinstalled := (World.history_step hsteps).2
        generalize s'.worlds w = y at hsteps hinstalled
        cases hsteps with
        | gotPlayers p hpc hstep =>
            obtain ⟨hdata, hsame, -⟩ := SharedProvider.unlock_frame hstep
            exact ih.gotPlayers (SharedProvider.players_of_answers hanswers (provider_reach hreach w)
              (truthful_of_reach hreach hweb w)) hdata hsame
        | push i n msgs hpc =>
            refine ih.same ?_ hinstalled
            obtain ⟨-, -, done, batches, hticks, -, -⟩ :=
              (ticking_of_reach hreach w).current i n (by simp [World.inTick, hpc])
            simp [hticks, World.record_concat]
        | _ => exact ih.same rfl hinstalled

/-- The lists of the ticks that are over are as those of all ticks. -/
theorem Settled.past {x : World} (h : Settled roster x) :
    ∃ k m, x.pastTicks.map Tick.players = List.replicate k [] ++ List.replicate m roster.players := by
  obtain ⟨k, m, hx, -⟩ := h
  obtain ⟨n, hn⟩ : ∃ n, x.pastTicks = x.ticks.take n := by
    unfold World.pastTicks
    split
    · exact ⟨x.ticks.length, List.take_length.symm⟩
    · exact ⟨x.ticks.length - 1, List.dropLast_eq_take⟩
  refine ⟨min n k, min (n - k) m, ?_⟩
  rw [hn, List.map_take, hx, List.take_append, List.take_replicate, List.take_replicate,
    List.length_replicate]

/-- Topics and keys of the players of a roster. -/
theorem map_labelOf_players (roster : Roster) :
    roster.players.map labelOf = roster.map (fun entry => (entry.1, some entry.2)) := by
  rw [Roster.players, List.map_map]
  refine List.map_congr_left (fun entry _ => ?_)
  simp only [Function.comp, labelOf, World.setWidth_signExtend]

/-- **From the texts of the web service to the batches of a world.** When the web service lists a
    roster in JSON and answers always in the same way, then in every interleaving the ticks of a world
    that are over pushed nothing, up to some tick, and from then on one message for each player of the
    roster, in its order, with the player's ID as its topic and the key the service gave. -/
theorem roster_published {toDouble : ℤ → ℤ → Option Double} {castOutOfRange : Double → CInt}
    (hserves : Serves toDouble web roster)
    (h : (machine (nlohmann toDouble castOutOfRange) aes).Reach (answeredBy web) s) (w : ι) :
    ∃ k m, (s.worlds w).pastTicks.map (fun t => s.labels t.batches)
      = List.replicate k [] ++ List.replicate m (roster.map (fun entry => (entry.1, some entry.2))) := by
  obtain ⟨k, m, hpast⟩ := (settled_of_reach hserves.answers h (fun _ _ hok => hok) w).past
  refine ⟨k, m, ?_⟩
  have hlabels : (s.worlds w).pastTicks.map (fun t => s.labels t.batches)
      = ((s.worlds w).pastTicks.map Tick.players).map (fun players => players.map labelOf) := by
    rw [List.map_map]
    exact List.map_congr_left (fun t ht => labels_of_past h ht)
  rw [hlabels, hpast, List.map_append, List.map_replicate, List.map_replicate, map_labelOf_players]
  rfl

/-- A tick before the first update has been installed, and two after it. -/
def serviceRun : List (Event Unit) :=
  tickEvents () false [] ++ refreshEvents plainLib GravioliWebClient.get ()
    ++ tickEvents () true [[1, 2], [3]] ++ tickEvents () false [[4], [5]]

theorem isSome_serviceRun :
    ((machine plainLib sampleCipher).exec (answeredBy GravioliWebClient.get) (start true)
      serviceRun).isSome := by
  decide +kernel

/-- The world of the repository's own web client, after the run. -/
theorem roster_published_serviceRun :
    ∃ k m, ((((machine plainLib sampleCipher).exec (answeredBy GravioliWebClient.get) (start true)
        serviceRun).get isSome_serviceRun).worlds ()).pastTicks.map (fun t =>
          (((machine plainLib sampleCipher).exec (answeredBy GravioliWebClient.get) (start true)
            serviceRun).get isSome_serviceRun).labels t.batches)
      = List.replicate k [] ++ List.replicate m
          (GravioliWebClient.roster.map (fun entry => (entry.1, some entry.2))) :=
  roster_published (GravioliWebClient.serves _)
    (Machine.reach_of_exec (M := machine plainLib sampleCipher) ⟨true, rfl⟩ serviceRun
      isSome_serviceRun) ()

end System

end Gravioli
