import Gravioli.System.Pipeline

set_option autoImplicit false

/-! # What a world has made

`created` is the record of all allocations. Seen from one world it is the record of its ticks: a
message for each entry of the lists of the ticks that are over, and for the first entries of the list
of the running one, in this order and under the number of the tick (`made_of_reach`). The batches a
world pushes carry these messages, so what has been handed over is a beginning of what was made, and
all of it as soon as no world is about to push (`handed_of_reach`). -/

namespace Gravioli

universe u

namespace World

/-- The elements of some lists, each with the number of its list. -/
def numbered {α : Type} (lists : List (List α)) : List (ℕ × α) :=
  lists.zipIdx.flatMap (fun list => list.1.map (Prod.mk list.2))

theorem numbered_concat {α : Type} (lists : List (List α)) (list : List α) :
    numbered (lists ++ [list]) = numbered lists ++ list.map (Prod.mk lists.length) := by
  simp [numbered, List.zipIdx_append]

/-- The entries of the running tick that have their message. -/
def running (x : World) : List (List Player) :=
  match x.pc with
  | .iterate i _ => [x.provider.data.players.take i]
  | .push i _ _ => [x.provider.data.players.take (i + 1)]
  | _ => []

/-- The entries that have their message, tick by tick. -/
def served (x : World) : List (List Player) := x.pastTicks.map Tick.players ++ x.running

/-- The messages of the batch about to be pushed. -/
def pending (x : World) : List Ref :=
  match x.pc with
  | .push _ _ msgs => msgs.refs
  | _ => []

/-- The messages of a world in the order of their allocation. -/
def refs (x : World) : List Ref :=
  (x.ticks.flatMap Tick.batches).flatMap Messages.refs ++ x.pending

theorem running_of_inTick_none {x : World} (h : x.inTick = none) :
    x.running = [] ∧ x.pending = [] ∧ x.pastTicks = x.ticks := by
  refine ⟨?_, ?_, if_pos h⟩
  · cases hpc : x.pc <;> simp_all [inTick, running]
  · cases hpc : x.pc <;> simp_all [inTick, pending]

theorem served_of_inTick_none {x : World} (h : x.inTick = none) :
    x.served = x.ticks.map Tick.players ∧ x.refs = (x.ticks.flatMap Tick.batches).flatMap Messages.refs := by
  obtain ⟨hrunning, hpending, hpast⟩ := running_of_inTick_none h
  exact ⟨by rw [served, hrunning, hpast, List.append_nil], by rw [refs, hpending, List.append_nil]⟩

/-- Empty hands. -/
theorem pending_of_hand {x : World} (h : x.hand = []) : x.pending = [] := by
  unfold pending
  split
  · next i n msgs hpc =>
      simp only [hand, hpc, Messages.slots, List.map_eq_nil_iff] at h
      rw [Messages.refs, h, List.map_nil]
  · rfl

/-- What is on record stays the same. -/
structure SameRecord (x y : World) : Prop where
  served : numbered y.served = numbered x.served
  refs : y.refs = x.refs

theorem SameRecord.of_same {x y : World} (hpc : y.pc = x.pc) (hticks : y.ticks = x.ticks)
    (hplayers : y.provider.data.players = x.provider.data.players) : SameRecord x y where
  served := by
    have hin : y.inTick = x.inTick := by simp only [inTick, hpc]
    have hpast : y.pastTicks = x.pastTicks := by simp only [pastTicks, hin, hticks]
    have hrunning : y.running = x.running := by simp only [running, hpc, hplayers]
    rw [World.served, World.served, hpast, hrunning]
  refs := by simp only [World.refs, pending, hpc, hticks]

theorem SameRecord.of_inTick_none {x y : World} (hfrom : x.inTick = none) (hto : y.inTick = none)
    (hticks : y.ticks = x.ticks) : SameRecord x y where
  served := by rw [(served_of_inTick_none hfrom).1, (served_of_inTick_none hto).1, hticks]
  refs := by rw [(served_of_inTick_none hfrom).2, (served_of_inTick_none hto).2, hticks]

/-- Only an allocation adds to the record. -/
theorem record_cases {lib : JsonLib} {x y : World} (h : Ticking x) (hstep : x.Steps lib y) :
    SameRecord x y ∨ ∃ i n player r, x.pc = .iterate i n ∧ y.pc = .push i n (batchFor player r) := by
  cases hstep with
  | control providerStopped stopped thread => exact .inl (.of_same rfl rfl rfl)
  | update e p thread hstep =>
      exact .inl (.of_same rfl rfl (SharedProvider.stepUpdater_frame hstep).2.1)
  | reader e p hpc hne hstep =>
      have hnone : x.inTick = none := by simp [inTick, hpc]
      exact .inl (.of_inTick_none hnone hnone rfl)
  | gotPlayers p hpc hstep =>
      obtain ⟨hserved, hrefs⟩ := served_of_inTick_none (x := x) (by simp [inTick, hpc])
      refine .inl ⟨?_, ?_⟩
      · rw [hserved]
        simp [served, pastTicks, inTick, running, numbered_concat]
      · rw [hrefs]
        simp [refs, pending]
  | alloc i n player r hpc => exact .inr ⟨i, n, player, r, hpc, rfl⟩
  | push i n msgs hpc =>
      obtain ⟨-, -, done, batches, hticks, -, -⟩ := h.current i n (by simp [inTick, hpc])
      refine .inl ⟨?_, ?_⟩
      · simp [served, pastTicks, inTick, running, hpc, hticks, record_concat]
      · simp [refs, pending, hpc, hticks, record_concat]
  | endTick i n hpc hi =>
      obtain ⟨hn, hle, done, batches, hticks, -, -⟩ := h.current i n (by simp [inTick, hpc])
      have hall : x.provider.data.players.take i = x.provider.data.players :=
        List.take_of_length_le (by omega)
      refine .inl ⟨?_, ?_⟩
      · simp [served, pastTicks, inTick, running, hpc, hticks, hall]
      · simp [refs, pending, hpc]
  | goto pc hfrom hto => exact .inl (.of_inTick_none hfrom hto rfl)

end World

namespace System

variable {ι : Type u} [DecidableEq ι] {lib : JsonLib} {aes : BlockCipher} {s s' : System ι}
  {ok : System ι → Event ι → Prop}

/-- The allocations of a world. -/
def createdBy (s : System ι) (w : ι) : List (Creation ι) := s.created.filter (fun c => c.world = w)

/-- The allocations of a world are those its ticks account for. -/
structure Made (s : System ι) (w : ι) : Prop where
  served : (s.createdBy w).map (fun c => (c.tick, c.player)) = World.numbered (s.worlds w).served
  refs : (s.worlds w).refs.map (fun r => s.created[r]?) = (s.createdBy w).map some

theorem createdBy_allocNewMsg (s : System ι) (w : ι) (i n : ℕ) (player : Player)
    (payload : List Byte) (v : ι) :
    (s.allocNewMsg w i n player payload).createdBy v = s.createdBy v ++
      (if w = v then [⟨w, player, (s.worlds w).ticks.length - 1,
        (s.worlds w).provider.installed.length, ⟨player.key, payload⟩⟩] else []) := by
  simp [createdBy, allocNewMsg, List.filter_cons]

/-- The references of a world stay those of its allocations when another one is made. -/
theorem Made.lookup {w : ι} (h : Made s w) {c : Creation ι} :
    (s.worlds w).refs.map (fun r => (s.created ++ [c])[r]?) = (s.createdBy w).map some := by
  rw [← h.refs]
  refine List.map_congr_left (fun r hr => ?_)
  have hmem : s.created[r]? ∈ (s.createdBy w).map some := h.refs ▸ List.mem_map_of_mem hr
  obtain ⟨c', -, hc'⟩ := List.mem_map.1 hmem
  rw [← hc']
  exact getElem?_mono (List.prefix_append _ _) hc'.symm

theorem Made.alloc {w : ι} (h : Made s w) (hticking : (s.worlds w).Ticking) {i n : ℕ}
    {player : Player} (payload : List Byte) (hpc : (s.worlds w).pc = .iterate i n)
    (hplayer : (s.worlds w).provider.data.players[i]? = some player) :
    Made (s.allocNewMsg w i n player payload) w := by
  obtain ⟨-, -, done, batches, hticks, -, -⟩ :=
    hticking.current i n (by simp [World.inTick, hpc])
  constructor
  · rw [createdBy_allocNewMsg, if_pos rfl, List.map_append, h.served]
    simp [World.served, World.pastTicks, World.inTick, World.running, World.numbered_concat, hpc,
      hticks, allocNewMsg, List.take_add_one, hplayer]
  · have hrefs : ((s.allocNewMsg w i n player payload).worlds w).refs
        = (s.worlds w).refs ++ [s.created.length] := by
      simp [World.refs, World.pending, hpc, allocNewMsg, World.batchFor, Messages.ofSizeT,
        Messages.refs]
    rw [createdBy_allocNewMsg, if_pos rfl, hrefs, List.map_append, List.map_append]
    congr 1
    · exact h.lookup
    · simp [allocNewMsg]

theorem Made.step {e : Event ι} (h : ∀ w, Made s w) (hticking : ∀ w, (s.worlds w).Ticking)
    (hmove : Moves lib aes s e s') (w : ι) : Made s' w := by
  obtain hcreated | ⟨v, i, n, player, payload, rfl, hpc, hplayer⟩ := created_cases hmove
  · have hsame : World.SameRecord (s.worlds w) (s'.worlds w) := by
      obtain hsame | hsteps := worlds_of_moves hmove w
      · exact .of_same (by rw [hsame]) (by rw [hsame]) (by rw [hsame])
      · obtain hsame | ⟨i, n, player, r, hpc, hpc'⟩ := World.record_cases (hticking w) hsteps
        · exact hsame
        -- a world that is about to push has allocated
        · obtain ⟨hpush, -⟩ | ⟨player, payload, rfl, -, -⟩ := pushing_of_moves hmove hpc'
          · exact absurd (hpc.symm.trans hpush) (by simp)
          · exact absurd hcreated (by simp [allocNewMsg])
    refine ⟨?_, ?_⟩
    · rw [hsame.served, createdBy, hcreated]
      exact (h w).served
    · rw [hsame.refs, createdBy, hcreated]
      exact (h w).refs
  · by_cases hv : v = w
    · subst hv
      exact (h v).alloc (hticking v) payload hpc hplayer
    · have hworld : (s.allocNewMsg v i n player payload).worlds w = s.worlds w :=
        Function.update_of_ne (Ne.symm hv) _ _
      refine ⟨?_, ?_⟩
      · rw [createdBy_allocNewMsg, if_neg hv, List.append_nil, hworld, (h w).served]
      · rw [createdBy_allocNewMsg, if_neg hv, List.append_nil, hworld]
        exact (h w).lookup

theorem made_of_reach (h : (machine lib aes).Reach ok s) (w : ι) : Made s w := by
  induction h using Machine.Reach.induct generalizing w with
  | init s hinit =>
      obtain ⟨connected, rfl⟩ := hinit
      exact ⟨rfl, rfl⟩
  | step s e s' hreach ih hok hstep =>
      exact Made.step ih (ticking_of_reach hreach) (moves_of_step hstep) w

/-! ## What has been handed over -/

omit [DecidableEq ι] in
/-- The allocations of some messages. -/
def creations (s : System ι) (rs : List Ref) : List (Creation ι) :=
  rs.filterMap (fun r => s.created[r]?)

/-- The messages pushed, all worlds together. -/
def handed (s : System ι) : List (Creation ι) :=
  s.pushed.flatMap (fun x => s.creations x.2.refs)

omit [DecidableEq ι] in
theorem mem_of_mem_handed {c : Creation ι} (h : c ∈ s.handed) : c ∈ s.created := by
  obtain ⟨x, -, hc⟩ := List.mem_flatMap.1 h
  obtain ⟨r, -, hc⟩ := List.mem_filterMap.1 hc
  exact List.mem_of_getElem? hc

/-- The messages of a batch were made by the world that pushed it. -/
theorem world_of_pushed (h : Recorded s) {w : ι} {b : Messages} (hb : (w, b) ∈ s.pushed) :
    ∀ c ∈ s.creations b.refs, c.world = w := by
  have hbatch : b ∈ (s.worlds w).ticks.flatMap Tick.batches := by
    rw [← h.perWorld w]
    exact List.mem_map.2 ⟨(w, b), List.mem_filter.2 ⟨hb, by simp⟩, rfl⟩
  obtain ⟨t, ht, hbt⟩ := List.mem_flatMap.1 hbatch
  obtain ⟨k, hk, rfl⟩ := List.getElem_of_mem hbt
  obtain ⟨r, c, hbatch, hc, hw, -, -⟩ := (h.entries w t ht).get
    (by rw [(h.entries w t ht).length_eq]; exact hk) hk
  rw [List.get_eq_getElem, List.get_eq_getElem] at hbatch
  intro c' hc'
  have hc' : c' = c := by
    simpa [hbatch, creations, World.batchFor, Messages.ofSizeT, Messages.refs, hc, eq_comm] using hc'
  rw [hc', hw]

/-- To look at one world is to look at the batches it pushed. -/
theorem filter_handed (h : Recorded s) (w : ι) :
    s.handed.filter (fun c => c.world = w)
      = s.creations (((s.worlds w).ticks.flatMap Tick.batches).flatMap Messages.refs) := by
  have hfilter : ∀ xs : List (ι × Messages), (∀ x ∈ xs, x ∈ s.pushed) →
      (xs.flatMap (fun x => s.creations x.2.refs)).filter (fun c => c.world = w)
        = s.creations (((xs.filter (fun x => x.1 = w)).map Prod.snd).flatMap Messages.refs) := by
    intro xs hxs
    induction xs with
    | nil => rfl
    | cons x xs ih =>
        obtain ⟨hx, hxs⟩ := List.forall_mem_cons.1 hxs
        have hworld := world_of_pushed h hx
        rw [List.flatMap_cons, List.filter_append, ih hxs]
        by_cases hw : x.1 = w
        · rw [List.filter_eq_self.2 (fun c hc => by simp [hworld c hc, hw]),
            List.filter_cons_of_pos (by simpa using hw)]
          simp [creations]
        · rw [List.filter_eq_nil_iff.2 (fun c hc => by simp [hworld c hc, hw]),
            List.filter_cons_of_neg (by simpa using hw), List.nil_append]
  rw [handed, hfilter _ (fun _ hx => hx), h.perWorld]

/-- What a world has made is what it has handed over, and what it is about to push. -/
theorem handed_of_reach (h : (machine lib aes).Reach ok s) (w : ι) :
    s.createdBy w = s.handed.filter (fun c => c.world = w) ++ s.creations (s.worlds w).pending := by
  have hrefs := (made_of_reach h w).refs
  have hcreated : s.createdBy w = s.creations (s.worlds w).refs := by
    calc s.createdBy w = ((s.createdBy w).map some).filterMap id := by
          rw [List.filterMap_map]
          exact List.filterMap_some.symm
      _ = ((s.worlds w).refs.map (fun r => s.created[r]?)).filterMap id := by rw [hrefs]
      _ = s.creations (s.worlds w).refs := by
          rw [List.filterMap_map]
          rfl
  rw [hcreated, filter_handed (recorded_of_reach h), World.refs, creations, creations, creations,
    List.filterMap_append]

end System

end Gravioli
