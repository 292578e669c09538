import Gravioli.System.Outgoing
import Gravioli.System.Threads

set_option autoImplicit false

/-! # The pipeline from the worlds to the server

While no world is destroyed the server is the only consumer of the queue, so the batches processed,
the one in the server's hand and the queue are at every moment the batches pushed, in order. What a
world pushed is, tick by tick, one batch for each entry of the list `getPlayers` returned. -/

namespace Gravioli

namespace System

universe u

variable {ι : Type u}

/-- No world is destroyed. -/
def undestroyed (_ : System ι) (e : Event ι) : Prop := e.isDestroy = false

instance (s : System ι) (e : Event ι) : Decidable (undestroyed s e) :=
  inferInstanceAs (Decidable (_ = _))

/-- No zmq call fails and no world is destroyed. -/
def calm (s : System ι) (e : Event ι) : Prop := zmqOk s e ∧ undestroyed s e

instance (s : System ι) (e : Event ι) : Decidable (calm s e) :=
  inferInstanceAs (Decidable (_ ∧ _))

/-- The batch `b` is the one world `w` made for the entry `player`: its topic is the player's ID cut
    to 32 bits, and its only message was allocated by `w` for this player, with the player's key. -/
def EntryBatch (s : System ι) (w : ι) (player : Player) (b : Messages) : Prop :=
  ∃ r c, b = World.batchFor player r ∧ s.created[r]? = some c ∧ c.world = w ∧ c.player = player ∧
    c.message.key = player.key

theorem EntryBatch.mono {s s' : System ι} {w : ι} {player : Player} {b : Messages}
    (h : EntryBatch s w player b) (hcreated : s.created <+: s'.created) :
    EntryBatch s' w player b := by
  obtain ⟨r, c, hb, hc, hrest⟩ := h
  exact ⟨r, c, hb, getElem?_mono hcreated hc, hrest⟩

variable [DecidableEq ι] {lib : JsonLib} {aes : BlockCipher} {s s' : System ι}

/-! ## What steps do to the records -/

/-- The batches pushed and the ticks of all worlds, before and after a step. -/
inductive TickMove (s s' : System ι) : Prop
  | none (hpushed : s'.pushed = s.pushed) (hticks : ∀ v, (s'.worlds v).ticks = (s.worlds v).ticks)
  | begin (w : ι) (list : List Player) (hpushed : s'.pushed = s.pushed)
      (hw : (s'.worlds w).ticks = (s.worlds w).ticks ++ [⟨list, []⟩])
      (ho : ∀ v, v ≠ w → (s'.worlds v).ticks = (s.worlds v).ticks)
  | push (w : ι) (i n : ℕ) (msgs : Messages) (hpc : (s.worlds w).pc = .push i n msgs)
      (hpushed : s'.pushed = s.pushed ++ [(w, msgs)])
      (hw : (s'.worlds w).ticks = World.record (s.worlds w).ticks msgs)
      (ho : ∀ v, v ≠ w → (s'.worlds v).ticks = (s.worlds v).ticks)

theorem TickMove.of_update {w : ι} {y : World} (hworlds : s'.worlds = Function.update s.worlds w y)
    (hpushed : s'.pushed = s.pushed) (hticks : y.ticks = (s.worlds w).ticks) : TickMove s s' := by
  refine .none hpushed ?_
  intro v
  rcases world_cases hworlds v with ⟨rfl, hv⟩ | ⟨-, hv⟩
  · rw [hv, hticks]
  · rw [hv]

theorem tickMove_of_moves {e : Event ι} (hmove : Moves lib aes s e s') : TickMove s s' := by
  cases hmove with
  | gotPlayers w p hpc hstep =>
      refine .begin w p.data.players rfl ?_ ?_
      · simp [setWorld]
      · intro v hv
        simp [setWorld, hv]
  | push w i n msgs hpc =>
      refine .push w i n msgs hpc rfl ?_ ?_
      · simp
      · intro v hv
        simp [hv]
  | stopServer | enter | refuse | serve | exit | take | sleep | send | finish | release =>
      exact .none rfl (fun _ => rfl)
  | _ => exact .of_update rfl rfl rfl

/-- A world about to push was so before, or has just allocated the message. -/
theorem pushing_of_moves {e : Event ι} (hmove : Moves lib aes s e s') {w : ι} {i n : ℕ}
    {msgs : Messages} (hpc : (s'.worlds w).pc = .push i n msgs) :
    ((s.worlds w).pc = .push i n msgs ∧
        (s'.worlds w).provider.data.players = (s.worlds w).provider.data.players) ∨
      ∃ player payload, s' = s.allocNewMsg w i n player payload ∧
        (s.worlds w).provider.data.players[i]? = some player ∧
        msgs = World.batchFor player s.created.length := by
  -- it is enough to look at the world that made the step
  have hupdate : ∀ (v : ι) (y : World), s'.worlds = Function.update s.worlds v y →
      (y.pc = .push i n msgs → (s.worlds v).pc = .push i n msgs ∧
        y.provider.data.players = (s.worlds v).provider.data.players) →
      (s.worlds w).pc = .push i n msgs ∧
        (s'.worlds w).provider.data.players = (s.worlds w).provider.data.players := by
    intro v y hworlds hy
    rcases world_cases hworlds w with ⟨rfl, hw⟩ | ⟨-, hw⟩
    · rw [hw] at hpc ⊢
      exact hy hpc
    · rw [hw] at hpc ⊢
      exact ⟨hpc, rfl⟩
  cases hmove with
  | alloc v payload i' n' player hpc' hi hplayer =>
      by_cases hw : w = v
      · subst hw
        simp only [allocNewMsg, Function.update_self, WorldPc.push.injEq] at hpc
        obtain ⟨rfl, rfl, rfl⟩ := hpc
        exact Or.inr ⟨player, payload, rfl, hplayer, rfl⟩
      · simp only [allocNewMsg, Function.update_of_ne hw] at hpc
        exact Or.inl ⟨hpc, by simp [allocNewMsg, hw]⟩
  | stopProvider v => exact Or.inl (hupdate v _ rfl (fun hy => ⟨hy, rfl⟩))
  | stop v => exact Or.inl (hupdate v _ rfl (fun hy => ⟨hy, rfl⟩))
  | providerTest v => exact Or.inl (hupdate v _ rfl (fun hy => ⟨hy, rfl⟩))
  | update v e p thread _ hstep =>
      exact Or.inl (hupdate v _ rfl (fun hy => ⟨hy, (SharedProvider.stepUpdater_frame hstep).2.1⟩))
  | reader v e p hpc' =>
      exact Or.inl (hupdate v _ rfl (fun hy => by simp [hpc'] at hy))
  | stopServer | enter | refuse | serve | exit | take | sleep | send | finish | release =>
      exact Or.inl ⟨hpc, rfl⟩
  | _ => exact Or.inl (hupdate _ _ rfl (fun hy => by simp at hy))

/-! ## The records of the ticks -/

/-- What the worlds have on record is what they pushed. -/
structure Recorded (s : System ι) : Prop where
  perWorld : ∀ w, (s.pushed.filter (fun x => x.1 = w)).map Prod.snd
    = (s.worlds w).ticks.flatMap Tick.batches
  entries : ∀ w, ∀ t ∈ (s.worlds w).ticks,
    List.Forall₂ (EntryBatch s w) (t.players.take t.batches.length) t.batches
  pushing : ∀ w i n msgs, (s.worlds w).pc = .push i n msgs →
    ∃ player, (s.worlds w).provider.data.players[i]? = some player ∧ EntryBatch s w player msgs

theorem Recorded.start (connected : Bool) : Recorded (System.start connected : System ι) where
  perWorld w := rfl
  entries w t ht := absurd ht List.not_mem_nil
  pushing w i n msgs hpc := by simp [System.start, World.new] at hpc

/-- The message just allocated is for the player of the current entry. -/
theorem entryBatch_allocNewMsg (s : System ι) (w : ι) (i n : ℕ) (player : Player)
    (payload : List Byte) :
    EntryBatch (s.allocNewMsg w i n player payload) w player
      (World.batchFor player s.created.length) :=
  ⟨s.created.length, ⟨w, player, (s.worlds w).ticks.length - 1, (s.worlds w).provider.installed.length,
    ⟨player.key, payload⟩⟩, rfl, by simp [allocNewMsg], rfl, rfl, rfl⟩

omit [DecidableEq ι] in
/-- One more batch, for the entry after those that had theirs. -/
theorem entries_concat {w : ι} {players : List Player} {batches : List Messages} {msgs : Messages}
    {player : Player} (h : List.Forall₂ (EntryBatch s w) (players.take batches.length) batches)
    (hplayer : players[batches.length]? = some player) (hb : EntryBatch s w player msgs) :
    List.Forall₂ (EntryBatch s w) (players.take (batches ++ [msgs]).length) (batches ++ [msgs]) := by
  rw [List.length_append, List.length_singleton, List.take_add_one, hplayer]
  exact List.rel_append h (.cons hb .nil)

theorem Recorded.step {e : Event ι} (h : Recorded s) (hticking : ∀ w, (s.worlds w).Ticking)
    (hmove : Moves lib aes s e s') : Recorded s' := by
  have hcreated := created_of_moves hmove
  have hentries : ∀ w, ∀ t ∈ (s.worlds w).ticks,
      List.Forall₂ (EntryBatch s' w) (t.players.take t.batches.length) t.batches := by
    intro w t ht
    exact (h.entries w t ht).imp (fun _ _ hb => hb.mono hcreated)
  have hpushing : ∀ w i n msgs, (s'.worlds w).pc = .push i n msgs →
      ∃ player, (s'.worlds w).provider.data.players[i]? = some player ∧
        EntryBatch s' w player msgs := by
    intro w i n msgs hpc
    rcases pushing_of_moves hmove hpc with ⟨hold, hplayers⟩ | ⟨player, payload, rfl, hplayer, rfl⟩
    · obtain ⟨player, hplayer, hb⟩ := h.pushing w i n msgs hold
      exact ⟨player, by rw [hplayers, hplayer], hb.mono hcreated⟩
    · exact ⟨player, by simpa [allocNewMsg] using hplayer,
        entryBatch_allocNewMsg s w i n player payload⟩
  cases tickMove_of_moves hmove with
  | none hpushed hticks =>
      refine ⟨?_, ?_, hpushing⟩
      · intro w
        rw [hpushed, hticks, h.perWorld]
      · intro w
        rw [hticks]
        exact hentries w
  | begin w list hpushed hw ho =>
      refine ⟨?_, ?_, hpushing⟩
      · intro v
        rw [hpushed, h.perWorld]
        by_cases hv : v = w
        · subst hv
          simp [hw]
        · rw [ho v hv]
      · intro v t ht
        by_cases hv : v = w
        · subst hv
          rw [hw] at ht
          rcases List.mem_append.1 ht with ht | ht
          · exact hentries v t ht
          · obtain rfl := List.mem_singleton.1 ht
            simp
        · rw [ho v hv] at ht
          exact hentries v t ht
  | push w i n msgs hpc hpushed hw ho =>
      obtain ⟨-, -, done, batches, hticks, hlen, -⟩ :=
        (hticking w).current i n (by simp [World.inTick, hpc])
      rw [hticks, World.record_concat] at hw
      refine ⟨?_, ?_, hpushing⟩
      · intro v
        rw [hpushed, List.filter_append, List.map_append, h.perWorld]
        by_cases hv : v = w
        · subst hv
          simp [hw, hticks]
        · rw [ho v hv]
          simp [Ne.symm hv]
      · intro v t ht
        by_cases hv : v = w
        · subst hv
          rw [hw] at ht
          rcases List.mem_append.1 ht with ht | ht
          · exact hentries v t (by simp [hticks, ht])
          · obtain rfl := List.mem_singleton.1 ht
            obtain ⟨player, hplayer, hb⟩ := h.pushing v i n msgs hpc
            have hbatches := hentries v ⟨(s.worlds v).provider.data.players, batches⟩
              (by simp [hticks])
            exact entries_concat hbatches (by rw [hlen, hplayer]) (hb.mono hcreated)
        · rw [ho v hv] at ht
          exact hentries v t ht

theorem recorded_of_reach {ok : System ι → Event ι → Prop} (h : (machine lib aes).Reach ok s) :
    Recorded s := by
  induction h using Machine.Reach.induct with
  | init s hinit =>
      obtain ⟨connected, rfl⟩ := hinit
      exact Recorded.start connected
  | step s e s' hreach ih hok hstep =>
      exact ih.step (ticking_of_reach hreach) (moves_of_step hstep)

/-! ## The order of the batches -/

theorem not_destructing (h : (machine lib aes).Reach undestroyed s) (w : ι) :
    (s.worlds w).pc.destructing = false := by
  induction h using Machine.Reach.induct generalizing w with
  | init s hinit =>
      obtain ⟨connected, rfl⟩ := hinit
      rfl
  | step s e s' hreach ih hok hstep =>
      by_contra hdestructing
      rcases destructing_of_moves (moves_of_step hstep) (Bool.eq_true_of_not_eq_false hdestructing)
        with hbefore | hdestroy
      · simp [ih w] at hbefore
      · exact absurd hdestroy (by simp [show e.isDestroy = false from hok])

/-- What was pushed is processed, in the server's hand or in the queue, in this order. -/
def InOrder (s : System ι) : Prop :=
  s.pushed.map Prod.snd = s.processed ++ s.serving ++ s.queue.queue

theorem inOrder_of_reach (h : (machine lib aes).Reach undestroyed s) : InOrder s := by
  induction h using Machine.Reach.induct with
  | init s hinit =>
      obtain ⟨connected, rfl⟩ := hinit
      rfl
  | step s e s' hreach ih hok hstep =>
      unfold InOrder at *
      cases handling_of_moves (moves_of_step hstep) with
      | untouched _ _ hsame => rw [hsame.pushed, hsame.popped, hsame.queue, ih]
      | push w i n msgs hpc => simp [ih, SimpleMsgQueue.push, serving]
      | drain w popped front rest hpc hqueue =>
          -- the second consumer of the queue does not run
          exact absurd (not_destructing hreach w) (by simp [hpc, WorldPc.destructing])
      | take popped front rest hpc hqueue => simpa [serving, hpc, hqueue] using ih
      | send env popped msg rest hpc => simpa [serving, hpc] using ih
      | _ => exact ih

/-! ## The pipeline -/

/-- The list is the initial one, or the result of a completed update. -/
def Published (lib : JsonLib) (p : SharedProvider Unit) (list : List Player) : Prop :=
  list = [] ∨ ∃ u ∈ p.updates, u.Complete lib ∧ list = u.players

theorem Published.mono {p p' : SharedProvider Unit} {list : List Player} (h : Published lib p list)
    (hupdates : p.updates <+: p'.updates) : Published lib p' list := by
  rcases h with hnil | ⟨u, hu, hcomplete⟩
  · exact Or.inl hnil
  · exact Or.inr ⟨u, hupdates.subset hu, hcomplete⟩

theorem published_players {p : SharedProvider Unit}
    (h : (SharedProvider.machine lib).Reach Machine.anyLabel p) : Published lib p p.data.players := by
  rcases SharedProvider.players_of_reach h with ⟨-, hnil⟩ | ⟨k, c, hc, -, hplayers⟩
  · exact Or.inl hnil
  · have hmem := List.mem_of_getElem? hc
    exact Or.inr ⟨c.toUpdate, List.mem_map_of_mem hmem,
      (SharedProvider.collected_of_reach h).completed c hmem, hplayers⟩

/-- Recording a batch leaves the lists of the ticks alone. -/
theorem players_record {ticks : List Tick} {msgs : Messages} {t : Tick}
    (ht : t ∈ World.record ticks msgs) : ∃ t' ∈ ticks, t.players = t'.players := by
  rcases List.eq_nil_or_concat ticks with rfl | ⟨done, last, rfl⟩
  · exact absurd ht List.not_mem_nil
  · rw [List.concat_eq_append, World.record_concat] at ht
    rcases List.mem_append.1 ht with ht | ht
    · exact ⟨t, by simp [ht], rfl⟩
    · obtain rfl := List.mem_singleton.1 ht
      exact ⟨last, by simp, rfl⟩

/-- Every list a world went through is a complete one. -/
theorem published_of_reach {ok : System ι → Event ι → Prop} (h : (machine lib aes).Reach ok s)
    (w : ι) : ∀ t ∈ (s.worlds w).ticks, Published lib (s.worlds w).provider t.players := by
  refine forall_worlds (P := fun x =>
    (SharedProvider.machine lib).Reach Machine.anyLabel x.provider ∧
      ∀ t ∈ x.ticks, Published lib x.provider t.players) ?_ ?_ h w |>.2
  · exact ⟨Machine.Reach.init rfl, fun t ht => absurd ht List.not_mem_nil⟩
  · rintro x y ⟨hreach, hx⟩ hsteps
    have hreach' := World.provider_step hreach hsteps
    have hupdates := (World.history_step hsteps).1
    refine ⟨hreach', ?_⟩
    cases hsteps with
    | gotPlayers p hpc hstep =>
        intro t ht
        rcases List.mem_append.1 ht with ht | ht
        · exact (hx t ht).mono hupdates
        · obtain rfl := List.mem_singleton.1 ht
          exact published_players hreach'
    | push i n msgs hpc =>
        intro t ht
        obtain ⟨t', ht', hplayers⟩ := players_record ht
        rw [hplayers]
        exact hx t' ht'
    | _ => exact fun t ht => (hx t ht).mono hupdates

/-- The batches that have left the queue, with the worlds that pushed them. -/
def departed (s : System ι) : List (ι × Messages) :=
  s.pushed.take (s.processed ++ s.serving).length

/-- Everything that is said about the pipeline, of one state. -/
structure Pipeline (lib : JsonLib) (aes : BlockCipher) (s : System ι) : Prop where
  /-- No batch is lost, duplicated or reordered, -/
  order : s.pushed.map Prod.snd = s.processed ++ s.serving ++ s.queue.queue
  /-- a failed pop changes nothing, -/
  failedPop : ∀ out, (s.queue.pop out).1 = false → s.queue.pop out = (false, s.queue, out)
  /-- and the messages of the batches popped, up to those still in the server's hand, are on the
      wire. -/
  wire : ∃ sent, Outgoing aes s sent
  /-- Tick by tick, a world pushed batches, -/
  perWorld : ∀ w, (s.pushed.filter (fun x => x.1 = w)).map Prod.snd
    = (s.worlds w).ticks.flatMap Tick.batches
  /-- for the list `getPlayers` returned in the tick, -/
  returned : ∀ w, (s.worlds w).ticks.map Tick.players
    = (s.worlds w).provider.returned.map Prod.snd
  /-- which is a complete one, -/
  published : ∀ w, ∀ t ∈ (s.worlds w).ticks, Published lib (s.worlds w).provider t.players
  /-- one batch for each entry, in list order, -/
  entries : ∀ w, ∀ t ∈ (s.worlds w).ticks,
    List.Forall₂ (EntryBatch s w) (t.players.take t.batches.length) t.batches
  /-- and when the tick is over all entries have had theirs. -/
  past : ∀ w, ∀ t ∈ (s.worlds w).pastTicks, t.batches.length = t.players.length
  /-- For one world and one topic the batches leave the queue in the order of the ticks. -/
  tickOrder : ∀ w topicID,
    (s.departed.filter (fun x => x.1 = w ∧ x.2.topicID = topicID)).map Prod.snd <+:
      ((s.worlds w).ticks.flatMap Tick.batches).filter (fun b => b.topicID = topicID)

/-- Filtering by world and topic is filtering by world, then by topic. -/
theorem map_filter_topic (xs : List (ι × Messages)) (w : ι) (topicID : BitVec 32) :
    (xs.filter (fun x => x.1 = w ∧ x.2.topicID = topicID)).map Prod.snd
      = ((xs.filter (fun x => x.1 = w)).map Prod.snd).filter (fun b => b.topicID = topicID) := by
  rw [List.filter_map, List.filter_filter]
  congr 2
  funext x
  simp [Bool.and_comm]

theorem tickOrder_of_recorded (h : Recorded s) (w : ι) (topicID : BitVec 32) :
    (s.departed.filter (fun x => x.1 = w ∧ x.2.topicID = topicID)).map Prod.snd <+:
      ((s.worlds w).ticks.flatMap Tick.batches).filter (fun b => b.topicID = topicID) := by
  rw [← h.perWorld, map_filter_topic]
  have hdeparted : s.departed <+: s.pushed := List.take_prefix _ _
  exact ((hdeparted.filter _).map _).filter _

/-- **Exactly once and in order.** In every interleaving in which no zmq call fails and no world is
    destroyed. -/
theorem pipeline_of_reach [Fintype ι] (h : (machine lib aes).Reach calm s) : Pipeline lib aes s := by
  have hrecorded := recorded_of_reach h
  constructor
  · exact inOrder_of_reach (h.mono (fun _ _ hok => hok.2))
  · intro out hfailed
    exact (SimpleMsgQueue.pop_eq_of_failed s.queue out hfailed).1
  · exact outgoing_of_reach h (fun _ _ hok => hok.1)
  · exact hrecorded.perWorld
  · intro w
    exact (ticking_of_reach h w).returned
  · exact published_of_reach h
  · exact hrecorded.entries
  · intro w
    exact (ticking_of_reach h w).past
  · exact tickOrder_of_recorded hrecorded

/-- Two worlds: one is stopped in the middle of its tick, and the other has pushed its second batch
    while the server is at the first one. -/
def pipelineRun : List (Event Bool) :=
  refreshEvents gravioliLib GravioliWebClient.get false
    ++ refreshEvents gravioliLib GravioliWebClient.get true
    ++ (tickEvents false true [[1, 2]]).dropLast ++ stopEvents false ++ [.server .enter, .server .test]
    ++ batchEvents sampleEnv 1 ++ tickEvents true true [[3], [4, 5]] ++ [.server .pop]

theorem isSome_pipelineRun :
    ((machine gravioliLib sampleCipher).exec calm (start true) pipelineRun).isSome := by
  decide +kernel

/-- The pipeline at the end of `pipelineRun`. -/
theorem pipeline_pipelineRun :
    Pipeline gravioliLib sampleCipher
      (((machine gravioliLib sampleCipher).exec calm (start true) pipelineRun).get
        isSome_pipelineRun) :=
  pipeline_of_reach (Machine.reach_of_exec (M := machine gravioliLib sampleCipher) ⟨true, rfl⟩
    pipelineRun isSome_pipelineRun)

end System

end Gravioli
