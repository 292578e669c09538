import Gravioli.Main
import Gravioli.PlayerProvider.Refresh
import Gravioli.System.Threads

set_option autoImplicit false

/-! # No dead ends but one

A world is stuck when it waits in `sendWorldToMsgQueue` for the counter to go down, the server is
leaving, and more messages than the threshold are neither freed nor with zmq (`Stuck`). In every other
state some thread has a step that gets further (`Further`) and does not get a world stuck: a world has
one stage less to go, or a thread is nearer to the end of what it is in, or there is less to send and to
free. The order of these steps matters. While the server serves, the waiting worlds are left for last:
when everything has been sent, and no world holds a message, the counter is zero. When the server is
leaving they come first, before another world allocates. -/

namespace Gravioli

universe u

/-- Before a load of the counter. -/
def WorldPc.atLoad : WorldPc → Bool
  | .load => true
  | .waiting => true
  | _ => false

/-! ## What is left to do -/

namespace World

/-- Stages of `World::run` and of the destructor. -/
def stagesLeft (x : World) : ℕ :=
  match x.pc with
  | .load | .waiting => 7
  | .getPlayers => 6
  | .iterate _ _ | .push _ _ _ => 5
  | .test => 4
  | .join => 3
  | .returned _ => 2
  | .draining _ | .freeing _ _ => 1
  | .destroyed => 0

/-- Steps of `getPlayers`. -/
def readerLeft : ReaderPc → ℕ
  | .outside => 4
  | .locked => 3
  | .ready => 2
  | .swapped => 1
  | .leaving => 0

/-- Steps of the iteration. -/
def entriesLeft : WorldPc → ℕ
  | .iterate i n => 2 * (n - i) + 1
  | .push i n _ => 2 * (n - i)
  | _ => 0

/-- Steps of the provider thread. -/
def requestsLeft (x : World) : ℕ :=
  match x.providerThread with
  | .exited _ => 0
  | .testing => 1
  | .updating =>
      match x.provider.updater with
      | .idle => 5
      | .checked => 4
      | .cleared => 3
      | .fetching _ rest => rest.length + 2

/-- Steps of both threads of a world until its tick and its update are over. -/
def turnsLeft (x : World) : ℕ :=
  readerLeft (x.provider.readers ()) + entriesLeft x.pc + x.requestsLeft

/-- Steps for the batch in the hand of the destructor. -/
def handLeft : WorldPc → ℕ
  | .freeing _ rest => rest.length + 1
  | _ => 0

end World

namespace System

section Measure

variable {ι : Type u} [Fintype ι]

/-- Stages of all threads. -/
def stagesLeft (s : System ι) : ℕ :=
  (∑ w, (s.worlds w).stagesLeft) + if s.serverReturned then 0 else 1

/-- The same for all worlds. -/
def turnsLeft (s : System ι) : ℕ := ∑ w, (s.worlds w).turnsLeft

/-- Steps of the server thread, besides those for the batches in the queue. -/
def serverLeft (queue : List Messages) : ServerPc → ℕ
  | .entry => 3
  | .test => if queue = [] then 0 else 2
  | .popping _ => 1
  | .processing _ rest => 2 * rest.length + 2
  | .returned _ => 0

/-- Steps for the batches in the queue. -/
def batchesLeft (queue : List Messages) : ℕ := (queue.map (fun b => 2 * b.msgs.length + 3)).sum

theorem batchesLeft_cons (b : Messages) (queue : List Messages) :
    batchesLeft (b :: queue) = 2 * b.msgs.length + 3 + batchesLeft queue := by
  simp [batchesLeft]

/-- Work of the server, of zmq and of the destructors. -/
def workLeft (s : System ι) : ℕ :=
  batchesLeft s.queue.queue + s.server.publisher.held.length + serverLeft s.queue.queue s.serverPc
    + ∑ w, World.handLeft (s.worlds w).pc

/-- `t` is further on the way than `s`. -/
def Further (t s : System ι) : Prop :=
  t.stagesLeft < s.stagesLeft ∨ t.stagesLeft = s.stagesLeft ∧
    (t.turnsLeft < s.turnsLeft ∨ t.turnsLeft = s.turnsLeft ∧ t.workLeft < s.workLeft)

theorem wellFounded_further : WellFounded (Further : System ι → System ι → Prop) := by
  refine Subrelation.wf ?_ (InvImage.wf
    (fun s : System ι => (s.stagesLeft, s.turnsLeft, s.workLeft))
    (Prod.lex Nat.lt_wfRel (Prod.lex Nat.lt_wfRel Nat.lt_wfRel)).wf)
  intro t s h
  obtain h | ⟨hstages, h | ⟨hturns, h⟩⟩ := h
  · exact .left _ _ h
  · exact Prod.Lex.right' _ hstages.le (.left _ _ h)
  · exact Prod.Lex.right' _ hstages.le (Prod.Lex.right' _ hturns.le h)

variable [DecidableEq ι] {s s' : System ι} {w : ι} {y : World}

theorem sum_update (f : World → ℕ) (hworlds : s'.worlds = Function.update s.worlds w y) :
    ∑ v, f (s'.worlds v) + f (s.worlds w) = ∑ v, f (s.worlds v) + f y := by
  have hothers : ∑ v ∈ Finset.univ.erase w, f (s'.worlds v)
      = ∑ v ∈ Finset.univ.erase w, f (s.worlds v) := by
    refine Finset.sum_congr rfl (fun v hv => ?_)
    rw [hworlds, Function.update_of_ne (Finset.ne_of_mem_erase hv)]
  rw [← Finset.add_sum_erase _ _ (Finset.mem_univ w), hothers, hworlds, Function.update_self,
    ← Finset.add_sum_erase _ (fun v => f (s.worlds v)) (Finset.mem_univ w)]
  omega

/-- A world gets to its next stage. -/
theorem Further.of_stage (hworlds : s'.worlds = Function.update s.worlds w y)
    (hpc : s'.serverPc = s.serverPc)
    (h : y.stagesLeft < (s.worlds w).stagesLeft) : Further s' s := by
  have hsum := sum_update World.stagesLeft hworlds
  have hreturned : s'.serverReturned = s.serverReturned := by simp only [serverReturned, hpc]
  refine .inl ?_
  rw [stagesLeft, stagesLeft, hreturned]
  omega

/-- A thread takes its next step within a stage. -/
theorem Further.of_turn (hworlds : s'.worlds = Function.update s.worlds w y)
    (hpc : s'.serverPc = s.serverPc)
    (hstage : y.stagesLeft = (s.worlds w).stagesLeft) (h : y.turnsLeft < (s.worlds w).turnsLeft) :
    Further s' s := by
  have hsum := sum_update World.stagesLeft hworlds
  have hturns := sum_update World.turnsLeft hworlds
  have hreturned : s'.serverReturned = s.serverReturned := by simp only [serverReturned, hpc]
  refine .inr ⟨?_, .inl ?_⟩
  · rw [stagesLeft, stagesLeft, hreturned]
    omega
  · rw [turnsLeft, turnsLeft]
    omega

/-- A destructor does a piece of its work. -/
theorem Further.of_hand (hworlds : s'.worlds = Function.update s.worlds w y)
    (hpc : s'.serverPc = s.serverPc) (hreturned : s.serverReturned)
    (hstage : y.stagesLeft = (s.worlds w).stagesLeft) (hturn : y.turnsLeft = (s.worlds w).turnsLeft)
    (hheld : s'.server = s.server)
    (h : batchesLeft s'.queue.queue + World.handLeft y.pc
      < batchesLeft s.queue.queue + World.handLeft (s.worlds w).pc) : Further s' s := by
  have hstages := sum_update World.stagesLeft hworlds
  have hturns := sum_update World.turnsLeft hworlds
  have hhands := sum_update (fun x => World.handLeft x.pc) hworlds
  have hserver : ∀ queue, serverLeft queue s.serverPc = 0 := by
    intro queue
    cases hpc : s.serverPc with
    | returned rc => rfl
    | _ => simp [serverReturned, hpc] at hreturned
  have hreturned' : s'.serverReturned = s.serverReturned := by simp only [serverReturned, hpc]
  refine .inr ⟨?_, .inr ⟨?_, ?_⟩⟩
  · rw [stagesLeft, stagesLeft, hreturned']
    omega
  · rw [turnsLeft, turnsLeft]
    omega
  · rw [workLeft, workLeft, hpc, hserver, hserver, hheld]
    omega

end Measure

/-! ## Stuck worlds -/

section Stuck

variable {ι : Type u}

/-- The server has left `Server::run`, or will do so without looking at the queue again. -/
def leaving (s : System ι) : Bool :=
  match s.serverPc with
  | .entry => !s.connected || s.serverStopped
  | .test => s.serverStopped
  | .returned _ => true
  | _ => false

/-- Some world waits for messages that nobody will free. -/
def Stuck (s : System ι) : Prop :=
  s.leaving ∧ (∃ w, (s.worlds w).pc.atLoad) ∧ maxAllocatedMsgInstances < s.stranded

instance [Fintype ι] (s : System ι) : Decidable s.Stuck :=
  inferInstanceAs (Decidable (_ ∧ (∃ _, _) ∧ _))

/-- The server serves, or no world looks at the counter. -/
def Safe (s : System ι) : Prop := s.leaving = false ∨ ∀ w, (s.worlds w).pc.atLoad = false

theorem Safe.not_stuck {s : System ι} (h : Safe s) : ¬ Stuck s := by
  rintro ⟨hleaving, ⟨w, hw⟩, -⟩
  obtain h | h := h
  · exact Bool.false_ne_true (h.symm.trans hleaving)
  · exact Bool.false_ne_true ((h w).symm.trans hw)

/-- While the server is leaving, no world is stuck as long as not too many messages are stranded. -/
theorem not_stuck_of_stranded {s : System ι} (h : s.stranded ≤ maxAllocatedMsgInstances) :
    ¬ Stuck s := fun hstuck => absurd hstuck.2.2 (not_lt.2 h)

/-- The web client throws. -/
def Event.throws : Event ι → Bool
  | .provider _ (.update e) => World.throws e
  | _ => false

/-- Nothing fails. -/
def Event.smooth (e : Event ι) : Bool := e.callsOk && !e.throws

variable [Fintype ι] [DecidableEq ι] (lib : JsonLib) (aes : BlockCipher)

/-- A step of a thread that gets further, and no world stuck. -/
def Progress (s : System ι) : Prop :=
  ∃ e s', e.ofMain = false ∧ e.smooth ∧ (machine lib aes).step s e = some s' ∧ ¬ Stuck s' ∧ Further s' s

end Stuck

section Progress

variable {ι : Type u} [DecidableEq ι] {lib : JsonLib} {aes : BlockCipher} {s s' : System ι} {w : ι}
  {y : World}

/-! ## Steps that get further -/

/-- A world that does not come to look at the counter does no harm. -/
theorem Safe.not_stuck_of_world (h : Safe s) (hworlds : s'.worlds = Function.update s.worlds w y)
    (hy : y.pc.atLoad = false ∨ y.pc = (s.worlds w).pc) (hleaving : s'.leaving = s.leaving) :
    ¬ Stuck s' := by
  refine Safe.not_stuck (h.imp (fun h => hleaving.trans h) (fun h v => ?_))
  obtain ⟨rfl, hv⟩ | ⟨-, hv⟩ := world_cases hworlds v
  · rw [hv]
    exact hy.elim id (fun hsame => by rw [hsame]; exact h v)
  · rw [hv]
    exact h v

variable [Fintype ι]

/-! ### A tick under way -/

/-- Steps of `getPlayers` that do not return yet. -/
theorem progress_reader (h : Safe s) (hpc : (s.worlds w).pc = .getPlayers)
    {e : SharedProvider.ReaderEvent} (hne : e ≠ .unlock) {p : SharedProvider Unit}
    (hstep : (s.worlds w).provider.stepReader () e = some p)
    (hupdater : p.updater = (s.worlds w).provider.updater)
    (hleft : World.readerLeft (p.readers ()) < World.readerLeft ((s.worlds w).provider.readers ())) :
    Progress lib aes s := by
  have hmove : (machine lib aes).step s (.world w (.reader e))
      = some (s.setWorld w { s.worlds w with provider := p }) := by
    simp [machine, step, stepWorld, World.stepReader, hpc, hstep, hne]
  refine ⟨_, _, rfl, rfl, hmove, h.not_stuck_of_world rfl (.inr rfl) rfl, .of_turn rfl rfl rfl ?_⟩
  simp only [World.turnsLeft, World.requestsLeft, hupdater]
  omega

theorem progress_getPlayers (h : Safe s) (hdisciplined : (s.worlds w).provider.Disciplined)
    (hpc : (s.worlds w).pc = .getPlayers) : Progress lib aes s := by
  cases hreader : (s.worlds w).provider.readers () with
  | outside =>
      -- the world is the only one to lock the mutex
      have hmutex : (s.worlds w).provider.mutex = none := by
        by_contra hlocked
        obtain ⟨⟨⟩, hlocked⟩ := Option.ne_none_iff_exists'.1 hlocked
        exact (hdisciplined.mutex ()).2 hlocked hreader
      exact progress_reader h hpc (e := .lock) (by simp)
        (if_pos (show _ ∧ _ from ⟨hreader, hmutex⟩)) rfl (by simp [hreader, World.readerLeft])
  | locked =>
      refine progress_reader h hpc (e := .test) (by simp) (if_pos hreader) rfl ?_
      simp only [SharedProvider.setReader, Function.update_self, hreader]
      split <;> simp [World.readerLeft]
  | ready =>
      exact progress_reader h hpc (e := .swap) (by simp) (if_pos hreader) rfl
        (by simp [hreader, World.readerLeft])
  | swapped =>
      exact progress_reader h hpc (e := .reset) (by simp) (if_pos hreader) rfl
        (by simp [hreader, World.readerLeft])
  | leaving =>
      obtain ⟨p, hp⟩ : ∃ p, (s.worlds w).provider.stepReader () .unlock = some p :=
        ⟨_, if_pos hreader⟩
      have hmove : (machine lib aes).step s (.world w (.reader .unlock))
          = some (s.setWorld w { s.worlds w with
              provider := p
              pc := .iterate 0 p.data.players.length
              ticks := (s.worlds w).ticks ++ [⟨p.data.players, []⟩] }) := by
        simp [machine, step, stepWorld, World.stepReader, hpc, hp]
      exact ⟨_, _, rfl, rfl, hmove, h.not_stuck_of_world rfl (.inl rfl) rfl,
        .of_stage rfl rfl (by simp [World.stagesLeft, hpc])⟩

theorem progress_iterate (h : Safe s) (hticking : (s.worlds w).Ticking) {i n : ℕ}
    (hpc : (s.worlds w).pc = .iterate i n) : Progress lib aes s := by
  obtain ⟨hn, -, -⟩ := hticking.current i n (by simp [World.inTick, hpc])
  by_cases hi : i < n
  · have hplayer := List.getElem?_eq_getElem (hn ▸ hi : i < (s.worlds w).provider.data.players.length)
    have hmove : (machine lib aes).step s (.world w (.alloc []))
        = some (s.allocNewMsg w i n (s.worlds w).provider.data.players[i] []) := by
      simp [machine, step, stepWorld, hpc, hi, hplayer]
    refine ⟨_, _, rfl, rfl, hmove, h.not_stuck_of_world rfl (.inl rfl) rfl,
      .of_turn rfl rfl (by simp [World.stagesLeft, hpc]) ?_⟩
    simp only [World.turnsLeft, World.requestsLeft, World.entriesLeft, hpc]
    omega
  · have hmove : (machine lib aes).step s (.world w .endTick)
        = some (s.setWorld w { s.worlds w with pc := .test }) := by
      simp only [machine, step, stepWorld, hpc]
      exact if_pos hi
    exact ⟨_, _, rfl, rfl, hmove, h.not_stuck_of_world rfl (.inl rfl) rfl,
      .of_stage rfl rfl (by simp [World.stagesLeft, hpc])⟩

theorem progress_push (h : Safe s) (hticking : (s.worlds w).Ticking) {i n : ℕ} {msgs : Messages}
    (hpc : (s.worlds w).pc = .push i n msgs) : Progress lib aes s := by
  have hi := hticking.pushing i n msgs hpc
  have hmove : (machine lib aes).step s (.world w .push) = some { s with
      worlds := Function.update s.worlds w { s.worlds w with
        pc := .iterate (i + 1) n
        ticks := World.record (s.worlds w).ticks msgs }
      queue := s.queue.push msgs
      pushed := s.pushed ++ [(w, msgs)] } := by
    simp only [machine, step, stepWorld, hpc]
  refine ⟨_, _, rfl, rfl, hmove, h.not_stuck_of_world rfl (.inl rfl) rfl,
    .of_turn rfl rfl (by simp [World.stagesLeft, hpc]) ?_⟩
  simp only [World.turnsLeft, World.requestsLeft, World.entriesLeft, hpc]
  omega

/-! ### The provider threads -/

/-- Steps of `updatePlayers`. -/
theorem progress_update (h : Safe s) (hthread : (s.worlds w).providerThread = .updating)
    {e : SharedProvider.UpdaterEvent} (hanswered : World.throws e = false) {p : SharedProvider Unit}
    (hstep : (s.worlds w).provider.stepUpdater lib e = some p)
    (hreaders : p.readers = (s.worlds w).provider.readers)
    (hleft : World.requestsLeft { s.worlds w with
        provider := p
        providerThread := if p.updater = .idle then .testing else .updating }
      < (s.worlds w).requestsLeft) : Progress lib aes s := by
  have hmove : (machine lib aes).step s (.provider w (.update e))
      = some (s.setWorld w { s.worlds w with
          provider := p
          providerThread := if p.updater = .idle then .testing else .updating }) := by
    simp [machine, step, World.stepProvider, hthread, hstep, hanswered]
  have hsmooth : (Event.provider w (.update e)).smooth := by
    simp [Event.smooth, Event.callsOk, Event.throws, hanswered]
  refine ⟨_, _, rfl, hsmooth, hmove, h.not_stuck_of_world rfl (.inr rfl) rfl, .of_turn rfl rfl rfl ?_⟩
  simp only [World.turnsLeft, hreaders]
  exact Nat.add_lt_add_left hleft _

theorem progress_provider (h : Safe s) (hstopped : (s.worlds w).providerStopped = true)
    (hrunning : ∀ threw, (s.worlds w).providerThread ≠ .exited threw) : Progress lib aes s := by
  cases hthread : (s.worlds w).providerThread with
  | exited threw => exact absurd hthread (hrunning threw)
  | testing =>
      have hmove : (machine lib aes).step s (.provider w .test)
          = some (s.setWorld w { s.worlds w with providerThread := .exited false }) := by
        simp [machine, step, World.stepProvider, hthread, hstopped]
      refine ⟨_, _, rfl, rfl, hmove, h.not_stuck_of_world rfl (.inr rfl) rfl, .of_turn rfl rfl rfl ?_⟩
      simp [World.turnsLeft, World.requestsLeft, hthread]
  | updating =>
      cases hupdater : (s.worlds w).provider.updater with
      | idle =>
          refine progress_update h hthread (e := .check) rfl (if_pos hupdater) rfl ?_
          by_cases hstatus : (s.worlds w).provider.data.playerDataStatus = .AWAIT_NEW_DATA <;>
            simp [World.requestsLeft, hthread, hupdater, hstatus]
      | checked =>
          refine progress_update h hthread (e := .clear) rfl (if_pos hupdater) rfl ?_
          simp [World.requestsLeft, hthread, hupdater]
      | cleared =>
          -- any answer will do
          refine progress_update h hthread (e := .getIDs (some ⟨"", 500⟩)) rfl (if_pos hupdater) rfl ?_
          simp [World.requestsLeft, hthread, hupdater, idsOfResponse]
      | fetching players rest =>
          cases rest with
          | nil =>
              have hstep : (s.worlds w).provider.stepUpdater lib .publish
                  = some ((s.worlds w).provider.published players) := by
                simp only [SharedProvider.stepUpdater, hupdater]
                rfl
              refine progress_update h hthread rfl hstep rfl ?_
              simp [World.requestsLeft, hthread, hupdater, SharedProvider.published]
          | cons id rest =>
              have hstep : (s.worlds w).provider.stepUpdater lib (.getPlayer (some ⟨"", 500⟩))
                  = some ((s.worlds w).provider.updaterOnly (.fetching players rest)
                    ((s.worlds w).provider.data.updatedPlayers
                      ++ (playerOfResponse lib id ⟨"", 500⟩).toList)
                    ((s.worlds w).provider.fetches ++ [⟨id, ⟨"", 500⟩⟩])) := by
                simp only [SharedProvider.stepUpdater, hupdater]
                rfl
              refine progress_update h hthread rfl hstep rfl ?_
              simp [World.requestsLeft, hthread, hupdater, SharedProvider.updaterOnly]

/-- The thread of a world goes on to something else. -/
theorem progress_goto (w : ι) (e : WorldEvent) (hother : e.ofDestructor = false) (pc : WorldPc)
    (hmove : (machine lib aes).step s (.world w e) = some (s.setWorld w { s.worlds w with pc := pc }))
    (hsafe : ¬ Stuck (s.setWorld w { s.worlds w with pc := pc }))
    (hleft : World.stagesLeft { s.worlds w with pc := pc } < (s.worlds w).stagesLeft) :
    Progress lib aes s :=
  ⟨.world w e, _, hother, rfl, hmove, hsafe, .of_stage rfl rfl hleft⟩

/-- A world that has been stopped goes on, unless it looks at the counter. -/
theorem progress_world (h : Safe s) {ok : System ι → Event ι → Prop}
    (hreach : (machine lib aes).Reach ok s) (hprovider : (s.worlds w).providerStopped)
    (hstopped : (s.worlds w).stopped) (hover : (s.worlds w).pc.over = false)
    (hload : (s.worlds w).pc.atLoad = false) : Progress lib aes s := by
  have hticking := ticking_of_reach hreach w
  cases hpc : (s.worlds w).pc with
  | test =>
      refine progress_goto w .test rfl .join ?_ (h.not_stuck_of_world rfl (.inl rfl) rfl) ?_
      · simp [machine, step, stepWorld, require, hpc, hstopped]
      · simp [World.stagesLeft, hpc]
  | getPlayers =>
      exact progress_getPlayers h (SharedProvider.disciplined_of_reach (provider_reach hreach w)) hpc
  | iterate i n => exact progress_iterate h hticking hpc
  | push i n msgs => exact progress_push h hticking hpc
  | join =>
      by_cases hthread : ∃ threw, (s.worlds w).providerThread = .exited threw
      · obtain ⟨threw, hthread⟩ := hthread
        refine progress_goto w .join rfl (.returned threw) ?_ (h.not_stuck_of_world rfl (.inl rfl) rfl) ?_
        · simp [machine, step, stepWorld, hpc, hthread]
        · simp [World.stagesLeft, hpc]
      · exact progress_provider h hprovider (not_exists.1 hthread)
  | load | waiting => simp [hpc, WorldPc.atLoad] at hload
  | returned | draining | freeing | destroyed => simp [hpc, WorldPc.over, WorldPc.destructing] at hover

/-! ### The server and zmq -/

/-- The server, or zmq, does a piece of its work. -/
theorem progress_of_work {e : Event ι} (hother : e.ofMain = false) (hsmooth : e.smooth)
    (hmove : (machine lib aes).step s e = some s') (hsafe : ¬ Stuck s') (hworlds : s'.worlds = s.worlds)
    (hreturned : s'.serverReturned = s.serverReturned) (hleft : s'.workLeft < s.workLeft) :
    Progress lib aes s := by
  refine ⟨e, s', hother, hsmooth, hmove, hsafe, .inr ⟨?_, .inr ⟨?_, hleft⟩⟩⟩
  · rw [stagesLeft, stagesLeft, hworlds, hreturned]
  · rw [turnsLeft, turnsLeft, hworlds]

/-- zmq sends what it holds. -/
theorem progress_release (hbalanced : Balanced s) (h : ¬ Stuck s)
    (hheld : s.server.publisher.held ≠ []) : Progress lib aes s := by
  obtain ⟨r, hr⟩ := List.exists_mem_of_ne_nil _ hheld
  have hmove : (machine lib aes).step s (.release r) = some (s.released r) := if_pos hr
  have hsafe : ¬ Stuck (s.released r) := by
    rintro ⟨hleaving, hwaits, hstranded⟩
    rw [stranded_released hbalanced hr] at hstranded
    exact h ⟨hleaving, hwaits, hstranded⟩
  refine progress_of_work rfl rfl hmove hsafe rfl rfl ?_
  have hpos := List.length_pos_of_mem hr
  simp only [workLeft, released, customFree, List.length_erase_of_mem hr]
  omega

theorem progress_processing {popped : Messages} {rest : List MsgPair}
    (hpc : s.serverPc = .processing popped rest) : Progress lib aes s := by
  have hserving : s.serverReturned = false := by simp [serverReturned, hpc]
  cases rest with
  | nil =>
      have hmove : (machine lib aes).step s (.server .finish) = some { s with
          serverPc := .popping popped
          processed := s.processed ++ [popped] } := by
        simp [machine, step, stepServer, hpc]
      refine progress_of_work rfl rfl hmove (Safe.not_stuck (.inl rfl)) rfl hserving.symm ?_
      simp only [workLeft, serverLeft, hpc, List.length_nil]
      omega
  | cons msg rest =>
      have hmove : (machine lib aes).step s (.server (.send (sampleEnv 0))) = some { s with
          serverPc := .processing popped rest
          server := processMsg aes (sampleEnv 0) s.server popped.topicID msg
          abandoned := s.abandoned ++ notHandedOver (sampleEnv 0) msg } := by
        simp [machine, step, stepServer, hpc]
      refine progress_of_work rfl rfl hmove (Safe.not_stuck (.inl rfl)) rfl hserving.symm ?_
      have hheld : (handedOver (sampleEnv 0) msg).length ≤ 1 := by
        unfold handedOver
        split <;> simp
      simp only [workLeft, serverLeft, hpc, processMsg_eq, List.length_append, List.length_cons]
      omega

theorem progress_take {popped front : Messages} {rest : List Messages}
    (hpc : s.serverPc = .popping popped) (hqueue : s.queue.queue = front :: rest) :
    Progress lib aes s := by
  have hserving : s.serverReturned = false := by simp [serverReturned, hpc]
  have hmove : (machine lib aes).step s (.server .pop) = some { s with
      queue := ⟨rest⟩
      serverPc := .processing front front.msgs } := by
    simp [machine, step, stepServer, hpc, SimpleMsgQueue.pop, hqueue]
  refine progress_of_work rfl rfl hmove (Safe.not_stuck (.inl rfl)) rfl hserving.symm ?_
  simp only [workLeft, serverLeft, hpc, hqueue, batchesLeft_cons]
  omega

/-- The server has sent everything, and zmq too. -/
structure Drained (s : System ι) : Prop where
  queue : s.queue.queue = []
  server : s.serverHand = []
  zmq : s.server.publisher.held = []

/-- While the server serves, it or zmq has something to do until everything is sent. -/
theorem drained_or_progress (hbalanced : Balanced s) (h : s.leaving = false) :
    Drained s ∨ Progress lib aes s := by
  have hsafe : Safe s := .inl h
  cases hpc : s.serverPc with
  | entry =>
      simp only [leaving, hpc, Bool.or_eq_false_iff, Bool.not_eq_false'] at h
      have hmove : (machine lib aes).step s (.server .enter) = some { s with serverPc := .test } := by
        simp [machine, step, stepServer, require, hpc, h.1]
      refine .inr (progress_of_work rfl rfl hmove (Safe.not_stuck (.inl h.2)) rfl
        (by simp [serverReturned, hpc]) ?_)
      simp only [workLeft, serverLeft, hpc]
      split <;> omega
  | test =>
      have hrunning : s.serverStopped = false := by simpa only [leaving, hpc] using h
      by_cases hqueue : s.queue.queue = []
      · by_cases hheld : s.server.publisher.held = []
        · exact .inl ⟨hqueue, by simp [serverHand, hpc], hheld⟩
        · exact .inr (progress_release hbalanced hsafe.not_stuck hheld)
      · have hmove : (machine lib aes).step s (.server .test)
            = some { s with serverPc := .popping .empty } := by
          simp [machine, step, stepServer, require, hpc, hrunning]
        refine .inr (progress_of_work rfl rfl hmove (Safe.not_stuck (.inl rfl)) rfl
          (by simp [serverReturned, hpc]) ?_)
        simp only [workLeft, serverLeft, hpc, if_neg hqueue]
        omega
  | popping popped =>
      cases hqueue : s.queue.queue with
      | nil =>
          -- the pop that would fail is put off
          by_cases hheld : s.server.publisher.held = []
          · exact .inl ⟨hqueue, by simp [serverHand, hpc], hheld⟩
          · exact .inr (progress_release hbalanced hsafe.not_stuck hheld)
      | cons front rest => exact .inr (progress_take hpc hqueue)
  | processing popped rest => exact .inr (progress_processing hpc)
  | returned rc => simp [leaving, hpc] at h

/-- When everything has been sent and no world has a message in hand, the counter is zero. -/
theorem counter_of_drained (hreach : (machine lib aes).Reach zmqOk s) (h : Drained s)
    (hhands : ∀ w, (s.worlds w).hand = []) : s.currentlyAllocatedMsgInstances = 0 := by
  have htotal : Ledger.total s.contents = 0 := by
    refine Finset.sum_eq_zero ?_
    intro p _
    rcases p with w | o
    · simp [contents, hhands w]
    · cases o with
      | queue => simp [contents, h.queue, slots]
      | server => simp [contents, h.server]
      | zmq => simp [contents, h.zmq]
      | abandoned => simp [contents, abandoned_of_zmqOk hreach]
  rw [(balanced_of_reach hreach).counter, htotal, Multiset.card_zero]

/-! ### Worlds that look at the counter -/

/-- The counter is low enough. -/
theorem progress_pass (hload : (s.worlds w).pc.atLoad)
    (hlow : s.currentlyAllocatedMsgInstances ≤ maxAllocatedMsgInstances)
    (hsafe : s.leaving = false ∨ s.stranded ≤ maxAllocatedMsgInstances) : Progress lib aes s := by
  have hsafe : ¬ Stuck (s.setWorld w { s.worlds w with pc := .getPlayers }) :=
    hsafe.elim (fun h => Safe.not_stuck (.inl h)) (fun h => not_stuck_of_stranded h)
  have hpc : (s.worlds w).pc = .load ∨ (s.worlds w).pc = .waiting := by
    cases hpc : (s.worlds w).pc with
    | load => exact .inl rfl
    | waiting => exact .inr rfl
    | _ => simp [hpc, WorldPc.atLoad] at hload
  refine progress_goto w .load rfl .getPlayers ?_ hsafe ?_
  · simp [machine, step, stepWorld, require, hpc, not_lt.2 hlow]
  · obtain hpc | hpc := hpc <;> simp [World.stagesLeft, hpc]

/-- When the server is leaving, the waiting worlds pass before anything else is allocated. -/
theorem progress_leaving (hbalanced : Balanced s) (h : ¬ Stuck s) (hleaving : s.leaving)
    (hload : (s.worlds w).pc.atLoad) : Progress lib aes s := by
  have hstranded : s.stranded ≤ maxAllocatedMsgInstances :=
    not_lt.1 (fun hstranded => h ⟨hleaving, ⟨w, hload⟩, hstranded⟩)
  by_cases hheld : s.server.publisher.held = []
  · refine progress_pass hload ?_ (.inr hstranded)
    simpa only [stranded, hheld, List.length_nil, Nat.sub_zero] using hstranded
  · exact progress_release hbalanced h hheld

/-! ### No dead ends -/

/-- When the worlds have been stopped, they return, unless one is stuck. -/
theorem exists_progress (hreach : (machine lib aes).Reach orderedOk s)
    (hproviders : ∀ w, (s.worlds w).providerStopped) (hstopped : ∀ w, (s.worlds w).stopped)
    (h : ¬ Stuck s) (hover : (s.worlds w).pc.over = false) : Progress lib aes s := by
  have hbalanced := balanced_of_reach hreach
  by_cases hleaving : s.leaving
  · by_cases hload : ∃ v, (s.worlds v).pc.atLoad
    · obtain ⟨v, hload⟩ := hload
      exact progress_leaving hbalanced h hleaving hload
    · have hsafe : Safe s := .inr (fun v => Bool.eq_false_of_not_eq_true (not_exists.1 hload v))
      exact progress_world hsafe hreach (hproviders w) (hstopped w) hover
        (Bool.eq_false_of_not_eq_true (not_exists.1 hload w))
  · replace hleaving := Bool.eq_false_of_not_eq_true hleaving
    by_cases hgoing : ∃ v, (s.worlds v).pc.over = false ∧ (s.worlds v).pc.atLoad = false
    · obtain ⟨v, hover, hload⟩ := hgoing
      exact progress_world (.inl hleaving) hreach (hproviders v) (hstopped v) hover hload
    · obtain hdrained | hprogress : Drained s ∨ Progress lib aes s :=
        drained_or_progress hbalanced hleaving
      · -- all worlds that have not returned look at the counter, which is zero
        have hload : ∀ v, (s.worlds v).pc.over = false → (s.worlds v).pc.atLoad :=
          fun v hv => Bool.eq_true_of_not_eq_false (fun hload => hgoing ⟨v, hv, hload⟩)
        have hhands : ∀ v, (s.worlds v).hand = [] := by
          intro v
          cases hpc : (s.worlds v).pc with
          | push => exact absurd (hload v (by rw [hpc]; rfl)) (by simp [hpc, WorldPc.atLoad])
          | freeing =>
              -- no world is destroyed yet
              have hdestructing : (s.worlds v).pc.destructing := by rw [hpc]; rfl
              have hall := over_of_destructing (hreach.mono (fun _ _ h => h.1)) hdestructing w
              exact absurd (hover.symm.trans hall) Bool.false_ne_true
          | _ => simp [World.hand, hpc]
        refine progress_pass (hload w hover) ?_ (.inl hleaving)
        rw [counter_of_drained (hreach.mono (fun _ _ h => h.2)) hdrained hhands]
        exact Nat.zero_le _
      · exact hprogress

/-! ### When the worlds have returned -/

omit [DecidableEq ι] [Fintype ι] in
theorem atLoad_of_over {pc : WorldPc} (h : pc.over) : pc.atLoad = false := by
  cases pc <;> first | rfl | exact absurd h Bool.false_ne_true

omit [DecidableEq ι] [Fintype ι] in
theorem safe_of_over (h : ∀ w, (s.worlds w).pc.over) : Safe s := .inr (fun w => atLoad_of_over (h w))

/-- The server, told to stop, gets to the end of `Server::run`. -/
theorem progress_exit (hover : ∀ w, (s.worlds w).pc.over) (hstopped : s.serverStopped)
    (hserving : s.serverReturned = false) : Progress lib aes s := by
  have hsafe : ∀ s' : System ι, s'.worlds = s.worlds → ¬ Stuck s' :=
    fun s' hworlds => (safe_of_over (hworlds ▸ hover)).not_stuck
  cases hpc : s.serverPc with
  | entry =>
      by_cases hconnected : s.connected
      · have hmove : (machine lib aes).step s (.server .enter) = some { s with serverPc := .test } := by
          simp [machine, step, stepServer, require, hpc, hconnected]
        refine progress_of_work rfl rfl hmove (hsafe _ rfl) rfl hserving.symm ?_
        simp only [workLeft, serverLeft, hpc]
        split <;> omega
      · have hmove : (machine lib aes).step s (.server .enter)
            = some { s with serverPc := .returned false } := by
          simp [machine, step, stepServer, require, hpc, hconnected]
        exact ⟨_, _, rfl, rfl, hmove, hsafe _ rfl, .inl (by simp [stagesLeft, serverReturned, hpc])⟩
  | test =>
      have hmove : (machine lib aes).step s (.server .test)
          = some { s with serverPc := .returned true } := by
        simp [machine, step, stepServer, require, hpc, hstopped]
      exact ⟨_, _, rfl, rfl, hmove, hsafe _ rfl, .inl (by simp [stagesLeft, serverReturned, hpc])⟩
  | popping popped =>
      cases hqueue : s.queue.queue with
      | nil =>
          have hmove : (machine lib aes).step s (.server .pop) = some { s with serverPc := .test } := by
            simp [machine, step, stepServer, hpc, SimpleMsgQueue.pop, hqueue]
          refine progress_of_work rfl rfl hmove (hsafe _ rfl) rfl hserving.symm ?_
          simp only [workLeft, serverLeft, hpc, hqueue, if_true]
          omega
      | cons front rest => exact progress_take hpc hqueue
  | processing popped rest => exact progress_processing hpc
  | returned rc => simp [serverReturned, hpc] at hserving

/-- The destructor of a world goes on. -/
theorem exists_destruction (hover : (s.worlds w).pc.over) (hreturned : s.serverReturned)
    (hw : (s.worlds w).pc ≠ .destroyed) :
    ∃ e s', e.ofDestructor ∧ (machine lib aes).step s (.world w e) = some s' ∧ Further s' s := by
  cases hpc : (s.worlds w).pc with
  | returned threw =>
      have hmove : (machine lib aes).step s (.world w .destroy)
          = some (s.setWorld w { s.worlds w with pc := .draining .empty }) := by
        simp [machine, step, stepWorld, hpc]
      exact ⟨.destroy, _, rfl, hmove, .of_stage rfl rfl (by simp [World.stagesLeft, hpc])⟩
  | draining popped =>
      cases hqueue : s.queue.queue with
      | nil =>
          have hmove : (machine lib aes).step s (.world w .pop)
              = some (s.setWorld w { s.worlds w with pc := .destroyed }) := by
            simp [machine, step, stepWorld, hpc, SimpleMsgQueue.pop, hqueue, setWorld]
          exact ⟨.pop, _, rfl, hmove, .of_stage rfl rfl (by simp [World.stagesLeft, hpc])⟩
      | cons front rest =>
          have hmove : (machine lib aes).step s (.world w .pop)
              = some { s.setWorld w { s.worlds w with pc := .freeing front front.msgs } with
                  queue := ⟨rest⟩ } := by
            simp [machine, step, stepWorld, hpc, SimpleMsgQueue.pop, hqueue]
          refine ⟨.pop, _, rfl, hmove, .of_hand rfl rfl hreturned (by simp [World.stagesLeft, hpc])
            (by simp [World.turnsLeft, World.entriesLeft, World.requestsLeft, hpc]) rfl ?_⟩
          rw [hqueue, batchesLeft_cons, hpc]
          simp only [World.handLeft]
          omega
  | freeing popped rest =>
      cases rest with
      | nil =>
          have hmove : (machine lib aes).step s (.world w .free)
              = some (s.setWorld w { s.worlds w with pc := .draining popped }) := by
            simp [machine, step, stepWorld, hpc]
          refine ⟨.free, _, rfl, hmove, .of_hand rfl rfl hreturned (by simp [World.stagesLeft, hpc])
            (by simp [World.turnsLeft, World.entriesLeft, World.requestsLeft, hpc]) rfl ?_⟩
          simp [World.handLeft, hpc, setWorld]
      | cons msg rest =>
          have hmove : (machine lib aes).step s (.world w .free)
              = some (if msg.2 ≠ .nullptr
                  then (s.setWorld w { s.worlds w with pc := .freeing popped rest }).customFree msg.1
                  else s.setWorld w { s.worlds w with pc := .freeing popped rest }) := by
            simp [machine, step, stepWorld, hpc]
          have hfurther : ∀ s' : System ι, s'.worlds = Function.update s.worlds w
              { s.worlds w with pc := .freeing popped rest } → s'.serverPc = s.serverPc →
              s'.server = s.server → s'.queue = s.queue → Further s' s := by
            intro s' hworlds hserverPc hserver hqueue
            refine .of_hand hworlds hserverPc hreturned (by simp [World.stagesLeft, hpc])
              (by simp [World.turnsLeft, World.entriesLeft, World.requestsLeft, hpc]) hserver ?_
            simp [World.handLeft, hpc, hqueue]
          refine ⟨.free, _, rfl, hmove, ?_⟩
          split
          · exact hfurther _ rfl rfl rfl rfl
          · exact hfurther _ rfl rfl rfl rfl
  | destroyed => exact absurd hpc hw
  | _ => simp [hpc, WorldPc.over, WorldPc.destructing] at hover

end Progress

end System

end Gravioli
