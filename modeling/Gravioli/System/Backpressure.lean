import Gravioli.System.Conservation
import Gravioli.System.Threads

set_option autoImplicit false

/-! # Backpressure

A world compares the counter with `MAX_ALLOCATED_MSG_INSTANCES` once for each tick, before it even
knows how many players the tick has. The invariant gives every world that has passed the test the
*credit* to allocate one message for each remaining entry: counter and credits together never exceed
the threshold by more than one list for each world. -/

namespace Gravioli

universe u

open Ledger (total)

/-- What a world may still allocate before it looks at the counter again, when its lists have at
    most `P` entries. -/
def World.credit (P : ℕ) (x : World) : ℕ :=
  match x.pc with
  | .getPlayers => P
  | .iterate i n => n - i
  | .push i n _ => n - (i + 1)
  | _ => 0

theorem World.credit_le {P : ℕ} {x : World} (hticking : x.Ticking)
    (hplayers : x.provider.data.players.length ≤ P) : x.credit P ≤ P := by
  cases hpc : x.pc with
  | getPlayers => simp [credit, hpc]
  | iterate i n =>
      have hn := (hticking.current i n (by simp [inTick, hpc])).1
      simp only [credit, hpc]
      omega
  | push i n msgs =>
      have hn := (hticking.current i n (by simp [inTick, hpc])).1
      simp only [credit, hpc]
      omega
  | _ => simp [credit, hpc]

namespace System

variable {ι : Type u} [DecidableEq ι] {lib : JsonLib} {aes : BlockCipher} {s s' : System ι}
  {P : ι → ℕ}

/-- No list installed for a world so far is longer than its bound. -/
def Within (P : ι → ℕ) (s : System ι) : Prop :=
  ∀ w, ∀ list ∈ (s.worlds w).provider.installed, list.players.length ≤ P w

/-- The list a world iterates over is an installed one, or empty. -/
theorem Within.players_le {ok : System ι → Event ι → Prop} (h : Within P s)
    (hreach : (machine lib aes).Reach ok s) (w : ι) :
    (s.worlds w).provider.data.players.length ≤ P w := by
  have hcurrent := SharedProvider.current_of_reach (provider_reach hreach w)
  rw [hcurrent]
  cases hlast : (s.worlds w).provider.installed.getLast? with
  | none => simp
  | some list => exact h w list (List.mem_of_getLast? hlast)

theorem Within.credit_le {ok : System ι → Event ι → Prop} (h : Within P s)
    (hreach : (machine lib aes).Reach ok s) (w : ι) : (s.worlds w).credit (P w) ≤ P w :=
  World.credit_le (ticking_of_reach hreach w) (h.players_le hreach w)

/-- A bound that holds now held before. -/
theorem Within.of_moves {e : Event ι} (h : Within P s') (hmove : Moves lib aes s e s') :
    Within P s := by
  intro w list hlist
  rcases worlds_of_moves hmove w with hsame | hsteps
  · exact h w list (hsame ▸ hlist)
  · exact h w list ((World.history_step hsteps).2.subset hlist)

variable [Fintype ι]

/-- The credits of all worlds. -/
def credits (P : ι → ℕ) (s : System ι) : ℕ := total (fun w => (s.worlds w).credit (P w))

theorem credits_update {w : ι} {y : World} (hworlds : s'.worlds = Function.update s.worlds w y) :
    credits P s' + (s.worlds w).credit (P w) = credits P s + y.credit (P w) := by
  have hother : ∀ v, v ≠ w → (s'.worlds v).credit (P v) = (s.worlds v).credit (P v) := by
    intro v hv
    rw [hworlds, Function.update_of_ne hv]
  have hexchange : credits P s' + (s.worlds w).credit (P w)
      = credits P s + (s'.worlds w).credit (P w) := by
    unfold credits
    exact Ledger.total_exchange w hother
  rwa [hworlds, Function.update_self] at hexchange

/-- A world gives credit back, or keeps it. -/
theorem credits_le_of_update {w : ι} {y : World} (hworlds : s'.worlds = Function.update s.worlds w y)
    (hy : y.credit (P w) ≤ (s.worlds w).credit (P w)) : credits P s' ≤ credits P s := by
  have hupdate := credits_update (P := P) hworlds
  omega

/-- The invariant. -/
def Covered (P : ι → ℕ) (s : System ι) : Prop :=
  s.currentlyAllocatedMsgInstances + credits P s ≤ maxAllocatedMsgInstances + total P

omit [DecidableEq ι] in
theorem Covered.of_le (h : Covered P s)
    (hcounter : s'.currentlyAllocatedMsgInstances ≤ s.currentlyAllocatedMsgInstances)
    (hcredits : credits P s' ≤ credits P s) : Covered P s' := by
  unfold Covered at *
  omega

theorem decrement_le {n : ℕ} (h : 0 < n) : decrement n ≤ n := by
  rw [decrement_of_pos h]
  exact Nat.sub_le n 1

theorem Covered.step {ok : System ι → Event ι → Prop} {e : Event ι} (h : Covered P s)
    (hreach : (machine lib aes).Reach ok s) (hmove : Moves lib aes s e s') (hP : Within P s) :
    Covered P s' := by
  have hbal := balanced_of_reach hreach
  cases hmove with
  | stopProvider w => exact h.of_le le_rfl (credits_le_of_update rfl le_rfl)
  | stop w => exact h.of_le le_rfl (credits_le_of_update rfl le_rfl)
  | providerTest w => exact h.of_le le_rfl (credits_le_of_update rfl le_rfl)
  | update w => exact h.of_le le_rfl (credits_le_of_update rfl le_rfl)
  | reader w => exact h.of_le le_rfl (credits_le_of_update rfl le_rfl)
  | proceed w => exact h.of_le le_rfl (credits_le_of_update rfl (Nat.zero_le _))
  | leave w => exact h.of_le le_rfl (credits_le_of_update rfl (Nat.zero_le _))
  | wait w => exact h.of_le le_rfl (credits_le_of_update rfl (Nat.zero_le _))
  | endTick w => exact h.of_le le_rfl (credits_le_of_update rfl (Nat.zero_le _))
  | join w => exact h.of_le le_rfl (credits_le_of_update rfl (Nat.zero_le _))
  | destroy w => exact h.of_le le_rfl (credits_le_of_update rfl (Nat.zero_le _))
  | drain w => exact h.of_le le_rfl (credits_le_of_update rfl (Nat.zero_le _))
  | drained w => exact h.of_le le_rfl (credits_le_of_update rfl (Nat.zero_le _))
  | skip w => exact h.of_le le_rfl (credits_le_of_update rfl (Nat.zero_le _))
  | freedAll w => exact h.of_le le_rfl (credits_le_of_update rfl (Nat.zero_le _))
  | free w popped r rest hpc =>
      have hpos : 0 < s.currentlyAllocatedMsgInstances :=
        hbal.pos_of_mem (p := .inl w) (r := r) (by simp [contents, World.hand, hpc])
      exact h.of_le (decrement_le hpos) (credits_le_of_update rfl (Nat.zero_le _))
  | release r hheld =>
      have hpos : 0 < s.currentlyAllocatedMsgInstances :=
        hbal.pos_of_mem (p := .inr .zmq) (r := r) hheld
      exact h.of_le (decrement_le hpos) le_rfl
  | pass w hpc hlow =>
      -- the credits of all worlds together are within their bounds, whatever they were before
      have hcredits : credits P (s.setWorld w { s.worlds w with pc := .getPlayers }) ≤ total P := by
        refine Finset.sum_le_sum ?_
        intro v _
        by_cases hv : v = w
        · subst hv
          simp [setWorld, World.credit]
        · simp only [setWorld, Function.update_of_ne hv]
          exact hP.credit_le hreach v
      unfold Covered
      show s.currentlyAllocatedMsgInstances + _ ≤ _
      omega
  | gotPlayers w p hpc hstep =>
      obtain ⟨hdata, -, -⟩ := SharedProvider.unlock_frame hstep
      have hlen := hP.players_le hreach w
      refine h.of_le le_rfl (credits_le_of_update rfl ?_)
      simp only [World.credit, hpc, hdata]
      omega
  | alloc w payload i n player hpc hi hplayer =>
      have hupdate : credits P (s.allocNewMsg w i n player payload) + _ = credits P s + _ :=
        credits_update (w := w) rfl
      simp only [World.credit, hpc] at hupdate
      unfold Covered at *
      show s.currentlyAllocatedMsgInstances + 1 + _ ≤ _
      omega
  | push w i n msgs hpc =>
      refine h.of_le le_rfl (credits_le_of_update rfl ?_)
      simp [World.credit, hpc]
  | _ => exact h.of_le le_rfl le_rfl

/-- **Backpressure.** If no list installed for world `w` has more than `P w` entries, the counter
    stays within the threshold plus one list for each world, in every reachable state. -/
theorem allocated_le (P : ι → ℕ) (s : System ι) (h : (machine lib aes).Reach Machine.anyLabel s)
    (hP : ∀ w, ∀ list ∈ (s.worlds w).provider.installed, list.players.length ≤ P w) :
    s.currentlyAllocatedMsgInstances ≤ maxAllocatedMsgInstances + ∑ w, P w := by
  have hcovered : Within P s → Covered P s := by
    clear hP
    induction h using Machine.Reach.induct with
    | init s hinit =>
        obtain ⟨connected, rfl⟩ := hinit
        intro _
        have hzero : credits P (start connected : System ι) = 0 :=
          Finset.sum_eq_zero (fun _ _ => rfl)
        unfold Covered
        rw [hzero]
        exact Nat.zero_le _
    | step s e s' hreach ih hok hstep =>
        intro hP'
        have hmove := moves_of_step hstep
        have hPs := hP'.of_moves hmove
        exact (ih hPs).step hreach hmove hPs
  have hbound := hcovered hP
  unfold Covered at hbound
  exact le_trans (Nat.le_add_right _ _) hbound

/-- The bound along `fullRun`, whose only list has two players. -/
theorem allocated_le_fullRun :
    finalState.currentlyAllocatedMsgInstances ≤ maxAllocatedMsgInstances + ∑ _w : Unit, 2 :=
  allocated_le (fun _ => 2) finalState reach_finalState.any
    (by decide +kernel)

end System

end Gravioli
