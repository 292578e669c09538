import Gravioli.System.Shutdown

set_option autoImplicit false

/-! # `main`

The process, from the moment its threads have been started. `main` is in `ios.run()` until a signal
arrives. The handler stops the worlds, one after the other, and then the server. `main` waits for the
worlds and for the server, and leaves the scope: the worlds are destroyed, one at a time, and
`~Server` closes the socket and waits until zmq has let go of all messages.

`get` on the future of a world throws what `World::run` has thrown, and nothing catches it there:
`std::terminate` is called. `World::run` returns what the provider thread returns, which is never
`false`.

The worlds are the entries of a vector of length `n` (`SerializableWorld::init` makes one). Every step
of the process is a step of the composed system, made by `main` or by another thread, or it only takes
`main` further; `Process.Moves` lists them. -/

namespace Gravioli

/-- Where `main` is. -/
inductive MainPc
  /-- in `ios.run()`, before a signal -/
  | serving
  /-- in the handler, before `stop` of world `k` -/
  | stopping (k : ℕ)
  /-- in `stop` of world `k`, after the provider has been stopped -/
  | stoppingWorld (k : ℕ)
  /-- before `get` on the future of world `k` -/
  | awaitingWorld (k : ℕ) (allWorldsStopsSuccessfully : Bool)
  | awaitingServer (allWorldsStopsSuccessfully : Bool)
  /-- the worlds are being destroyed; what has been logged of the worlds and of the server -/
  | destroying (worlds server : Bool)
  /-- in `~Server` -/
  | closing (worlds server : Bool)
  /-- `EXIT_SUCCESS` -/
  | returned (worlds server : Bool)
  /-- `std::terminate` -/
  | terminated
  deriving DecidableEq

/-- The process is gone. -/
def MainPc.over : MainPc → Bool
  | returned _ _ => true
  | terminated => true
  | _ => false

/-- Leaving the scope of the worlds. -/
def MainPc.isDestroying : MainPc → Bool
  | destroying _ _ => true
  | _ => false

/-- In `~SerializableWorld`. -/
def WorldPc.inDestructor : WorldPc → Bool
  | draining _ => true
  | freeing _ _ => true
  | _ => false

namespace System

/-- The steps of `~SerializableWorld`. -/
def WorldEvent.ofDestructor : WorldEvent → Bool
  | .destroy => true
  | .pop => true
  | .free => true
  | _ => false

universe u

/-- The steps that are made by `main`. -/
def Event.ofMain {ι : Type u} : Event ι → Bool
  | .stopProvider _ => true
  | .stop _ => true
  | .stopServer => true
  | .world _ e => e.ofDestructor
  | _ => false

/-- The order of `main`, with no zmq call failing. -/
def orderedOk {ι : Type u} (s : System ι) (e : Event ι) : Prop := mainOrder s e ∧ zmqOk s e

end System

/-- `main` and the system it has started. -/
structure Process (n : ℕ) where
  main : MainPc
  system : System (Fin n)

namespace Process

variable {n : ℕ}

/-- The threads have been started. -/
def start (connected : Bool) : Process n := ⟨.serving, .start connected⟩

/-- A label: who makes a step, and which one. -/
inductive Event (n : ℕ)
  /-- `SIGINT`, `SIGTERM` or `SIGQUIT` -/
  | signal
  /-- the next step of `main`, up to the destructors -/
  | main
  | destructor (w : Fin n) (e : System.WorldEvent)
  /-- a step of another thread, or of zmq -/
  | other (e : System.Event (Fin n))

/-- The next step of `main`: where it is afterwards, and what it does in the system. -/
def mainTurn (p : Process n) : Option (MainPc × Option (System.Event (Fin n))) :=
  match p.main with
  | .stopping k =>
      if h : k < n then some (.stoppingWorld k, some (.stopProvider ⟨k, h⟩))
      else some (.awaitingWorld 0 true, some .stopServer)
  | .stoppingWorld k => if h : k < n then some (.stopping (k + 1), some (.stop ⟨k, h⟩)) else none
  | .awaitingWorld k allWorldsStopsSuccessfully =>
      if h : k < n then
        match (p.system.worlds ⟨k, h⟩).pc with
        | .returned true => some (.terminated, none)
        | .returned false => some (.awaitingWorld (k + 1) allWorldsStopsSuccessfully, none)
        | _ => none
      else some (.awaitingServer allWorldsStopsSuccessfully, none)
  | .awaitingServer allWorldsStopsSuccessfully =>
      match p.system.serverPc with
      | .returned rc => some (.destroying allWorldsStopsSuccessfully rc, none)
      | _ => none
  | .destroying worlds server =>
      if ∀ w, (p.system.worlds w).pc = .destroyed then some (.closing worlds server, none) else none
  | .closing worlds server =>
      if p.system.server.publisher.held = [] then some (.returned worlds server, none) else none
  | _ => none

/-- One step. A signal is captured once, while `main` is serving; destructors run one at a time. -/
def step (lib : JsonLib) (aes : BlockCipher) (p : Process n) : Event n → Option (Process n)
  | .signal => require (p.main = .serving) { p with main := .stopping 0 }
  | .main =>
      match p.mainTurn with
      | some (main, some e) => (p.system.step lib aes e).map (Process.mk main)
      | some (main, none) => some { p with main := main }
      | none => none
  | .destructor w e =>
      if e.ofDestructor ∧ p.main.isDestroying ∧
          ∀ v, v ≠ w → (p.system.worlds v).pc.inDestructor = false then
        (p.system.stepWorld w e).map (Process.mk p.main)
      else none
  | .other e =>
      if e.ofMain ∨ p.main.over then none else (p.system.step lib aes e).map (Process.mk p.main)

/-- The process, started with or without a bound socket. -/
def machine (n : ℕ) (lib : JsonLib) (aes : BlockCipher) : Machine (Process n) (Event n) where
  init p := ∃ connected, p = start connected
  step p e := p.step lib aes e

/-- No zmq call fails. -/
def zmqOk (_ : Process n) : Event n → Prop
  | .other e => e.callsOk
  | _ => True

/-! ## What a step can do -/

/-- The steps of a process, one constructor for each kind, with the guards that hold. -/
inductive Moves (lib : JsonLib) (aes : BlockCipher) (p : Process n) : Event n → Process n → Prop
  | signal (hmain : p.main = .serving) : Moves lib aes p .signal { p with main := .stopping 0 }
  | stopProvider (w : Fin n) (hmain : p.main = .stopping w) (s : System (Fin n))
      (hstep : (System.machine lib aes).step p.system (.stopProvider w) = some s) :
      Moves lib aes p .main ⟨.stoppingWorld w, s⟩
  | stop (w : Fin n) (hmain : p.main = .stoppingWorld w) (s : System (Fin n))
      (hstep : (System.machine lib aes).step p.system (.stop w) = some s) :
      Moves lib aes p .main ⟨.stopping (w + 1), s⟩
  | stopServer (k : ℕ) (hmain : p.main = .stopping k) (hk : n ≤ k) (s : System (Fin n))
      (hstep : (System.machine lib aes).step p.system .stopServer = some s) :
      Moves lib aes p .main ⟨.awaitingWorld 0 true, s⟩
  | rethrow (w : Fin n) (all : Bool) (hmain : p.main = .awaitingWorld w all)
      (hpc : (p.system.worlds w).pc = .returned true) :
      Moves lib aes p .main { p with main := .terminated }
  | joined (w : Fin n) (all : Bool) (hmain : p.main = .awaitingWorld w all)
      (hpc : (p.system.worlds w).pc = .returned false) :
      Moves lib aes p .main { p with main := .awaitingWorld (w + 1) all }
  | joinedAll (k : ℕ) (all : Bool) (hmain : p.main = .awaitingWorld k all) (hk : n ≤ k) :
      Moves lib aes p .main { p with main := .awaitingServer all }
  | joinedServer (all rc : Bool) (hmain : p.main = .awaitingServer all)
      (hpc : p.system.serverPc = .returned rc) :
      Moves lib aes p .main { p with main := .destroying all rc }
  | destroyedAll (worlds server : Bool) (hmain : p.main = .destroying worlds server)
      (hall : ∀ w, (p.system.worlds w).pc = .destroyed) :
      Moves lib aes p .main { p with main := .closing worlds server }
  | closed (worlds server : Bool) (hmain : p.main = .closing worlds server)
      (hheld : p.system.server.publisher.held = []) :
      Moves lib aes p .main { p with main := .returned worlds server }
  | destructor (w : Fin n) (e : System.WorldEvent) (he : e.ofDestructor) (worlds server : Bool)
      (hmain : p.main = .destroying worlds server)
      (hsole : ∀ v, v ≠ w → (p.system.worlds v).pc.inDestructor = false) (s : System (Fin n))
      (hstep : (System.machine lib aes).step p.system (.world w e) = some s) :
      Moves lib aes p (.destructor w e) { p with system := s }
  | other (e : System.Event (Fin n)) (he : e.ofMain = false) (hmain : p.main.over = false)
      (s : System (Fin n)) (hstep : (System.machine lib aes).step p.system e = some s) :
      Moves lib aes p (.other e) { p with system := s }

variable {lib : JsonLib} {aes : BlockCipher} {p p' : Process n}

theorem moves_of_main (h : (machine n lib aes).step p .main = some p') : Moves lib aes p .main p' := by
  obtain ⟨main, s⟩ := p
  simp only [machine, step, mainTurn] at h
  cases main with
  | stopping k =>
      by_cases hk : k < n
      · simp only [dif_pos hk, Option.map_eq_some_iff] at h
        obtain ⟨s', hs, rfl⟩ := h
        exact .stopProvider ⟨k, hk⟩ rfl s' hs
      · simp only [dif_neg hk, Option.map_eq_some_iff] at h
        obtain ⟨s', hs, rfl⟩ := h
        exact .stopServer k rfl (not_lt.1 hk) s' hs
  | stoppingWorld k =>
      by_cases hk : k < n
      · simp only [dif_pos hk, Option.map_eq_some_iff] at h
        obtain ⟨s', hs, rfl⟩ := h
        exact .stop ⟨k, hk⟩ rfl s' hs
      · simp [dif_neg hk] at h
  | awaitingWorld k all =>
      by_cases hk : k < n
      · cases hpc : (s.worlds ⟨k, hk⟩).pc with
        | returned threw =>
            cases threw with
            | true =>
                simp only [dif_pos hk, hpc, Option.some.injEq] at h
                exact h ▸ .rethrow ⟨k, hk⟩ all rfl hpc
            | false =>
                simp only [dif_pos hk, hpc, Option.some.injEq] at h
                exact h ▸ .joined ⟨k, hk⟩ all rfl hpc
        | _ => simp [dif_pos hk, hpc] at h
      · simp only [dif_neg hk, Option.some.injEq] at h
        exact h ▸ .joinedAll k all rfl (not_lt.1 hk)
  | awaitingServer all =>
      cases hpc : s.serverPc with
      | returned rc =>
          simp only [hpc, Option.some.injEq] at h
          exact h ▸ .joinedServer all rc rfl hpc
      | _ => simp [hpc] at h
  | destroying worlds server =>
      by_cases hall : ∀ w, (s.worlds w).pc = .destroyed
      · simp only [if_pos hall, Option.some.injEq] at h
        exact h ▸ .destroyedAll worlds server rfl hall
      · simp [if_neg hall] at h
  | closing worlds server =>
      by_cases hheld : s.server.publisher.held = []
      · simp only [if_pos hheld, Option.some.injEq] at h
        exact h ▸ .closed worlds server rfl hheld
      · simp [if_neg hheld] at h
  | serving | returned | terminated => simp at h

/-- **Inversion.** -/
theorem moves_of_step {e : Event n} (h : (machine n lib aes).step p e = some p') :
    Moves lib aes p e p' := by
  cases e with
  | main => exact moves_of_main h
  | signal =>
      obtain ⟨hmain, rfl⟩ := require_eq_some.1 h
      exact .signal hmain
  | destructor w e =>
      simp only [machine, step] at h
      split at h
      · next hguard =>
          obtain ⟨he, hdestroying, hsole⟩ := hguard
          obtain ⟨s, hs, rfl⟩ := Option.map_eq_some_iff.1 h
          cases hmain : p.main with
          | destroying worlds server =>
              exact hmain ▸ .destructor w e he worlds server hmain hsole s hs
          | _ => simp [hmain, MainPc.isDestroying] at hdestroying
      · exact absurd h (by simp)
  | other e =>
      simp only [machine, step] at h
      split at h
      · exact absurd h (by simp)
      · next hguard =>
          obtain ⟨he, hmain⟩ := not_or.1 hguard
          obtain ⟨s, hs, rfl⟩ := Option.map_eq_some_iff.1 h
          exact .other e (Bool.eq_false_of_not_eq_true he) (Bool.eq_false_of_not_eq_true hmain) s hs

end Process

end Gravioli
