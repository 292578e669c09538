import Gravioli.Message
import Gravioli.PlayerProvider.Shared

set_option autoImplicit false

/-! # Worlds

A world (`world.cpp`, `serializableWorld.cpp`) is a thread that ticks, together with the provider
thread it starts. The simulation itself (`GravioliWorld::loop`, the sizes of the serialization
buffers) only decides the bytes of the payloads, and these are left open.

Each value of `WorldPc` stands before one access to something shared: the counter, the queue, the
provider or a stop flag. The lists a world iterated over and the batches it pushed are recorded for
each tick. -/

namespace Gravioli

/-- `MAX_ALLOCATED_MSG_INSTANCES`. -/
def maxAllocatedMsgInstances : ℕ := 10

/-- The provider thread: `Runnable::run` around `PlayerProvider::loop`. -/
inductive ProviderThread
  /-- before `while (!_stopped)` -/
  | testing
  /-- inside `updatePlayers` -/
  | updating
  /-- the future is ready: with the result `true`, or with the exception of the web client -/
  | exited (threw : Bool)
  deriving DecidableEq, Repr

/-- Where the thread of a world is: `World::run`, then `~SerializableWorld`. -/
inductive WorldPc
  /-- before `while (!_stopped)` -/
  | test
  /-- in `sendWorldToMsgQueue`, before the first load of the counter -/
  | load
  /-- in the waiting loop, before the next load -/
  | waiting
  /-- inside `getPlayers` -/
  | getPlayers
  /-- before entry `i` of the `n` the iteration started with -/
  | iterate (i n : ℕ)
  /-- the batch for entry `i` is made and not pushed yet -/
  | push (i n : ℕ) (msgs : Messages)
  /-- before `playerProviderExitedSuccessfully.get()` -/
  | join
  /-- `run` returned, or threw what the provider thread threw -/
  | returned (threw : Bool)
  /-- in the destructor, before a pop into `popped` -/
  | draining (popped : Messages)
  /-- in the destructor, with the messages of `popped` still to free -/
  | freeing (popped : Messages) (rest : List MsgPair)
  | destroyed
  deriving DecidableEq

/-- Inside the destructor, or after it. -/
def WorldPc.destructing : WorldPc → Bool
  | draining _ => true
  | freeing _ _ => true
  | destroyed => true
  | _ => false

/-- `run` has returned, or has thrown. -/
def WorldPc.over : WorldPc → Bool
  | returned _ => true
  | pc => pc.destructing

/-- One call of `sendWorldToMsgQueue` that got past the waiting loop: the list `getPlayers` returned
    and the batches pushed so far. -/
structure Tick where
  players : List Player
  batches : List Messages
  deriving DecidableEq

/-- A world, its provider and the thread of the provider; `ticks` is history. -/
structure World where
  provider : SharedProvider Unit
  providerStopped : Bool
  providerThread : ProviderThread
  stopped : Bool
  pc : WorldPc
  ticks : List Tick

namespace World

/-- A world whose threads have been started. -/
def new : World where
  provider := .new
  providerStopped := false
  providerThread := .testing
  stopped := false
  pc := .test
  ticks := []

/-- The batch for a player, carrying one freshly allocated message: the `std::uint64_t` of the
    player becomes the `std::size_t` of the constructor and is cut to 32 bits there. -/
def batchFor (player : Player) (container : Ref) : Messages :=
  Messages.ofSizeT player.id [(container, .function)]

/-- On the way from the `int` through `std::uint64_t` and `std::size_t` to the 32 bits of a topic no
    bit changes. -/
theorem setWidth_signExtend (id : CInt) : (id.signExtend 64).setWidth 32 = id := by
  apply BitVec.eq_of_getLsbD_eq
  intro i hi
  have hwide : i < 64 := by omega
  rw [BitVec.getLsbD_setWidth, BitVec.getLsbD_signExtend]
  simp [hi, hwide]

/-- The topic of a player with the ID `id`. -/
theorem topicID_batchFor {id : CInt} {player : Player} (h : player.id = id.signExtend 64)
    (container : Ref) : (batchFor player container).topicID = id := by
  rw [← setWidth_signExtend id, ← h]
  rfl

/-! ## The provider thread -/

/-- The steps of the provider thread: the test of `_stopped`, and those of an update. -/
inductive ProviderEvent
  | test
  | update (e : SharedProvider.UpdaterEvent)
  deriving DecidableEq

/-- An exception of the web client leaves `updatePlayers`, `loop` and `run`. -/
def throws : SharedProvider.UpdaterEvent → Bool
  | .getIDs none => true
  | .getPlayer none => true
  | _ => false

/-- `loop` always returns true, so the thread goes on until it finds itself stopped. -/
def stepProvider (lib : JsonLib) (x : World) : ProviderEvent → Option World
  | .test =>
      require (x.providerThread = .testing)
        { x with providerThread := if x.providerStopped then .exited false else .updating }
  | .update e =>
      if x.providerThread = .updating then
        (x.provider.stepUpdater lib e).map (fun provider =>
          { x with
            provider := provider
            providerThread := if throws e then .exited true
              else if provider.updater = .idle then .testing else .updating })
      else none

/-! ## The part of the tick that is the world's own -/

/-- Steps of `getPlayers`. When it returns, the range `for` takes the bounds of the list. -/
def stepReader (x : World) (e : SharedProvider.ReaderEvent) : Option World :=
  if x.pc = .getPlayers then
    (x.provider.stepReader () e).map (fun provider =>
      if e = .unlock then
        { x with
          provider := provider
          pc := .iterate 0 provider.data.players.length
          ticks := x.ticks ++ [⟨provider.data.players, []⟩] }
      else { x with provider := provider })
  else none

/-- The batch goes on the record of the current tick. -/
def record (ticks : List Tick) (msgs : Messages) : List Tick :=
  match ticks.getLast? with
  | none => ticks
  | some tick => ticks.dropLast ++ [{ tick with batches := tick.batches ++ [msgs] }]

theorem record_concat (ticks : List Tick) (tick : Tick) (msgs : Messages) :
    record (ticks ++ [tick]) msgs = ticks ++ [{ tick with batches := tick.batches ++ [msgs] }] := by
  simp [record]

end World

end Gravioli
