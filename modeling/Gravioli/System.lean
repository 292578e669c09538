import Gravioli.Server.Wire
import Gravioli.World

set_option autoImplicit false

/-! # The composed system

What `main` puts together: worlds (indexed by `ι`) with their providers, one queue, one server
thread and the publisher socket. A label is one step of one thread; an interleaving is a sequence of
labels. What the outside decides is part of the label: the answers of the web service, the payload a
world serializes, the IV and the results of the zmq calls, and when zmq calls the free function of a
message it has accepted.

`currentlyAllocatedMsgInstances` is a `std::size_t`, so a decrement at zero wraps around. Objects
are never reused here: the `k`-th message allocated has reference `k`.

The last fields are history: the batches pushed, the batches processed, the messages whose
transmission failed, the messages whose free function was called, and every allocation. -/

namespace Gravioli

universe u

/-- The server thread: `Server::run`, then `Runnable::run` around `Server::loop`. -/
inductive ServerPc
  /-- before the test of `_connected` -/
  | entry
  /-- before `while (!_stopped)` -/
  | test
  /-- in `loop`, before a pop into `popped` -/
  | popping (popped : Messages)
  /-- in `process`, with the messages of `popped` still to send -/
  | processing (popped : Messages) (rest : List MsgPair)
  | returned (rc : Bool)
  deriving DecidableEq

/-- An allocation: who made it, for which player, in which tick of the world, how many lists had
    been installed in the world's provider by then, and the message as it was made. -/
structure Creation (ι : Type u) where
  world : ι
  player : Player
  tick : ℕ
  installs : ℕ
  message : Message
  deriving DecidableEq

/-- The state of all threads, of what they share, and the history. -/
structure System (ι : Type u) where
  worlds : ι → World
  queue : SimpleMsgQueue
  currentlyAllocatedMsgInstances : ℕ
  connected : Bool
  serverStopped : Bool
  serverPc : ServerPc
  server : ServerState
  pushed : List (ι × Messages)
  processed : List Messages
  abandoned : List Ref
  freed : List Ref
  created : List (Creation ι)

namespace System

variable {ι : Type u} [DecidableEq ι]

/-- The threads have been started; `connected` says whether `zmq_bind` succeeded. -/
def start (connected : Bool) : System ι where
  worlds _ := .new
  queue := .empty
  currentlyAllocatedMsgInstances := 0
  connected := connected
  serverStopped := false
  serverPc := .entry
  server := ServerState.start (fun _ => ⟨Vector.replicate keyBlocksize 0, []⟩)
  pushed := []
  processed := []
  abandoned := []
  freed := []
  created := []

/-- Replace one world. -/
def setWorld (s : System ι) (w : ι) (x : World) : System ι :=
  { s with worlds := Function.update s.worlds w x }

/-- `--` on a `std::size_t`. -/
def decrement (n : ℕ) : ℕ := if n = 0 then 2 ^ 64 - 1 else n - 1

theorem decrement_of_pos {n : ℕ} (h : 0 < n) : decrement n = n - 1 := if_neg (Nat.pos_iff_ne_zero.1 h)

/-- `customFree`: count down and delete the message. -/
def customFree (s : System ι) (hint : Ref) : System ι :=
  { s with
    currentlyAllocatedMsgInstances := decrement s.currentlyAllocatedMsgInstances
    freed := s.freed ++ [hint] }

/-! ## Steps of a world -/

/-- The steps of a world: of its thread, of its call of `getPlayers`, and of its destructor. -/
inductive WorldEvent
  | test
  | load
  | reader (e : SharedProvider.ReaderEvent)
  | alloc (payload : List Byte)
  | push
  | endTick
  | join
  | destroy
  | pop
  | free
  deriving DecidableEq

/-- `allocNewMsg` and the batch around the new message. -/
def allocNewMsg (s : System ι) (w : ι) (i n : ℕ) (player : Player) (payload : List Byte) : System ι :=
  let container := s.created.length
  let message : Message := ⟨player.key, payload⟩
  { s with
    worlds := Function.update s.worlds w
      { s.worlds w with pc := .push i n (World.batchFor player container) }
    currentlyAllocatedMsgInstances := s.currentlyAllocatedMsgInstances + 1
    server := { s.server with heap := Function.update s.server.heap container message }
    created := s.created ++
      [⟨w, player, (s.worlds w).ticks.length - 1, (s.worlds w).provider.installed.length, message⟩] }

/-- One step of world `w`. -/
def stepWorld (s : System ι) (w : ι) : WorldEvent → Option (System ι)
  | .test =>
      require ((s.worlds w).pc = .test)
        (s.setWorld w { s.worlds w with pc := if (s.worlds w).stopped then .join else .load })
  | .load =>
      require ((s.worlds w).pc = .load ∨ (s.worlds w).pc = .waiting)
        (s.setWorld w { s.worlds w with
          pc := if maxAllocatedMsgInstances < s.currentlyAllocatedMsgInstances then .waiting
            else .getPlayers })
  | .reader e => ((s.worlds w).stepReader e).map (s.setWorld w)
  | .alloc payload =>
      match (s.worlds w).pc with
      | .iterate i n =>
          if i < n then
            ((s.worlds w).provider.data.players[i]?).map (fun player =>
              s.allocNewMsg w i n player payload)
          else none
      | _ => none
  | .push =>
      match (s.worlds w).pc with
      | .push i n msgs =>
          some { s with
            worlds := Function.update s.worlds w { s.worlds w with
              pc := .iterate (i + 1) n
              ticks := World.record (s.worlds w).ticks msgs }
            queue := s.queue.push msgs
            pushed := s.pushed ++ [(w, msgs)] }
      | _ => none
  | .endTick =>
      match (s.worlds w).pc with
      | .iterate i n => require (¬ i < n) (s.setWorld w { s.worlds w with pc := .test })
      | _ => none
  | .join =>
      match (s.worlds w).pc, (s.worlds w).providerThread with
      | .join, .exited threw => some (s.setWorld w { s.worlds w with pc := .returned threw })
      | _, _ => none
  | .destroy =>
      match (s.worlds w).pc with
      | .returned _ => some (s.setWorld w { s.worlds w with pc := .draining .empty })
      | _ => none
  | .pop =>
      match (s.worlds w).pc with
      | .draining popped =>
          match s.queue.pop popped with
          | (true, queue, popped) =>
              some { s.setWorld w { s.worlds w with pc := .freeing popped popped.msgs } with
                queue := queue }
          | (false, queue, _) =>
              some { s.setWorld w { s.worlds w with pc := .destroyed } with queue := queue }
      | _ => none
  | .free =>
      match (s.worlds w).pc with
      | .freeing popped (msg :: rest) =>
          let s' := s.setWorld w { s.worlds w with pc := .freeing popped rest }
          some (if msg.2 ≠ .nullptr then s'.customFree msg.1 else s')
      | .freeing popped [] => some (s.setWorld w { s.worlds w with pc := .draining popped })
      | _ => none

/-! ## Steps of the server -/

/-- The steps of the server thread. -/
inductive ServerEvent
  | enter
  | test
  | pop
  | send (env : SendEnv)
  | finish

/-- What is lost when a message was not handed over. -/
def notHandedOver (env : SendEnv) (msg : MsgPair) : List Ref :=
  if msg.2 = .function ∧ ¬ (env.ivCalls.ok && env.data.ok) then [msg.1] else []

/-- One step of the server thread. -/
def stepServer (aes : BlockCipher) (s : System ι) : ServerEvent → Option (System ι)
  | .enter =>
      require (s.serverPc = .entry)
        { s with serverPc := if s.connected then .test else .returned false }
  | .test =>
      require (s.serverPc = .test)
        { s with serverPc := if s.serverStopped then .returned true else .popping .empty }
  | .pop =>
      match s.serverPc with
      | .popping popped =>
          match s.queue.pop popped with
          | (true, queue, popped) =>
              some { s with queue := queue, serverPc := .processing popped popped.msgs }
          | (false, queue, _) => some { s with queue := queue, serverPc := .test }
      | _ => none
  | .send env =>
      match s.serverPc with
      | .processing popped (msg :: rest) =>
          some { s with
            serverPc := .processing popped rest
            server := processMsg aes env s.server popped.topicID msg
            abandoned := s.abandoned ++ notHandedOver env msg }
      | _ => none
  | .finish =>
      match s.serverPc with
      | .processing popped [] =>
          some { s with serverPc := .popping popped, processed := s.processed ++ [popped] }
      | _ => none

/-! ## The machine -/

/-- A label: which thread makes a step, and which one. -/
inductive Event (ι : Type u)
  /-- the first half of `World::stop` -/
  | stopProvider (w : ι)
  /-- the second half -/
  | stop (w : ι)
  /-- `Server::stop` -/
  | stopServer
  | provider (w : ι) (e : World.ProviderEvent)
  | world (w : ι) (e : WorldEvent)
  | server (e : ServerEvent)
  /-- zmq calls the free function of a message it owns -/
  | release (r : Ref)

/-- One step of the system. -/
def step (lib : JsonLib) (aes : BlockCipher) (s : System ι) : Event ι → Option (System ι)
  | .stopProvider w => some (s.setWorld w { s.worlds w with providerStopped := true })
  | .stop w =>
      require ((s.worlds w).providerStopped) (s.setWorld w { s.worlds w with stopped := true })
  | .stopServer => some { s with serverStopped := true }
  | .provider w e => ((s.worlds w).stepProvider lib e).map (s.setWorld w)
  | .world w e => s.stepWorld w e
  | .server e => s.stepServer aes e
  | .release r =>
      require (r ∈ s.server.publisher.held)
        ({ s with
          server := { s.server with
            publisher := { s.server.publisher with held := s.server.publisher.held.erase r } }
        }.customFree r)

/-- The system, started with or without a bound socket. -/
def machine (lib : JsonLib) (aes : BlockCipher) : Machine (System ι) (Event ι) where
  init s := ∃ connected, s = start connected
  step s e := s.step lib aes e

/-- No zmq call made by the step fails. -/
def Event.callsOk : Event ι → Bool
  | .server (.send env) => env.allOk
  | _ => true

/-- No zmq call fails. -/
def zmqOk (_ : System ι) (e : Event ι) : Prop := e.callsOk

instance (s : System ι) (e : Event ι) : Decidable (zmqOk s e) :=
  inferInstanceAs (Decidable (e.callsOk = true))

/-- The destructor of a world starts. -/
def Event.isDestroy : Event ι → Bool
  | .world _ .destroy => true
  | _ => false

/-! ## Schedules

Stretches of an interleaving in which one thread is not interrupted. -/

/-- One update against a web service. -/
def refreshEvents (lib : JsonLib) (web : WebClient) (w : ι) : List (Event ι) :=
  let ids := ((getPlayerIDs lib web).getD []).map (fun id => web (playerUrl id))
  let updates := [.check, .clear, .getIDs (web "players")] ++ ids.map .getPlayer ++ [.publish]
  .provider w .test :: updates.map (fun e => .provider w (.update e))

/-- One tick with a message for each payload; `install` says whether a new list is waiting. -/
def tickEvents (w : ι) (install : Bool) (payloads : List (List Byte)) : List (Event ι) :=
  let getPlayers : List WorldEvent :=
    if install then [.reader .lock, .reader .test, .reader .swap, .reader .reset, .reader .unlock]
    else [.reader .lock, .reader .test, .reader .unlock]
  let pushes : List WorldEvent := payloads.flatMap (fun payload => [.alloc payload, .push])
  (WorldEvent.test :: .load :: getPlayers ++ pushes ++ [WorldEvent.endTick]).map (.world w)

/-- A batch of `n` messages is popped and sent. -/
def batchEvents (env : ℕ → SendEnv) (n : ℕ) : List (Event ι) :=
  [.server .pop] ++ (List.range n).map (fun k => .server (.send (env k))) ++ [.server .finish]

/-- `World::stop`. -/
def stopEvents (w : ι) : List (Event ι) := [.stopProvider w, .stop w]

end System

end Gravioli
