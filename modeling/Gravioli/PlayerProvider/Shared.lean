import Gravioli.Library.Transition
import Gravioli.PlayerProvider

set_option autoImplicit false

/-! # The provider shared by threads

One thread runs `updatePlayers` again and again, any number of threads (indexed by `ρ`) call
`getPlayers`; every label is one access to shared data. The updater takes no lock: it reads the
status, clears `_updatedPlayers`, appends to it once for each player and publishes. A call of
`getPlayers` locks the mutex, tests the status and, if it saw `NEW_DATA_READY`, swaps the lists and
resets the status. What the web client answers, or that it throws, is part of the label.

The state also carries the history: the updates completed so far with the reader that was the first
to test the status after the publication, the lists installed and by whom, and the lists returned.
Nothing the code does depends on it. -/

namespace Gravioli

universe u

/-- Where the updater is. -/
inductive UpdaterPc
  /-- outside `updatePlayers` -/
  | idle
  /-- the status was `AWAIT_NEW_DATA` -/
  | checked
  /-- `_updatedPlayers` is cleared; the IDs are requested next -/
  | cleared
  /-- in the loop, with the response to `players` and the IDs still to request -/
  | fetching (players : Response) (rest : List CInt)
  deriving DecidableEq

/-- Between `clear` and the publication. -/
def UpdaterPc.collecting : UpdaterPc → Prop
  | cleared => True
  | fetching _ _ => True
  | _ => False

/-- Where a caller of `getPlayers` is. -/
inductive ReaderPc
  /-- outside `getPlayers` -/
  | outside
  /-- holding the mutex, before the test -/
  | locked
  /-- saw `NEW_DATA_READY`, before the swap -/
  | ready
  /-- after the swap, before the reset -/
  | swapped
  /-- nothing left to do but to unlock -/
  | leaving
  deriving DecidableEq, Repr

/-- Between a test that saw `NEW_DATA_READY` and the reset. -/
def ReaderPc.sawReady (pc : ReaderPc) : Prop := pc = ready ∨ pc = swapped

/-- A request for one player that was answered. -/
structure Fetch where
  id : CInt
  response : Response
  deriving DecidableEq

def Fetch.url (f : Fetch) : String := playerUrl f.id

/-- The player the answer describes. -/
def Fetch.player? (lib : JsonLib) (f : Fetch) : Option Player := playerOfResponse lib f.id f.response

/-- A completed update: the responses it got and the list it published. -/
structure Update where
  response : Response
  fetches : List Fetch
  players : List Player
  deriving DecidableEq

/-- All listed players were requested, in order, and exactly the valid ones are in the list. -/
structure Update.Complete (lib : JsonLib) (u : Update) : Prop where
  ids : u.fetches.map Fetch.id = idsOfResponse lib u.response
  players : u.players = u.fetches.filterMap (Fetch.player? lib)

/-- An update in the history, with the first reader to test the status after its publication. -/
structure Completed (ρ : Type u) extends Update where
  firstTest : Option ρ
  deriving DecidableEq

/-- Take note of a test by `r`. -/
def Completed.tested {ρ : Type u} (r : ρ) (c : Completed ρ) : Completed ρ :=
  { c with firstTest := c.firstTest <|> some r }

/-- A list that was swapped in, and by whom. -/
structure Installed (ρ : Type u) where
  players : List Player
  reader : ρ
  deriving DecidableEq

/-- A provider between its updater and the readers `ρ`. The last three fields are history: the
    completed updates, the lists swapped in, and what each call of `getPlayers` returned. -/
structure SharedProvider (ρ : Type u) where
  data : PlayerProvider
  mutex : Option ρ
  updater : UpdaterPc
  readers : ρ → ReaderPc
  /-- answers the update under way has got -/
  fetches : List Fetch
  completed : List (Completed ρ)
  installed : List (Installed ρ)
  returned : List (ρ × List Player)

namespace SharedProvider

variable {ρ : Type u} [DecidableEq ρ]

/-- A provider that nobody has used. -/
def new : SharedProvider ρ where
  data := .new
  mutex := none
  updater := .idle
  readers _ := .outside
  fetches := []
  completed := []
  installed := []
  returned := []

/-! ## The updater -/

/-- The steps of `updatePlayers`, with the answers of the web service. -/
inductive UpdaterEvent
  | check
  | clear
  | getIDs (res : Option Response)
  | getPlayer (res : Option Response)
  | publish
  deriving DecidableEq

/-- `updatePlayers`, step by step. An exception of the web client leaves it at once. -/
def stepUpdater (lib : JsonLib) (s : SharedProvider ρ) : UpdaterEvent → Option (SharedProvider ρ)
  | .check =>
      require (s.updater = .idle)
        { s with updater := if s.data.playerDataStatus ≠ .AWAIT_NEW_DATA then .idle else .checked }
  | .clear =>
      require (s.updater = .checked)
        { s with updater := .cleared, data := s.data.clearUpdated, fetches := [] }
  | .getIDs none => require (s.updater = .cleared) { s with updater := .idle }
  | .getIDs (some res) =>
      require (s.updater = .cleared) { s with updater := .fetching res (idsOfResponse lib res) }
  | .getPlayer res =>
      match s.updater with
      | .fetching players (playerID :: rest) =>
          match res with
          | none => some { s with updater := .idle }
          | some res =>
              let player := playerOfResponse lib playerID res
              some { s with
                updater := .fetching players rest
                data := { s.data with updatedPlayers := s.data.updatedPlayers ++ player.toList }
                fetches := s.fetches ++ [⟨playerID, res⟩] }
      | _ => none
  | .publish =>
      match s.updater with
      | .fetching players [] =>
          some { s with
            updater := .idle
            data := { s.data with playerDataStatus := .NEW_DATA_READY }
            completed := s.completed ++ [⟨⟨players, s.fetches, s.data.updatedPlayers⟩, none⟩] }
      | _ => none

/-! ## The readers -/

/-- The steps of `getPlayers`. -/
inductive ReaderEvent
  | lock
  | test
  | swap
  | reset
  | unlock
  deriving DecidableEq

/-- Move one reader. -/
def setReader (s : SharedProvider ρ) (r : ρ) (pc : ReaderPc) : SharedProvider ρ :=
  { s with readers := Function.update s.readers r pc }

@[simp] theorem mutex_setReader (s : SharedProvider ρ) (r : ρ) (pc : ReaderPc) :
    (s.setReader r pc).mutex = s.mutex := rfl

@[simp] theorem readers_setReader_self (s : SharedProvider ρ) (r : ρ) (pc : ReaderPc) :
    (s.setReader r pc).readers r = pc := by simp [setReader]

@[simp] theorem readers_setReader_of_ne (s : SharedProvider ρ) {r r' : ρ} (h : r' ≠ r)
    (pc : ReaderPc) :
    (s.setReader r pc).readers r' = s.readers r' := by simp [setReader, h]

/-- `getPlayers` of reader `r`, step by step. It returns a reference to `_players`, so what the
    caller gets is what `_players` holds when the mutex is released. -/
def stepReader (s : SharedProvider ρ) (r : ρ) : ReaderEvent → Option (SharedProvider ρ)
  | .lock =>
      require (s.readers r = .outside ∧ s.mutex = none)
        { s.setReader r .locked with mutex := some r }
  | .test =>
      require (s.readers r = .locked)
        { s.setReader r (if s.data.playerDataStatus = .NEW_DATA_READY then .ready else .leaving) with
          completed := s.completed.map (Completed.tested r) }
  | .swap =>
      require (s.readers r = .ready)
        { s.setReader r .swapped with
          data := { s.data with players := s.data.updatedPlayers, updatedPlayers := s.data.players }
          installed := s.installed ++ [⟨s.data.updatedPlayers, r⟩] }
  | .reset =>
      require (s.readers r = .swapped)
        { s.setReader r .leaving with data := { s.data with playerDataStatus := .AWAIT_NEW_DATA } }
  | .unlock =>
      require (s.readers r = .leaving)
        { s.setReader r .outside with mutex := none, returned := s.returned ++ [(r, s.data.players)] }

/-! ## The machine -/

/-- A label: a step of the updater, or of one reader. -/
inductive Event (ρ : Type u)
  | updater (e : UpdaterEvent)
  | reader (r : ρ) (e : ReaderEvent)
  deriving DecidableEq

/-- One step of the updater or of a reader. -/
def step (lib : JsonLib) (s : SharedProvider ρ) : Event ρ → Option (SharedProvider ρ)
  | .updater e => s.stepUpdater lib e
  | .reader r e => s.stepReader r e

/-- The provider from its construction on. -/
def machine (lib : JsonLib) : Machine (SharedProvider ρ) (Event ρ) where
  init s := s = new
  step s e := s.step lib e

end SharedProvider

end Gravioli
