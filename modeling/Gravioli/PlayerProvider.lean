import Gravioli.Json

set_option autoImplicit false

/-! # The player provider

`playerProvider.cpp`. The web client is a function from URLs to responses that may also throw
(`none`). Whatever goes wrong with a response that did arrive is caught and folded into an ordinary
result: no IDs at all, or no player for one ID.

`updatePlayers` and `getPlayers` are given here as whole calls; their interleaving is the subject of
`PlayerProvider.Handoff`. -/

namespace Gravioli

/-- `WebClient::Response`. -/
structure Response where
  content : String
  statusCode : ℤ
  deriving DecidableEq

/-- `WebClient::get`; `none` when it throws. -/
abbrev WebClient := String → Option Response

structure Player where
  id : BitVec 64
  key : Key
  deriving DecidableEq

/-! ## Reading responses -/

/-- The loop over the elements of `IDs`. An exception would end it with the IDs read so far. -/
def pushIDs (lib : JsonLib) : List Json → List CInt
  | [] => []
  | id :: rest =>
      if id.isNumber then
        match id.getInt lib with
        | .ok i => i :: pushIDs lib rest
        | .error _ => []
      else pushIDs lib rest

/-- `getPlayerIDs` once the response is there: every failure is logged and gives the empty list. -/
def idsOfResponse (lib : JsonLib) (res : Response) : List CInt :=
  if res.statusCode ≠ 200 then []
  else
    match lib.parse res.content with
    | .error _ => []
    | .ok j =>
        match j.index "IDs" with
        | .error _ => []
        | .ok (.array jsonIDs) => pushIDs lib jsonIDs
        | .ok _ => []

/-- `getPlayerIDs`; `none` is an exception of the web client. -/
def getPlayerIDs (lib : JsonLib) (web : WebClient) : Option (List CInt) :=
  (web "players").map (idsOfResponse lib)

/-- One element of a key: `get<int>()` and the range check. -/
def keyByte (lib : JsonLib) (j : Json) : Option Byte :=
  match j.getInt lib with
  | .ok b => if 0 ≤ b.toInt ∧ b.toInt ≤ 255 then some (b.setWidth 8) else none
  | .error _ => none

/-- The bytes as a key, if there are as many as a key has. -/
def toKey (bytes : List Byte) : Option Key :=
  if h : bytes.length = keyBlocksize then some ⟨bytes.toArray, by simpa⟩ else none

/-- `getPlayerById` once the response is there. The `int` becomes the `std::uint64_t` of the
    player. -/
def playerOfResponse (lib : JsonLib) (id : CInt) (res : Response) : Option Player :=
  if res.statusCode ≠ 200 ∨ res.content = "" then none
  else
    match lib.parse res.content with
    | .error _ => none
    | .ok j =>
        match j.index "key" with
        | .error _ => none
        | .ok (.array jsonKey) =>
            if jsonKey.length = keyBlocksize then
              ((jsonKey.mapM (keyByte lib)).bind toKey).map (Player.mk (id.signExtend 64))
            else none
        | .ok _ => none

/-- The only way to a player. -/
theorem playerOfResponse_cases {lib : JsonLib} {id : CInt} {res : Response} {player : Player}
    (h : playerOfResponse lib id res = some player) :
    res.statusCode = 200 ∧ player.id = id.signExtend 64 ∧
      ∃ j jsonKey bytes, lib.parse res.content = .ok j ∧ j.index "key" = .ok (.array jsonKey) ∧
        jsonKey.mapM (keyByte lib) = some bytes ∧ toKey bytes = some player.key := by
  unfold playerOfResponse at h
  split at h
  · exact absurd h (by simp)
  · next hbody =>
      have hstatus : res.statusCode = 200 := by simpa using fun hne => hbody (Or.inl hne)
      split at h
      · exact absurd h (by simp)
      · next j hparse =>
          split at h
          · exact absurd h (by simp)
          · next jsonKey hindex =>
              split at h
              · obtain ⟨key, hread, rfl⟩ := Option.map_eq_some_iff.1 h
                obtain ⟨bytes, hbytes, hkey⟩ := Option.bind_eq_some_iff.1 hread
                exact ⟨hstatus, rfl, j, jsonKey, bytes, hparse, hindex, hbytes, hkey⟩
              · exact absurd h (by simp)
          · exact absurd h (by simp)

/-- A player only comes out of a response with status 200, and has the ID that was asked for. -/
theorem playerOfResponse_eq_some {lib : JsonLib} {id : CInt} {res : Response} {player : Player}
    (h : playerOfResponse lib id res = some player) :
    res.statusCode = 200 ∧ player.id = id.signExtend 64 := by
  obtain ⟨hstatus, hid, -⟩ := playerOfResponse_cases h
  exact ⟨hstatus, hid⟩

def playerUrl (id : CInt) : String := "player/" ++ toString id.toInt

/-- `getPlayerById`: the inner `none` is a `nullopt`, the outer one an exception of the web client. -/
def getPlayerById (lib : JsonLib) (web : WebClient) (id : CInt) : Option (Option Player) :=
  (web (playerUrl id)).map (playerOfResponse lib id)

theorem join_getPlayerById_eq_some {lib : JsonLib} {web : WebClient} {id : CInt} {player : Player}
    (h : (getPlayerById lib web id).join = some player) :
    ∃ answer, web (playerUrl id) = some answer ∧ playerOfResponse lib id answer = some player := by
  unfold getPlayerById at h
  cases hanswer : web (playerUrl id) with
  | none => simp [hanswer] at h
  | some answer => exact ⟨answer, rfl, by simpa [hanswer] using h⟩

/-! ## The provider -/

inductive BinaryPlayerDataStatus
  | AWAIT_NEW_DATA
  | NEW_DATA_READY
  deriving DecidableEq, Repr

/-- The fields of `PlayerProvider`: the status and the two lists that are swapped. -/
structure PlayerProvider where
  playerDataStatus : BinaryPlayerDataStatus
  players : List Player
  updatedPlayers : List Player
  deriving DecidableEq

namespace PlayerProvider

/-- The constructor. -/
def new : PlayerProvider := ⟨.AWAIT_NEW_DATA, [], []⟩

/-- The loop of `updatePlayers`: whether it ran to its end, and the players collected. -/
def collectPlayers (lib : JsonLib) (web : WebClient) : List CInt → List Player → Bool × List Player
  | [], updatedPlayers => (true, updatedPlayers)
  | playerID :: rest, updatedPlayers =>
      match getPlayerById lib web playerID with
      | none => (false, updatedPlayers)
      | some player => collectPlayers lib web rest (updatedPlayers ++ player.toList)

/-- The loop reaches its end when every request returns. -/
theorem collectPlayers_fst (lib : JsonLib) (web : WebClient) (ids : List CInt)
    (updatedPlayers : List Player) :
    (collectPlayers lib web ids updatedPlayers).1
      = ids.all (fun id => (web (playerUrl id)).isSome) := by
  induction ids generalizing updatedPlayers with
  | nil => rfl
  | cons id ids ih =>
      simp only [collectPlayers, getPlayerById, List.all_cons]
      cases web (playerUrl id) with
      | none => rfl
      | some res => simpa using ih _

/-- A loop that reaches its end has appended, in order, the players that were found. -/
theorem collectPlayers_snd (lib : JsonLib) (web : WebClient) (ids : List CInt)
    (updatedPlayers : List Player) (h : (collectPlayers lib web ids updatedPlayers).1) :
    (collectPlayers lib web ids updatedPlayers).2
      = updatedPlayers ++ ids.filterMap (fun id => (getPlayerById lib web id).join) := by
  induction ids generalizing updatedPlayers with
  | nil => simp [collectPlayers]
  | cons id ids ih =>
      unfold collectPlayers at h ⊢
      cases hplayer : getPlayerById lib web id with
      | none => simp [hplayer] at h
      | some player =>
          simp only [hplayer] at h ⊢
          rw [ih _ h, List.append_assoc]
          cases player <;> simp [hplayer]

/-- `_updatedPlayers.clear()`. -/
def clearUpdated (p : PlayerProvider) : PlayerProvider := { p with updatedPlayers := [] }

/-- The end of `updatePlayers`, after the loop or after the exception that ended it. -/
def finishUpdate (p : PlayerProvider) (collected : Bool × List Player) : Bool × PlayerProvider :=
  if collected.1 then (true, ⟨.NEW_DATA_READY, p.players, collected.2⟩)
  else (false, { p with updatedPlayers := collected.2 })

/-- `updatePlayers` from the request for the IDs on: whether it returned (an exception of the web
    client passes through it), and the provider afterwards. -/
def fetchAndPublish (lib : JsonLib) (web : WebClient) (p : PlayerProvider) : Bool × PlayerProvider :=
  match getPlayerIDs lib web with
  | none => (false, p)
  | some playerIDs => p.finishUpdate (collectPlayers lib web playerIDs p.updatedPlayers)

/-- `updatePlayers` without interruption. It does nothing until the last update has been fetched. -/
def updatePlayers (lib : JsonLib) (web : WebClient) (p : PlayerProvider) : Bool × PlayerProvider :=
  if p.playerDataStatus ≠ .AWAIT_NEW_DATA then (true, p)
  else fetchAndPublish lib web p.clearUpdated

/-- An update that returns has published the players found for the IDs listed. -/
theorem eq_of_updatePlayers {lib : JsonLib} {web : WebClient} {p p' : PlayerProvider}
    {res : Response} (hawait : p.playerDataStatus = .AWAIT_NEW_DATA) (hres : web "players" = some res)
    (h : updatePlayers lib web p = (true, p')) :
    p' = ⟨.NEW_DATA_READY, p.players,
      (idsOfResponse lib res).filterMap (fun id => (getPlayerById lib web id).join)⟩ := by
  simp only [updatePlayers, hawait, ne_eq, not_true_eq_false, if_false, fetchAndPublish,
    getPlayerIDs, hres, Option.map_some, finishUpdate] at h
  split at h
  · next hend =>
      obtain ⟨-, rfl⟩ := Prod.mk.inj h
      rw [collectPlayers_snd lib web _ _ hend]
      rfl
  · exact absurd h (by simp)

/-- `getPlayers`: the list returned and the provider afterwards. -/
def getPlayers (p : PlayerProvider) : List Player × PlayerProvider :=
  let p' := if p.playerDataStatus = .NEW_DATA_READY then
      ⟨.AWAIT_NEW_DATA, p.updatedPlayers, p.players⟩ else p
  (p'.players, p')

end PlayerProvider

end Gravioli
