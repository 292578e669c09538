import Gravioli.PlayerProvider.Documents

set_option autoImplicit false

/-! # A failed refresh

What callers of `getPlayers` see of an update whose request for `players` fails. `getPlayerIDs`
turns every such failure into an empty list of IDs, and `updatePlayers` publishes an empty list like
any other. The next caller loses all players; and until there is one, the empty list keeps all other
updates from making their requests, so that the failure is noticed even by a provider that knows no
players yet (`refreshUnnoticed_iff`).

Two runs are compared, with and without the failed update. Each is a sequence of calls; `getPlayers`
holds the mutex from its test to its reset and only meets the updater in the status flag, so one
call is one step, and calls that fall between the clearing and the publication of the failed update
are counted separately. -/

namespace Gravioli

/-- The responses to `players` that `getPlayerIDs` logs as an error: a wrong status, a text that is
    not JSON, or an `IDs` member that is missing or not an array. -/
def playersRejected (lib : JsonLib) (res : Response) : Bool :=
  if res.statusCode ≠ 200 then true
  else
    match lib.parse res.content with
    | .error _ => true
    | .ok j =>
        match j.index "IDs" with
        | .error _ => true
        | .ok (.array _) => false
        | .ok _ => true

/-- A rejected response is an empty list of IDs. -/
theorem idsOfResponse_of_rejected (lib : JsonLib) (res : Response) (h : playersRejected lib res) :
    idsOfResponse lib res = [] := by
  unfold playersRejected at h
  unfold idsOfResponse
  split
  · rfl
  · next hstatus =>
      rw [if_neg hstatus] at h
      cases hparse : lib.parse res.content with
      | error e => rfl
      | ok j =>
          simp only [hparse] at h ⊢
          cases hindex : j.index "IDs" with
          | error e => rfl
          | ok m =>
              simp only [hindex] at h ⊢
              cases m <;> first | rfl | exact absurd h (by simp)

namespace PlayerProvider

variable (lib : JsonLib)

/-- A web service whose answer to `players` is an error. -/
def RequestFails (web : WebClient) : Prop := ∃ res, web "players" = some res ∧ playersRejected lib res

/-- A web service with which an update fetches a list: the request for `players` succeeds and no
    request for a player throws. -/
def RequestSucceeds (web : WebClient) : Prop :=
  ∃ res, web "players" = some res ∧ ¬ playersRejected lib res ∧
    ∀ id ∈ idsOfResponse lib res, (web (playerUrl id)).isSome

/-! ## Calls -/

/-- A call of one of the two methods, an update together with the web service that answers it. -/
inductive Call
  | getPlayers
  | updatePlayers (web : WebClient)

/-- One call: the list it returns, if it is a `getPlayers`, and the provider afterwards. -/
def serve (p : PlayerProvider) : Call → Option (List Player) × PlayerProvider
  | .getPlayers => (some p.getPlayers.1, p.getPlayers.2)
  | .updatePlayers web => (none, (p.updatePlayers lib web).2)

/-- The lists returned in a sequence of calls. -/
def returned : PlayerProvider → List Call → List (List Player)
  | _, [] => []
  | p, c :: calls => (p.serve lib c).1.toList ++ returned (p.serve lib c).2 calls

/-- The provider after a sequence of calls. -/
def after : PlayerProvider → List Call → PlayerProvider
  | p, [] => p
  | p, c :: calls => after (p.serve lib c).2 calls

theorem returned_append (calls calls' : List Call) (p : PlayerProvider) :
    returned lib p (calls ++ calls')
      = returned lib p calls ++ returned lib (after lib p calls) calls' := by
  induction calls generalizing p with
  | nil => rfl
  | cons c calls ih => simp [returned, after, ih]

/-- The call is an update that fetches a list: it does not find published data waiting, its request
    succeeds, and it runs to its end. -/
def Fetches (p : PlayerProvider) : Call → Prop
  | .getPlayers => False
  | .updatePlayers web => p.playerDataStatus = .AWAIT_NEW_DATA ∧ RequestSucceeds lib web

/-- None of the calls fetches a list. -/
def Unrefreshed : PlayerProvider → List Call → Prop
  | _, [] => True
  | p, c :: calls => ¬ Fetches lib p c ∧ Unrefreshed (p.serve lib c).2 calls

/-! ## With the failed update, and without it -/

/-- Calls of `getPlayers` that may fall between the clearing and the publication of an update. -/
def gets (during : ℕ) : List Call := List.replicate during .getPlayers

/-- An update with `during` calls while it runs: the lists these calls return, and the provider when
    the update has ended. One that finds published data waiting has ended before all of them. -/
def updateDuring (web : WebClient) (during : ℕ) (p : PlayerProvider) :
    List (List Player) × PlayerProvider :=
  if p.playerDataStatus ≠ .AWAIT_NEW_DATA then
    (returned lib p (gets during), after lib p (gets during))
  else
    (returned lib p.clearUpdated (gets during),
      (fetchAndPublish lib web (after lib p.clearUpdated (gets during))).2)

/-- The list is left as it was: all calls, until an update fetches a list, return what they would have
    returned without the update. -/
def RefreshUnnoticed (web : WebClient) (p : PlayerProvider) : Prop :=
  ∀ during calls, Unrefreshed lib (updateDuring lib web during p).2 calls →
    (updateDuring lib web during p).1 ++ returned lib (updateDuring lib web during p).2 calls
      = returned lib p (gets during ++ calls)

variable {lib}

/-- A failed update publishes an empty list. -/
theorem updateDuring_of_fails {web : WebClient} (hfail : RequestFails lib web) {p : PlayerProvider}
    (hawait : p.playerDataStatus = .AWAIT_NEW_DATA) :
    updateDuring lib web 0 p = ([], ⟨.NEW_DATA_READY, p.players, []⟩) := by
  obtain ⟨res, hres, hrejected⟩ := hfail
  simp [updateDuring, hawait, gets, returned, after, fetchAndPublish, getPlayerIDs, hres,
    idsOfResponse_of_rejected lib res hrejected, collectPlayers, finishUpdate, clearUpdated]

/-- A failed update is noticed as soon as there is a roster to fetch: the next update finds the empty
    list waiting and makes no request, and the next caller gets the empty list. -/
theorem noticed_of_answers {web : WebClient} (hfail : RequestFails lib web) {web' : WebClient}
    {roster : Roster} (hanswers : Answers lib web' roster) (hroster : roster ≠ []) {p : PlayerProvider}
    (hawait : p.playerDataStatus = .AWAIT_NEW_DATA) : ¬ RefreshUnnoticed lib web p := by
  intro hunnoticed
  have hcalls := hunnoticed 0 [.updatePlayers web', .getPlayers]
  rw [updateDuring_of_fails hfail hawait] at hcalls
  have hblocked : Unrefreshed lib ⟨.NEW_DATA_READY, p.players, []⟩ [.updatePlayers web', .getPlayers] :=
    ⟨fun hfetches => absurd hfetches.1 (by simp), id, trivial⟩
  have hwithout : returned lib p [.updatePlayers web', .getPlayers] = [roster.players] := by
    simp [returned, serve, hanswers.updatePlayers p hawait, getPlayers]
  have hlost := hcalls hblocked
  rw [gets, List.replicate_zero, List.nil_append, List.nil_append, hwithout] at hlost
  have hplayers : roster.players = [] := by
    simpa [returned, serve, updatePlayers, getPlayers] using hlost.symm
  exact hroster (List.map_eq_nil_iff.1 hplayers)

/-! ## When the list survives -/

/-- **A failed refresh, exactly.** The callers do not notice an update against a failing web service if
    and only if the update makes no request at all, because published data are waiting: a request that
    fails is never unnoticed. -/
theorem refreshUnnoticed_iff {toDouble : ℤ → ℤ → Option Double} {castOutOfRange : Double → CInt}
    {web : WebClient} (hfail : RequestFails (nlohmann toDouble castOutOfRange) web)
    (p : PlayerProvider) :
    RefreshUnnoticed (nlohmann toDouble castOutOfRange) web p
      ↔ p.playerDataStatus = .NEW_DATA_READY := by
  cases hstatus : p.playerDataStatus with
  | NEW_DATA_READY =>
      refine iff_of_true (fun during calls hcalls => ?_) rfl
      simp [updateDuring, hstatus, returned_append]
  | AWAIT_NEW_DATA =>
      have hanswers : Answers (nlohmann toDouble castOutOfRange) GravioliWebClient.get
          GravioliWebClient.roster := (GravioliWebClient.serves toDouble).answers
      exact iff_of_false (noticed_of_answers hfail hanswers (by simp [GravioliWebClient.roster]) hstatus)
        (by simp)

/-- One update of the repository's own players is installed; then the web service fails once. -/
theorem refreshUnnoticed_fails :
    ¬ RefreshUnnoticed plainLib (fun _ => some ⟨"", 500⟩)
      (after plainLib new [.updatePlayers GravioliWebClient.get, .getPlayers]) := by
  intro h
  have hget := h 0 [.getPlayers] ⟨id, trivial⟩
  revert hget
  decide +kernel

/-- Even the provider that has just been constructed loses players to a failed refresh: those of the
    next one. -/
theorem not_refreshUnnoticed_new : ¬ RefreshUnnoticed plainLib (fun _ => some ⟨"", 500⟩) new :=
  (refreshUnnoticed_iff ⟨⟨"", 500⟩, rfl, rfl⟩ new).not.2 (by decide)

end PlayerProvider

end Gravioli
