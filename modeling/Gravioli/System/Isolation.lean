import Gravioli.System.Pipeline

set_option autoImplicit false

/-! # One player's record and the others

Two runs are compared whose web services agree on the list of IDs and on all players but `x`, whose
record may be anything in either of them. Every way in which it can be wrong ends in `getPlayerById`
with no player, so the loop of `updatePlayers` goes on as if `x` had not been listed: `others_found`
compares the loops iteration by iteration, and `labels_of_past` carries the result from the list
published to the batches of the ticks that use it. -/

namespace Gravioli

universe u

/-! ## URLs -/

/-- The digits of a number say which it is. -/
theorem eq_of_toDigits {m n : ℕ} (h : Nat.toDigits 10 m = Nat.toDigits 10 n) : m = n := by
  rw [← Nat.ofDigitChars_ten_toDigits (n := m), h, Nat.ofDigitChars_ten_toDigits]

/-- A minus sign is no digit. -/
theorem toDigits_ne_minus (m : ℕ) (ds : List Char) : Nat.toDigits 10 m ≠ '-' :: ds := by
  intro h
  have hdigit : '-'.isDigit := Nat.isDigit_of_mem_toDigits (b := 10) (n := m) (by decide) (by decide)
    (by simp [h])
  exact absurd hdigit (by decide)

theorem toList_ofNat (m : ℕ) : (toString (Int.ofNat m)).toList = Nat.toDigits 10 m := by
  simp [Int.toString_eq_repr, Int.repr, Nat.repr_eq_ofList_toDigits]

theorem toList_negSucc (m : ℕ) : (toString (Int.negSucc m)).toList = '-' :: Nat.toDigits 10 (m + 1) := by
  simp [Int.toString_eq_repr, Int.repr, Nat.repr_eq_ofList_toDigits]

/-- Different IDs have different URLs. -/
theorem playerUrl_injective {i j : CInt} (h : playerUrl i = playerUrl j) : i = j := by
  have hlist : (toString i.toInt).toList = (toString j.toInt).toList := by
    simpa only [playerUrl, String.toList_append, List.append_cancel_left_eq] using
      congrArg String.toList h
  apply BitVec.eq_of_toInt_eq
  cases hi : i.toInt with
  | ofNat m =>
      rw [hi, toList_ofNat] at hlist
      cases hj : j.toInt with
      | ofNat n =>
          rw [hj, toList_ofNat] at hlist
          rw [eq_of_toDigits hlist]
      | negSucc n =>
          rw [hj, toList_negSucc] at hlist
          exact absurd hlist (toDigits_ne_minus m _)
  | negSucc m =>
      rw [hi, toList_negSucc] at hlist
      cases hj : j.toInt with
      | ofNat n =>
          rw [hj, toList_ofNat] at hlist
          exact absurd hlist.symm (toDigits_ne_minus n _)
      | negSucc n =>
          rw [hj, toList_negSucc, List.cons.injEq] at hlist
          rw [Nat.succ.inj (eq_of_toDigits hlist.2)]

/-! ## Two web services -/

/-- The entries of a list that are not player `x`. -/
def others (x : CInt) (players : List Player) : List Player :=
  players.filter (fun player => player.id ≠ x.signExtend 64)

theorem signExtend_injective {i j : CInt} (h : i.signExtend 64 = j.signExtend 64) : i = j := by
  rw [← World.setWidth_signExtend i, h, World.setWidth_signExtend]

/-- Whatever comes out of a request for `x` is player `x`. -/
theorem others_self (lib : JsonLib) (web : WebClient) (x : CInt) :
    others x (getPlayerById lib web x).join.toList = [] := by
  cases hfound : (getPlayerById lib web x).join with
  | none => rfl
  | some player =>
      obtain ⟨answer, -, hread⟩ := join_getPlayerById_eq_some hfound
      simp [others, (playerOfResponse_eq_some hread).2]

/-- The step of the comparison is one iteration of the loop: the same request, or one for `x`. -/
theorem others_found (lib : JsonLib) {web web' : WebClient} {x : CInt}
    (hothers : ∀ i, i ≠ x → web (playerUrl i) = web' (playerUrl i)) (ids : List CInt) :
    others x (ids.filterMap (fun id => (getPlayerById lib web id).join))
      = others x (ids.filterMap (fun id => (getPlayerById lib web' id).join)) := by
  have hcons : ∀ (f : CInt → Option Player) id ids,
      (id :: ids).filterMap f = (f id).toList ++ ids.filterMap f := by
    intro f id ids
    cases hf : f id <;> simp [hf]
  have happend : ∀ xs ys, others x (xs ++ ys) = others x xs ++ others x ys := by
    intro xs ys
    exact List.filter_append xs ys
  induction ids with
  | nil => rfl
  | cons id ids ih =>
      rw [hcons, hcons, happend, happend, ih]
      by_cases hid : id = x
      · rw [hid, others_self, others_self]
      · have hsame : getPlayerById lib web id = getPlayerById lib web' id := by
          unfold getPlayerById
          rw [hothers id hid]
        rw [hsame]

namespace PlayerProvider

theorem updatePlayers_fst {lib : JsonLib} {web : WebClient} (hserve : ∀ url, (web url).isSome)
    (p : PlayerProvider) : (p.updatePlayers lib web).1 := by
  unfold updatePlayers
  split
  · rfl
  · obtain ⟨res, hres⟩ := Option.isSome_iff_exists.1 (hserve "players")
    have hend : (collectPlayers lib web (idsOfResponse lib res) []).1 := by
      rw [collectPlayers_fst]
      exact List.all_eq_true.2 (fun id _ => hserve (playerUrl id))
    simp [fetchAndPublish, getPlayerIDs, hres, finishUpdate, clearUpdated, hend]

/-- What an update that gets all its answers publishes, for callers to get next. -/
theorem getPlayers_updatePlayers (lib : JsonLib) {web : WebClient} {p : PlayerProvider}
    (hserve : ∀ url, (web url).isSome) (hawait : p.playerDataStatus = .AWAIT_NEW_DATA)
    {res : Response} (hres : web "players" = some res) :
    (p.updatePlayers lib web).2.updatedPlayers
        = (idsOfResponse lib res).filterMap (fun id => (getPlayerById lib web id).join) ∧
      (p.updatePlayers lib web).2.getPlayers.1 = (p.updatePlayers lib web).2.updatedPlayers := by
  have hreturned : p.updatePlayers lib web = (true, (p.updatePlayers lib web).2) :=
    Prod.ext (updatePlayers_fst hserve p) rfl
  rw [eq_of_updatePlayers hawait hres hreturned]
  exact ⟨rfl, rfl⟩

end PlayerProvider

namespace System

variable {ι : Type u}

/-- The topics and keys of some batches, in order. -/
def labels (s : System ι) (batches : List Messages) : List (BitVec 32 × Option Key) :=
  batches.flatMap (fun b =>
    b.msgs.map (fun msg => (b.topicID, (s.created[msg.1]?).map (·.message.key))))

/-- The topic and the key of a player. -/
def labelOf (player : Player) : BitVec 32 × Option Key := (player.id.setWidth 32, some player.key)

theorem labels_of_entries {s : System ι} {w : ι} {players : List Player} {batches : List Messages}
    (h : List.Forall₂ (EntryBatch s w) players batches) :
    s.labels batches = players.map labelOf := by
  induction h with
  | nil => rfl
  | cons hentry _ ih =>
      obtain ⟨r, c, rfl, hc, -, -, hkey⟩ := hentry
      rw [List.map_cons, ← ih]
      simp [labels, World.batchFor, Messages.ofSizeT, labelOf, hc, hkey]

variable [DecidableEq ι] {lib : JsonLib} {aes : BlockCipher} {s : System ι}
  {ok : System ι → Event ι → Prop}

/-- A tick that is over has pushed the topic and the key of each entry of its list. -/
theorem labels_of_past (h : (machine lib aes).Reach ok s) {w : ι} {t : Tick}
    (ht : t ∈ (s.worlds w).pastTicks) : s.labels t.batches = t.players.map labelOf := by
  have hmem : t ∈ (s.worlds w).ticks := by
    unfold World.pastTicks at ht
    split at ht
    · exact ht
    · exact List.dropLast_subset _ ht
  have hentries := (recorded_of_reach h).entries w t hmem
  rw [(ticking_of_reach h w).past t ht, List.take_length] at hentries
  exact labels_of_entries hentries

/-- Leaving out the topic of player `x` leaves out player `x`. -/
theorem filter_map_labelOf {x : CInt} {players : List Player}
    (hids : ∀ player ∈ players, ∃ i : CInt, player.id = i.signExtend 64) :
    (players.map labelOf).filter (fun l => l.1 ≠ x) = (others x players).map labelOf := by
  rw [List.filter_map]
  unfold others
  congr 1
  refine List.filter_congr ?_
  intro player hplayer
  obtain ⟨i, hi⟩ := hids player hplayer
  have hiff : player.id.setWidth 32 = x ↔ player.id = x.signExtend 64 := by
    rw [hi, World.setWidth_signExtend]
    constructor
    · rintro rfl
      rfl
    · exact signExtend_injective
  simp [labelOf, hiff]

end System

/-! ## Isolation -/

/-- What an update of `p` against `web`, and a tick that uses its result, have in common with an
    update against `web'`: everything but player `x`. -/
structure OthersUnaffected (lib : JsonLib) (aes : BlockCipher) (ι : Type u) [DecidableEq ι]
    (x : CInt) (p : PlayerProvider) (web web' : WebClient) : Prop where
  returned : (p.updatePlayers lib web).1 ∧ (p.updatePlayers lib web').1
  published : others x (p.updatePlayers lib web).2.updatedPlayers
    = others x (p.updatePlayers lib web').2.updatedPlayers
  /-- In any two interleavings, a tick over the list published by the one update and a tick over the
      list published by the other push the same topics and keys, in the same order. -/
  pushed : ∀ (s s' : System ι) (w w' : ι) (t t' : Tick),
    (System.machine lib aes).Reach Machine.anyLabel s →
    (System.machine lib aes).Reach Machine.anyLabel s' →
    t ∈ (s.worlds w).pastTicks → t' ∈ (s'.worlds w').pastTicks →
    t.players = (p.updatePlayers lib web).2.getPlayers.1 →
    t'.players = (p.updatePlayers lib web').2.getPlayers.1 →
    (s.labels t.batches).filter (fun l => l.1 ≠ x)
      = (s'.labels t'.batches).filter (fun l => l.1 ≠ x)

/-- **Isolation of records.** If two web services agree on the list of IDs and on every player but
    `x`, the updates against them agree on every player but `x`: what is published and what is
    pushed differ in the entries of `x` at most. -/
theorem othersUnaffected {lib : JsonLib} (aes : BlockCipher) (ι : Type u) [DecidableEq ι] {x : CInt}
    {web web' : WebClient} (hserve : ∀ url, (web url).isSome) (hserve' : ∀ url, (web' url).isSome)
    (hplayers : web "players" = web' "players")
    (hothers : ∀ i, i ≠ x → web (playerUrl i) = web' (playerUrl i)) (p : PlayerProvider) :
    OthersUnaffected lib aes ι x p web web' := by
  have hreturned : (p.updatePlayers lib web).1 ∧ (p.updatePlayers lib web').1 :=
    ⟨PlayerProvider.updatePlayers_fst hserve p, PlayerProvider.updatePlayers_fst hserve' p⟩
  cases hstatus : p.playerDataStatus with
  | NEW_DATA_READY =>
      -- neither update makes a request
      have hkept : ∀ web, p.updatePlayers lib web = (true, p) := by
        intro web
        simp [PlayerProvider.updatePlayers, hstatus]
      refine ⟨hreturned, by rw [hkept, hkept], ?_⟩
      intro s s' w w' t t' hs hs' ht ht' hlist hlist'
      rw [System.labels_of_past hs ht, System.labels_of_past hs' ht', hlist, hlist', hkept, hkept]
  | AWAIT_NEW_DATA =>
      obtain ⟨res, hres⟩ := Option.isSome_iff_exists.1 (hserve "players")
      obtain ⟨hfound, hnext⟩ := PlayerProvider.getPlayers_updatePlayers lib hserve hstatus hres
      obtain ⟨hfound', hnext'⟩ :=
        PlayerProvider.getPlayers_updatePlayers lib hserve' hstatus (hplayers ▸ hres)
      have hpublished : others x (p.updatePlayers lib web).2.updatedPlayers
          = others x (p.updatePlayers lib web').2.updatedPlayers := by
        rw [hfound, hfound']
        exact others_found lib hothers _
      have hids : ∀ web : WebClient, ∀ player ∈ (idsOfResponse lib res).filterMap
          (fun id => (getPlayerById lib web id).join), ∃ i : CInt, player.id = i.signExtend 64 := by
        intro web player hplayer
        obtain ⟨i, -, hread⟩ := List.mem_filterMap.1 hplayer
        obtain ⟨answer, -, hread⟩ := join_getPlayerById_eq_some hread
        exact ⟨i, (playerOfResponse_eq_some hread).2⟩
      refine ⟨hreturned, hpublished, ?_⟩
      intro s s' w w' t t' hs hs' ht ht' hlist hlist'
      rw [System.labels_of_past hs ht, System.labels_of_past hs' ht', hlist, hlist', hnext, hnext',
        System.filter_map_labelOf (hfound ▸ hids web),
        System.filter_map_labelOf (hfound' ▸ hids web'), hpublished]

/-- The second player's record of the repository is replaced by something that is not JSON. -/
def brokenWeb (url : String) : Option Response :=
  if url = playerUrl 1 then some ⟨"[", 200⟩ else GravioliWebClient.get url

/-- Player 0 is published and served all the same. -/
theorem othersUnaffected_brokenWeb :
    OthersUnaffected gravioliLib sampleCipher Unit 1 .new GravioliWebClient.get brokenWeb := by
  refine othersUnaffected sampleCipher Unit ?_ ?_ (by decide +kernel) ?_ .new
  · exact GravioliWebClient.isSome_get
  · intro url
    unfold brokenWeb
    split
    · rfl
    · exact GravioliWebClient.isSome_get url
  · intro i hi
    unfold brokenWeb
    rw [if_neg (fun hurl => hi (playerUrl_injective hurl))]

end Gravioli
