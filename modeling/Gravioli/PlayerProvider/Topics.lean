import Gravioli.PlayerProvider.KeyFormat
import Gravioli.World
import Mathlib.Algebra.Order.Field.Rat

set_option autoImplicit false

/-! # The topics of the listed players

On its way from the list of IDs to the topic of its messages an ID is an `int`, a URL, a
`std::uint64_t`, a `std::size_t` and a `std::uint32_t`. Only the first conversion can lose
anything: `get<int>()` gives every number some `int`, and where the number is not an `int` that is
the ID of another player. `ownTopics_iff` says that this is the only way in which two listed players
can get one topic. -/

namespace Gravioli

/-- The number a `double` stands for. -/
def Double.value (d : Double) : ℚ := d.mantissa * 2 ^ d.exponent

/-- A number without a fraction is what is left when the fraction is cut off. -/
theorem Double.truncate_of_value {d : Double} {v : ℤ} (h : d.value = v) : d.truncate = v := by
  unfold value at h
  unfold truncate
  split
  · next hpos =>
      have hexp : d.exponent = (d.exponent.toNat : ℤ) := (Int.toNat_of_nonneg hpos).symm
      rw [hexp, zpow_natCast] at h
      exact_mod_cast h
  · next hneg =>
      have hexp : d.exponent = -((-d.exponent).toNat : ℤ) := by omega
      rw [hexp, zpow_neg, zpow_natCast, ← div_eq_mul_inv,
        div_eq_iff (pow_ne_zero _ two_ne_zero)] at h
      have hmantissa : d.mantissa = v * 2 ^ (-d.exponent).toNat := by exact_mod_cast h
      rw [hmantissa, Int.mul_tdiv_cancel _ (pow_ne_zero _ two_ne_zero)]

namespace Json

/-- The value of a number. -/
def value? : Json → Option ℚ
  | number_integer n => some n.toInt
  | number_unsigned n => some n.toNat
  | number_float x => some x.value
  | _ => none

end Json

/-- The `int` with the value `v`. -/
def intOf (v : ℚ) : Option CInt :=
  if v.den = 1 ∧ -2 ^ 31 ≤ v.num ∧ v.num < 2 ^ 31 then some (BitVec.ofInt 32 v.num) else none

theorem intOf_eq_some_iff {v : ℚ} {i : CInt} : intOf v = some i ↔ v = i.toInt := by
  unfold intOf
  constructor
  · intro h
    split at h
    · next hv =>
        obtain ⟨hden, hmin, hmax⟩ := hv
        obtain rfl := Option.some.inj h
        rw [BitVec.toInt_ofInt, Int.bmod_eq_of_le (by omega) (by omega)]
        exact ((Rat.den_eq_one_iff v).1 hden).symm
    · exact absurd h (by simp)
  · rintro rfl
    have hmin : -2 ^ 31 ≤ i.toInt := BitVec.le_toInt i
    have hmax : i.toInt < 2 ^ 31 := BitVec.toInt_lt
    rw [if_pos ⟨Rat.den_intCast _, hmin, hmax⟩, Rat.num_intCast, BitVec.ofInt_toInt]

namespace Json

/-- The ID an entry stands for: the `int` with the same value, if there is one. -/
def playerId? (j : Json) : Option CInt := j.value?.bind intOf

theorem playerId?_eq_some_iff {j : Json} {i : CInt} :
    j.playerId? = some i ↔ j.value? = some (i.toInt : ℚ) := by
  unfold playerId?
  constructor
  · intro h
    obtain ⟨v, hv, hi⟩ := Option.bind_eq_some_iff.1 h
    rw [hv, intOf_eq_some_iff.1 hi]
  · intro h
    rw [h, Option.bind_some, intOf_eq_some_iff]

/-- An ID is a number, and the conversion keeps its value. -/
theorem getInt_of_playerId? (lib : JsonLib) {j : Json} {i : CInt} (h : j.playerId? = some i) :
    j.isNumber ∧ j.getInt lib = .ok i := by
  rw [playerId?_eq_some_iff] at h
  cases j with
  | number_integer n =>
      have hvalue : n.toInt = i.toInt := by simpa [value?] using h
      rw [BitVec.toInt_eq_toNat_cond, BitVec.toInt_eq_toNat_cond] at hvalue
      have hlow : (n.setWidth 32).toNat = i.toNat := by
        rw [BitVec.toNat_setWidth]
        split at hvalue <;> split at hvalue <;> omega
      refine ⟨rfl, ?_⟩
      rw [getInt, BitVec.eq_of_toNat_eq hlow]
  | number_unsigned n =>
      have hvalue : (n.toNat : ℤ) = i.toInt := by
        have : (n.toNat : ℚ) = i.toInt := by simpa [value?] using h
        exact_mod_cast this
      rw [BitVec.toInt_eq_toNat_cond] at hvalue
      have hlow : (n.setWidth 32).toNat = i.toNat := by
        rw [BitVec.toNat_setWidth]
        split at hvalue <;> omega
      refine ⟨rfl, ?_⟩
      rw [getInt, BitVec.eq_of_toNat_eq hlow]
  | number_float x =>
      have hvalue : x.truncate = i.toInt := Double.truncate_of_value (by simpa [value?] using h)
      have hmin : -2 ^ 31 ≤ i.toInt := BitVec.le_toInt i
      have hmax : i.toInt < 2 ^ 31 := BitVec.toInt_lt
      refine ⟨rfl, ?_⟩
      simp only [getInt, hvalue]
      rw [if_pos (by unfold Double.fitsInt; omega), BitVec.ofInt_toInt]
  | _ => simp [value?] at h

theorem playerId?_of_not_isNumber {j : Json} (h : j.isNumber = false) : j.playerId? = none := by
  cases j <;> simp_all [isNumber, playerId?, value?]

end Json

/-! ## The IDs requested -/

theorem length_filterMap_playerId?_le (lib : JsonLib) (elems : List Json) :
    (elems.filterMap Json.playerId?).length ≤ (pushIDs lib elems).length := by
  induction elems with
  | nil => simp
  | cons e elems ih =>
      cases hnumber : e.isNumber with
      | false =>
          rw [List.filterMap_cons_none (Json.playerId?_of_not_isNumber hnumber)]
          simpa [pushIDs, hnumber] using ih
      | true =>
          obtain ⟨i, hi⟩ := Json.exists_getInt lib hnumber
          have hpush : pushIDs lib (e :: elems) = i :: pushIDs lib elems := by
            simp [pushIDs, hnumber, hi]
          rw [hpush]
          have hle : ((e :: elems).filterMap Json.playerId?).length
              ≤ (elems.filterMap Json.playerId?).length + 1 := by
            cases hid : e.playerId? with
            | none => rw [List.filterMap_cons_none hid]; omega
            | some i => rw [List.filterMap_cons_some hid]; simp
          simp only [List.length_cons]
          omega

/-- Exactly the IDs are requested if and only if every number is an ID: any other number becomes
    the ID it is converted to. -/
theorem pushIDs_eq_iff (lib : JsonLib) (elems : List Json) :
    pushIDs lib elems = elems.filterMap Json.playerId? ↔
      ∀ e ∈ elems, e.isNumber → e.playerId?.isSome := by
  induction elems with
  | nil => simp [pushIDs]
  | cons e elems ih =>
      rw [List.forall_mem_cons, ← ih]
      cases hnumber : e.isNumber with
      | false =>
          rw [List.filterMap_cons_none (Json.playerId?_of_not_isNumber hnumber)]
          simp [pushIDs, hnumber]
      | true =>
          obtain ⟨i, hi⟩ := Json.exists_getInt lib hnumber
          have hpush : pushIDs lib (e :: elems) = i :: pushIDs lib elems := by
            simp [pushIDs, hnumber, hi]
          rw [hpush]
          cases hid : e.playerId? with
          | none =>
              rw [List.filterMap_cons_none hid]
              have hle := length_filterMap_playerId?_le lib elems
              constructor
              · intro h
                have := congrArg List.length h
                simp only [List.length_cons] at this
                omega
              · rintro ⟨h, -⟩
                exact absurd (h rfl) (by simp)
          | some i' =>
              obtain ⟨-, hget⟩ := Json.getInt_of_playerId? lib hid
              rw [hi, Except.ok.injEq] at hget
              rw [List.filterMap_cons_some hid, hget]
              simp

theorem idsOfResponse_of_hasArray {lib : JsonLib} {res : Response} {elems : List Json}
    (h : HasArray lib "IDs" res elems) : idsOfResponse lib res = pushIDs lib elems := by
  obtain ⟨hstatus, members, hparse, hlookup⟩ := h
  have hindex : (Json.object members).index "IDs" = .ok (.array elems) :=
    Json.index_eq_array.2 ⟨members, rfl, hlookup⟩
  simp only [idsOfResponse, hstatus, ne_eq, not_true_eq_false, if_false, hparse, hindex]

/-! ## Own topics -/

/-- What an update against `web` makes of the entries `elems`. -/
structure OwnTopics (lib : JsonLib) (web : WebClient) (p : PlayerProvider) (res : Response)
    (elems : List Json) : Prop where
  /-- Every entry that is the ID of a player is requested, and all others are skipped. -/
  requested : idsOfResponse lib res = elems.filterMap Json.playerId?
  /-- The players published were fetched under the URL of the number listed. -/
  fetched : ∀ p', p.updatePlayers lib web = (true, p') → ∀ player ∈ p'.updatedPlayers,
    ∃ e ∈ elems, ∃ (i : CInt) (answer : Response), e.value? = some (i.toInt : ℚ) ∧
      web ("player/" ++ toString i.toInt) = some answer ∧
      playerOfResponse lib i answer = some player
  /-- Different entries of the list published have batches with different topics. -/
  distinct : ∀ p', p.updatePlayers lib web = (true, p') →
    p'.updatedPlayers.Pairwise (fun player player' => ∀ container container',
      (World.batchFor player container).topicID ≠ (World.batchFor player' container').topicID)

/-- The IDs of numbers with different values are different. -/
theorem nodup_playerIds {elems : List Json} (h : (elems.filterMap Json.value?).Nodup) :
    (elems.filterMap Json.playerId?).Nodup := by
  have hsplit : elems.filterMap Json.playerId? = (elems.filterMap Json.value?).filterMap intOf := by
    rw [List.filterMap_filterMap]
    rfl
  rw [hsplit]
  refine List.Nodup.filterMap ?_ h
  intro v v' i hv hv'
  rw [intOf_eq_some_iff.1 hv, intOf_eq_some_iff.1 hv']

/-- **Own topics, exactly.** When the numbers listed are different, every player published has a
    topic of its own and was fetched under the number listed, and what is not an ID is skipped, if
    and only if every number in the list is the value of an `int`. -/
theorem ownTopics_iff {lib : JsonLib} {web : WebClient} {p : PlayerProvider} {res : Response}
    {elems : List Json} (hids : HasArray lib "IDs" res elems)
    (hdistinct : (elems.filterMap Json.value?).Nodup) (hres : web "players" = some res)
    (hawait : p.playerDataStatus = .AWAIT_NEW_DATA) :
    OwnTopics lib web p res elems ↔
      ∀ e ∈ elems, e.isNumber → ∃ i : CInt, e.value? = some (i.toInt : ℚ) := by
  have hall : pushIDs lib elems = elems.filterMap Json.playerId? ↔
      ∀ e ∈ elems, e.isNumber → ∃ i : CInt, e.value? = some (i.toInt : ℚ) := by
    rw [pushIDs_eq_iff]
    simp only [Option.isSome_iff_exists, Json.playerId?_eq_some_iff]
  rw [← hall, ← idsOfResponse_of_hasArray hids]
  constructor
  · intro h
    exact h.requested
  · intro hrequested
    refine ⟨hrequested, ?_, ?_⟩
    · intro p' hp' player hplayer
      rw [PlayerProvider.eq_of_updatePlayers hawait hres hp', hrequested] at hplayer
      obtain ⟨i, hi, hfound⟩ := List.mem_filterMap.1 hplayer
      obtain ⟨e, he, hvalue⟩ := List.mem_filterMap.1 hi
      obtain ⟨answer, hanswer, hread⟩ := join_getPlayerById_eq_some hfound
      exact ⟨e, he, i, answer, Json.playerId?_eq_some_iff.1 hvalue, hanswer, hread⟩
    · intro p' hp'
      rw [PlayerProvider.eq_of_updatePlayers hawait hres hp', hrequested]
      refine List.pairwise_filterMap.2 ((nodup_playerIds hdistinct).imp ?_)
      intro i i' hne player hplayer player' hplayer' container container'
      obtain ⟨answer, -, hread⟩ := join_getPlayerById_eq_some hplayer
      obtain ⟨answer', -, hread'⟩ := join_getPlayerById_eq_some hplayer'
      rw [World.topicID_batchFor (playerOfResponse_eq_some hread).2,
        World.topicID_batchFor (playerOfResponse_eq_some hread').2]
      exact hne

/-- The two players of the repository. -/
theorem ownTopics_gravioli :
    OwnTopics gravioliLib GravioliWebClient.get .new ⟨GravioliWebClient.players, 200⟩
      [.number_unsigned 0, .number_unsigned 1] := by
  refine (ownTopics_iff ⟨rfl, _, rfl, rfl⟩ (by decide) rfl rfl).2 ?_
  intro e he _
  rcases List.mem_pair.1 he with rfl | rfl
  · exact ⟨0, by decide⟩
  · exact ⟨1, by decide⟩

/-- The numbers 0 and `2 ^ 32`. -/
def wideIDs : List Json := [.number_unsigned 0, .number_unsigned 4294967296]

/-- The parser on the answers of `GravioliWebClient`, and on a list of IDs. -/
def wideLib : JsonLib where
  parse text :=
    if text = "\x7b \"IDs\": [0, 4294967296] \x7d" then .ok (.object [("IDs", .array wideIDs)])
    else gravioliLib.parse text
  castOutOfRange := gravioliLib.castOutOfRange

/-- `GravioliWebClient` with the other list of IDs. -/
def wideWeb (url : String) : Option Response :=
  if url = "players" then some ⟨"\x7b \"IDs\": [0, 4294967296] \x7d", 200⟩
  else GravioliWebClient.get url

/-- Player 0 is published twice, and both have topic 0. -/
theorem ownTopics_fails :
    ¬ OwnTopics wideLib wideWeb .new ⟨"\x7b \"IDs\": [0, 4294967296] \x7d", 200⟩ wideIDs := by
  intro h
  have hpublished : ∃ p' player, PlayerProvider.new.updatePlayers wideLib wideWeb = (true, p') ∧
      p'.updatedPlayers = [player, player] := by
    refine ⟨(PlayerProvider.new.updatePlayers wideLib wideWeb).2,
      ⟨0, #v[0, 1, 2, 3, 4, 5, 6, 7, 8, 9, 10, 11, 12, 13, 14, 15]⟩, ?_⟩
    decide +kernel
  obtain ⟨p', player, hp', hplayers⟩ := hpublished
  have hpairwise := h.distinct p' hp'
  rw [hplayers] at hpairwise
  exact (List.pairwise_cons.1 hpairwise).1 player (by simp) 0 0 rfl

end Gravioli
