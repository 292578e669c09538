import Gravioli.GravioliWebClient

set_option autoImplicit false

/-! # Which responses give a player

The format of a player's record, from outside: status 200 and a JSON object whose `key` is an array
of `KEY_BLOCKSIZE` JSON integers between 0 and 255. `getPlayerById` checks the range of an element
only after `get<int>()`, which keeps the low 32 bits of an integer, drops the fraction of a number
and takes `false` and `true` for 0 and 1. `exactKeyAcceptance_iff` says for which responses that
makes no difference. -/

namespace Gravioli

/-! ## Elements of a key -/

namespace Json

/-- The value of an integer, signed or unsigned. -/
def integer? : Json → Option ℤ
  | number_integer n => some n.toInt
  | number_unsigned n => some n.toNat
  | _ => none

/-- An integer between 0 and 255. -/
def IsByte (j : Json) : Prop := ∃ v, j.integer? = some v ∧ 0 ≤ v ∧ v ≤ 255

/-- An element the range check lets through: a boolean, an integer whose low 32 bits are between 0
    and 255, or a number that is between 0 and 255 without its fraction (if it is too large for an
    `int`: one that happens to be converted into this range). -/
def PassesAsByte (lib : JsonLib) : Json → Prop
  | boolean _ => True
  | number_integer n => n.toInt % 2 ^ 32 ≤ 255
  | number_unsigned n => n.toNat % 2 ^ 32 ≤ 255
  | number_float x =>
      if x.fitsInt then 0 ≤ x.truncate ∧ x.truncate ≤ 255
      else 0 ≤ (lib.castOutOfRange x).toInt ∧ (lib.castOutOfRange x).toInt ≤ 255
  | _ => False

end Json

theorem toInt_setWidth_byte (n : BitVec 64) :
    (0 ≤ (n.setWidth 32).toInt ∧ (n.setWidth 32).toInt ≤ 255) ↔ n.toNat % 2 ^ 32 ≤ 255 := by
  rw [BitVec.toInt_eq_toNat_cond, BitVec.toNat_setWidth]
  split <;> omega

theorem toInt_emod_eq_toNat (n : BitVec 64) : n.toInt % 2 ^ 32 = (n.toNat % 2 ^ 32 : ℕ) := by
  rw [BitVec.toInt_eq_toNat_cond]
  split <;> omega

theorem isSome_keyByte (lib : JsonLib) (j : Json) :
    (keyByte lib j).isSome ↔ j.PassesAsByte lib := by
  cases j with
  | boolean b => cases b <;> simp [keyByte, Json.getInt, Json.PassesAsByte]
  | number_integer n =>
      have hbyte := toInt_setWidth_byte n
      have hmod := toInt_emod_eq_toNat n
      simp only [keyByte, Json.getInt, Json.PassesAsByte, Option.isSome_ite]
      omega
  | number_unsigned n =>
      have hbyte := toInt_setWidth_byte n
      simp only [keyByte, Json.getInt, Json.PassesAsByte, Option.isSome_ite]
      omega
  | number_float x =>
      by_cases hfits : x.fitsInt
      · have hrange : (BitVec.ofInt 32 x.truncate).toInt = x.truncate := by
          unfold Double.fitsInt at hfits
          rw [BitVec.toInt_ofInt, Int.bmod_eq_of_le] <;> omega
        simp [keyByte, Json.getInt, Json.PassesAsByte, hfits, hrange]
      · simp [keyByte, Json.getInt, Json.PassesAsByte, hfits]
  | _ => simp [keyByte, Json.getInt, Json.PassesAsByte]

/-- A byte becomes the byte it is. -/
theorem keyByte_of_integer (lib : JsonLib) {j : Json} {v : ℤ} (hv : j.integer? = some v)
    (hmin : 0 ≤ v) (hmax : v ≤ 255) : ∃ b, keyByte lib j = some b ∧ (b.toNat : ℤ) = v := by
  cases j with
  | number_integer n =>
      obtain rfl := Option.some.inj hv
      have hpos := BitVec.toInt_eq_toNat_cond n
      have hbyte := toInt_setWidth_byte n
      have hmod := toInt_emod_eq_toNat n
      refine ⟨(n.setWidth 32).setWidth 8, ?_, ?_⟩
      · simp only [keyByte, Json.getInt]
        rw [if_pos (by omega)]
      · rw [BitVec.toNat_setWidth, BitVec.toNat_setWidth]
        omega
  | number_unsigned n =>
      obtain rfl := Option.some.inj hv
      have hbyte := toInt_setWidth_byte n
      refine ⟨(n.setWidth 32).setWidth 8, ?_, ?_⟩
      · simp only [keyByte, Json.getInt]
        rw [if_pos (by omega)]
      · rw [BitVec.toNat_setWidth, BitVec.toNat_setWidth]
        omega
  | _ => simp [Json.integer?] at hv

theorem mapM_eq_some_iff {α β : Type} {f : α → Option β} {xs : List α} {ys : List β} :
    xs.mapM f = some ys ↔ xs.map f = ys.map some := by
  induction xs generalizing ys with
  | nil => cases ys <;> simp
  | cons x xs ih =>
      rw [List.mapM_cons, List.map_cons]
      cases ys with
      | nil => simp [Option.bind_eq_some_iff]
      | cons y ys => simp [Option.bind_eq_some_iff, ih]

theorem exists_map_some {α β : Type} {f : α → Option β} {xs : List α} :
    (∃ ys : List β, xs.map f = ys.map some) ↔ ∀ x ∈ xs, (f x).isSome := by
  constructor
  · rintro ⟨ys, hys⟩ x hx
    have hmem : f x ∈ ys.map some := hys ▸ List.mem_map_of_mem hx
    obtain ⟨y, -, hy⟩ := List.mem_map.1 hmem
    simp [← hy]
  · intro h
    induction xs with
    | nil => exact ⟨[], rfl⟩
    | cons x xs ih =>
        obtain ⟨y, hy⟩ := Option.isSome_iff_exists.1 (h x (by simp))
        obtain ⟨ys, hys⟩ := ih (fun x' hx' => h x' (by simp [hx']))
        exact ⟨y :: ys, by simp [hy, hys]⟩

/-! ## Keys of a response -/

/-- The empty text, which `getPlayerById` does not even pass to the parser, is not JSON. -/
def JsonLib.RejectsEmpty (lib : JsonLib) : Prop := ∀ j, lib.parse "" ≠ .ok j

/-- Status 200 and an object whose member `name` is the array `elems`. -/
def HasArray (lib : JsonLib) (name : String) (res : Response) (elems : List Json) : Prop :=
  res.statusCode = 200 ∧
    ∃ members, lib.parse res.content = .ok (.object members) ∧
      members.lookup name = some (.array elems)

/-- There is at most one such array. -/
theorem HasArray.unique {lib : JsonLib} {name : String} {res : Response} {elems elems' : List Json}
    (h : HasArray lib name res elems) (h' : HasArray lib name res elems') : elems = elems' := by
  obtain ⟨-, members, hparse, hlookup⟩ := h
  obtain ⟨-, members', hparse', hlookup'⟩ := h'
  rw [hparse] at hparse'
  obtain rfl : members = members' := by simpa using hparse'
  rw [hlookup] at hlookup'
  simpa using hlookup'

theorem toKey_eq_some_iff {bytes : List Byte} {key : Key} :
    toKey bytes = some key ↔ key.toList = bytes := by
  unfold toKey
  constructor
  · intro h
    split at h
    · obtain rfl := Option.some.inj h
      simp
    · exact absurd h (by simp)
  · rintro rfl
    rw [dif_pos (by simp)]
    rfl

theorem length_of_keyBytes {lib : JsonLib} {elems : List Json} {key : Key}
    (h : elems.map (keyByte lib) = key.toList.map some) : elems.length = keyBlocksize := by
  have := congrArg List.length h
  simpa using this

theorem passes_of_keyBytes {lib : JsonLib} {elems : List Json} {bytes : List Byte}
    (h : elems.map (keyByte lib) = bytes.map some) : ∀ e ∈ elems, e.PassesAsByte lib := by
  intro e he
  exact (isSome_keyByte lib e).1 (exists_map_some.1 ⟨_, h⟩ e he)

/-- **Spec of `getPlayerById`**: the response has a key of the right length, and all its elements
    pass the range check. -/
theorem playerOfResponse_eq_some_iff {lib : JsonLib} (hempty : lib.RejectsEmpty) {id : CInt}
    {res : Response} {player : Player} :
    playerOfResponse lib id res = some player ↔
      player.id = id.signExtend 64 ∧
        ∃ elems, HasArray lib "key" res elems ∧
          elems.map (keyByte lib) = player.key.toList.map some := by
  constructor
  · intro h
    obtain ⟨hstatus, hid, j, elems, bytes, hparse, hindex, hbytes, hkey⟩ := playerOfResponse_cases h
    obtain ⟨members, rfl, hlookup⟩ := Json.index_eq_array.1 hindex
    obtain rfl := toKey_eq_some_iff.1 hkey
    exact ⟨hid, elems, ⟨hstatus, members, hparse, hlookup⟩, mapM_eq_some_iff.1 hbytes⟩
  · rintro ⟨hid, elems, ⟨hstatus, members, hparse, hlookup⟩, hbytes⟩
    have hcontent : res.content ≠ "" := by
      intro hcontent
      exact hempty _ (hcontent ▸ hparse)
    have hindex : (Json.object members).index "key" = .ok (.array elems) :=
      Json.index_eq_array.2 ⟨members, rfl, hlookup⟩
    rw [playerOfResponse, if_neg (by simp [hstatus, hcontent])]
    simp only [hparse, hindex]
    rw [if_pos (length_of_keyBytes hbytes), mapM_eq_some_iff.2 hbytes, Option.bind_some,
      toKey_eq_some_iff.2 rfl, Option.map_some, ← hid]

/-- Some player comes out if and only if every element passes. -/
theorem exists_player_iff {lib : JsonLib} (hempty : lib.RejectsEmpty) {id : CInt} {res : Response} :
    (∃ player, playerOfResponse lib id res = some player) ↔
      ∃ elems, HasArray lib "key" res elems ∧ elems.length = keyBlocksize ∧
        ∀ e ∈ elems, e.PassesAsByte lib := by
  simp only [playerOfResponse_eq_some_iff hempty]
  constructor
  · rintro ⟨player, -, elems, hkey, hbytes⟩
    exact ⟨elems, hkey, length_of_keyBytes hbytes, passes_of_keyBytes hbytes⟩
  · rintro ⟨elems, hkey, hlength, hpass⟩
    obtain ⟨bytes, hbytes⟩ := exists_map_some.2 (fun e he => (isSome_keyByte lib e).2 (hpass e he))
    have hbytesLength : bytes.length = keyBlocksize := by
      rw [← hlength, ← List.length_map (f := some), ← hbytes, List.length_map]
    refine ⟨⟨id.signExtend 64, ⟨bytes.toArray, by simpa⟩⟩, rfl, elems, hkey, ?_⟩
    simpa using hbytes

/-! ## Exact acceptance -/

/-- `getPlayerById` lets no exception out for this response, returns a player exactly when the
    response has a key of the right length made of integers between 0 and 255, and the player has
    the ID asked for and this key. -/
structure ExactKeyAcceptance (lib : JsonLib) (web : WebClient) (id : CInt) (res : Response) :
    Prop where
  returns : (getPlayerById lib web id).isSome
  accepts : (∃ player, getPlayerById lib web id = some (some player)) ↔
    ∃ elems, HasArray lib "key" res elems ∧ elems.length = keyBlocksize ∧ ∀ e ∈ elems, e.IsByte
  player : ∀ player, getPlayerById lib web id = some (some player) →
    player.id = id.signExtend 64 ∧
      ∃ elems, HasArray lib "key" res elems ∧
        elems.map Json.integer? = player.key.toList.map (fun b => some (b.toNat : ℤ))

/-- No response with status 200 and a key of the right length gets past the range check with an
    element that is not an integer between 0 and 255: if all elements pass, all are. -/
def NothingMisread (lib : JsonLib) (res : Response) : Prop :=
  ∀ elems, HasArray lib "key" res elems → elems.length = keyBlocksize →
    (∀ e ∈ elems, e.PassesAsByte lib) → ∀ e ∈ elems, e.IsByte

theorem Json.IsByte.passes {lib : JsonLib} {j : Json} (h : j.IsByte) : j.PassesAsByte lib := by
  obtain ⟨v, hv, hmin, hmax⟩ := h
  obtain ⟨b, hb, -⟩ := keyByte_of_integer lib hv hmin hmax
  rw [← isSome_keyByte, hb]
  rfl

/-- Integers between 0 and 255 are read as they stand. -/
theorem map_integer_of_keyByte {lib : JsonLib} {elems : List Json} {bytes : List Byte}
    (hbyte : ∀ e ∈ elems, e.IsByte) (h : elems.map (keyByte lib) = bytes.map some) :
    elems.map Json.integer? = bytes.map (fun b => some (b.toNat : ℤ)) := by
  induction elems generalizing bytes with
  | nil =>
      cases bytes with
      | nil => rfl
      | cons b bytes => simp at h
  | cons e elems ih =>
      cases bytes with
      | nil => simp at h
      | cons b bytes =>
          simp only [List.map_cons, List.cons.injEq] at h ⊢
          obtain ⟨v, hv, hmin, hmax⟩ := hbyte e (by simp)
          obtain ⟨b', hb', hvalue⟩ := keyByte_of_integer lib hv hmin hmax
          rw [hb', Option.some.injEq] at h
          refine ⟨?_, ih (fun e' he' => hbyte e' (by simp [he'])) h.2⟩
          rw [hv, ← hvalue, h.1]

/-- **Exact acceptance, exactly.** `getPlayerById` accepts exactly the well-formed keys if and only
    if nothing in the response is misread: no boolean, no number with a fraction and no integer that
    is only congruent to a byte modulo `2 ^ 32`, in an array whose elements all pass. -/
theorem exactKeyAcceptance_iff {lib : JsonLib} (hempty : lib.RejectsEmpty) {web : WebClient}
    {id : CInt} {res : Response} (hres : web (playerUrl id) = some res) :
    ExactKeyAcceptance lib web id res ↔ NothingMisread lib res := by
  have hget : ∀ result,
      getPlayerById lib web id = some result ↔ playerOfResponse lib id res = result := by
    simp [getPlayerById, hres]
  constructor
  · intro h elems hkey hlength hpass
    have hsome : ∃ player, playerOfResponse lib id res = some player :=
      (exists_player_iff hempty).2 ⟨elems, hkey, hlength, hpass⟩
    obtain ⟨player, hplayer⟩ := hsome
    obtain ⟨elems', hkey', -, hbyte⟩ := h.accepts.1 ⟨player, (hget _).2 hplayer⟩
    rwa [hkey.unique hkey']
  · intro h
    refine ⟨by simp [getPlayerById, hres], ?_, ?_⟩
    · simp only [hget, exists_player_iff hempty]
      constructor
      · rintro ⟨elems, hkey, hlength, hpass⟩
        exact ⟨elems, hkey, hlength, h elems hkey hlength hpass⟩
      · rintro ⟨elems, hkey, hlength, hbyte⟩
        exact ⟨elems, hkey, hlength, fun e he => (hbyte e he).passes⟩
    · intro player hplayer
      obtain ⟨hid, elems, hkey, hbytes⟩ :=
        (playerOfResponse_eq_some_iff hempty).1 ((hget _).1 hplayer)
      have hbyte := h elems hkey (length_of_keyBytes hbytes) (passes_of_keyBytes hbytes)
      exact ⟨hid, elems, hkey, map_integer_of_keyByte hbyte hbytes⟩

theorem rejectsEmpty_gravioliLib : gravioliLib.RejectsEmpty := by
  intro j hj
  exact absurd hj (by simp [gravioliLib, GravioliWebClient.players, GravioliWebClient.player0,
    GravioliWebClient.player1])

/-- The response for the repository's first player. -/
theorem exactKeyAcceptance_player0 :
    ExactKeyAcceptance gravioliLib GravioliWebClient.get 0 ⟨GravioliWebClient.player0, 200⟩ := by
  refine (exactKeyAcceptance_iff rejectsEmpty_gravioliLib rfl).2 ?_
  intro elems hkey _ _ e he
  rw [hkey.unique ⟨rfl, _, rfl, rfl⟩] at he
  obtain ⟨i, hi, rfl⟩ := List.mem_map.1 he
  have hlt : i < keyBlocksize := List.mem_range.1 hi
  have hsize : keyBlocksize = 16 := by decide
  refine ⟨i, ?_, by omega, by omega⟩
  simp only [Json.integer?, BitVec.toNat_ofNat, Option.some.injEq]
  omega

/-- A key that starts with a boolean, with `2 ^ 32 + 1` and with one and a half. -/
def looseKey : String :=
  "\x7b \"key\": [true, 4294967297, 1.5, 3, 4, 5, 6, 7, 8, 9, 10, 11, 12, 13, 14, 15] \x7d"

open Json in
/-- A boolean, an integer of 33 bits, a fraction, and 13 bytes. -/
def looseElems : List Json :=
  [boolean true, number_unsigned 4294967297,
    number_float ⟨3, -1, by decide, by decide, by decide⟩]
    ++ (List.range' 3 13).map (fun i => number_unsigned (BitVec.ofNat 64 i))

/-- The parser on `looseKey`. -/
def looseLib : JsonLib where
  parse text :=
    if text = looseKey then .ok (.object [("key", .array looseElems)])
    else .error "parse error - unexpected end of input"
  castOutOfRange _ := BitVec.intMin 32

/-- The key is accepted, as 1, 1, 1, 3, …, 15. -/
theorem exactKeyAcceptance_fails :
    ¬ ExactKeyAcceptance looseLib (fun _ => some ⟨looseKey, 200⟩) 0 ⟨looseKey, 200⟩ := by
  intro h
  have hloose : HasArray looseLib "key" ⟨looseKey, 200⟩ looseElems := ⟨rfl, _, rfl, rfl⟩
  obtain ⟨elems, hkey, -, hbyte⟩ := h.accepts.1
    ⟨⟨0, #v[1, 1, 1, 3, 4, 5, 6, 7, 8, 9, 10, 11, 12, 13, 14, 15]⟩, by decide +kernel⟩
  rw [hkey.unique hloose] at hbyte
  obtain ⟨v, hv, -⟩ := hbyte (.boolean true) (by simp [looseElems])
  exact absurd hv (by simp [Json.integer?])

end Gravioli
