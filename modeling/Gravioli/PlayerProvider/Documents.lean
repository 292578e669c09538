import Gravioli.Json.WellFormed
import Gravioli.PlayerProvider.Topics

set_option autoImplicit false

/-! # The provider and the texts of the web service

`nlohmann` is the JSON library of the repository: `JsonLib.parse` is the parser of `json.hpp` on the
bytes of the response. A response gives an array for a member if and only if its text is a document
whose last member of this name is an array (`hasArray_nlohmann_iff`).

`Lists` says of a response that it is a JSON text which lists some integers, in any layout and with any
other members around them. A web service that lists the players of a roster in this way gets exactly
this roster published (`updatePlayers_of_serves`). -/

namespace Gravioli

open Json.Grammar (Document Members Elements Value Number IsTail Space Str)
open Json.Lexer (IsSpace)

/-! ## The library -/

/-- `json.hpp`. The exceptions of the parser carry their text; it never runs out of fuel. -/
def nlohmann (toDouble : ℤ → ℤ → Option Double) (castOutOfRange : Double → CInt) : JsonLib where
  parse content :=
    match Json.Parser.parse toDouble (toText content) with
    | .ok j => .ok j
    | .error (.thrown what) => .error what
    | .error .outOfFuel => .error "out of fuel"
  castOutOfRange := castOutOfRange

section

variable {toDouble : ℤ → ℤ → Option Double} {castOutOfRange : Double → CInt}

theorem parse_nlohmann_eq_ok {content : String} {j : Json} :
    (nlohmann toDouble castOutOfRange).parse content = .ok j ↔
      Json.Parser.parse toDouble (toText content) = .ok j := by
  unfold nlohmann
  dsimp only
  split <;> simp [*]

theorem text_ne_nil (d : Document) : d.text ≠ [] := by
  have := d.root.length_text_pos
  intro hnil
  have hlength : d.text.length = 0 := by rw [hnil]; rfl
  simp only [Document.text, List.length_append] at hlength
  omega

theorem rejectsEmpty_nlohmann : (nlohmann toDouble castOutOfRange).RejectsEmpty := by
  intro j h
  obtain ⟨d, tail, htext, -, -⟩ := Json.Grammar.exists_document toDouble (parse_nlohmann_eq_ok.1 h)
  exact text_ne_nil d (List.append_eq_nil_iff.1 htext.symm).1

end

/-! ## Members of a document -/

/-- The value of the last member with this name. -/
def lastMember (name : String) : Members → Option Value
  | .one _ key _ _ v => if key.value.toOption = some name then some v else none
  | .more _ key _ _ v _ members =>
      (lastMember name members).or (if key.value.toOption = some name then some v else none)

section

variable (toDouble : ℤ → ℤ → Option Double) (castOutOfRange : Double → CInt)

/-- What one member means. -/
theorem lookup_singleton {name k : String} {key : Str} {v : Value} {j : Json}
    (hkey : key.value = .ok k) (hv : v.value toDouble = .ok j) :
    ([(k, j)].lookup name).map Except.ok
      = (if key.value.toOption = some name then some v else none).map (·.value toDouble) := by
  have hoption : key.value.toOption = some k := by rw [hkey]; rfl
  by_cases hk : k = name
  · rw [if_pos (by rw [hoption, hk]), hk, List.lookup_cons_self, Option.map_some, Option.map_some, hv]
  · rw [if_neg (by rw [hoption]; simpa using hk), List.lookup_cons,
      beq_false_of_ne (Ne.symm hk)]
    rfl

/-- The last of the pairs with a name is the value of the last member with this name. -/
theorem lookup_pairs (name : String) (ms : Members) {pairs : List (String × Json)}
    (h : ms.pairs toDouble = .ok pairs) :
    (pairs.reverse.lookup name).map Except.ok = (lastMember name ms).map (·.value toDouble) := by
  cases ms with
  | one _ key _ _ v =>
      obtain ⟨k, hk, h⟩ := Json.Grammar.bind_eq_ok h
      obtain ⟨j, hj, h⟩ := Json.Grammar.bind_eq_ok h
      obtain rfl := Except.ok.inj h
      exact lookup_singleton toDouble hk hj
  | more _ key _ _ v _ members =>
      -- the first member counts only if no later one has its name
      obtain ⟨k, hk, h⟩ := Json.Grammar.bind_eq_ok h
      obtain ⟨j, hj, h⟩ := Json.Grammar.bind_eq_ok h
      obtain ⟨pairs, hpairs, h⟩ := Json.Grammar.bind_eq_ok h
      obtain rfl := Except.ok.inj h
      rw [List.reverse_cons, List.lookup_append, Option.map_or, lookup_pairs name members hpairs,
        lookup_singleton toDouble hk hj, lastMember, Option.map_or]

/-- A number is no object. -/
theorem number_value_ne_object (n : Number) (members : List (String × Json)) :
    n.value toDouble ≠ .object members := by
  unfold Number.value Number.floatValue
  split_ifs
  · simp
  · simp
  · split <;> simp

/-- Where an object comes from. -/
theorem object_of_value {v : Value} {members : List (String × Json)}
    (h : v.value toDouble = .ok (.object members)) :
    members = [] ∨ ∃ ms space pairs, v = .object ms space ∧ ms.pairs toDouble = .ok pairs ∧
      members = OrderedMap.ofList pairs := by
  cases v with
  | number n => exact absurd (Except.ok.inj h) (number_value_ne_object toDouble n members)
  | string s =>
      obtain ⟨text, -, hobject⟩ := Json.Grammar.map_eq_ok h
      exact absurd hobject (by simp)
  | array elems space =>
      obtain ⟨js, -, hobject⟩ := Json.Grammar.map_eq_ok h
      exact absurd hobject (by simp)
  | emptyObject space => exact .inl (by simpa [Value.value] using h.symm)
  | object ms space =>
      obtain ⟨pairs, hpairs, hobject⟩ := Json.Grammar.map_eq_ok h
      obtain rfl := Json.object.inj hobject
      exact .inr ⟨ms, space, pairs, rfl, hpairs, rfl⟩
  | _ => exact absurd h (by simp [Value.value])

/-- **A response gives an array** for a member if and only if it is a document with this member, the
    last of its name being an array. -/
theorem hasArray_nlohmann_iff {name : String} {res : Response} {elems : List Json} :
    HasArray (nlohmann toDouble castOutOfRange) name res elems ↔
      res.statusCode = 200 ∧ ∃ (d : Document) (tail : Text) (ms : Members) (space : Space) (v : Value)
        (j : Json), toText res.content = d.text ++ tail ∧ IsTail tail ∧ d.root = .object ms space ∧
          d.value toDouble = .ok j ∧ lastMember name ms = some v ∧
          v.value toDouble = .ok (.array elems) := by
  constructor
  · rintro ⟨hstatus, members, hparse, hlookup⟩
    obtain ⟨d, tail, htext, htail, hd⟩ :=
      Json.Grammar.exists_document toDouble (parse_nlohmann_eq_ok.1 hparse)
    obtain rfl | ⟨ms, space, pairs, hroot, hpairs, rfl⟩ := object_of_value toDouble hd
    · exact absurd hlookup (by simp)
    · rw [OrderedMap.lookup_ofList] at hlookup
      have hlast := lookup_pairs toDouble name ms hpairs
      rw [hlookup, Option.map_some] at hlast
      obtain ⟨v, hv, hvalue⟩ := Option.map_eq_some_iff.1 hlast.symm
      exact ⟨hstatus, d, tail, ms, space, v, _, htext, htail, hroot, hd, hv, hvalue⟩
  · rintro ⟨hstatus, d, tail, ms, space, v, j, htext, htail, hroot, hd, hv, hvalue⟩
    have hparse := Json.Grammar.parse_document toDouble d htail
    rw [← htext, hd] at hparse
    rw [Document.value, hroot] at hd
    obtain ⟨pairs, hpairs, rfl⟩ := Json.Grammar.map_eq_ok hd
    refine ⟨hstatus, OrderedMap.ofList pairs, parse_nlohmann_eq_ok.2 hparse, ?_⟩
    have hlast := lookup_pairs toDouble name ms hpairs
    rw [hv, Option.map_some, hvalue] at hlast
    obtain ⟨j, hj, hok⟩ := Option.map_eq_some_iff.1 hlast
    rw [OrderedMap.lookup_ofList, hj, Except.ok.inj hok]

/-! ## Lists of integers -/

/-- The integers written in an array, if all its elements are integer literals. -/
def integers : Elements → Option (List ℤ)
  | .one _ (.number n) => if n.IsInteger then some [n.significand] else none
  | .more _ (.number n) _ elems =>
      if n.IsInteger then (integers elems).map (n.significand :: ·) else none
  | _ => none

/-- The integers written in an array, if it is one of integer literals. -/
def arrayIntegers : Value → Option (List ℤ)
  | .emptyArray _ => some []
  | .array elems _ => integers elems
  | _ => none

/-- The value of an integer literal. -/
theorem integer?_number {n : Number} (h : n.IsInteger)
    (hrange : -2 ^ 63 ≤ n.significand ∧ n.significand < 2 ^ 64) :
    (n.value toDouble).integer? = some n.significand := by
  obtain ⟨hmin, hmax⟩ := hrange
  cases hnegative : n.negative with
  | false =>
      have hpos : 0 ≤ n.significand := by
        rw [Number.significand, hnegative, Number.signed_false]
        exact Int.natCast_nonneg _
      rw [Number.value, if_pos ⟨h, by simp [hnegative], hmax⟩, Json.integer?, Option.some.injEq,
        BitVec.toNat_ofInt]
      omega
  | true =>
      have hneg : n.significand < 2 ^ (64 - 1) := by
        rw [Number.significand, hnegative, Number.signed_true]
        exact lt_of_le_of_lt (Int.neg_nonpos_of_nonneg (Int.natCast_nonneg _)) (by decide)
      rw [Number.value, if_neg (by simp [hnegative]), if_pos ⟨h, hnegative, hmin⟩, Json.integer?,
        BitVec.toInt_ofInt_eq_self (by decide) hmin hneg]

/-- The integers fit into a value of the library. -/
def Fits (is : List ℤ) : Prop := ∀ i ∈ is, -2 ^ 63 ≤ i ∧ i < 2 ^ 64

theorem values_of_integers : ∀ (es : Elements) {is : List ℤ}, integers es = some is → Fits is →
    ∃ js, es.values toDouble = .ok js ∧ js.map Json.integer? = is.map some
  | .one _ (.number n), is, h, hfits => by
      obtain ⟨hinteger, his⟩ | ⟨-, his⟩ := ite_eq_iff.1 h
      · obtain rfl := Option.some.inj his
        refine ⟨[n.value toDouble], rfl, ?_⟩
        rw [List.map_singleton, integer?_number toDouble hinteger (hfits _ List.mem_cons_self)]
        rfl
      · exact absurd his (by simp)
  | .more _ (.number n) _ elems, is, h, hfits => by
      obtain ⟨hinteger, his⟩ | ⟨-, his⟩ := ite_eq_iff.1 h
      · obtain ⟨is, hrest, rfl⟩ := Option.map_eq_some_iff.1 his
        obtain ⟨hn, hfits⟩ := List.forall_mem_cons.1 hfits
        obtain ⟨js, hjs, hmap⟩ := values_of_integers elems hrest hfits
        refine ⟨n.value toDouble :: js, ?_, ?_⟩
        · rw [Elements.values, hjs]
          rfl
        · rw [List.map_cons, List.map_cons, integer?_number toDouble hinteger hn, hmap]
      · exact absurd his (by simp)

theorem value_of_arrayIntegers {v : Value} {is : List ℤ} (h : arrayIntegers v = some is)
    (hfits : Fits is) :
    ∃ js, v.value toDouble = .ok (.array js) ∧ js.map Json.integer? = is.map some := by
  cases v with
  | emptyArray space =>
      obtain rfl := Option.some.inj h
      exact ⟨[], rfl, rfl⟩
  | array elems space =>
      obtain ⟨js, hjs, hmap⟩ := values_of_integers toDouble elems h hfits
      refine ⟨js, ?_, hmap⟩
      rw [Value.value, hjs]
      rfl
  | _ => exact absurd h (by simp [arrayIntegers])

/-- The response is a JSON text whose last member `name` is an array of these integers. What else is
    in the object, how the text is laid out and how the integers are written is open. -/
def Lists (res : Response) (name : String) (is : List ℤ) : Prop :=
  res.statusCode = 200 ∧ ∃ (d : Document) (tail : Text) (ms : Members) (space : Space) (v : Value)
    (j : Json), toText res.content = d.text ++ tail ∧ IsTail tail ∧ d.root = .object ms space ∧
      d.value toDouble = .ok j ∧ lastMember name ms = some v ∧ arrayIntegers v = some is

variable {toDouble}

theorem Lists.hasArray {res : Response} {name : String} {is : List ℤ}
    (h : Lists toDouble res name is) (hfits : Fits is) :
    ∃ elems, HasArray (nlohmann toDouble castOutOfRange) name res elems ∧
      elems.map Json.integer? = is.map some := by
  obtain ⟨hstatus, d, tail, ms, space, v, j, htext, htail, hroot, hd, hv, his⟩ := h
  obtain ⟨elems, hvalue, hmap⟩ := value_of_arrayIntegers toDouble his hfits
  exact ⟨elems, (hasArray_nlohmann_iff toDouble castOutOfRange).2
    ⟨hstatus, d, tail, ms, space, v, j, htext, htail, hroot, hd, hv, hvalue⟩, hmap⟩

variable {castOutOfRange}

/-- An integer is a number with this value. -/
theorem value?_of_integer? {j : Json} {i : ℤ} (h : j.integer? = some i) :
    j.value? = some (i : ℚ) := by
  cases j with
  | number_integer n =>
      obtain rfl := Option.some.inj h
      rfl
  | number_unsigned n =>
      obtain rfl := Option.some.inj h
      exact congrArg some (Int.cast_natCast n.toNat).symm
  | _ => exact absurd h (by simp [Json.integer?])

theorem pushIDs_of_integers (lib : JsonLib) {elems : List Json} {ids : List CInt}
    (h : elems.map Json.integer? = (ids.map BitVec.toInt).map some) : pushIDs lib elems = ids := by
  induction elems generalizing ids with
  | nil => cases ids with
    | nil => rfl
    | cons id ids => exact absurd h (by simp)
  | cons e elems ih =>
      cases ids with
      | nil => exact absurd h (by simp)
      | cons id ids =>
          simp only [List.map_cons, List.cons.injEq] at h
          obtain ⟨hnumber, hget⟩ := Json.getInt_of_playerId? lib
            (Json.playerId?_eq_some_iff.2 (value?_of_integer? h.1))
          simp only [pushIDs, hnumber, if_true, hget, ih h.2]

theorem keyBytes_of_integers (lib : JsonLib) {elems : List Json} {bytes : List Byte}
    (h : elems.map Json.integer? = (bytes.map (fun b => (b.toNat : ℤ))).map some) :
    elems.map (keyByte lib) = bytes.map some := by
  induction elems generalizing bytes with
  | nil => cases bytes with
    | nil => rfl
    | cons b bytes => exact absurd h (by simp)
  | cons e elems ih =>
      cases bytes with
      | nil => exact absurd h (by simp)
      | cons b bytes =>
          simp only [List.map_cons, List.cons.injEq] at h
          have hlt := b.isLt
          obtain ⟨b', hb', hvalue⟩ := keyByte_of_integer lib h.1 (by omega) (by omega)
          obtain rfl : b' = b := BitVec.eq_of_toNat_eq (by exact_mod_cast hvalue)
          rw [List.map_cons, List.map_cons, hb', ih h.2]

/-! ## The roster of a web service -/

/-- The IDs of a `players` response. -/
theorem idsOfResponse_of_lists {res : Response} {ids : List CInt}
    (h : Lists toDouble res "IDs" (ids.map BitVec.toInt)) :
    idsOfResponse (nlohmann toDouble castOutOfRange) res = ids := by
  have hfits : Fits (ids.map BitVec.toInt) := by
    intro i hi
    obtain ⟨id, -, rfl⟩ := List.mem_map.1 hi
    have hmin := BitVec.le_toInt id
    have hmax := BitVec.toInt_lt (x := id)
    constructor <;> omega
  obtain ⟨elems, harray, hmap⟩ := h.hasArray castOutOfRange hfits
  rw [idsOfResponse_of_hasArray harray, pushIDs_of_integers _ hmap]

/-- The player of a `player` response. -/
theorem playerOfResponse_of_lists {res : Response} {key : Key}
    (h : Lists toDouble res "key" (key.toList.map (fun b => (b.toNat : ℤ)))) (id : CInt) :
    playerOfResponse (nlohmann toDouble castOutOfRange) id res
      = some ⟨id.signExtend 64, key⟩ := by
  have hfits : Fits (key.toList.map (fun b => (b.toNat : ℤ))) := by
    intro i hi
    obtain ⟨b, -, rfl⟩ := List.mem_map.1 hi
    have := b.isLt
    constructor <;> omega
  obtain ⟨elems, harray, hmap⟩ := h.hasArray castOutOfRange hfits
  exact (playerOfResponse_eq_some_iff rejectsEmpty_nlohmann).2
    ⟨rfl, elems, harray, keyBytes_of_integers _ hmap⟩

/-- An ID and the key of the player with this ID. -/
abbrev Roster := List (CInt × Key)

/-- The players of the roster, as the provider keeps them. -/
def Roster.players (roster : Roster) : List Player :=
  roster.map (fun entry => ⟨entry.1.signExtend 64, entry.2⟩)

/-- What the provider makes of the answers of the web service: the players of the roster. -/
structure Answers (lib : JsonLib) (web : WebClient) (roster : Roster) : Prop where
  ids : getPlayerIDs lib web = some (roster.map Prod.fst)
  key : ∀ entry ∈ roster,
    getPlayerById lib web entry.1 = some (some ⟨entry.1.signExtend 64, entry.2⟩)

/-- The IDs lead to the players. -/
theorem Answers.players {lib : JsonLib} {web : WebClient} {roster : Roster}
    (h : Answers lib web roster) :
    (roster.map Prod.fst).filterMap (fun id => (getPlayerById lib web id).join) = roster.players := by
  have hkey : ∀ entry ∈ roster, (getPlayerById lib web entry.1).join
      = some ⟨entry.1.signExtend 64, entry.2⟩ := fun entry hentry => by rw [h.key entry hentry]; rfl
  rw [List.filterMap_map, Roster.players, ← List.filterMap_eq_map]
  exact List.filterMap_congr hkey

/-- The web service lists the players of the roster in JSON, and answers for each of them with its
    key. -/
structure Serves (toDouble : ℤ → ℤ → Option Double) (web : WebClient) (roster : Roster) : Prop where
  ids : ∃ res, web "players" = some res ∧
    Lists toDouble res "IDs" ((roster.map Prod.fst).map BitVec.toInt)
  key : ∀ entry ∈ roster, ∃ res, web (playerUrl entry.1) = some res ∧
    Lists toDouble res "key" (entry.2.toList.map (fun b => (b.toNat : ℤ)))

theorem Serves.answers {web : WebClient} {roster : Roster} (h : Serves toDouble web roster) :
    Answers (nlohmann toDouble castOutOfRange) web roster where
  ids := by
    obtain ⟨res, hres, hlists⟩ := h.ids
    rw [getPlayerIDs, hres, Option.map_some, idsOfResponse_of_lists hlists]
  key := by
    intro entry hentry
    obtain ⟨res, hres, hlists⟩ := h.key entry hentry
    rw [getPlayerById, hres, Option.map_some, playerOfResponse_of_lists hlists]

/-- The loop of `updatePlayers` reaches its end when every listed player is found. -/
theorem Answers.collectPlayers {lib : JsonLib} {web : WebClient} {roster : Roster}
    (h : Answers lib web roster) :
    PlayerProvider.collectPlayers lib web (roster.map Prod.fst) [] = (true, roster.players) := by
  have hend : (PlayerProvider.collectPlayers lib web (roster.map Prod.fst) []).1 = true := by
    rw [PlayerProvider.collectPlayers_fst, List.all_eq_true]
    intro id hid
    obtain ⟨entry, hentry, rfl⟩ := List.mem_map.1 hid
    have hkey := h.key entry hentry
    rw [getPlayerById, Option.map_eq_some_iff] at hkey
    obtain ⟨res, hres, -⟩ := hkey
    rw [hres]
    rfl
  refine Prod.ext hend ?_
  rw [PlayerProvider.collectPlayers_snd lib web _ _ hend, List.nil_append, h.players]

/-- An update that finds the status `AWAIT_NEW_DATA` publishes the roster. -/
theorem Answers.updatePlayers {lib : JsonLib} {web : WebClient} {roster : Roster}
    (h : Answers lib web roster) (p : PlayerProvider)
    (hawait : p.playerDataStatus = .AWAIT_NEW_DATA) :
    p.updatePlayers lib web = (true, ⟨.NEW_DATA_READY, p.players, roster.players⟩) := by
  have hcollect := h.collectPlayers
  rw [PlayerProvider.updatePlayers, if_neg (by simp [hawait]), PlayerProvider.fetchAndPublish, h.ids]
  simp only [PlayerProvider.clearUpdated, hcollect]
  rfl

/-- **From text to players.** A web service that lists a roster, in whatever layout, gets exactly this
    roster published: the same IDs and keys, in the same order. -/
theorem updatePlayers_of_serves {web : WebClient} {roster : Roster}
    (h : Serves toDouble web roster) (p : PlayerProvider)
    (hawait : p.playerDataStatus = .AWAIT_NEW_DATA) :
    p.updatePlayers (nlohmann toDouble castOutOfRange) web
      = (true, ⟨.NEW_DATA_READY, p.players, roster.players⟩) := by
  have hanswers : Answers (nlohmann toDouble castOutOfRange) web roster := h.answers
  exact hanswers.updatePlayers p hawait

end

/-! ## The web client of the repository -/

namespace GravioliWebClient

open Json.Grammar (noSpace)

def blanks (n : ℕ) : Space :=
  ⟨List.replicate n (chr ' '), fun b hb => by rw [List.eq_of_mem_replicate hb]; decide⟩

def digit (d : Fin 10) : Byte := BitVec.ofNat 8 ('0'.toNat + d)

/-- A number below a hundred. -/
def literal (tens units : Fin 10) : Number where
  negative := false
  int :=
    if htens : tens ≠ 0 then
      .nonzero (digit tens) (by revert tens; decide) [digit units] (by revert units; decide)
    else if hunits : units ≠ 0 then .nonzero (digit units) (by revert units; decide) [] (by simp)
    else .zero
  fraction := none
  exponent := none

/-- Numbers with the blanks in front of them. -/
def elements (first : ℕ × Fin 10 × Fin 10) : List (ℕ × Fin 10 × Fin 10) → Elements
  | [] => .one (blanks first.1) (.number (literal first.2.1 first.2.2))
  | second :: rest =>
      .more (blanks first.1) (.number (literal first.2.1 first.2.2)) noSpace (elements second rest)

/-- An object with one member, laid out as in `gravioliWebClient.cpp`. -/
def document (name : List Char) (hname : ∀ c ∈ name, 0x20 ≤ c.toNat ∧ c ≠ '"' ∧ c ≠ '\\')
    (elems : Elements) : Document where
  before := noSpace
  root := .object (.one (blanks 1) ⟨name.attach.map (fun c => .plain c.1 (hname c.1 c.2))⟩ noSpace
    (blanks 1) (.array elems noSpace)) (blanks 1)
  after := noSpace

/-- The keys of the two players differ in the first byte. -/
def key (first : Byte) : Key :=
  ⟨(first :: (List.range' 1 15).map (BitVec.ofNat 8)).toArray, rfl⟩

/-- The two players. -/
def roster : Roster := [(0, key 0), (1, key 1)]

theorem lists_players (toDouble : ℤ → ℤ → Option Double) :
    Lists toDouble ⟨players, 200⟩ "IDs" [0, 1] :=
  ⟨rfl, document ['I', 'D', 's'] (by simp) (elements (0, 0, 0) [(1, 0, 1)]), [], _, _, _, _,
    by decide +kernel, .inl rfl, rfl, rfl, rfl, rfl⟩

/-- The elements of a key behind the first one. -/
def keyElements : List (ℕ × Fin 10 × Fin 10) :=
  [(2, 0, 1), (2, 0, 2), (2, 0, 3), (1, 0, 4), (2, 0, 5), (2, 0, 6), (2, 0, 7), (1, 0, 8), (2, 0, 9),
    (1, 1, 0), (1, 1, 1), (1, 1, 2), (1, 1, 3), (1, 1, 4), (1, 1, 5)]

theorem lists_player0 (toDouble : ℤ → ℤ → Option Double) :
    Lists toDouble ⟨player0, 200⟩ "key" ((key 0).toList.map (fun b => (b.toNat : ℤ))) :=
  ⟨rfl, document ['k', 'e', 'y'] (by simp) (elements (1, 0, 0) keyElements), [], _, _, _, _,
    by decide +kernel, .inl rfl, rfl, rfl, rfl, rfl⟩

theorem lists_player1 (toDouble : ℤ → ℤ → Option Double) :
    Lists toDouble ⟨player1, 200⟩ "key" ((key 1).toList.map (fun b => (b.toNat : ℤ))) :=
  ⟨rfl, document ['k', 'e', 'y'] (by simp) (elements (1, 0, 1) keyElements), [], _, _, _, _,
    by decide +kernel, .inl rfl, rfl, rfl, rfl, rfl⟩

theorem serves (toDouble : ℤ → ℤ → Option Double) : Serves toDouble get roster where
  ids := ⟨_, rfl, lists_players toDouble⟩
  key := List.forall_mem_cons.2 ⟨⟨_, by decide +kernel, lists_player0 toDouble⟩,
    List.forall_mem_singleton.2 ⟨_, by decide +kernel, lists_player1 toDouble⟩⟩

end GravioliWebClient

/-- The library of the repository; no number of its web service has a fraction. -/
def plainLib : JsonLib := nlohmann (fun _ _ => none) (fun _ => BitVec.intMin 32)

/-- The repository's own web client. -/
theorem updatePlayers_gravioliWebClient :
    PlayerProvider.new.updatePlayers (nlohmann (fun _ _ => none) (fun _ => 0)) GravioliWebClient.get
      = (true, ⟨.NEW_DATA_READY, [], GravioliWebClient.roster.players⟩) :=
  updatePlayers_of_serves (GravioliWebClient.serves _) _ rfl

end Gravioli
