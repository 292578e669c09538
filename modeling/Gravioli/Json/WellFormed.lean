import Gravioli.Json.Exceptions

set_option autoImplicit false

/-! # What the parser returns

Not every `basic_json` value comes out of the parser: its strings are UTF-8, whatever escapes they were
written with, the members of its objects ascend without duplicates, and a signed integer is never
positive, because integers without a sign are unsigned (`wellFormed_of_parse`). Two objects are the
same value if and only if they have the same keys, with the same value behind the last colon of each
(`parse_object_eq_iff`).

The last part is about the bytes of a document: a NUL is not among them, so the parser sees a text
only up to its first NUL. -/

namespace Gravioli

namespace Json

/-- A `std::string` that is the UTF-8 encoding of some characters. -/
def IsUtf8 (s : String) : Prop := ∃ cs : List Char, s = ofText (cs.flatMap Utf8.encode)

/-- UTF-8 in all strings and keys, and strictly ordered members, at every depth. -/
inductive WellFormed : Json → Prop
  | null : WellFormed .null
  | boolean (b : Bool) : WellFormed (.boolean b)
  | number_integer {n : BitVec 64} (h : n.toInt ≤ 0) : WellFormed (.number_integer n)
  | number_unsigned (n : BitVec 64) : WellFormed (.number_unsigned n)
  | number_float (x : Double) : WellFormed (.number_float x)
  | string {s : String} (h : IsUtf8 s) : WellFormed (.string s)
  | array {elems : List Json} (h : ∀ j ∈ elems, WellFormed j) : WellFormed (.array elems)
  | object {members : List (String × Json)} (hsorted : OrderedMap.Sorted members)
      (hkeys : ∀ m ∈ members, IsUtf8 m.1) (hvalues : ∀ m ∈ members, WellFormed m.2) :
      WellFormed (.object members)

namespace Grammar

open Lexer Json.Parser

/-! ## Values -/

theorem Str.isUtf8 {str : Str} {s : String} (h : str.value = .ok s) : IsUtf8 s := by
  obtain ⟨cs, -, rfl⟩ := map_eq_ok h
  exact ⟨cs, rfl⟩

section

variable {toDouble : ℤ → ℤ → Option Double}

theorem Number.wellFormed (n : Number) : (n.value toDouble).WellFormed := by
  unfold Number.value
  split_ifs with hunsigned hinteger
  · exact .number_unsigned _
  · obtain ⟨-, hnegative, hle⟩ := hinteger
    have hnonpos : n.significand ≤ 0 := by
      rw [significand, hnegative, signed_true]
      omega
    refine .number_integer ?_
    rwa [BitVec.toInt_ofInt_eq_self (by decide) hle (lt_of_le_of_lt hnonpos (by decide))]
  · unfold floatValue
    split
    · exact .number_float _
    · exact .null

mutual

theorem Value.wellFormed : ∀ (v : Value) {j : Json}, v.value toDouble = .ok j → j.WellFormed
  | .null, _, h => by
      obtain rfl := Except.ok.inj h
      exact .null
  | .boolean b, _, h => by
      obtain rfl := Except.ok.inj h
      exact .boolean b
  | .string s, _, h => by
      obtain ⟨text, htext, rfl⟩ := map_eq_ok h
      exact .string (Str.isUtf8 htext)
  | .number n, _, h => by
      obtain rfl := Except.ok.inj h
      exact n.wellFormed
  | .emptyArray _, _, h => by
      obtain rfl := Except.ok.inj h
      exact .array (by simp)
  | .array elems _, _, h => by
      obtain ⟨js, hjs, rfl⟩ := map_eq_ok h
      exact .array (elems.wellFormed hjs)
  | .emptyObject _, _, h => by
      obtain rfl := Except.ok.inj h
      exact .object OrderedMap.sorted_nil (by simp) (by simp)
  | .object members _, _, h => by
      obtain ⟨pairs, hpairs, rfl⟩ := map_eq_ok h
      have hpair := members.wellFormed hpairs
      refine .object (OrderedMap.sorted_ofList pairs) (fun m hm => ?_) (fun m hm => ?_)
      · exact (hpair m (OrderedMap.mem_of_mem_ofList hm)).1
      · exact (hpair m (OrderedMap.mem_of_mem_ofList hm)).2

theorem Elements.wellFormed : ∀ (es : Elements) {js : List Json}, es.values toDouble = .ok js →
    ∀ j ∈ js, j.WellFormed
  | .one _ v, _, h => by
      obtain ⟨j, hj, h⟩ := bind_eq_ok h
      obtain rfl := Except.ok.inj h
      exact List.forall_mem_singleton.2 (v.wellFormed hj)
  | .more _ v _ elems, _, h => by
      obtain ⟨j, hj, h⟩ := bind_eq_ok h
      obtain ⟨js, hjs, h⟩ := bind_eq_ok h
      obtain rfl := Except.ok.inj h
      exact List.forall_mem_cons.2 ⟨v.wellFormed hj, elems.wellFormed hjs⟩

theorem Members.wellFormed : ∀ (ms : Members) {pairs : List (String × Json)},
    ms.pairs toDouble = .ok pairs → ∀ m ∈ pairs, IsUtf8 m.1 ∧ m.2.WellFormed
  | .one _ key _ _ v, _, h => by
      obtain ⟨k, hk, h⟩ := bind_eq_ok h
      obtain ⟨j, hj, h⟩ := bind_eq_ok h
      obtain rfl := Except.ok.inj h
      exact List.forall_mem_singleton.2 ⟨Str.isUtf8 hk, v.wellFormed hj⟩
  | .more _ key _ _ v _ members, _, h => by
      obtain ⟨k, hk, h⟩ := bind_eq_ok h
      obtain ⟨j, hj, h⟩ := bind_eq_ok h
      obtain ⟨pairs, hpairs, h⟩ := bind_eq_ok h
      obtain rfl := Except.ok.inj h
      exact List.forall_mem_cons.2 ⟨⟨Str.isUtf8 hk, v.wellFormed hj⟩, members.wellFormed hpairs⟩

end

/-- **Whatever was parsed is well formed.** -/
theorem wellFormed_of_parse {text : Text} {j : Json} (h : parse toDouble text = .ok j) :
    j.WellFormed := by
  obtain ⟨d, -, -, -, hd⟩ := exists_document toDouble h
  exact d.root.wellFormed hd

end

/-- `{"b":true,"b":false}` -/
def twice : Document where
  before := noSpace
  root := .object (.more noSpace ⟨[.plain 'b' (by decide)]⟩ noSpace noSpace (.boolean true) noSpace
    (.one noSpace ⟨[.plain 'b' (by decide)]⟩ noSpace noSpace (.boolean false))) noSpace
  after := noSpace

theorem value_twice (toDouble : ℤ → ℤ → Option Double) :
    twice.value toDouble = .ok (.object [("b", .boolean false)]) := rfl

theorem wellFormed_twice : (Json.object [("b", .boolean false)]).WellFormed :=
  wellFormed_of_parse ((parse_document (fun _ _ => none) twice (.inl rfl)).trans
    (congrArg liftLexer (value_twice _)))

/-! ## Objects -/

/-- **Objects are maps.** Two object texts give the same value if and only if the last member of each
    key has the same value in both; the order of the members, the members before the last one of a
    key, the spelling and the white space do not matter. -/
theorem parse_object_eq_iff (toDouble : ℤ → ℤ → Option Double) {members members' : Members}
    {pairs pairs' : List (String × Json)} (hpairs : members.pairs toDouble = .ok pairs)
    (hpairs' : members'.pairs toDouble = .ok pairs') (before inside after before' inside' after' : Space) :
    parse toDouble (Document.text ⟨before, .object members inside, after⟩)
        = parse toDouble (Document.text ⟨before', .object members' inside', after'⟩) ↔
      ∀ key, pairs.reverse.lookup key = pairs'.reverse.lookup key := by
  have hparse : ∀ {members : Members} {pairs : List (String × Json)},
      members.pairs toDouble = .ok pairs → ∀ before inside after : Space,
      parse toDouble (Document.text ⟨before, .object members inside, after⟩)
        = .ok (.object (OrderedMap.ofList pairs)) := by
    intro members pairs hpairs before inside after
    have h := parse_document toDouble ⟨before, .object members inside, after⟩
      (show IsTail [] from .inl rfl)
    rw [List.append_nil] at h
    rw [h, Document.value, Value.value, hpairs]
    rfl
  rw [hparse hpairs, hparse hpairs', Except.ok.injEq, Json.object.injEq, OrderedMap.ofList_eq_iff]

/-- `"a":true,"b":false` -/
def inOrder : Members :=
  .more noSpace ⟨[.plain 'a' (by decide)]⟩ noSpace noSpace (.boolean true) noSpace
    (.one noSpace ⟨[.plain 'b' (by decide)]⟩ noSpace noSpace (.boolean false))

/-- `"b":true,"b":false,"a":true` -/
def outOfOrder : Members :=
  .more noSpace ⟨[.plain 'b' (by decide)]⟩ noSpace noSpace (.boolean true) noSpace
    (.more noSpace ⟨[.plain 'b' (by decide)]⟩ noSpace noSpace (.boolean false) noSpace
      (.one noSpace ⟨[.plain 'a' (by decide)]⟩ noSpace noSpace (.boolean true)))

theorem parse_object_outOfOrder :
    parse (fun _ _ => none) (Document.text ⟨noSpace, .object inOrder noSpace, noSpace⟩)
      = parse (fun _ _ => none) (Document.text ⟨noSpace, .object outOfOrder noSpace, noSpace⟩) := by
  have hin : inOrder.pairs (fun _ _ => none) = .ok [("a", .boolean true), ("b", .boolean false)] := rfl
  have hout : outOfOrder.pairs (fun _ _ => none)
      = .ok [("b", .boolean true), ("b", .boolean false), ("a", .boolean true)] := rfl
  refine (parse_object_eq_iff _ hin hout noSpace noSpace noSpace noSpace noSpace noSpace).2 ?_
  intro key
  by_cases ha : key = "a"
  · subst ha
    rfl
  · have hskip : (key == "a") = false := beq_false_of_ne ha
    by_cases hb : key = "b"
    · subst hb
      rfl
    · have hskip' : (key == "b") = false := beq_false_of_ne hb
      simp [List.lookup_cons, hskip, hskip']

/-! ## Bytes -/

/-- No byte of the text is a NUL. -/
def NoNul (w : Text) : Prop := ∀ b ∈ w, b ≠ 0

theorem noNul_nil : NoNul [] := by simp [NoNul]

theorem NoNul.append {w w' : Text} (h : NoNul w) (h' : NoNul w') : NoNul (w ++ w') :=
  List.forall_mem_append.2 ⟨h, h'⟩

theorem NoNul.cons {b : Byte} {w : Text} (hb : b ≠ 0) (h : NoNul w) : NoNul (b :: w) :=
  List.forall_mem_cons.2 ⟨hb, h⟩

theorem ne_zero_of_pos {b : Byte} (h : 0 < b.toNat) : b ≠ 0 := by
  rintro rfl
  exact absurd h (by decide)

theorem noNul_space (space : Space) : NoNul space.1 := by
  intro b hb
  have := space.2 b hb
  exact ne_zero_of_pos (by simp only [IsSpace] at this; omega)

theorem ne_zero_of_isDigit {b : Byte} (h : IsDigit b.toNat) : b ≠ 0 :=
  ne_zero_of_pos (by simp only [IsDigit, Char.reduceToNat] at h; omega)

theorem ne_zero_of_isHex {b : Byte} (h : IsHex b.toNat) : b ≠ 0 :=
  ne_zero_of_pos (by simp only [IsHex, IsDigit, Char.reduceToNat] at h; omega)

theorem noNul_encode {c : Char} (h : 0x20 ≤ c.toNat) : NoNul (Utf8.encode c) := by
  by_cases hascii : c.toNat ≤ 0x7F
  · rw [Utf8.encode_of_le c hascii]
    refine (NoNul.cons (ne_zero_of_pos ?_) noNul_nil)
    rw [BitVec.toNat_ofNat]
    omega
  · intro b hb
    have := Utf8.le_of_mem_multibyte (Utf8.multibyte_encode c (by omega)) hb
    exact ne_zero_of_pos (by omega)

theorem Piece.noNul (p : Piece) : NoNul p.text := by
  cases p with
  | plain c h => exact noNul_encode h.1
  | escape e => cases e <;> exact .cons (by decide) (.cons (by decide) noNul_nil)
  | unicode h =>
      exact .cons (by decide) (.cons (by decide) (.cons (ne_zero_of_isHex h.d₁.2)
        (.cons (ne_zero_of_isHex h.d₂.2) (.cons (ne_zero_of_isHex h.d₃.2)
          (.cons (ne_zero_of_isHex h.d₄.2) noNul_nil)))))

theorem Str.noNul (s : Str) : NoNul s.text := by
  refine .cons (by decide) (.append (fun b hb => ?_) (.cons (by decide) noNul_nil))
  obtain ⟨p, -, hp⟩ := List.mem_flatMap.1 hb
  exact p.noNul b hp

theorem noNul_digits {ds : Text} (h : ∀ d ∈ ds, IsDigit d.toNat) : NoNul ds :=
  fun d hd => ne_zero_of_isDigit (h d hd)

theorem Number.noNul (n : Number) : NoNul n.text := by
  refine .append ?_ (.append ?_ (.append ?_ ?_))
  · unfold signText
    split_ifs
    · exact .cons (by decide) noNul_nil
    · exact noNul_nil
  · cases n.int with
    | zero => exact .cons (by decide) noNul_nil
    | nonzero first hfirst digits hdigits =>
        exact .cons (ne_zero_of_isDigit hfirst.1) (noNul_digits hdigits)
  · unfold fractionText
    cases n.fraction with
    | none => exact noNul_nil
    | some ds => exact .cons (by decide) (noNul_digits ds.2.2)
  · unfold exponentText
    cases n.exponent with
    | none => exact noNul_nil
    | some e =>
        have hletter : e.letter.1 ≠ 0 := by
          have := e.letter.2
          exact ne_zero_of_pos (by simp only [IsExp, Char.reduceToNat] at this; omega)
        refine .cons hletter (.append ?_ (noNul_digits e.digits.2.2))
        cases e.sign with
        | none => exact noNul_nil
        | plus => exact .cons (by decide) noNul_nil
        | minus => exact .cons (by decide) noNul_nil

mutual

theorem Value.noNul : ∀ v : Value, NoNul v.text
  | .null => by unfold NoNul; decide
  | .boolean true => by unfold NoNul; decide
  | .boolean false => by unfold NoNul; decide
  | .string s => s.noNul
  | .number n => n.noNul
  | .emptyArray space => .cons (by decide) (.append (noNul_space space) (.cons (by decide) noNul_nil))
  | .array elems space =>
      .cons (by decide) (.append elems.noNul
        (.append (noNul_space space) (.cons (by decide) noNul_nil)))
  | .emptyObject space =>
      .cons (by decide) (.append (noNul_space space) (.cons (by decide) noNul_nil))
  | .object members space =>
      .cons (by decide) (.append members.noNul
        (.append (noNul_space space) (.cons (by decide) noNul_nil)))

theorem Elements.noNul : ∀ es : Elements, NoNul es.text
  | .one before v => .append (noNul_space before) v.noNul
  | .more before v after elems =>
      .append (noNul_space before) (.append v.noNul
        (.append (noNul_space after) (.cons (by decide) elems.noNul)))

theorem Members.noNul : ∀ ms : Members, NoNul ms.text
  | .one before key beforeColon afterColon v =>
      .append (noNul_space before) (.append key.noNul (.append (noNul_space beforeColon)
        (.cons (by decide) (.append (noNul_space afterColon) v.noNul))))
  | .more before key beforeColon afterColon v after members =>
      .append (noNul_space before) (.append key.noNul (.append (noNul_space beforeColon)
        (.cons (by decide) (.append (noNul_space afterColon) (.append v.noNul
          (.append (noNul_space after) (.cons (by decide) members.noNul)))))))

end

theorem Document.noNul (d : Document) : NoNul d.text :=
  .append (noNul_space d.before) (.append d.root.noNul (noNul_space d.after))

/-- The text in front of the first NUL. -/
def cString (text : Text) : Text := text.takeWhile (· ≠ 0)

theorem noNul_cString (text : Text) : NoNul (cString text) := by
  intro b hb
  simpa using List.mem_takeWhile_imp hb

theorem cString_append {w tail : Text} (hw : NoNul w) (htail : IsTail tail) :
    cString (w ++ tail) = w := by
  rw [cString, List.takeWhile_append_of_pos (fun b hb => decide_eq_true (hw b hb))]
  obtain rfl | ⟨garbage, rfl⟩ := htail
  · exact List.append_nil w
  · simp

theorem exists_cString_append (text : Text) : ∃ tail, text = cString text ++ tail ∧ IsTail tail := by
  refine ⟨text.dropWhile (· ≠ 0), List.takeWhile_append_dropWhile.symm, ?_⟩
  cases htail : text.dropWhile (· ≠ 0) with
  | nil => exact .inl rfl
  | cons b garbage =>
      have hb := List.head?_dropWhile_not (fun b : Byte => decide (b ≠ 0)) text
      simp only [htail, List.head?_cons, decide_eq_false_iff_not, not_not] at hb
      exact .inr ⟨garbage, by rw [hb]⟩

/-- **A text is read up to its first NUL**, as it would be without the rest. -/
theorem parse_cString (toDouble : ℤ → ℤ → Option Double) (text : Text) (j : Json) :
    parse toDouble text = .ok j ↔ parse toDouble (cString text) = .ok j := by
  constructor
  · intro h
    obtain ⟨d, tail, rfl, htail, hd⟩ := exists_document toDouble h
    have hparse := parse_document toDouble d (show IsTail [] from .inl rfl)
    rw [List.append_nil] at hparse
    rw [cString_append d.noNul htail, hparse, hd]
    rfl
  · intro h
    obtain ⟨tail, htext, htail⟩ := exists_cString_append text
    obtain ⟨d, tail', hd, htail', hvalue⟩ := exists_document toDouble h
    -- nothing follows the document in front of the NUL
    obtain rfl : tail' = [] := by
      obtain rfl | ⟨garbage, rfl⟩ := htail'
      · rfl
      · exact absurd (hd ▸ noNul_cString text) (by simp [NoNul])
    rw [List.append_nil] at hd
    rw [htext, hd, parse_document toDouble d htail, hvalue]
    rfl

end Grammar

end Json

end Gravioli
