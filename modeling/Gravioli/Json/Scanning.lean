import Gravioli.Json.Tokens

set_option autoImplicit false

/-! # Scanning what the grammar spells

The spelling of a token leads the automaton to a state that accepts it and that only goes on where
another token cannot begin, so the scanner stops there (`scan_lexeme`). Only a number needs to know
what follows it. -/

namespace Gravioli

namespace Json.Grammar

open Lexer Scanner

/-- The scanner stops at a word that the automaton accepts and does not continue. -/
theorem scan_lexeme {space : Space} {b : Byte} {w rest : Text} {q : State} {t : TokenType}
    (hb : ¬ IsSpace b.toNat) (hrun : automaton.run .start (b :: w) = some q)
    (haccept : accept q = some t) (hstuck : ∀ b ∈ rest.head?, next q b.toNat = none) :
    scan (space.1 ++ (b :: w ++ rest)) = ⟨t, b :: w, rest⟩ := by
  have hdrop : (space.1 ++ (b :: w ++ rest)).dropWhile (fun b => decide (IsSpace b.toNat))
      = b :: w ++ rest := by
    rw [List.dropWhile_append_of_pos (fun b hb => by simpa using space.2 b hb)]
    simp [hb]
  rw [scan, hdrop, automaton.munch_of_stuck (by simp) hrun haccept hstuck]

/-- The same for a token after which the automaton never continues. -/
theorem scan_of_run (space : Space) {b : Byte} {w : Text} {q : State} {t : TokenType}
    (hb : ¬ IsSpace b.toNat) (hrun : automaton.run .start (b :: w) = some q)
    (haccept : accept q = some t) (hstuck : ∀ yych, next q yych = none) (rest : Text) :
    scan (space.1 ++ (b :: w ++ rest)) = ⟨t, b :: w, rest⟩ :=
  scan_lexeme hb hrun haccept (fun b _ => hstuck b.toNat)

/-- A token of one character. -/
theorem scan_char (space : Space) {c : Char} {q : State} {t : TokenType}
    (hc : ¬ IsSpace (chr c).toNat) (hfirst : first (chr c).toNat = q) (haccept : accept q = some t)
    (hstuck : ∀ yych, next q yych = none) (rest : Text) :
    scan (space.1 ++ chr c :: rest) = ⟨t, [chr c], rest⟩ :=
  scan_of_run (w := []) space hc (congrArg some hfirst) haccept hstuck rest

theorem scan_comma (space : Space) (rest : Text) :
    scan (space.1 ++ chr ',' :: rest) = ⟨.value_separator, [chr ','], rest⟩ :=
  scan_char (q := .s10) space (by decide) rfl rfl (fun _ => rfl) rest

theorem scan_colon (space : Space) (rest : Text) :
    scan (space.1 ++ chr ':' :: rest) = ⟨.name_separator, [chr ':'], rest⟩ :=
  scan_char (q := .s17) space (by decide) rfl rfl (fun _ => rfl) rest

theorem scan_beginArray (space : Space) (rest : Text) :
    scan (space.1 ++ chr '[' :: rest) = ⟨.begin_array, [chr '['], rest⟩ :=
  scan_char (q := .s19) space (by decide) rfl rfl (fun _ => rfl) rest

theorem scan_endArray (space : Space) (rest : Text) :
    scan (space.1 ++ chr ']' :: rest) = ⟨.end_array, [chr ']'], rest⟩ :=
  scan_char (q := .s21) space (by decide) rfl rfl (fun _ => rfl) rest

theorem scan_beginObject (space : Space) (rest : Text) :
    scan (space.1 ++ chr '{' :: rest) = ⟨.begin_object, [chr '{'], rest⟩ :=
  scan_char (q := .s26) space (by decide) rfl rfl (fun _ => rfl) rest

theorem scan_endObject (space : Space) (rest : Text) :
    scan (space.1 ++ chr '}' :: rest) = ⟨.end_object, [chr '}'], rest⟩ :=
  scan_char (q := .s28) space (by decide) rfl rfl (fun _ => rfl) rest

theorem scan_null (space : Space) (rest : Text) :
    scan (space.1 ++ (Value.null.text ++ rest)) = ⟨.literal_null, Value.null.text, rest⟩ :=
  scan_of_run (q := .s67) (b := chr 'n') space (by decide) rfl rfl (fun _ => rfl) rest

theorem scan_true (space : Space) (rest : Text) :
    scan (space.1 ++ ((Value.boolean true).text ++ rest))
      = ⟨.literal_true, (Value.boolean true).text, rest⟩ :=
  scan_of_run (q := .s69) (b := chr 't') space (by decide) rfl rfl (fun _ => rfl) rest

theorem scan_false (space : Space) (rest : Text) :
    scan (space.1 ++ ((Value.boolean false).text ++ rest))
      = ⟨.literal_false, (Value.boolean false).text, rest⟩ :=
  scan_of_run (q := .s72) (b := chr 'f') space (by decide) rfl rfl (fun _ => rfl) rest

/-! ## Strings -/

theorem inString_of_plain {yych : ℕ} (h : IsPlain yych) : inString yych = some .s31 := by
  rw [inString, if_pos h]

/-- The lead byte of a longer sequence. -/
theorem inString_of_le {yych : ℕ} (h : 0xC2 ≤ yych) :
    inString yych =
      if yych ≤ 0xDF then some .s36
      else if yych = 0xE0 then some .s37
      else if yych = 0xED then some .s39
      else if yych ≤ 0xEF then some .s38
      else if yych = 0xF0 then some .s40
      else if yych ≤ 0xF3 then some .s41
      else if yych = 0xF4 then some .s42
      else none := by
  have hquote : yych ≠ '"'.toNat := by simp only [Char.reduceToNat]; omega
  have hbackslash : yych ≠ '\\'.toNat := by simp only [Char.reduceToNat]; omega
  rw [inString, if_neg (fun hplain => by have := hplain.2.1; omega), if_neg (by omega),
    if_neg hquote, if_neg hbackslash, if_neg (by omega)]

theorem within_of {low high yych : ℕ} {q : State} (h : low ≤ yych ∧ yych ≤ high) :
    within low high q yych = some q := if_pos h

theorem run_step {q r : State} {b : Byte} (h : next q b.toNat = some r) (w : Text) :
    automaton.run q (b :: w) = automaton.run r w :=
  automaton.run_cons_of_next h w

/-- Reading a well-formed sequence inside a string. -/
theorem run_multibyte {m : Text} (hm : Utf8.Multibyte m) (w : Text) :
    automaton.run .s31 (m ++ w) = automaton.run .s31 w := by
  cases hm with
  | @two a b ha hb =>
      have h₁ : inString a.toNat = some .s36 := by rw [inString_of_le (by omega), if_pos ha.2]
      exact (run_step (q := .s31) h₁ _).trans (run_step (q := .s36) (within_of hb) w)
  | @three a b c ha hb hc hlow hhigh =>
      have h₁ : ∃ q, inString a.toNat = some q ∧ next q b.toNat = some .s36 := by
        rw [inString_of_le (by omega), if_neg (by omega)]
        by_cases hE0 : a.toNat = 0xE0
        · exact ⟨.s37, if_pos hE0, within_of ⟨hlow hE0, hb.2⟩⟩
        by_cases hED : a.toNat = 0xED
        · exact ⟨.s39, by rw [if_neg hE0, if_pos hED], within_of ⟨hb.1, hhigh hED⟩⟩
        · exact ⟨.s38, by rw [if_neg hE0, if_neg hED, if_pos ha.2], within_of hb⟩
      obtain ⟨q, hfirst, hsecond⟩ := h₁
      exact (run_step (q := .s31) hfirst _).trans
        ((run_step hsecond _).trans (run_step (q := .s36) (within_of hc) w))
  | @four a b c d ha hb hc hd hlow hhigh =>
      have h₁ : ∃ q, inString a.toNat = some q ∧ next q b.toNat = some .s38 := by
        rw [inString_of_le (by omega), if_neg (by omega), if_neg (by omega), if_neg (by omega),
          if_neg (by omega)]
        by_cases hF0 : a.toNat = 0xF0
        · exact ⟨.s40, if_pos hF0, within_of ⟨hlow hF0, hb.2⟩⟩
        by_cases hF3 : a.toNat ≤ 0xF3
        · exact ⟨.s41, by rw [if_neg hF0, if_pos hF3], within_of hb⟩
        · have hF4 : a.toNat = 0xF4 := by omega
          exact ⟨.s42, by rw [if_neg hF0, if_neg hF3, if_pos hF4], within_of ⟨hb.1, hhigh hF4⟩⟩
      obtain ⟨q, hfirst, hsecond⟩ := h₁
      exact (run_step (q := .s31) hfirst _).trans
        ((run_step hsecond _).trans
          ((run_step (q := .s38) (within_of hc) _).trans
            (run_step (q := .s36) (within_of hd) w)))

theorem isPlain_of_plain {c : Char} (h : 0x20 ≤ c.toNat ∧ c ≠ '"' ∧ c ≠ '\\')
    (hc : c.toNat ≤ 0x7F) : IsPlain c.toNat :=
  ⟨h.1, hc, fun heq => h.2.1 (Char.toNat_inj.1 heq), fun heq => h.2.2 (Char.toNat_inj.1 heq)⟩

theorem inEscape_letter (e : Escape) : inEscape (chr e.letter).toNat = some .s31 := by
  cases e <;> rfl

theorem run_piece (p : Piece) (w : Text) :
    automaton.run .s31 (p.text ++ w) = automaton.run .s31 w := by
  cases p with
  | plain c h =>
      by_cases hc : c.toNat ≤ 0x7F
      · have hplain : inString (BitVec.ofNat 8 c.toNat).toNat = some .s31 := by
          rw [BitVec.toNat_ofNat, Nat.mod_eq_of_lt (by omega)]
          exact inString_of_plain (isPlain_of_plain h hc)
        rw [Piece.text, Utf8.encode_of_le c hc]
        exact run_step (q := .s31) hplain w
      · exact run_multibyte (Utf8.multibyte_encode c (by omega)) w
  | escape e =>
      exact (run_step (q := .s31) (r := .s35) rfl _).trans
        (run_step (q := .s35) (inEscape_letter e) w)
  | unicode h =>
      exact (run_step (q := .s31) (r := .s35) rfl _).trans
        ((run_step (q := .s35) (r := .s55) rfl _).trans
          ((run_step (q := .s55) (if_pos h.d₁.2) _).trans
            ((run_step (q := .s65) (if_pos h.d₂.2) _).trans
              ((run_step (q := .s71) (if_pos h.d₃.2) _).trans
                (run_step (q := .s74) (if_pos h.d₄.2) w)))))

theorem run_pieces (pieces : List Piece) (w : Text) :
    automaton.run .s31 (pieces.flatMap Piece.text ++ w) = automaton.run .s31 w := by
  induction pieces with
  | nil => rfl
  | cons p pieces ih => rw [List.flatMap_cons, List.append_assoc, run_piece, ih]

/-- Directly after the opening quote the automaton does what it does inside the string. -/
theorem next_s9_of_inString {yych : ℕ} {q : State} (h : inString yych = some q) :
    next .s9 yych = some q := by
  by_cases hlow : yych ≤ 0x7F
  · have hge : ¬ yych ≤ 0x1F := by
      intro hle
      rw [inString, if_neg (fun hplain => by have := hplain.1; omega), if_pos hle] at h
      exact absurd h (by simp)
    -- by computation, branch by branch: the equations of `next` go through all labels
    exact (if_neg hge).trans ((if_pos hlow).trans h)
  · have hge : 0xC2 ≤ yych := by
      by_contra hlt
      have hquote : yych ≠ '"'.toNat := by simp only [Char.reduceToNat]; omega
      have hbackslash : yych ≠ '\\'.toNat := by simp only [Char.reduceToNat]; omega
      rw [inString, if_neg (fun hplain => hlow hplain.2.1), if_neg (by omega), if_neg hquote,
        if_neg hbackslash, if_pos (by omega)] at h
      exact absurd h (by simp)
    have hle : yych ≤ 0xF4 := by
      by_contra hgt
      rw [inString_of_le hge, if_neg (by omega), if_neg (by omega), if_neg (by omega),
        if_neg (by omega), if_neg (by omega), if_neg (by omega), if_neg (by omega)] at h
      exact absurd h (by simp)
    exact (if_neg (by omega)).trans
      ((if_neg hlow).trans ((if_neg (by omega)).trans ((if_pos hle).trans h)))

theorem run_str (s : Str) : automaton.run .start s.text = some .s33 := by
  have hinside : automaton.run .s31 (s.body ++ [chr '"']) = some .s33 := run_pieces s.pieces _
  obtain ⟨b, w, hbody⟩ : ∃ b w, s.body ++ [chr '"'] = b :: w :=
    List.exists_cons_of_ne_nil (by simp)
  rw [hbody] at hinside
  obtain ⟨q, hnext, hrun⟩ := automaton.run_cons_eq_some.1 hinside
  rw [Str.text, hbody]
  exact automaton.run_cons_eq_some.2
    ⟨.s9, rfl, automaton.run_cons_eq_some.2 ⟨q, next_s9_of_inString hnext, hrun⟩⟩

theorem scan_str (space : Space) (s : Str) (rest : Text) :
    scan (space.1 ++ (s.text ++ rest)) = ⟨.value_string, s.text, rest⟩ :=
  scan_of_run space (by decide) (run_str s) rfl (fun _ => rfl) rest

/-! ## Numbers -/

/-- What follows cannot continue a number. -/
def NumberEnd (rest : Text) : Prop :=
  ∀ b ∈ rest.head?, b ≠ chr '.' ∧ ¬ IsDigit b.toNat ∧ ¬ IsExp b.toNat

theorem run_digits {q : State} (hq : ∀ yych, IsDigit yych → next q yych = some q) {ds : Text}
    (hds : ∀ d ∈ ds, IsDigit d.toNat) (w : Text) :
    automaton.run q (ds ++ w) = automaton.run q w := by
  induction ds with
  | nil => rfl
  | cons d ds ih =>
      rw [List.cons_append, automaton.run_cons_of_next (hq _ (hds d (by simp)))]
      exact ih (fun d hd => hds d (by simp [hd]))

theorem ne_of_isDigit {yych : ℕ} (h : IsDigit yych) {c : Char}
    (hc : c.toNat < '0'.toNat ∨ '9'.toNat < c.toNat) : yych ≠ c.toNat := by
  rintro rfl
  obtain ⟨hlow, hhigh⟩ := h
  omega

theorem not_isDigit_of_isExp {yych : ℕ} (h : IsExp yych) : ¬ IsDigit yych := by
  simp only [IsDigit, IsExp, Char.reduceToNat] at h ⊢
  omega

theorem inInteger_digit {digit : State} {yych : ℕ} (h : IsDigit yych) :
    inInteger digit yych = some digit := by
  rw [inInteger, if_neg (ne_of_isDigit h (by decide)), if_pos h]

theorem inInteger_exp {digit : State} {yych : ℕ} (h : IsExp yych) :
    inInteger digit yych = some .s51 := by
  have hpoint : yych ≠ '.'.toNat := by
    simp only [IsExp, Char.reduceToNat] at h ⊢
    omega
  rw [inInteger, if_neg hpoint, if_neg (not_isDigit_of_isExp h), if_pos h]

theorem inInteger_end {digit : State} {b : Byte} (hpoint : b ≠ chr '.') (hdigit : ¬ IsDigit b.toNat)
    (hexp : ¬ IsExp b.toNat) : inInteger digit b.toNat = none := by
  rw [inInteger, if_neg (fun h => hpoint (eq_chr_of_toNat h)), if_neg hdigit, if_neg hexp]

theorem first_of_isDigit {yych : ℕ} (h : IsDigit yych) (hzero : yych ≠ '0'.toNat) :
    first yych = .s15 := by
  have hnul : yych ≠ 0 := fun heq => absurd h (by rw [heq]; decide)
  rw [first, if_neg hnul, if_neg (ne_of_isDigit h (by decide)), if_neg (ne_of_isDigit h (by decide)),
    if_neg (ne_of_isDigit h (by decide)), if_neg hzero, if_pos h]

/-- The state after the integer part. -/
def integerState : Bool → IntPart → State
  | false, .zero => .s13
  | false, .nonzero .. => .s15
  | true, .zero => .s43
  | true, .nonzero .. => .s45

theorem integerState_eq (negative : Bool) (int : IntPart) :
    ∃ digit, ∀ yych, next (integerState negative int) yych = inInteger digit yych := by
  cases negative <;> cases int <;> exact ⟨_, fun _ => rfl⟩

theorem run_integer (negative : Bool) (int : IntPart) (w : Text) :
    automaton.run .start ((integer negative int).signText ++ (int.text ++ w))
      = automaton.run (integerState negative int) w := by
  cases int with
  | zero => cases negative <;> rfl
  | nonzero first hfirst ds hds =>
      have hzero : first.toNat ≠ '0'.toNat := fun h => hfirst.2 (eq_chr_of_toNat h)
      cases negative with
      | false =>
          exact (run_step (q := .start) (congrArg some (first_of_isDigit hfirst.1 hzero)) _).trans
            (run_digits (q := .s15) (fun _ h => inInteger_digit h) hds w)
      | true =>
          have hfirst' : next .s12 first.toNat = some .s45 := by
            exact (if_neg hzero).trans (if_pos hfirst.1)
          exact (run_step (q := .start) (r := .s12) rfl _).trans
            ((run_step hfirst' _).trans
              (run_digits (q := .s45) (fun _ h => inInteger_digit h) hds w))

theorem run_fraction {q : State} {digit : State} (hq : ∀ yych, next q yych = inInteger digit yych)
    (ds : Digits) (w : Text) :
    automaton.run q (chr '.' :: (ds.1 ++ w)) = automaton.run .s56 w := by
  obtain ⟨ds, hne, hds⟩ := ds
  obtain ⟨d, ds, rfl⟩ := List.exists_cons_of_ne_nil hne
  have hpoint : next q (chr '.').toNat = some .s47 := hq _
  have hdigit : next .s47 d.toNat = some .s56 := if_pos (hds d (by simp))
  exact (run_step hpoint _).trans
    ((run_step hdigit _).trans
      (run_digits (q := .s56) (fun _ h => if_pos h) (fun d hd => hds d (by simp [hd])) w))

theorem run_exponent {q : State} (hq : ∀ yych, IsExp yych → next q yych = some .s51) (e : Exponent)
    (w : Text) : automaton.run q (e.text ++ w) = automaton.run .s60 w := by
  obtain ⟨letter, sign, ds, hne, hds⟩ := e
  obtain ⟨d, ds, rfl⟩ := List.exists_cons_of_ne_nil hne
  have hdigits : automaton.run .s60 (ds ++ w) = automaton.run .s60 w :=
    run_digits (q := .s60) (fun _ h => if_pos h) (fun d hd => hds d (by simp [hd])) w
  have hd : IsDigit d.toNat := hds d (by simp)
  refine (run_step (hq _ letter.2) _).trans ?_
  cases sign with
  | none =>
      have hsign : ¬ (d.toNat = '+'.toNat ∨ d.toNat = '-'.toNat) := fun h =>
        h.elim (ne_of_isDigit hd (by decide)) (ne_of_isDigit hd (by decide))
      have hfirst : next .s51 d.toNat = some .s60 := (if_neg hsign).trans (if_pos hd)
      exact (run_step hfirst _).trans hdigits
  | plus =>
      exact (run_step (q := .s51) (r := .s59) rfl _).trans
        ((run_step (q := .s59) (if_pos hd) _).trans hdigits)
  | minus =>
      exact (run_step (q := .s51) (r := .s59) rfl _).trans
        ((run_step (q := .s59) (if_pos hd) _).trans hdigits)

/-- The state after a number. -/
def numberState (n : Number) : State :=
  if n.exponent.isSome then .s60
  else if n.fraction.isSome then .s56
  else integerState n.negative n.int

theorem run_number (n : Number) : automaton.run .start n.text = some (numberState n) := by
  obtain ⟨negative, int, fraction, exponent⟩ := n
  obtain ⟨digit, hdigit⟩ := integerState_eq negative int
  refine (run_integer negative int _).trans ?_
  cases fraction with
  | none =>
      cases exponent with
      | none => rfl
      | some e =>
          have := run_exponent (fun _ h => by rw [hdigit, inInteger_exp h]) e []
          rwa [List.append_nil] at this
  | some fraction =>
      refine (run_fraction hdigit fraction _).trans ?_
      cases exponent with
      | none => rfl
      | some e =>
          have := run_exponent (q := .s56)
            (fun _ h => (if_neg (not_isDigit_of_isExp h)).trans (if_pos h)) e []
          rwa [List.append_nil] at this

theorem accept_numberState (n : Number) : accept (numberState n) = some n.token := by
  obtain ⟨negative, int, fraction, exponent⟩ := n
  cases exponent with
  | some e => simp [numberState, Number.token, Number.IsInteger, accept]
  | none =>
      cases fraction with
      | some fraction => simp [numberState, Number.token, Number.IsInteger, accept]
      | none =>
          cases negative <;> cases int <;> rfl

theorem next_numberState (n : Number) {b : Byte} (hpoint : b ≠ chr '.') (hdigit : ¬ IsDigit b.toNat)
    (hexp : ¬ IsExp b.toNat) : next (numberState n) b.toNat = none := by
  unfold numberState
  split
  · exact if_neg hdigit
  split
  · exact (if_neg hdigit).trans (if_neg hexp)
  · obtain ⟨digit, hnext⟩ := integerState_eq n.negative n.int
    rw [hnext, inInteger_end hpoint hdigit hexp]

/-- A number starts with a minus sign or a digit. -/
theorem exists_number_text_eq (n : Number) :
    ∃ b w, n.text = b :: w ∧ (b = chr '-' ∨ IsDigit b.toNat) := by
  obtain ⟨negative, int, fraction, exponent⟩ := n
  cases negative with
  | true => exact ⟨_, _, rfl, .inl rfl⟩
  | false =>
      cases int with
      | zero => exact ⟨_, _, rfl, .inr (by decide)⟩
      | nonzero first hfirst ds hds => exact ⟨_, _, rfl, .inr hfirst.1⟩

theorem not_isSpace_of_isDigit {yych : ℕ} (h : IsDigit yych) : ¬ IsSpace yych := by
  simp only [IsDigit, IsSpace, Char.reduceToNat] at h ⊢
  omega

theorem scan_number (space : Space) (n : Number) {rest : Text} (hrest : NumberEnd rest) :
    scan (space.1 ++ (n.text ++ rest)) = ⟨n.token, n.text, rest⟩ := by
  obtain ⟨b, w, htext, hb⟩ := exists_number_text_eq n
  have hrun := run_number n
  rw [htext] at hrun ⊢
  refine scan_lexeme ?_ hrun (accept_numberState n) ?_
  · obtain rfl | hb := hb
    · decide
    · exact not_isSpace_of_isDigit hb
  · intro b hb
    obtain ⟨hpoint, hdigit, hexp⟩ := hrest b hb
    exact next_numberState n hpoint hdigit hexp

end Json.Grammar

end Gravioli
