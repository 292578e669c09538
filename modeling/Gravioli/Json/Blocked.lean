import Gravioli.Json.Soundness

set_option autoImplicit false

/-! # Texts that no document begins with

The counterpart of `Json.Prefixes`. `Blocks` says of a text that the parser cannot get past it: whatever
is written behind it, the parser does not return, however much fuel it has. The closure under context
is that of the beginnings, one lemma for each way to go on; it needs to know that the context is read as
before, so that the first token may not turn into a closing bracket.

The base cases are about one token. What follows a token does not change it, except that a number may
become a longer one, or an error (`eq_of_last_token`). -/

namespace Gravioli

namespace Json.Grammar

open Lexer Json.Parser

/-! ## A token and what follows it -/

/-- The tokens of numbers. -/
def IsNumber (t : TokenType) : Prop := t = .value_unsigned ∨ t = .value_integer ∨ t = .value_float

/-- The first byte of a token that is no number. -/
theorem exists_first_of_spelled {t : TokenType} {lexeme : Text} (h : Spelled t lexeme)
    (hnumber : ¬ IsNumber t) (herror : t ≠ .parse_error) :
    ∃ b w, lexeme = b :: w ∧ ¬ IsSpace b.toNat ∧ b ≠ chr '-' ∧ ¬ IsDigit b.toNat := by
  cases t with
  | uninitialized => exact absurd h id
  | value_unsigned => exact absurd (.inl rfl) hnumber
  | value_integer => exact absurd (.inr (.inl rfl)) hnumber
  | value_float => exact absurd (.inr (.inr rfl)) hnumber
  | parse_error => exact absurd rfl herror
  | value_string =>
      obtain ⟨s, rfl⟩ := h
      exact ⟨_, _, rfl, by decide, by decide, by decide⟩
  | _ =>
      obtain rfl := h
      exact ⟨_, _, rfl, by decide, by decide, by decide⟩

theorem dropWhile_space (space : Space) {b : Byte} (hb : ¬ IsSpace b.toNat) (w : Text) :
    (space.1 ++ b :: w).dropWhile (fun b => decide (IsSpace b.toNat)) = b :: w := by
  rw [List.dropWhile_append_of_pos (fun b hb => by simpa using space.2 b hb)]
  simp [hb]

/-- Where a number was read, whatever follows it, there is still a number or an error. -/
theorem last_token_number (space : Space) (n : Number) (u : Text) {t : TokenType}
    (h : (scan (space.1 ++ (n.text ++ u))).last_token = t) : IsNumber t ∨ t = .parse_error := by
  obtain ⟨b, w, htext, hb⟩ := exists_number_text_eq n
  have hspace : ¬ IsSpace b.toNat := by
    obtain rfl | hb := hb
    · decide
    · exact not_isSpace_of_isDigit hb
  rw [htext, List.cons_append] at h
  obtain ⟨hall, -⟩ | ⟨space', t', lexeme, rest, heq, hscan, -, hspelled⟩ :=
    scan_cases (space.1 ++ b :: (w ++ u))
  · exact absurd (hall b (by simp)) hspace
  · rw [hscan] at h
    obtain rfl : t' = t := h
    by_contra hother
    obtain ⟨hnumber, herror⟩ := not_or.1 hother
    obtain ⟨b', w', rfl, hspace', hminus, hdigit⟩ := exists_first_of_spelled hspelled hnumber herror
    have hdrop := dropWhile_space space hspace (w ++ u)
    rw [heq, List.cons_append, dropWhile_space space' hspace'] at hdrop
    obtain rfl : b' = b := (List.cons.inj hdrop).1
    exact hb.elim hminus hdigit

/-- What follows any other token does not change it. -/
theorem scan_spelled {t : TokenType} {lexeme : Text} (hspelled : Spelled t lexeme)
    (hnumber : ¬ IsNumber t) (herror : t ≠ .parse_error) (space : Space) (u : Text) :
    scan (space.1 ++ (lexeme ++ u)) = ⟨t, lexeme, u⟩ := by
  cases t with
  | uninitialized => exact absurd hspelled id
  | value_unsigned => exact absurd (.inl rfl) hnumber
  | value_integer => exact absurd (.inr (.inl rfl)) hnumber
  | value_float => exact absurd (.inr (.inr rfl)) hnumber
  | parse_error => exact absurd rfl herror
  | value_string =>
      obtain ⟨s, rfl⟩ := hspelled
      exact scan_str space s u
  | literal_true =>
      obtain rfl := hspelled
      exact scan_true space u
  | literal_false =>
      obtain rfl := hspelled
      exact scan_false space u
  | literal_null =>
      obtain rfl := hspelled
      exact scan_null space u
  | begin_array =>
      obtain rfl := hspelled
      exact scan_beginArray space u
  | begin_object =>
      obtain rfl := hspelled
      exact scan_beginObject space u
  | end_array =>
      obtain rfl := hspelled
      exact scan_endArray space u
  | end_object =>
      obtain rfl := hspelled
      exact scan_endObject space u
  | name_separator =>
      obtain rfl := hspelled
      exact scan_colon space u
  | value_separator =>
      obtain rfl := hspelled
      exact scan_comma space u
  | end_of_input =>
      obtain rfl := hspelled
      exact scan_of_run (q := .s2) (w := []) space (by decide) rfl rfl (fun _ => rfl) u

/-- A token of one kind does not turn into one of another kind, except that a number may turn into
    another number or into an error. -/
theorem eq_of_last_token {t : TokenType} {lexeme : Text} (hspelled : Spelled t lexeme)
    (herror : t ≠ .parse_error) (space : Space) (u : Text) {t' : TokenType}
    (h : (scan (space.1 ++ (lexeme ++ u))).last_token = t') (hnumber : ¬ IsNumber t')
    (herror' : t' ≠ .parse_error) : t = t' := by
  by_cases ht : IsNumber t
  · have hnumeral : ∃ n : Number, lexeme = n.text := by
      obtain rfl | rfl | rfl := ht <;> exact hspelled.imp (fun _ hn => hn.2)
    obtain ⟨n, rfl⟩ := hnumeral
    exact absurd (last_token_number space n u h) (not_or.2 ⟨hnumber, herror'⟩)
  · rwa [scan_spelled hspelled ht herror] at h

theorem spelled_of_scan {text lexeme rest : Text} {t : TokenType} (h : scan text = ⟨t, lexeme, rest⟩)
    (ht : t ≠ .end_of_input) : Spelled t lexeme ∧ lexeme ≠ [] := by
  obtain ⟨-, hscan⟩ | ⟨space, t', lexeme', rest', -, hscan, hne, hspelled⟩ := scan_cases text
  · exact absurd (congrArg Scanned.last_token (h.symm.trans hscan)) ht
  · obtain ⟨rfl, rfl, -⟩ := (Scanned.mk.injEq ..).mp (h.symm.trans hscan)
    exact ⟨hspelled, hne⟩

/-! ## What follows a value -/

/-- Only the first byte decides. -/
theorem numberEnd_of_append {w rest : Text} (hw : w ≠ []) (h : NumberEnd (w ++ rest)) (u : Text) :
    NumberEnd (w ++ u) := by
  obtain ⟨b, w, rfl⟩ := List.exists_cons_of_ne_nil hw
  exact h

theorem Value.endsBefore_of_append {w rest : Text} (hw : w ≠ []) (u : Text) :
    ∀ v : Value, v.EndsBefore (w ++ rest) → v.EndsBefore (w ++ u)
  | .number _, h => numberEnd_of_append hw h u
  | .null, _ => trivial
  | .boolean _, _ => trivial
  | .string _, _ => trivial
  | .emptyArray _, _ => trivial
  | .array _ _, _ => trivial
  | .emptyObject _, _ => trivial
  | .object _ _, _ => trivial

theorem Elements.endsBefore_of_append {w rest : Text} (hw : w ≠ []) (u : Text) :
    ∀ es : Elements, es.EndsBefore (w ++ rest) → es.EndsBefore (w ++ u)
  | .one _ v, h => v.endsBefore_of_append hw u h
  | .more _ _ _ es, h => es.endsBefore_of_append hw u h

theorem Members.endsBefore_of_append {w rest : Text} (hw : w ≠ []) (u : Text) :
    ∀ ms : Members, ms.EndsBefore (w ++ rest) → ms.EndsBefore (w ++ u)
  | .one _ _ _ _ v, h => v.endsBefore_of_append hw u h
  | .more _ _ _ _ _ _ ms, h => ms.endsBefore_of_append hw u h

/-! ## Blocked texts -/

section

variable (toDouble : ℤ → ℤ → Option Double)

/-- No value is read from `text`. -/
def NotValue (fuel : ℕ) (text : Text) : Prop :=
  ∀ r, parseInternal toDouble fuel (scan text) ≠ .ok r

/-- The loop over the elements of an array does not get through `text`. -/
def NotElements (fuel : ℕ) (text : Text) : Prop :=
  ∀ elems p r, skipSeparator p = scan text → parseElements toDouble fuel elems p ≠ .ok r

/-- The loop over the members of an object does not get through `text`. -/
def NotMembers (fuel : ℕ) (text : Text) : Prop :=
  ∀ members p r, skipSeparator p = scan text → parseMembers toDouble fuel members p ≠ .ok r

/-- Whatever follows `w`, it fails in the end, and does not begin with a closing bracket, unless the
    first token is one. -/
def Blocks (fails : ℕ → Text → Prop) (first : TokenType) (w : Text) : Prop :=
  ∀ u, (∀ t, t = .end_array ∨ t = .end_object → (scan (w ++ u)).last_token = t → first = t) ∧
    ∃ n, ∀ fuel, n ≤ fuel → fails fuel (w ++ u)

variable {toDouble}

/-- It is enough to look at sufficient fuel for one step. -/
theorem Blocks.of_succ {fails : ℕ → Text → Prop} {first : TokenType} {w : Text}
    (hfirst : ∀ u t, t = .end_array ∨ t = .end_object → (scan (w ++ u)).last_token = t → first = t)
    (hfails : ∀ u, ∃ n, ∀ fuel, n ≤ fuel → fails (fuel + 1) (w ++ u)) : Blocks fails first w := by
  refine fun u => ⟨hfirst u, ?_⟩
  obtain ⟨n, hn⟩ := hfails u
  refine ⟨n + 1, fun fuel hfuel => ?_⟩
  obtain ⟨fuel, rfl⟩ := Nat.exists_eq_add_of_le' (show 1 ≤ fuel by omega)
  exact hn fuel (Nat.le_of_succ_le_succ hfuel)

theorem Blocks.elements {first : TokenType} {w : Text} (h : Blocks (NotValue toDouble) first w) :
    Blocks (NotElements toDouble) first w := by
  refine .of_succ (fun u => (h u).1) (fun u => ?_)
  obtain ⟨n, hn⟩ := (h u).2
  refine ⟨n, fun fuel hfuel elems p r hp hok => ?_⟩
  rw [parseElements_succ, hp] at hok
  obtain ⟨r', hr', -⟩ := bind_eq_ok hok
  exact hn fuel hfuel r' hr'

/-- Behind an element and its comma. -/
theorem Blocks.more {first : TokenType} {w : Text} (h : Blocks (NotElements toDouble) first w)
    (before after : Space) {v : Value} {j : Json} (hv : v.value toDouble = .ok j) :
    Blocks (NotElements toDouble) v.token (before.1 ++ (v.text ++ (after.1 ++ chr ',' :: w))) := by
  have htext : ∀ u, (before.1 ++ (v.text ++ (after.1 ++ chr ',' :: w))) ++ u
      = before.1 ++ (v.text ++ (after.1 ++ chr ',' :: (w ++ u))) := fun u => by simp
  have hends : ∀ u, v.EndsBefore (after.1 ++ chr ',' :: (w ++ u)) :=
    fun u => v.endsBefore (numberEnd_append after (numberEnd_comma _))
  refine .of_succ (fun u t _ ht => ?_) (fun u => ?_)
  · rwa [htext, last_token_value before v (hends u)] at ht
  · obtain ⟨n, hn⟩ := (h u).2
    refine ⟨n + v.text.length + 1, fun fuel hfuel elems p r hp hok => ?_⟩
    obtain ⟨fuel, rfl⟩ := Nat.exists_eq_add_of_le' (show 1 ≤ fuel by omega)
    rw [htext] at hp
    rw [parseElements_succ, hp, parse_value toDouble v fuel before _ (by omega) (hends u), outcome, hv,
      scan_comma] at hok
    exact hn (fuel + 1) (by omega) _ _ r (skipSeparator_comma _) hok

/-- Behind a key and its colon. -/
theorem Blocks.members {first : TokenType} {w : Text} (h : Blocks (NotValue toDouble) first w)
    (before : Space) (key : Str) (beforeColon : Space) :
    Blocks (NotMembers toDouble) .value_string
      (before.1 ++ (key.text ++ (beforeColon.1 ++ chr ':' :: w))) := by
  have htext : ∀ u, (before.1 ++ (key.text ++ (beforeColon.1 ++ chr ':' :: w))) ++ u
      = before.1 ++ (key.text ++ (beforeColon.1 ++ chr ':' :: (w ++ u))) := fun u => by simp
  refine .of_succ (fun u t _ ht => ?_) (fun u => ?_)
  · rwa [htext, scan_str] at ht
  · obtain ⟨n, hn⟩ := (h u).2
    refine ⟨n, fun fuel hfuel members p r hp hok => ?_⟩
    rw [htext] at hp
    rw [parseMembers_key toDouble hp] at hok
    obtain ⟨k, -, hok⟩ := bind_eq_ok hok
    obtain ⟨r', hr', -⟩ := bind_eq_ok hok
    exact hn fuel hfuel r' hr'

/-- Behind a member and its comma. -/
theorem Blocks.moreMembers {first : TokenType} {w : Text} (h : Blocks (NotMembers toDouble) first w)
    (before : Space) (key : Str) (beforeColon afterColon after : Space) {v : Value} {j : Json}
    (hv : v.value toDouble = .ok j) :
    Blocks (NotMembers toDouble) .value_string
      (before.1 ++ (key.text ++ (beforeColon.1 ++ chr ':' ::
        (afterColon.1 ++ (v.text ++ (after.1 ++ chr ',' :: w)))))) := by
  have htext : ∀ u, (before.1 ++ (key.text ++ (beforeColon.1 ++ chr ':' ::
        (afterColon.1 ++ (v.text ++ (after.1 ++ chr ',' :: w)))))) ++ u
      = before.1 ++ (key.text ++ (beforeColon.1 ++ chr ':' ::
          (afterColon.1 ++ (v.text ++ (after.1 ++ chr ',' :: (w ++ u)))))) := fun u => by simp
  refine .of_succ (fun u t _ ht => ?_) (fun u => ?_)
  · rwa [htext, scan_str] at ht
  · obtain ⟨n, hn⟩ := (h u).2
    refine ⟨n + v.text.length + 1, fun fuel hfuel members p r hp hok => ?_⟩
    obtain ⟨fuel, rfl⟩ := Nat.exists_eq_add_of_le' (show 1 ≤ fuel by omega)
    rw [htext] at hp
    rw [parseMembers_key toDouble hp, parse_value toDouble v fuel afterColon _ (by omega)
      (v.endsBefore (numberEnd_append after (numberEnd_comma _))), outcome, hv, scan_comma] at hok
    obtain ⟨k, -, hok⟩ := bind_eq_ok hok
    exact hn (fuel + 1) (by omega) _ _ r (skipSeparator_comma _) hok

/-- Behind an opening bracket. -/
theorem Blocks.array {first : TokenType} {w : Text} (h : Blocks (NotElements toDouble) first w)
    (hfirst : first ≠ .end_array) (space : Space) :
    Blocks (NotValue toDouble) .begin_array (space.1 ++ chr '[' :: w) := by
  have htext : ∀ u, (space.1 ++ chr '[' :: w) ++ u = space.1 ++ chr '[' :: (w ++ u) := fun u => by simp
  refine .of_succ (fun u t _ ht => ?_) (fun u => ?_)
  · rwa [htext, scan_beginArray] at ht
  · obtain ⟨n, hn⟩ := (h u).2
    refine ⟨n, fun fuel hfuel r hok => ?_⟩
    have hend : (scan (w ++ u)).last_token ≠ .end_array :=
      fun hend => hfirst ((h u).1 .end_array (.inl rfl) hend)
    rw [htext, scan_beginArray] at hok
    by_cases hseparator : (scan (w ++ u)).last_token = .value_separator
    · exact absurd hok (by simp [parseInternal, getToken, hseparator, unexpect, bind, Except.bind])
    · rw [parseInternal_array toDouble (p := ⟨.begin_array, [chr '['], _⟩) rfl hend hseparator] at hok
      obtain ⟨r', hr', -⟩ := bind_eq_ok hok
      exact hn fuel hfuel [] _ r' (if_neg hseparator) hr'

theorem Blocks.object {first : TokenType} {w : Text} (h : Blocks (NotMembers toDouble) first w)
    (hfirst : first ≠ .end_object) (space : Space) :
    Blocks (NotValue toDouble) .begin_object (space.1 ++ chr '{' :: w) := by
  have htext : ∀ u, (space.1 ++ chr '{' :: w) ++ u = space.1 ++ chr '{' :: (w ++ u) := fun u => by simp
  refine .of_succ (fun u t _ ht => ?_) (fun u => ?_)
  · rwa [htext, scan_beginObject] at ht
  · obtain ⟨n, hn⟩ := (h u).2
    refine ⟨n, fun fuel hfuel r hok => ?_⟩
    have hend : (scan (w ++ u)).last_token ≠ .end_object :=
      fun hend => hfirst ((h u).1 .end_object (.inr rfl) hend)
    rw [htext, scan_beginObject] at hok
    by_cases hseparator : (scan (w ++ u)).last_token = .value_separator
    · exact absurd hok (by simp [parseInternal, getToken, hseparator, unexpect, bind, Except.bind])
    · rw [parseInternal_object toDouble (p := ⟨.begin_object, [chr '{'], _⟩) rfl hend hseparator] at hok
      obtain ⟨r', hr', -⟩ := bind_eq_ok hok
      exact hn fuel hfuel [] _ r' (if_neg hseparator) hr'

/-! ## One token -/

section

variable {t : TokenType} {lexeme : Text} (hspelled : Spelled t lexeme) (herror : t ≠ .parse_error)
  (space : Space)

include hspelled herror

/-- A closing bracket is one from the beginning. -/
theorem first_of_spelled (u : Text) (t' : TokenType) (ht' : t' = .end_array ∨ t' = .end_object)
    (h : (scan ((space.1 ++ lexeme) ++ u)).last_token = t') : t = t' := by
  rw [List.append_assoc] at h
  obtain rfl | rfl := ht'
  · exact eq_of_last_token hspelled herror space u h (by simp [IsNumber]) (by decide)
  · exact eq_of_last_token hspelled herror space u h (by simp [IsNumber]) (by decide)

/-- No value begins with a closing bracket or a separator. -/
theorem blocks_unexpected (ht : t = .end_array ∨ t = .end_object ∨ t = .name_separator ∨
    t = .value_separator) : Blocks (NotValue toDouble) t (space.1 ++ lexeme) := by
  refine .of_succ (first_of_spelled hspelled herror space) (fun u => ⟨0, fun fuel _ r hok => ?_⟩)
  have hnumber : ¬ IsNumber t := by
    obtain rfl | rfl | rfl | rfl := ht <;> simp [IsNumber]
  rw [List.append_assoc, scan_spelled hspelled hnumber herror] at hok
  obtain rfl | rfl | rfl | rfl := ht <;>
    exact absurd hok (by simp [parseInternal, unexpect, bind, Except.bind])

/-- A member begins with a string. -/
theorem blocks_noKey (ht : t ≠ .value_string) : Blocks (NotMembers toDouble) t (space.1 ++ lexeme) := by
  refine .of_succ (first_of_spelled hspelled herror space)
    (fun u => ⟨0, fun fuel _ members p r hp hok => ht ?_⟩)
  rw [parseMembers_succ, hp, List.append_assoc] at hok
  obtain ⟨_, hstring, -⟩ := bind_eq_ok hok
  exact eq_of_last_token hspelled herror space u (eq_of_expect hstring) (by simp [IsNumber]) (by decide)

/-- A colon stands behind a key. -/
theorem blocks_noColon (ht : t ≠ .name_separator) (before : Space) (key : Str) :
    Blocks (NotMembers toDouble) .value_string (before.1 ++ (key.text ++ (space.1 ++ lexeme))) := by
  have htext : ∀ u, (before.1 ++ (key.text ++ (space.1 ++ lexeme))) ++ u
      = before.1 ++ (key.text ++ (space.1 ++ (lexeme ++ u))) := fun u => by simp
  refine .of_succ (fun u t' _ h => ?_) (fun u => ⟨0, fun fuel _ members p r hp hok => ht ?_⟩)
  · rwa [htext, scan_str] at h
  · rw [parseMembers_succ, hp, htext, scan_str] at hok
    obtain ⟨_, -, hok⟩ := bind_eq_ok hok
    obtain ⟨_, -, hok⟩ := bind_eq_ok hok
    obtain ⟨_, hcolon, -⟩ := bind_eq_ok hok
    exact eq_of_last_token hspelled herror space u (eq_of_expect hcolon) (by simp [IsNumber])
      (by decide)

/-- A comma or the closing bracket stands behind an element. -/
theorem blocks_noEndArray (hne : lexeme ≠ []) (ht : t ≠ .end_array) (hseparator : t ≠ .value_separator)
    (before : Space) {es : Elements} {rest : Text}
    (hends : es.EndsBefore (space.1 ++ (lexeme ++ rest))) :
    Blocks (NotValue toDouble) .begin_array
      (before.1 ++ chr '[' :: (es.text ++ (space.1 ++ lexeme))) := by
  have htext : ∀ u, (before.1 ++ chr '[' :: (es.text ++ (space.1 ++ lexeme))) ++ u
      = before.1 ++ chr '[' :: (es.text ++ (space.1 ++ (lexeme ++ u))) := fun u => by simp
  have hends : ∀ u, es.EndsBefore (space.1 ++ (lexeme ++ u)) := by
    intro u
    rw [← List.append_assoc] at hends ⊢
    exact es.endsBefore_of_append (by simp [hne]) u hends
  have hcomma : ∀ u, (scan (space.1 ++ (lexeme ++ u))).last_token ≠ .value_separator := fun u h =>
    hseparator (eq_of_last_token hspelled herror space u h (by simp [IsNumber]) (by decide))
  refine .of_succ (fun u t' _ h => ?_) (fun u => ⟨es.text.length + 1, fun fuel hfuel r hok => ?_⟩)
  · rwa [htext, scan_beginArray] at h
  · obtain ⟨fuel, rfl⟩ := Nat.exists_eq_add_of_le' (show 1 ≤ fuel by omega)
    have hlast := last_token_elements es (hends u)
    rw [htext, scan_beginArray,
      parseInternal_array toDouble (p := ⟨.begin_array, [chr '['], _⟩) rfl hlast.2 hlast.1] at hok
    obtain ⟨r', hr', hok⟩ := bind_eq_ok hok
    have helems := parse_elements toDouble es fuel [] _ _ (by omega) (hends u) (hcomma u)
      (if_neg hlast.1)
    obtain ⟨js, -, rfl⟩ := map_eq_ok (helems.symm.trans hr')
    obtain ⟨_, hexpect, -⟩ := map_eq_ok hok
    exact ht (eq_of_last_token hspelled herror space u (eq_of_expect hexpect) (by simp [IsNumber])
      (by decide))

theorem blocks_noEndObject (hne : lexeme ≠ []) (ht : t ≠ .end_object)
    (hseparator : t ≠ .value_separator) (before : Space) {ms : Members} {rest : Text}
    (hends : ms.EndsBefore (space.1 ++ (lexeme ++ rest))) :
    Blocks (NotValue toDouble) .begin_object
      (before.1 ++ chr '{' :: (ms.text ++ (space.1 ++ lexeme))) := by
  have htext : ∀ u, (before.1 ++ chr '{' :: (ms.text ++ (space.1 ++ lexeme))) ++ u
      = before.1 ++ chr '{' :: (ms.text ++ (space.1 ++ (lexeme ++ u))) := fun u => by simp
  have hends : ∀ u, ms.EndsBefore (space.1 ++ (lexeme ++ u)) := by
    intro u
    rw [← List.append_assoc] at hends ⊢
    exact ms.endsBefore_of_append (by simp [hne]) u hends
  have hcomma : ∀ u, (scan (space.1 ++ (lexeme ++ u))).last_token ≠ .value_separator := fun u h =>
    hseparator (eq_of_last_token hspelled herror space u h (by simp [IsNumber]) (by decide))
  refine .of_succ (fun u t' _ h => ?_) (fun u => ⟨ms.text.length + 1, fun fuel hfuel r hok => ?_⟩)
  · rwa [htext, scan_beginObject] at h
  · obtain ⟨fuel, rfl⟩ := Nat.exists_eq_add_of_le' (show 1 ≤ fuel by omega)
    have hlast := last_token_members ms (space.1 ++ (lexeme ++ u))
    have hfirst : (scan (ms.text ++ (space.1 ++ (lexeme ++ u)))).last_token ≠ .value_separator := by
      rw [hlast]
      decide
    have hclose : (scan (ms.text ++ (space.1 ++ (lexeme ++ u)))).last_token ≠ .end_object := by
      rw [hlast]
      decide
    rw [htext, scan_beginObject,
      parseInternal_object toDouble (p := ⟨.begin_object, [chr '{'], _⟩) rfl hclose hfirst] at hok
    obtain ⟨r', hr', hok⟩ := bind_eq_ok hok
    have hmembers := parse_members toDouble ms fuel [] _ _ (by omega) (hends u) (hcomma u)
      (if_neg hfirst)
    obtain ⟨pairs, -, rfl⟩ := map_eq_ok (hmembers.symm.trans hr')
    obtain ⟨_, hexpect, -⟩ := map_eq_ok hok
    exact ht (eq_of_last_token hspelled herror space u (eq_of_expect hexpect) (by simp [IsNumber])
      (by decide))

end

/-- A string that denotes no characters. -/
theorem blocks_string (space : Space) {s : Str} {what : String} (hs : s.value = .error what) :
    Blocks (NotValue toDouble) .value_string (space.1 ++ s.text) := by
  refine .of_succ (fun u t' _ h => ?_) (fun u => ⟨0, fun fuel _ r hok => ?_⟩)
  · rwa [List.append_assoc, scan_str] at h
  · rw [List.append_assoc, scan_str, parseInternal_string toDouble rfl] at hok
    obtain ⟨bytes, hbytes, -⟩ := map_eq_ok hok
    exact absurd (hs.symm.trans (value_of_getString (liftLexer_eq_ok hbytes))) (by simp)

theorem blocks_key (space : Space) {key : Str} {what : String} (hkey : key.value = .error what) :
    Blocks (NotMembers toDouble) .value_string (space.1 ++ key.text) := by
  refine .of_succ (fun u t' _ h => ?_) (fun u => ⟨0, fun fuel _ members p r hp hok => ?_⟩)
  · rwa [List.append_assoc, scan_str] at h
  · rw [parseMembers_succ, hp, List.append_assoc, scan_str] at hok
    obtain ⟨_, -, hok⟩ := bind_eq_ok hok
    obtain ⟨bytes, hbytes, -⟩ := bind_eq_ok hok
    exact absurd (hkey.symm.trans (value_of_getString (liftLexer_eq_ok hbytes))) (by simp)

/-! ## Documents -/

theorem Document.endsBefore (d : Document) : d.root.EndsBefore d.after.1 := by
  have hend : NumberEnd (d.after.1 ++ []) := numberEnd_append d.after (numberEnd_of_isTail (.inl rfl))
  rw [List.append_nil] at hend
  exact d.root.endsBefore hend

/-- No document begins with what blocks a value. -/
theorem not_documentPrefix_of_blocks {first : TokenType} {w : Text}
    (h : Blocks (NotValue toDouble) first w) : ¬ DocumentPrefix toDouble w := by
  rintro ⟨d, j, hd, u, htext⟩
  obtain ⟨n, hn⟩ := (h u).2
  have hparse := parse_value toDouble d.root (n + d.root.text.length) d.before d.after.1 (by omega)
    d.endsBefore
  rw [outcome, show d.root.value toDouble = .ok j from hd, ← Document.text, ← htext] at hparse
  exact hn _ (by omega) _ hparse

/-- Nothing but white space stands behind the value of a document. -/
theorem not_documentPrefix_append {t : TokenType} {lexeme : Text} (hspelled : Spelled t lexeme)
    (hne : lexeme ≠ []) (herror : t ≠ .parse_error) (ht : t ≠ .end_of_input) (before space : Space)
    {v : Value} {rest : Text} (hends : v.EndsBefore (space.1 ++ (lexeme ++ rest))) :
    ¬ DocumentPrefix toDouble (before.1 ++ (v.text ++ (space.1 ++ lexeme))) := by
  rintro ⟨d, j, hd, u, htext⟩
  have hends : v.EndsBefore (space.1 ++ (lexeme ++ u)) := by
    rw [← List.append_assoc] at hends ⊢
    exact v.endsBefore_of_append (by simp [hne]) u hends
  have hparse := parse_value toDouble d.root (v.text.length + d.root.text.length) d.before d.after.1
    (by omega) d.endsBefore
  have hparse' := parse_value toDouble v (v.text.length + d.root.text.length) before _ (by omega) hends
  have hsame : d.text = before.1 ++ (v.text ++ (space.1 ++ (lexeme ++ u))) := by simp [← htext]
  rw [outcome, show d.root.value toDouble = .ok j from hd, ← Document.text, hsame, hparse'] at hparse
  obtain ⟨j', -, h⟩ := map_eq_ok hparse
  have hscan : scan (space.1 ++ (lexeme ++ u)) = scan d.after.1 := (Prod.mk.inj h).2
  have hend := scan_tail d.after (show IsTail [] from .inl rfl)
  rw [List.append_nil, ← hscan] at hend
  exact ht (eq_of_last_token hspelled herror space u hend (by simp [IsNumber]) (by decide))

end

end Json.Grammar

end Gravioli
