import Gravioli.TestVector

set_option autoImplicit false

/-! # The test of the cipher

`testTV` encrypts the plaintext of every parsed test, compares the result with the ciphertext and
decrypts it again. What it accepts is decided by the parser as much as by the cipher: a test of the
`[DECRYPT]` section has the plaintext of the record before it. Since CFB has only one plaintext for
each ciphertext, a file of correct records passes if and only if that is its own plaintext
(`testTV_render_iff`). -/

namespace Gravioli

namespace TestVector

/-- `std::copy_n` into an array. `none`: it reads past the end of the vector. -/
def copyN (n : ℕ) (bytes : List Byte) : Option (Vector Byte n) :=
  if h : n ≤ bytes.length then some ⟨(bytes.take n).toArray, by simp [h]⟩ else none

/-- The assertions for one test. -/
def assertions (aes : BlockCipher) (t : Test) (key : Key) (iv : IV) : Bool :=
  let msg := Crypto.encryptWith aes t.plain key iv
  if msg ≠ t.cipher then false else Crypto.decrypt aes msg key iv = t.plain

/-- The loop of `testTV`, which the first failed assertion leaves. -/
def testAll (aes : BlockCipher) : List Test → Option Bool
  | [] => some true
  | t :: tv => do
      let key ← copyN keyBlocksize t.key
      let iv ← copyN ivBlocksize t.iv
      if assertions aes t key iv then testAll aes tv else some false

/-- `testTV` on a file with the content `f`: `true` if it passes. -/
def testTV (aes : BlockCipher) (filename : String) (f : Option (List Char)) : Option Bool :=
  match parseRSP filename f [] with
  | (.ok (), tv) => if 1 ≤ tv.length then testAll aes tv else some false
  | (.error _, _) => some false

/-- The cipher makes the ciphertext of the record from `plain`. -/
def Reproduces (aes : BlockCipher) (r : Test) (plain : List Byte) : Prop :=
  ∃ key iv, copyN keyBlocksize r.key = some key ∧ copyN ivBlocksize r.iv = some iv ∧
    Crypto.encryptWith aes plain key iv = r.cipher

variable {aes : BlockCipher}

/-- The second assertion never fails. -/
theorem assertions_iff (t : Test) (key : Key) (iv : IV) :
    assertions aes t key iv ↔ Crypto.encryptWith aes t.plain key iv = t.cipher := by
  unfold assertions
  by_cases h : Crypto.encryptWith aes t.plain key iv = t.cipher
  · simp [h.symm]
  · simp [h]

theorem testAll_iff (tv : List Test) :
    testAll aes tv = some true ↔ ∀ t ∈ tv, Reproduces aes t t.plain := by
  induction tv with
  | nil => simp [testAll]
  | cons t tv ih =>
      rw [List.forall_mem_cons, ← ih, Reproduces]
      cases hkey : copyN keyBlocksize t.key with
      | none => simp [testAll, hkey]
      | some key =>
          cases hiv : copyN ivBlocksize t.iv with
          | none => simp [testAll, hkey, hiv]
          | some iv =>
              by_cases h : assertions aes t key iv
              · have hcipher := (assertions_iff t key iv).1 h
                simp [testAll, hkey, hiv, h, hcipher]
              · have hcipher := (assertions_iff t key iv).not.1 h
                simp [testAll, hkey, hiv, h, hcipher]

/-- There is one plaintext for each ciphertext. -/
theorem Reproduces.plain_eq {r : Test} {plain : List Byte} (h : Reproduces aes r r.plain) :
    Reproduces aes r plain ↔ plain = r.plain := by
  constructor
  · rintro ⟨key, iv, hkey, hiv, hcipher⟩
    obtain ⟨key', iv', hkey', hiv', hcipher'⟩ := h
    rw [hkey, Option.some.injEq] at hkey'
    rw [hiv, Option.some.injEq] at hiv'
    subst hkey' hiv'
    have hdecrypt := congrArg (fun msg => Crypto.decrypt aes msg key iv) (hcipher.trans hcipher'.symm)
    simpa using hdecrypt
  · rintro rfl
    exact h

/-- The tests of a `[DECRYPT]` section of correct records. -/
theorem reproduces_decryptTests (t : Test) {D : List Test} (h : ∀ r ∈ D, Reproduces aes r r.plain) :
    (∀ r ∈ decryptTests t D, Reproduces aes r r.plain) ↔ ∀ r ∈ D, r.plain = t.plain := by
  induction D generalizing t with
  | nil => simp [decryptTests]
  | cons r D ih =>
      obtain ⟨hr, hD⟩ := List.forall_mem_cons.1 h
      have hhead : Reproduces aes { r with plain := t.plain } t.plain ↔ r.plain = t.plain :=
        hr.plain_eq.trans eq_comm
      rw [decryptTests_cons, List.forall_mem_cons, List.forall_mem_cons, ih r hD, hhead]
      exact and_congr_right fun h => by rw [h]

/-- **The test passes exactly the right files.** On a file of the records `E` and `D`, the test passes
    only if the cipher reproduces all of `E`. If all records are correct, it passes if and only if
    there are any, and the `[DECRYPT]` section has only one plaintext, that of the last `[ENCRYPT]`
    record. -/
theorem testTV_render_iff (aes : BlockCipher) (filename : String) {comments : List (List Char)}
    (E D : List Test) (hcomments : ∀ c ∈ comments, '\n' ∉ c) (hlen : E.length + D.length < 2 ^ 31) :
    (testTV aes filename (some (render comments E D)) = some true →
      ∀ r ∈ E, Reproduces aes r r.plain) ∧
    ((∀ r ∈ E ++ D, Reproduces aes r r.plain) →
      (testTV aes filename (some (render comments E D)) = some true ↔
        E ++ D ≠ [] ∧ ∀ r ∈ D, r.plain = (E.getLastD {}).plain)) := by
  have hpass : testTV aes filename (some (render comments E D)) = some true ↔
      E ++ D ≠ [] ∧ (∀ r ∈ E, Reproduces aes r r.plain) ∧
        ∀ r ∈ decryptTests (E.getLastD {}) D, Reproduces aes r r.plain := by
    have hlength : (decryptTests (E.getLastD {}) D).length = D.length := by simp [decryptTests]
    rw [testTV, parseRSP_render filename E D hcomments hlen, ← List.forall_mem_append, ← testAll_iff,
      ← List.length_pos_iff_ne_nil]
    simp only [List.length_append, hlength]
    split
    · next h => exact (and_iff_right h).symm
    · next h => exact ⟨fun hfail => absurd hfail (by simp), fun hpass => absurd hpass.1 h⟩
  rw [hpass]
  refine ⟨fun h => h.2.1, fun hcorrect => ?_⟩
  obtain ⟨hE, hD⟩ := List.forall_mem_append.1 hcorrect
  rw [reproduces_decryptTests _ hD]
  exact and_congr_right fun _ => and_iff_right hE

/-- AES on the block of zeros, under the key of zeros; elsewhere it does not matter. -/
def zeroCipher : BlockCipher := fun _ _ =>
  #v[0x66, 0xe9, 0x4b, 0xd4, 0xef, 0x8a, 0x2c, 0x3b, 0x88, 0x4c, 0xfa, 0x59, 0xca, 0x34, 0x2b, 0x2e]

/-- Both records are correct, but the plaintexts differ, and the test fails. -/
theorem testTV_render_sample :
    testTV zeroCipher "CFB8.rsp" (some (render [" CAVS 11.1".toList] [sampleZero] [sampleOne]))
      ≠ some true := by
  have hcorrect : ∀ r ∈ [sampleZero] ++ [sampleOne], Reproduces zeroCipher r r.plain := by
    intro r hr
    simp only [List.singleton_append, List.mem_cons, List.not_mem_nil, or_false] at hr
    obtain rfl | rfl := hr <;> exact ⟨_, _, rfl, rfl, by decide⟩
  rw [Ne, (testTV_render_iff zeroCipher "CFB8.rsp" [sampleZero] [sampleOne] (by decide)
    (by decide)).2 hcorrect]
  decide

end TestVector

end Gravioli
