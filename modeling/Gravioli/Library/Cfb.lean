import Mathlib.Data.LawfulXor.Basic
import Mathlib.Data.Vector.Basic
import Mathlib.Tactic.Common

set_option autoImplicit false

/-! # Cipher feedback mode with full-block feedback

CFB over an arbitrary block function `E` on blocks of `n` symbols of `w` bits. A block of the
message is masked with `E` of the feedback register; the masked block becomes the next register. The
last block may be shorter than `n` and ends the message.

Nothing is assumed about `E`: decryption computes the same masks because the register is always a
ciphertext block, so `decrypt_encrypt` holds for every function `E`, permutation or not. The
recursion is on a number of blocks; one block for each symbol is always enough.

A message is its own ciphertext exactly when the key stream is zero over it
(`encrypt_eq_self_iff`). -/

namespace Cfb

variable {w n : ℕ}

/-- Mask a (possibly short) block with a block of key stream. -/
def maskBlock (b : List (BitVec w)) (ks : Vector (BitVec w) n) : List (BitVec w) :=
  List.zipWith (· ^^^ ·) b ks.toList

theorem length_maskBlock (b : List (BitVec w)) (ks : Vector (BitVec w) n) (h : b.length ≤ n) :
    (maskBlock b ks).length = b.length := by
  simp [maskBlock, h]

/-- Masking twice with the same key stream is the identity. -/
theorem maskBlock_maskBlock (b : List (BitVec w)) (ks : Vector (BitVec w) n) (h : b.length ≤ n) :
    maskBlock (maskBlock b ks) ks = b := by
  apply List.ext_getElem
  · simp [maskBlock, h]
  · intro i h₁ h₂
    simp [maskBlock]

/-- A list of exactly `n` symbols as a block. -/
def toBlock (c : List (BitVec w)) (h : c.length = n) : Vector (BitVec w) n := ⟨c.toArray, by simpa⟩

@[simp] theorem toBlock_toList (v : Vector (BitVec w) n) (h : v.toList.length = n) :
    toBlock v.toList h = v := by
  apply Vector.toList_inj.1
  rfl

/-- Encrypt at most `blocks` blocks of `msg`, starting from the register `reg`. -/
def encryptBlocks (E : Vector (BitVec w) n → Vector (BitVec w) n) :
    ℕ → Vector (BitVec w) n → List (BitVec w) → List (BitVec w)
  | 0, _, _ => []
  | blocks + 1, reg, msg =>
      let c := maskBlock (msg.take n) (E reg)
      if h : c.length = n then c ++ encryptBlocks E blocks (toBlock c h) (msg.drop n) else c

/-- Decrypt at most `blocks` blocks of `cipher`; the register is fed with ciphertext. -/
def decryptBlocks (E : Vector (BitVec w) n → Vector (BitVec w) n) :
    ℕ → Vector (BitVec w) n → List (BitVec w) → List (BitVec w)
  | 0, _, _ => []
  | blocks + 1, reg, cipher =>
      let c := cipher.take n
      if h : c.length = n then
        maskBlock c (E reg) ++ decryptBlocks E blocks (toBlock c h) (cipher.drop n)
      else maskBlock c (E reg)

/-- CFB encryption of a message of any length. -/
def encrypt (E : Vector (BitVec w) n → Vector (BitVec w) n) (iv : Vector (BitVec w) n)
    (msg : List (BitVec w)) : List (BitVec w) :=
  encryptBlocks E msg.length iv msg

/-- CFB decryption of a ciphertext of any length. -/
def decrypt (E : Vector (BitVec w) n → Vector (BitVec w) n) (iv : Vector (BitVec w) n)
    (cipher : List (BitVec w)) : List (BitVec w) :=
  decryptBlocks E cipher.length iv cipher

section RoundTrip

variable (E : Vector (BitVec w) n → Vector (BitVec w) n)

theorem length_encryptBlocks (blocks : ℕ) (reg : Vector (BitVec w) n)
    (msg : List (BitVec w)) (h : msg.length ≤ blocks * n) :
    (encryptBlocks E blocks reg msg).length = msg.length := by
  induction blocks generalizing reg msg with
  | zero => simp_all [encryptBlocks]
  | succ blocks ih =>
      have hmask : (maskBlock (msg.take n) (E reg)).length = min n msg.length := by
        rw [length_maskBlock _ _ (by simp), List.length_take]
      simp only [encryptBlocks]
      split
      · next hfull =>
          have hdrop : (msg.drop n).length ≤ blocks * n := by
            rw [List.length_drop]
            rw [Nat.add_one_mul] at h
            omega
          rw [List.length_append, ih _ _ hdrop, hmask, List.length_drop]
          omega
      · next hshort => omega

/-- Block by block: the ciphertext block is both what is sent and the next register, so the
    decryptor masks with the same key stream. -/
theorem decryptBlocks_encryptBlocks (blocks : ℕ) (reg : Vector (BitVec w) n)
    (msg : List (BitVec w)) (h : msg.length ≤ blocks * n) :
    decryptBlocks E blocks reg (encryptBlocks E blocks reg msg) = msg := by
  induction blocks generalizing reg msg with
  | zero => simp_all [decryptBlocks]
  | succ blocks ih =>
      have hlen : (maskBlock (msg.take n) (E reg)).length = min n msg.length := by
        rw [length_maskBlock _ _ (by simp), List.length_take]
      have hunmask : maskBlock (maskBlock (msg.take n) (E reg)) (E reg) = msg.take n :=
        maskBlock_maskBlock _ _ (by simp)
      simp only [encryptBlocks]
      by_cases hfull : (maskBlock (msg.take n) (E reg)).length = n
      · have hdrop : (msg.drop n).length ≤ blocks * n := by
          rw [List.length_drop]
          rw [Nat.add_one_mul] at h
          omega
        simp only [dif_pos hfull, decryptBlocks, List.take_left' hfull, List.drop_left' hfull]
        rw [hunmask, ih _ _ hdrop, List.take_append_drop]
      · have htake : msg.take n = msg := List.take_of_length_le (by omega)
        have hcut : (maskBlock (msg.take n) (E reg)).take n = maskBlock (msg.take n) (E reg) :=
          List.take_of_length_le (by omega)
        rw [dif_neg hfull]
        simp only [decryptBlocks]
        rw [dif_neg (by rw [hcut]; exact hfull), hcut, hunmask, htake]

theorem length_encrypt (hn : 0 < n) (iv : Vector (BitVec w) n) (msg : List (BitVec w)) :
    (encrypt E iv msg).length = msg.length :=
  length_encryptBlocks E _ iv msg (Nat.le_mul_of_pos_right _ hn)

/-- **CFB round trip**, for every block function and every message length. -/
theorem decrypt_encrypt (hn : 0 < n) (iv : Vector (BitVec w) n) (msg : List (BitVec w)) :
    decrypt E iv (encrypt E iv msg) = msg := by
  unfold decrypt
  rw [length_encrypt E hn]
  exact decryptBlocks_encryptBlocks E _ iv msg (Nat.le_mul_of_pos_right _ hn)

end RoundTrip

/-! ## Messages that encryption does not change -/

section Blank

variable (E : Vector (BitVec w) n → Vector (BitVec w) n)

/-- Over at most `blocks` blocks of `msg` the key stream is zero wherever there is a symbol to
    mask. The registers after the first are then blocks of the message itself. -/
def BlankBlocks : ℕ → Vector (BitVec w) n → List (BitVec w) → Prop
  | 0, _, _ => True
  | blocks + 1, reg, msg =>
      (∀ i, (h : i < n) → i < msg.length → (E reg)[i] = 0) ∧
        ∀ h : (msg.take n).length = n, BlankBlocks blocks (toBlock (msg.take n) h) (msg.drop n)

/-- The key stream over the whole message is zero. -/
def Blank (iv : Vector (BitVec w) n) (msg : List (BitVec w)) : Prop :=
  BlankBlocks E msg.length iv msg

/-- A mask that changes nothing is zero. -/
theorem maskBlock_eq_self_iff (b : List (BitVec w)) (ks : Vector (BitVec w) n) (h : b.length ≤ n) :
    maskBlock b ks = b ↔ ∀ i, (hi : i < n) → i < b.length → ks[i] = 0 := by
  constructor
  · intro hmask i hi hlt
    have hmasked : i < (maskBlock b ks).length := by
      rw [length_maskBlock b ks h]
      exact hlt
    have hget := List.getElem_of_eq hmask hmasked
    simp only [maskBlock, List.getElem_zipWith, Vector.getElem_toList] at hget
    exact xor_left_eq_self_iff.1 hget
  · intro hzero
    apply List.ext_getElem
    · exact length_maskBlock b ks h
    · intro i h₁ h₂
      simp [maskBlock, hzero i (by omega) h₂]

/-- Block by block: as long as nothing was changed the registers are blocks of the message. -/
theorem encryptBlocks_eq_self_iff (blocks : ℕ) (reg : Vector (BitVec w) n)
    (msg : List (BitVec w)) (h : msg.length ≤ blocks * n) :
    encryptBlocks E blocks reg msg = msg ↔ BlankBlocks E blocks reg msg := by
  induction blocks generalizing reg msg with
  | zero =>
      have hnil : msg = [] := by simpa using h
      simp [encryptBlocks, BlankBlocks, hnil]
  | succ blocks ih =>
      have hlen : (maskBlock (msg.take n) (E reg)).length = (msg.take n).length :=
        length_maskBlock _ _ (by simp)
      have hmask : maskBlock (msg.take n) (E reg) = msg.take n ↔
          ∀ i, (hi : i < n) → i < msg.length → (E reg)[i] = 0 := by
        rw [maskBlock_eq_self_iff _ _ (by simp)]
        simp only [List.length_take, Nat.lt_min]
        constructor
        · intro hzero i hi hlt
          exact hzero i hi ⟨hi, hlt⟩
        · intro hzero i hi hlt
          exact hzero i hi hlt.2
      simp only [encryptBlocks, BlankBlocks, ← hmask]
      by_cases hfull : (msg.take n).length = n
      · have hdrop : (msg.drop n).length ≤ blocks * n := by
          rw [List.length_drop]
          rw [Nat.add_one_mul] at h
          omega
        rw [dif_pos (hlen.trans hfull)]
        constructor
        · intro hself
          have hsplit := hself.trans (List.take_append_drop n msg).symm
          obtain ⟨hblock, hrest⟩ := List.append_inj hsplit hlen
          refine ⟨hblock, fun _ => ?_⟩
          simp only [hblock] at hrest
          exact (ih _ _ hdrop).1 hrest
        · rintro ⟨hblock, hrest⟩
          simp only [hblock]
          rw [(ih _ _ hdrop).2 (hrest hfull), List.take_append_drop]
      · have htake : msg.take n = msg := by
          rw [List.length_take] at hfull
          exact List.take_of_length_le (by omega)
        rw [dif_neg (by rw [hlen]; exact hfull), htake]
        constructor
        · intro hself
          refine ⟨hself, ?_⟩
          intro hcontra
          exact absurd (htake ▸ hcontra) (htake ▸ hfull)
        · intro hself
          exact hself.1

/-- **A message that is its own ciphertext** is one over which the key stream is zero. -/
theorem encrypt_eq_self_iff (hn : 0 < n) (iv : Vector (BitVec w) n) (msg : List (BitVec w)) :
    encrypt E iv msg = msg ↔ Blank E iv msg :=
  encryptBlocks_eq_self_iff E _ iv msg (Nat.le_mul_of_pos_right _ hn)

end Blank

end Cfb
