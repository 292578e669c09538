import Gravioli.Library.Cfb

set_option autoImplicit false

/-! # Bytes, keys and the cipher

`config.hpp.in` and `crypto.hpp` fix the sizes, `crypto.cpp` wraps Crypto++. The block function of
the cipher is a parameter `aes` throughout: the code relies on Crypto++ running CFB with full-block
feedback over it and on nothing else. -/

namespace Gravioli

/-- `byte`. -/
abbrev Byte := BitVec 8

/-! ## Sizes -/

/-- `CryptoLevel`: how long keys are. -/
inductive CryptoLevel
  | FAST
  | HIGH
  | ACADEMIC
  deriving DecidableEq, Repr

/-- `CRYPTO_LEVEL`, as `config.hpp.in` fixes it. -/
def cryptoLevel : CryptoLevel := .FAST

/-- The bytes of a key at this level. -/
def getKeyBlockSizeFromCryptoLevel : ℕ :=
  if cryptoLevel = .FAST then 16
  else if cryptoLevel = .HIGH then 24
  else 32

/-- `KEY_BLOCKSIZE`. -/
def keyBlocksize : ℕ := getKeyBlockSizeFromCryptoLevel

/-- `IV_BLOCKSIZE`, the block size of AES. -/
def ivBlocksize : ℕ := 16

/-- `std::array<byte, KEY_BLOCKSIZE>`. -/
abbrev Key := Vector Byte keyBlocksize

/-- `std::array<byte, IV_BLOCKSIZE>`, also one block of the cipher. -/
abbrev IV := Vector Byte ivBlocksize

/-- The block function of the cipher for each key. -/
abbrev BlockCipher := Key → IV → IV

/-! ## Encryption -/

namespace Crypto

/-- `encrypt` with a given IV: the message is replaced by its ciphertext. -/
def encryptWith (aes : BlockCipher) (msg : List Byte) (key : Key) (iv : IV) : List Byte :=
  Cfb.encrypt (aes key) iv msg

/-- `encrypt` with a random IV; `rnd` is what the random pool generates. Returns the IV and the
    ciphertext left in the buffer. -/
def encrypt (aes : BlockCipher) (rnd : IV) (msg : List Byte) (key : Key) : IV × List Byte :=
  let iv := rnd
  (iv, encryptWith aes msg key iv)

/-- `decrypt`: the ciphertext is replaced by its message. -/
def decrypt (aes : BlockCipher) (msg : List Byte) (key : Key) (iv : IV) : List Byte :=
  Cfb.decrypt (aes key) iv msg

theorem ivBlocksize_pos : 0 < ivBlocksize := by decide

@[simp] theorem length_encryptWith (aes : BlockCipher) (msg : List Byte) (key : Key) (iv : IV) :
    (encryptWith aes msg key iv).length = msg.length :=
  Cfb.length_encrypt (aes key) ivBlocksize_pos iv msg

@[simp] theorem decrypt_encryptWith (aes : BlockCipher) (msg : List Byte) (key : Key) (iv : IV) :
    decrypt aes (encryptWith aes msg key iv) key iv = msg :=
  Cfb.decrypt_encrypt (aes key) ivBlocksize_pos iv msg

end Crypto

end Gravioli
