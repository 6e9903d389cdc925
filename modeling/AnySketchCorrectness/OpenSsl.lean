import AnySketchCorrectness.Status

/-!
# The OpenSSL calls

The calls of OpenSSL that the repository makes, as parameters. A call that fails returns something
other than `1` and may still change its context.
-/

namespace AnySketchCorrectness

/-- The `EVP` interface to AES-256 in counter mode. `Ctx` is the content of an `EVP_CIPHER_CTX`. -/
structure EvpCipher (Ctx : Type) where
  -- `EVP_CIPHER_CTX_new`, or `NULL`.
  ctxNew : Option Ctx
  -- `EVP_EncryptInit_ex` with `EVP_aes_256_ctr()`, a key and an IV.
  encryptInit : Ctx → ByteString → ByteString → Int32 × Ctx
  -- `EVP_EncryptUpdate` on an input and its length: the return value and the bytes written.
  encryptUpdate : Ctx → ByteString → Int32 → Int32 × ByteString × Ctx
  -- `EVP_EncryptFinal_ex`: the return value and the bytes written.
  encryptFinal : Ctx → Int32 × ByteString × Ctx

/-- The `RAND` interface. `Rng` is the state of the process's random generator. -/
structure RandSource (Rng : Type) where
  -- `RAND_status`.
  status : Rng → Int32
  -- `RAND_bytes` into a buffer of the given size: the return value and the buffer.
  bytes : Rng → Nat → Int32 × ByteString × Rng

end AnySketchCorrectness
