import MiniCoin.GenesisBlock
import MiniCoin.Signatures

/-!
# Encodings of keys and signatures

`wallet_verify_tx` reads the sender and the signature with `sscanf("%02x")`, which takes capital
letters, skips blanks and is content with a sign or a single digit. What it accepts is the text
that `extract_address` and `wallet_sign_tx` print exactly if all characters are digits and letters
from a to f and the sender has 64 of them.
-/

namespace MiniCoin

open ByteStrings

variable {ssl : OpenSSL}

/-! ## Reading what was printed -/

/-- Every hexadecimal digit in lower case is the digit of some number below
sixteen. -/
theorem exists_hexDigit (c : UInt8) (hex : isHex c = true) : ∃ n < 16, c = hexDigit n := by
  have table : ∀ value < 256, isHex value.toUInt8 = true → ∃ n < 16, value.toUInt8 = hexDigit n := by
    decide +kernel
  simpa using table c.toNat c.toNat_lt (by simpa using hex)

/-- Two such digits are read by `sscanf("%2hhx")` as the byte that is printed as
them. -/
theorem scanHexByte_digits (c d : UInt8) (rest : List UInt8) (first : isHex c = true)
    (second : isHex d = true) : ∃ b, scanHexByte (c :: d :: rest) = some b ∧ hexByte b = [c, d] := by
  obtain ⟨high, smallHigh, rfl⟩ := exists_hexDigit c first
  obtain ⟨low, smallLow, rfl⟩ := exists_hexDigit d second
  have value : (16 * high + low).toUInt8.toNat = 16 * high + low :=
    Nat.mod_eq_of_lt (show 16 * high + low < 256 by omega)
  have printed : hexByte (16 * high + low).toUInt8 = [hexDigit high, hexDigit low] := by
    rw [hexByte, value]
    congr 2
    · omega
    · congr 1
      omega
  refine ⟨_, ?_, printed⟩
  have scanned := scanHexByte_hexByte (16 * high + low).toUInt8 rest
  rwa [printed] at scanned

/-- As many bytes are read as are asked for. -/
theorem decodeHex_length (count : Nat) (text bytes : List UInt8) (read : decodeHex count text = some bytes) :
    bytes.length = count := by
  induction count generalizing text bytes with
  | zero =>
    obtain rfl := Option.some.inj read
    rfl
  | succ count ih =>
    rw [decodeHex] at read
    split at read
    · cases read
    · obtain ⟨others, later, rfl⟩ := Option.map_eq_some_iff.mp read
      rw [List.length_cons, ih _ _ later]

/-- Digits are the text of the bytes that are read from them. -/
theorem hexText_of_decodeHex (count : Nat) (text bytes : List UInt8) (length : text.length = 2 * count)
    (hex : ∀ c ∈ text, isHex c = true) (read : decodeHex count text = some bytes) : hexText bytes = text := by
  induction count generalizing text bytes with
  | zero =>
    obtain rfl := Option.some.inj read
    obtain rfl := List.eq_nil_of_length_eq_zero length
    rfl
  | succ count ih =>
    match text, length with
    | c :: d :: rest, length =>
      obtain ⟨b, scanned, printed⟩ := scanHexByte_digits c d rest (hex c (by simp)) (hex d (by simp))
      rw [decodeHex, scanned] at read
      obtain ⟨others, later, rfl⟩ := Option.map_eq_some_iff.mp read
      have text := ih rest others (by simpa [Nat.mul_add] using length)
        (fun e member => hex e (by simp [member])) later
      rw [hexText, List.flatMap_cons, printed]
      exact congrArg (c :: d :: ·) text
    | [], length | [_], length =>
      simp only [List.length_cons, List.length_nil] at length
      omega

/-! ## Canonical transactions -/

/-- The sender and the signature are what is printed for the bytes that are read
from them. -/
def CanonicalTexts (tx : Tx) : Prop :=
  ∃ (key : Vector UInt8 32) (sig : Vector UInt8 64),
    decodeHex 32 tx.sender.bytes = some key.toList ∧ tx.sender = extractAddress key ∧
    decodeHex (min (tx.signature.bytes.length / 2) 64) tx.signature.bytes = some sig.toList ∧
      tx.signature = CText.ofBytes (hexText sig.toList)

/-- A signature is stored as it is printed. -/
theorem signature_bytes (sig : Vector UInt8 64) :
    (CText.ofBytes (hexText sig.toList) : CText sigLen).bytes = hexText sig.toList :=
  CText.ofBytes_fits _ (hexText_no_nul _) (by simp)

/-- Among canonical transactions a key has one address and a signature one
text. -/
theorem CanonicalTexts.determined {tx other : Tx} (canonical : CanonicalTexts tx)
    (canonical' : CanonicalTexts other) :
    (decodeHex 32 other.sender.bytes = decodeHex 32 tx.sender.bytes → other.sender = tx.sender) ∧
      (decodeHex (min (other.signature.bytes.length / 2) 64) other.signature.bytes =
          decodeHex (min (tx.signature.bytes.length / 2) 64) tx.signature.bytes →
        other.signature = tx.signature) := by
  obtain ⟨key, sig, keyRead, sender, sigRead, signature⟩ := canonical
  obtain ⟨key', sig', keyRead', sender', sigRead', signature'⟩ := canonical'
  constructor <;> intro same
  · rw [keyRead, keyRead', Option.some.injEq] at same
    rw [sender, sender', Vector.toList_inj.mp same]
  · rw [sigRead, sigRead', Option.some.injEq] at same
    rw [signature, signature', same]

/-- What verifies is canonical exactly if the sender consists of 64 digits and
the signature of digits only. `sscanf` reads more than such texts: blanks, signs
and capital letters. -/
theorem canonicalTexts_iff (fixedSize : ∀ pubkey sig message, pubkey.length = 32 →
      ssl.digestVerify pubkey sig message = true → sig.length = 64)
    (tx : Tx) (notCoinbase : tx.sender ≠ coinbaseAddr) (verified : walletVerifyTx ssl tx = true) :
    CanonicalTexts tx ↔ tx.sender.bytes.length = 64 ∧ (∀ c ∈ tx.sender.bytes, isHex c = true) ∧
      ∀ c ∈ tx.signature.bytes, isHex c = true := by
  obtain ⟨pubkey, sig, keyRead, sigRead, accepted⟩ := walletVerifyTx_some tx notCoinbase verified
  have keyLength := decodeHex_length 32 _ _ keyRead
  have sigLength := fixedSize pubkey sig _ keyLength accepted
  have count := decodeHex_length _ _ _ sigRead
  have bound : tx.signature.bytes.length < 129 := tx.signature.bound
  constructor
  · rintro ⟨key, text, -, sender, -, signature⟩
    rw [sender, signature, signature_bytes]
    exact ⟨hexText32_length key, hexText32_isHex key, hexText_isHex _⟩
  · rintro ⟨length, senderHex, signatureHex⟩
    have signatureLength : tx.signature.bytes.length = 2 * 64 := by omega
    have full : min (tx.signature.bytes.length / 2) 64 = 64 := by omega
    rw [full] at sigRead
    have address := hexText_of_decodeHex 32 _ _ length senderHex keyRead
    have text := hexText_of_decodeHex 64 _ _ signatureLength signatureHex sigRead
    refine ⟨⟨pubkey.toArray, by simpa using keyLength⟩, ⟨sig.toArray, by simpa using sigLength⟩, ?_, ?_, ?_, ?_⟩
    · simpa [Vector.toList] using keyRead
    · exact CText.ext (by simpa [extractAddress, hexText32, Vector.toList] using address.symm)
    · simpa [full, Vector.toList] using sigRead
    · apply CText.ext
      rw [signature_bytes]
      simpa [Vector.toList] using text.symm

/-! ## Other encodings -/

/-- One coin from the owner of a wallet whose address has letters, so that
capital letters make a difference. -/
def letterPayment : Tx :=
  (walletSignTx (stubWallet 171) (txCreate Sha2.sha256 (stubWallet 171).address (CText.ofBytes (ascii "x")) 1 1)).getD
    Tx.zero

/-- The same payment with the sender and the signature in capital letters. -/
def capitalPayment : Tx :=
  { letterPayment with
    sender := CText.ofBytes (List.replicate 32 (ascii "AB")).flatten
    signature := CText.ofBytes (List.replicate 64 (ascii "AB")).flatten }

/-- Signatures of this library have the size of an Ed25519 signature. -/
theorem stubSsl_fixedSize (pubkey sig message : List UInt8) (length : pubkey.length = 32)
    (verified : stubSsl.digestVerify pubkey sig message = true) : sig.length = 64 := by
  have same : sig = pubkey ++ pubkey := beq_iff_eq.mp verified
  rw [same, List.length_append, length]

/-- A payment whose texts are written with letters passes `wallet_verify_tx`. -/
theorem letterPayment_verifies :
    letterPayment.sender ≠ coinbaseAddr ∧ walletVerifyTx stubSsl letterPayment = true := by
  decide +kernel

/-- The text of an address and the text of a signature can be changed without a
change to the key and the signature that they are read as. So one payment has
several records. -/
theorem verifies_other_texts :
    (∀ pubkey sig message, pubkey.length = 32 → stubSsl.digestVerify pubkey sig message = true →
      sig.length = 64) ∧
    walletVerifyTx stubSsl letterPayment = true ∧ walletVerifyTx stubSsl capitalPayment = true ∧
    capitalPayment.sender ≠ coinbaseAddr ∧
    decodeHex 32 capitalPayment.sender.bytes = decodeHex 32 letterPayment.sender.bytes ∧
    capitalPayment.sender ≠ letterPayment.sender ∧
    decodeHex 64 capitalPayment.signature.bytes = decodeHex 64 letterPayment.signature.bytes ∧
    capitalPayment.signature ≠ letterPayment.signature ∧ ¬ CanonicalTexts capitalPayment := by
  have checked : walletVerifyTx stubSsl capitalPayment = true ∧ capitalPayment.sender ≠ coinbaseAddr ∧
      decodeHex 32 capitalPayment.sender.bytes = some (List.replicate 32 171) ∧
      decodeHex 32 letterPayment.sender.bytes = some (List.replicate 32 171) ∧
      capitalPayment.sender ≠ letterPayment.sender ∧
      decodeHex 64 capitalPayment.signature.bytes = decodeHex 64 letterPayment.signature.bytes ∧
      capitalPayment.signature ≠ letterPayment.signature ∧
      65 ∈ capitalPayment.sender.bytes := by decide +kernel
  obtain ⟨verified, notCoinbase, key, key', sender, sig, signature, capital⟩ := checked
  refine ⟨stubSsl_fixedSize, letterPayment_verifies.2, verified, notCoinbase, key.trans key'.symm, sender, sig,
    signature, ?_⟩
  rintro ⟨key, sig, -, address, -⟩
  rw [address] at capital
  exact absurd (hexText32_isHex key 65 capital) (by decide)

/-- For a verified payment, being canonical comes down to length and digits of
the two texts. -/
theorem canonicalTexts_letterPayment :
    CanonicalTexts letterPayment ↔ letterPayment.sender.bytes.length = 64 ∧
      (∀ c ∈ letterPayment.sender.bytes, isHex c = true) ∧
      ∀ c ∈ letterPayment.signature.bytes, isHex c = true :=
  canonicalTexts_iff stubSsl_fixedSize letterPayment letterPayment_verifies.1 letterPayment_verifies.2

end MiniCoin
