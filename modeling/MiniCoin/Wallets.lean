import MiniCoin.Transactions

/-!
# Wallets and signatures

The functions of `wallet.c` over the OpenSSL calls they make. `OpenSSL` collects these
calls as parameters; no property of them is assumed here. A wallet carries the fact
that its address is the hexadecimal text of its public key, which `wallet_create` and
`wallet_load` establish before any wallet is used.
-/

namespace MiniCoin

open ByteStrings

/-- The OpenSSL functions that the program calls. `digestVerify` stands for
building the key from raw bytes and verifying with it, and is false when either
step fails. -/
structure OpenSSL where
  Key : Type
  sha256 : Sha256
  rawPublicKey : Key → Vector UInt8 32
  digestSign : Key → List UInt8 → Option (Vector UInt8 64)
  digestVerify : List UInt8 → List UInt8 → List UInt8 → Bool

/-- `extract_address`. -/
def extractAddress (publicKey : Vector UInt8 32) : CText addrLen := hexText32 publicKey

structure Wallet (ssl : OpenSSL) where
  keypair : ssl.Key
  address : CText addrLen
  exported : address = extractAddress (ssl.rawPublicKey keypair)

variable {ssl : OpenSSL}

/-- `wallet_sign_tx`: the transaction with its signature, or `none` for -1. The
stored hash is what is signed. -/
def walletSignTx (wallet : Wallet ssl) (tx : Tx) : Option Tx :=
  (ssl.digestSign wallet.keypair tx.txHash.bytes).map fun sig =>
    { tx with signature := CText.ofBytes (hexText sig.toList) }

/-- The decoding loops of `wallet_verify_tx`: `count` bytes, two characters
apart. -/
def decodeHex : Nat → List UInt8 → Option (List UInt8)
  | 0, _ => some []
  | count + 1, text =>
    match scanHexByte text with
    | none => none
    | some byte => (decodeHex count (text.drop 2)).map (byte :: ·)

/-- `wallet_verify_tx`: whether it returns 0. A sender named COINBASE passes
without a signature, and the stored hash is not computed again. -/
def walletVerifyTx (ssl : OpenSSL) (tx : Tx) : Bool :=
  if tx.sender = coinbaseAddr then true
  else
    match decodeHex 32 tx.sender.bytes with
    | none => false
    | some pubkey =>
      match decodeHex (min (tx.signature.bytes.length / 2) 64) tx.signature.bytes with
      | none => false
      | some sig => ssl.digestVerify pubkey sig tx.txHash.bytes

/-- Decoding inverts printing, whatever follows the printed bytes. -/
theorem decodeHex_hexText (bytes rest : List UInt8) :
    decodeHex bytes.length (hexText bytes ++ rest) = some bytes := by
  induction bytes with
  | nil => rfl
  | cons b tail ih =>
    have split : hexText (b :: tail) ++ rest = hexByte b ++ (hexText tail ++ rest) := by
      simp [hexText]
    have dropped : (hexByte b ++ (hexText tail ++ rest)).drop 2 = hexText tail ++ rest := rfl
    rw [split, List.length_cons, decodeHex, scanHexByte_hexByte, dropped, ih]
    rfl

/-- An address has 64 characters, so it is not the coinbase name. -/
theorem extractAddress_ne_coinbase (publicKey : Vector UInt8 32) :
    extractAddress publicKey ≠ coinbaseAddr := by
  intro same
  have long : (extractAddress publicKey).bytes.length = 64 := hexText32_length publicKey
  rw [same] at long
  exact absurd long (by decide)

/-- A transaction that the wallet of its sender signed verifies, if the library
accepts the signatures that it makes itself. -/
theorem walletSignTx_verifies (accepts : ∀ key message sig, ssl.digestSign key message = some sig →
      ssl.digestVerify (ssl.rawPublicKey key).toList sig.toList message = true)
    (wallet : Wallet ssl) (tx signed : Tx) (sender : tx.sender = wallet.address)
    (made : walletSignTx wallet tx = some signed) : walletVerifyTx ssl signed = true := by
  obtain ⟨sig, signature, rfl⟩ := Option.map_eq_some_iff.mp made
  have fits : (hexText sig.toList).length < sigLen := by simp
  have stored : (CText.ofBytes (hexText sig.toList) : CText sigLen).bytes = hexText sig.toList :=
    CText.ofBytes_fits _ (hexText_no_nul _) fits
  have key : decodeHex 32 tx.sender.bytes = some (ssl.rawPublicKey wallet.keypair).toList := by
    rw [sender, wallet.exported]
    simpa [extractAddress, hexText32] using decodeHex_hexText (ssl.rawPublicKey wallet.keypair).toList []
  have text : decodeHex (min ((hexText sig.toList).length / 2) 64) (hexText sig.toList) =
      some sig.toList := by
    simpa using decodeHex_hexText sig.toList []
  have notCoinbase : tx.sender ≠ coinbaseAddr := by
    rw [sender, wallet.exported]
    exact extractAddress_ne_coinbase _
  simp only [walletVerifyTx, notCoinbase, if_false, key, stored, text]
  exact accepts _ _ _ signature

end MiniCoin
