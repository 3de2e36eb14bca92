import MiniCoin.GenesisBlock
import MiniCoin.HashInputs
import MiniCoin.TxCodec

/-!
# What a signature covers

`wallet_sign_tx` signs the stored `tx_hash`, and `wallet_verify_tx` checks the signature of the
stored `tx_hash`. Neither compares it with the fields. A signature therefore binds exactly the
text of the hash: other receivers and amounts pass with it as long as they carry that text. What
an honest wallet signs verifies, also after it was written and read.
-/

namespace MiniCoin

open ByteStrings

variable {ssl : OpenSSL}

/-! ## Forged payments -/

/-- Verification reads the sender, the signature and the stored hash. -/
theorem walletVerifyTx_congr (tx other : Tx) (sender : other.sender = tx.sender)
    (signature : other.signature = tx.signature) (txHash : other.txHash = tx.txHash) :
    walletVerifyTx ssl other = walletVerifyTx ssl tx := by
  rw [walletVerifyTx, walletVerifyTx, sender, signature, txHash]

/-- What verifies is a signature of the stored hash. -/
theorem walletVerifyTx_some (tx : Tx) (notCoinbase : tx.sender ≠ coinbaseAddr)
    (verified : walletVerifyTx ssl tx = true) : ∃ pubkey sig,
      decodeHex 32 tx.sender.bytes = some pubkey ∧
      decodeHex (min (tx.signature.bytes.length / 2) 64) tx.signature.bytes = some sig ∧
      ssl.digestVerify pubkey sig tx.txHash.bytes = true := by
  rw [walletVerifyTx, if_neg notCoinbase] at verified
  cases key : decodeHex 32 tx.sender.bytes with
  | none => simp [key] at verified
  | some pubkey =>
    cases text : decodeHex (min (tx.signature.bytes.length / 2) 64) tx.signature.bytes with
    | none => simp [key, text] at verified
    | some sig => exact ⟨pubkey, sig, rfl, rfl, by simpa [key, text] using verified⟩

/-- If a signature verifies for one message only, then it verifies for one
stored hash only. -/
theorem txHash_of_verified (oneMessage : ∀ pubkey sig message other,
      ssl.digestVerify pubkey sig message = true → ssl.digestVerify pubkey sig other = true →
        message = other)
    (tx other : Tx) (notCoinbase : tx.sender ≠ coinbaseAddr) (sender : other.sender = tx.sender)
    (signature : other.signature = tx.signature) (verified : walletVerifyTx ssl tx = true)
    (verified' : walletVerifyTx ssl other = true) : other.txHash = tx.txHash := by
  obtain ⟨pubkey, sig, key, text, signed⟩ := walletVerifyTx_some tx notCoinbase verified
  obtain ⟨pubkey', sig', key', text', signed'⟩ :=
    walletVerifyTx_some other (sender ▸ notCoinbase) verified'
  rw [sender, key] at key'
  rw [signature, text] at text'
  obtain rfl := Option.some.inj key'
  obtain rfl := Option.some.inj text'
  exact CText.ext (oneMessage _ _ _ _ signed' signed)

/-- A signature that verifies authorises one payment exactly if no other payment
carries the stored hash. `wallet_verify_tx` checks the signature of that hash
and does not compute it again. -/
theorem signature_binds_iff (oneMessage : ∀ pubkey sig message other,
      ssl.digestVerify pubkey sig message = true → ssl.digestVerify pubkey sig other = true →
        message = other)
    (tx other : Tx) (notCoinbase : tx.sender ≠ coinbaseAddr) (sender : other.sender = tx.sender)
    (signature : other.signature = tx.signature) (verified : walletVerifyTx ssl tx = true) :
    (walletVerifyTx ssl other = true → SamePayment tx other) ↔
      (other.txHash = tx.txHash → SamePayment tx other) := by
  constructor
  · intro bound txHash
    apply bound
    rw [walletVerifyTx_congr tx other sender signature txHash, verified]
  · intro bound verified'
    apply bound
    exact txHash_of_verified oneMessage tx other notCoinbase sender signature verified verified'

/-- SHA-256 with a signature scheme in which a text is its own signature. -/
def echoSsl : OpenSSL where
  Key := Vector UInt8 32
  sha256 := Sha2.sha256
  rawPublicKey key := key
  digestSign _ message := some (Vector.ofFn fun i => message.getD i 0)
  digestVerify _ signature message := signature == message

/-- A signature of this library is the message itself, so it verifies for one
message only. -/
theorem echoSsl_oneMessage (pubkey sig message other : List UInt8)
    (verified : echoSsl.digestVerify pubkey sig message = true)
    (verified' : echoSsl.digestVerify pubkey sig other = true) : message = other :=
  (beq_iff_eq.mp verified).symm.trans (beq_iff_eq.mp verified')

/-- A wallet over that library, with an arbitrary key. -/
def echoWallet : Wallet echoSsl := ⟨Vector.replicate 32 1, _, rfl⟩

/-- One coin, honestly signed. -/
def signedPayment : Tx :=
  (walletSignTx echoWallet
    (txCreate Sha2.sha256 echoWallet.address (CText.ofBytes (ascii "x")) 1 1)).getD Tx.zero

/-- A million coins with the same hash and signature. -/
def forgedPayment : Tx := { signedPayment with amount := 1000000 }

/-- The payment is signed as `wallet_sign_tx` signs, and passes
`wallet_verify_tx`. -/
theorem signedPayment_verifies : signedPayment.sender ≠ coinbaseAddr ∧
    walletVerifyTx echoSsl signedPayment = true := by
  have checked : signedPayment.sender ≠ coinbaseAddr ∧
      decodeHex 32 signedPayment.sender.bytes = some (List.replicate 32 1) ∧
      decodeHex (min (signedPayment.signature.bytes.length / 2) 64) signedPayment.signature.bytes =
        some signedPayment.txHash.bytes := by decide +kernel
  obtain ⟨notCoinbase, key, text⟩ := checked
  refine ⟨notCoinbase, ?_⟩
  rw [walletVerifyTx, if_neg notCoinbase, key, text]
  exact beq_self_eq_true signedPayment.txHash.bytes

/-- The signature of one coin passes for a million, though neither the hashes of
the two texts collide nor the scheme accepts two messages. -/
theorem signature_authorises_more :
    (∀ pubkey sig message other, echoSsl.digestVerify pubkey sig message = true →
      echoSsl.digestVerify pubkey sig other = true → message = other) ∧
    echoSsl.sha256 (txHashInput signedPayment) ≠ echoSsl.sha256 (txHashInput forgedPayment) ∧
    signedPayment.sender ≠ coinbaseAddr ∧ forgedPayment.sender = signedPayment.sender ∧
    forgedPayment.signature = signedPayment.signature ∧
    walletVerifyTx echoSsl signedPayment = true ∧ walletVerifyTx echoSsl forgedPayment = true ∧
    forgedPayment.amount ≠ signedPayment.amount := by
  obtain ⟨notCoinbase, verified⟩ := signedPayment_verifies
  have distinct : Sha2.sha256 (txHashInput signedPayment) ≠ Sha2.sha256 (txHashInput forgedPayment) ∧
      forgedPayment.amount ≠ signedPayment.amount := by decide +kernel
  have forged : walletVerifyTx echoSsl forgedPayment = true :=
    (walletVerifyTx_congr signedPayment forgedPayment rfl rfl rfl).trans verified
  exact ⟨echoSsl_oneMessage, distinct.1, notCoinbase, rfl, rfl, verified, forged, distinct.2⟩

/-- A payment with its amount replaced, under the old hash and signature: it
verifies and is another payment, and both sides of the equivalence are false. -/
theorem signature_binds_iff_here :
    (walletVerifyTx echoSsl forgedPayment = true → SamePayment signedPayment forgedPayment) ↔
      (forgedPayment.txHash = signedPayment.txHash → SamePayment signedPayment forgedPayment) :=
  signature_binds_iff echoSsl_oneMessage signedPayment forgedPayment signedPayment_verifies.1 rfl rfl
    signedPayment_verifies.2

/-! ## Honest payments -/

/-- Hexadecimal text is written as it is. -/
theorem unquoted_of_isHex (text : List UInt8) (hex : ∀ c ∈ text, isHex c = true) :
    34 ∉ text ∧ 92 ∉ text :=
  ⟨fun member => absurd (hex 34 member) (by decide), fun member => absurd (hex 92 member) (by decide)⟩

/-- A wallet writes a hexadecimal signature next to a hexadecimal hash. -/
theorem walletSignTx_unquoted (wallet : Wallet ssl) (sender receiver : CText addrLen)
    (amount fee : UInt64) (signed : Tx)
    (made : walletSignTx wallet (txCreate ssl.sha256 sender receiver amount fee) = some signed) :
    signed.Unquoted := by
  obtain ⟨sig, -, rfl⟩ := Option.map_eq_some_iff.mp made
  constructor
  · apply unquoted_of_isHex
    intro c member
    exact hexText_isHex sig.toList c (CText.mem_ofBytes _ c member)
  · exact unquoted_of_isHex _ (hexText32_isHex _)

/-- A payment that the wallet of its sender signed is read back from its text as
it was sent, and verifies there, if the library accepts the signatures that it
makes itself. -/
theorem payment_verifies (accepts : ∀ key message sig, ssl.digestSign key message = some sig →
      ssl.digestVerify (ssl.rawPublicKey key).toList sig.toList message = true)
    (wallet : Wallet ssl) (receiver : CText addrLen) (amount fee : UInt64) (sent : Tx)
    (made : walletSignTx wallet (txCreate ssl.sha256 wallet.address receiver amount fee) = some sent) :
    ∃ received, protocolDeserializeTx (protocolSerializeTx sent) = (0, received) ∧
      received = sent ∧ walletVerifyTx ssl received = true := by
  have unquoted := walletSignTx_unquoted wallet _ _ _ _ sent made
  have verified := walletSignTx_verifies accepts wallet _ sent rfl made
  have read := protocolDeserializeTx_render sent [] trivial
  rw [List.append_nil, ← protocolSerializeTx_eq sent unquoted] at read
  exact ⟨sent, read, rfl, verified⟩

/-- A payment with quotes and backslashes in the receiver and the largest fee,
signed, sent and read back. -/
theorem payment_verifies_here : ∃ sent received,
    walletSignTx (stubWallet 5) (txCreate stubSsl.sha256 (stubWallet 5).address
      (CText.ofBytes (ascii "\"\\")) 0 18446744073709551615) = some sent ∧
    protocolDeserializeTx (protocolSerializeTx sent) = (0, received) ∧
      received = sent ∧ walletVerifyTx stubSsl received = true := by
  have signs : ∃ sent, walletSignTx (stubWallet 5) (txCreate stubSsl.sha256 (stubWallet 5).address
      (CText.ofBytes (ascii "\"\\")) 0 18446744073709551615) = some sent := ⟨_, rfl⟩
  obtain ⟨sent, made⟩ := signs
  obtain ⟨received, read⟩ := payment_verifies stubSsl_accepts (stubWallet 5)
    (CText.ofBytes (ascii "\"\\")) 0 18446744073709551615 sent made
  exact ⟨sent, received, made, read⟩

end MiniCoin
