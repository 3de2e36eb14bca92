import MiniCoin.ByteStrings

/-!
# Transactions

The record of `tx.h` and the functions of `tx.c` that build it. A transaction is a
value of fixed arrays, so its text fields carry their size bounds. SHA-256 is a
parameter: the functions below rely on nothing but that it returns 32 bytes.
-/

namespace MiniCoin

open ByteStrings

/-- `ADDR_LEN`, the room for an address with its terminator. -/
abbrev addrLen : Nat := 65
/-- `SIG_LEN`, the room for a signature in hexadecimal digits with its
terminator. -/
abbrev sigLen : Nat := 129

instance addrLen_neZero : NeZero addrLen := ⟨by decide⟩
instance sigLen_neZero : NeZero sigLen := ⟨by decide⟩

/-- `MINING_REWARD`, the coins that a block makes. -/
def miningReward : UInt64 := 50
/-- `MIN_TX_FEE`, which `do_send` asks for and no receiving node looks at. -/
def minTxFee : UInt64 := 1

/-- `COINBASE_ADDR`: the sender of block rewards. It is no public key, and
nothing signs for it. -/
def coinbaseAddr : CText addrLen := CText.ofBytes (ascii "COINBASE")

/-- The digest function behind `EVP_sha256`. -/
abbrev Sha256 := List UInt8 → Vector UInt8 32

/-- A digest as the 64 hexadecimal characters that the code stores. -/
def hexDigest (digest : Vector UInt8 32) : CText 65 := hexText32 digest

/-- `tx_t`. The signature and the hash are stored as text, and nothing ties them
to the other fields: `wallet_verify_tx` and `block_compute_hash` take the stored
hash as it is. -/
structure Tx where
  sender : CText addrLen
  receiver : CText addrLen
  amount : UInt64
  fee : UInt64
  signature : CText sigLen
  txHash : CText 65
  deriving DecidableEq

/-- A transaction slot after `memset`. -/
def Tx.zero : Tx := ⟨.empty, .empty, 0, 0, .empty, .empty⟩

/-- The string that `tx_compute_hash` feeds to SHA-256: sender, receiver, amount
and fee without separators. -/
def txHashInput (tx : Tx) : List UInt8 :=
  snprintf 512 (tx.sender.bytes ++ tx.receiver.bytes ++ decimal tx.amount.toNat ++ decimal tx.fee.toNat)

/-- `tx_compute_hash`: the hash is stored in the transaction, and only there. -/
def txComputeHash (sha : Sha256) (tx : Tx) : Tx :=
  { tx with txHash := hexDigest (sha (txHashInput tx)) }

/-- `tx_create_coinbase`. -/
def txCreateCoinbase (sha : Sha256) (minerAddr : CText addrLen) : Tx :=
  txComputeHash sha { Tx.zero with
    sender := coinbaseAddr
    receiver := minerAddr
    amount := miningReward
    fee := 0
    signature := CText.ofBytes (ascii "COINBASE") }

/-- `tx_create`: the signature is added later. -/
def txCreate (sha : Sha256) (sender receiver : CText addrLen) (amount fee : UInt64) : Tx :=
  txComputeHash sha { Tx.zero with
    sender := sender
    receiver := receiver
    amount := amount
    fee := fee }

/-- The 512-byte buffer holds two addresses and two numbers, so nothing is
cut. -/
theorem txHashInput_eq (tx : Tx) : txHashInput tx =
    tx.sender.bytes ++ tx.receiver.bytes ++ decimal tx.amount.toNat ++ decimal tx.fee.toNat := by
  have sender : tx.sender.bytes.length < 65 := tx.sender.bound
  have receiver : tx.receiver.bytes.length < 65 := tx.receiver.bound
  have amount := decimal_length tx.amount.toNat 20
    (lt_trans tx.amount.toNat_lt (by decide)) (by decide)
  have fee := decimal_length tx.fee.toNat 20 (lt_trans tx.fee.toNat_lt (by decide)) (by decide)
  refine snprintf_fits _ _ ?_
  simp only [List.length_append]
  omega

end MiniCoin
