import MiniCoin.Nodes
import MiniCoin.Sha256

/-!
# The genesis block

`block_create_genesis` searches a nonce, so the genesis block is known only after the
search. Its template is fixed, and with SHA-256 the search ends at nonce 873. The
first 64 bytes of the hashed text do not depend on the nonce, so one compression is
shared by all attempts.

A process therefore starts with a known chain. The signature functions stay a
parameter; `stubSsl` is an instance for examples that are to be evaluated.
-/

namespace MiniCoin

open ByteStrings Sha2

/-- The target asks that the first byte of the digest is zero. -/
theorem meetsTarget_hexDigest (digest : Vector UInt8 32) :
    meetsTarget (hexDigest digest) = (digest[0] == 0) := by
  have first : (hexDigest digest).bytes.take 2 = hexByte digest[0] := by
    obtain ⟨bytes, length⟩ := digest
    obtain ⟨bytes⟩ := bytes
    cases bytes with
    | nil => simp at length
    | cons b rest => rfl
  have zero : ∀ n < 256, (hexByte n.toUInt8 == List.replicate 2 48) = (n.toUInt8 == 0) := by
    decide +kernel
  simpa [meetsTarget, miningDifficulty, first] using zero digest[0].toNat digest[0].toNat_lt

/-- The part of the genesis header that fills the first block of SHA-256. -/
def genesisPrefix : List UInt8 := ascii "01231006505" ++ List.replicate 53 48

/-- The text that an attempt hashes: the same prefix each time, and the nonce at
its end. -/
theorem genesis_hashInput (tries : Nat) (small : tries < 2 ^ 64) :
    blockHashInput { genesisTemplate with nonce := UInt64.ofNat tries } =
      genesisPrefix ++ (List.replicate 11 48 ++ decimal tries) := by
  have nonce : (UInt64.ofNat tries).toNat = tries := UInt64.toNat_ofNat_of_lt' small
  have header : decimal genesisTemplate.index.toNat ++
      signedDecimal genesisTemplate.timestamp.toInt ++ genesisTemplate.prevHash.bytes =
        genesisPrefix ++ List.replicate 11 48 := by decide +kernel
  have none : ({ genesisTemplate with nonce := UInt64.ofNat tries } : Block).listed = [] := rfl
  rw [blockHashInput_eq, none, headerText, header, nonce]
  simp

/-- The chaining value after the prefix. -/
def genesisMidstate : Nat :=
  105744182263685983074545412736907406225559366686836934279266986562953657636299

/-- The first block of SHA-256, evaluated once for all attempts. -/
theorem genesisMidstate_eq : absorb initial genesisPrefix = genesisMidstate := by decide +kernel

/-- The second block of an attempt. -/
def genesisRest (tries : Nat) : List UInt8 := List.replicate 11 48 ++ decimal tries

/-- The chaining value that an attempt ends with. -/
def genesisAttempt (tries : Nat) : Nat :=
  strict (pack (bigEndianWords (genesisRest tries ++ padding (64 + (genesisRest tries).length))))
    fun block => compress genesisMidstate block

/-- So an attempt costs one block more. -/
theorem genesis_hash (tries : Nat) (small : tries < 2 ^ 64) :
    blockComputeHash sha256 { genesisTemplate with nonce := UInt64.ofNat tries } =
      hexDigest (digestBytes (genesisAttempt tries)) := by
  have digits := decimal_length tries 20 (by omega) (by decide)
  have short : (List.replicate 11 48 ++ decimal tries).length ≤ 55 := by
    rw [List.length_append, List.length_replicate]
    omega
  rw [blockComputeHash, genesis_hashInput tries small, sha256_append _ _ (by decide) short,
    genesisMidstate_eq, genesisAttempt, strict_eq]
  rfl

/-- The first byte of the digest is the highest one of the first word. -/
theorem digestBytes_first (state : Nat) :
    (digestBytes state)[0] = (Nat.shiftRight (wordAt state 0) 24 % 256).toUInt8 := by
  simp [digestBytes]

/-- Whether an attempt meets the target, on the first word of the digest. -/
def genesisMeets (tries : Nat) : Bool :=
  strict (genesisAttempt tries) fun state =>
    (Nat.shiftRight (wordAt state 0) 24 % 256).toUInt8 == 0

/-- And this byte decides, since the target is two zeros. -/
theorem genesis_meetsTarget (tries : Nat) (small : tries < 2 ^ 64) :
    meetsTarget (blockComputeHash sha256 { genesisTemplate with nonce := UInt64.ofNat tries }) =
      genesisMeets tries := by
  rw [genesis_hash tries small, meetsTarget_hexDigest, digestBytes_first, genesisMeets, strict_eq]

/-- Nine successive attempts fail. Small groups keep each evaluation small. -/
def genesisGroupFails (group : Nat) : Bool :=
  (List.range 9).all fun i => !genesisMeets (9 * group + i)

/-- The attempts up to 296 fail. -/
theorem genesisGroups_early (group : Nat) (before : group < 33) : genesisGroupFails group = true := by
  interval_cases group <;> decide +kernel

/-- So do those up to 584. -/
theorem genesisGroups_middle (group : Nat) (after : 33 ≤ group) (before : group < 65) :
    genesisGroupFails group = true := by
  interval_cases group <;> decide +kernel

/-- So do those up to 872. -/
theorem genesisGroups_late (group : Nat) (after : 65 ≤ group) (before : group < 97) :
    genesisGroupFails group = true := by
  interval_cases group <;> decide +kernel

/-- All attempts before 873 fail. -/
theorem genesis_attempts (tries : Nat) (before : tries < 873) : genesisMeets tries = false := by
  have group : genesisGroupFails (tries / 9) = true := by
    rcases Nat.lt_or_ge (tries / 9) 33 with early | later
    · exact genesisGroups_early _ early
    · rcases Nat.lt_or_ge (tries / 9) 65 with middle | late
      · exact genesisGroups_middle _ later middle
      · exact genesisGroups_late _ late (by omega)
  have failed := List.all_eq_true.mp group (tries % 9) (List.mem_range.mpr (by omega))
  simpa [Nat.div_add_mod] using failed

/-- The genesis block of every node. -/
def genesisBlock : Block :=
  { genesisTemplate with
    nonce := 873
    hash := CText.ofBytes (ascii "00005f2f891143a249a4874e3c240e6247768617ab98145d65812f223bd09e8a") }

/-- `block_create_genesis` with SHA-256 returns this block. -/
theorem genesis_created : blockCreateGenesis sha256 = some genesisBlock := by
  have early : ∀ earlier < 873, meetsTarget (blockComputeHash sha256
      { genesisTemplate with nonce := 0 + UInt64.ofNat earlier }) = false := by
    intro earlier before
    rw [UInt64.zero_add, genesis_meetsTarget earlier (by omega)]
    exact genesis_attempts earlier before
  have found : blockComputeHash sha256 { genesisTemplate with nonce := 0 + UInt64.ofNat 873 } =
      genesisBlock.hash := by
    rw [UInt64.zero_add, genesis_hash 873 (by omega)]
    decide +kernel
  obtain ⟨total, mined⟩ := blockMineLoop_first sha256 (2 ^ 64) 873 { genesisTemplate with nonce := 0 } 0
    (by omega) early (by rw [found]; decide)
  rw [blockCreateGenesis, blockMine, mined, found]
  rfl

/-- `chain_init` starts every chain with it. -/
theorem chainInit_sha256 : chainInit sha256 = some [genesisBlock] := by
  rw [chainInit, genesis_created]
  rfl

/-! ## A process at its start -/

/-- A node after `node_init` that owns a wallet. -/
def freshNode {ssl : OpenSSL} (wallet : Wallet ssl) : Node ssl where
  chain := [genesisBlock]
  mempool := []
  wallet := wallet
  peers := []
  mining := .idle

/-- Such a node is a node at its start, if its library computes SHA-256. -/
theorem freshNode_started {ssl : OpenSSL} (real : ssl.sha256 = sha256) (wallet : Wallet ssl) :
    Started (freshNode wallet) where
  chain := by rw [real, chainInit_sha256]; rfl
  mempool := rfl
  peers := rfl
  mining := rfl

/-- SHA-256 with a signature scheme in which a key signs by repeating its
name. -/
def stubSsl : OpenSSL where
  Key := UInt8
  sha256 := sha256
  rawPublicKey key := Vector.replicate 32 key
  digestSign key _ := some (Vector.replicate 64 key)
  digestVerify publicKey signature _ := signature == publicKey ++ publicKey

/-- The wallet of a key of this scheme. -/
def stubWallet (key : UInt8) : Wallet stubSsl := ⟨key, _, rfl⟩

/-- A receiver. -/
def payee : Token := ⟨ascii "x", by decide, by decide, by decide +kernel⟩

/-- The scheme accepts the signatures that it makes. -/
theorem stubSsl_accepts (key : stubSsl.Key) (message : List UInt8) (sig : Vector UInt8 64)
    (made : stubSsl.digestSign key message = some sig) :
    stubSsl.digestVerify (stubSsl.rawPublicKey key).toList sig.toList message = true := by
  obtain rfl : Vector.replicate 64 key = sig := Option.some.inj made
  have twice (k : UInt8) : (Vector.replicate 64 k).toList =
      (Vector.replicate 32 k).toList ++ (Vector.replicate 32 k).toList := rfl
  exact beq_iff_eq.mpr (twice key)

/-- So is the node of the examples. -/
theorem stubNode_started (key : UInt8) : Started (freshNode (stubWallet key)) :=
  freshNode_started (show stubSsl.sha256 = sha256 from rfl) (stubWallet key)

end MiniCoin
