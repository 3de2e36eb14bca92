import MiniCoin.Balances
import MiniCoin.GenesisBlock
import MiniCoin.PlainRuns

/-!
# The supply of coins

In a network of honest nodes every block after the genesis block pays the reward and the
fees to its miner and says its position. Chains are only passed on or extended by such
blocks. Since balances miss exactly the fees, the balances and the coinbase amounts of a
chain together are 50 coins for every block after the first, modulo `2 ^ 64`.
-/

namespace MiniCoin

open ByteStrings Residues Runs

variable {ι : Type} {ssl : OpenSSL}

/-! ## Mined blocks -/

/-- The first transaction of the block pays the reward and the fees of the other
ones. -/
structure Minted (block : Block) : Prop where
  count : 1 ≤ block.txCount.toInt ∧ block.txCount.toInt ≤ maxTxPerBlock
  sender : block.transactions[0].sender = coinbaseAddr
  fee : block.transactions[0].fee = 0
  amount : unsigned block.transactions[0].amount =
    50 + (block.listed.tail.map fun tx => unsigned tx.fee).sum

/-- The first listed transaction is the one in slot 0. -/
theorem listed_eq_cons (block : Block) (positive : 1 ≤ block.txCount.toInt) :
    block.listed = block.transactions[0] :: block.listed.tail := by
  obtain ⟨count, listed⟩ : ∃ less, block.count = less + 1 := ⟨block.count - 1, by
    unfold Block.count
    omega⟩
  have slots : block.transactions.toList ≠ [] := by simp
  obtain ⟨first, rest, shape⟩ := List.exists_cons_of_ne_nil slots
  have head : block.transactions[0] = first := by
    have same : block.transactions.toList[0]? = some first := by simp [shape]
    simpa using same
  rw [Block.listed, listed, shape, List.take_succ_cons, head]
  rfl

/-- What `do_mine` fills pays the reward and the fees of what it has
selected. -/
theorem minted_fillBlock (sha : Sha256) (chain : Blockchain) (mempool : List Tx)
    (minerAddr : CText addrLen) (begun : Block) : Minted (fillBlock sha chain mempool minerAddr begun) := by
  have few := selectTxs_length chain mempool
  have count := fillBlock_count sha chain mempool minerAddr begun
  have positive : 1 ≤ (fillBlock sha chain mempool minerAddr begun).txCount.toInt := by omega
  have listed := listed_eq_cons _ positive
  rw [fillBlock_listed] at listed
  obtain ⟨first, -⟩ := List.cons.inj listed
  refine ⟨⟨positive, fillBlock_inBounds sha chain mempool minerAddr begun⟩, ?_, ?_, ?_⟩
  · rw [← first]
    rfl
  · rw [← first]
    rfl
  · rw [← first, fillBlock_listed, List.tail_cons]
    change unsigned (miningReward + (selectTxs chain mempool).foldl (fun total tx => total + tx.fee) 0) = _
    have reward : unsigned miningReward = 50 := rfl
    have zero : unsigned 0 = 0 := rfl
    rw [unsigned_add, unsigned_foldl_fees, reward, zero, zero_add]

/-- Mining changes the nonce and the hash only, so this stays. -/
theorem minted_of_sameContent {block mined : Block} (same : SameContent block mined)
    (minted : Minted block) : Minted mined where
  count := by
    rw [same.txCount]
    exact minted.count
  sender := by
    rw [same.transactions]
    exact minted.sender
  fee := by
    rw [same.transactions]
    exact minted.fee
  amount := by
    rw [same.transactions, same.listed]
    exact minted.amount

/-! ## Honest chains -/

/-- A chain of an honest network: genesis first, every block at its position,
and only mined blocks after the first. -/
structure Honest (sha : Sha256) (chain : Blockchain) : Prop where
  start : ∃ genesis, blockCreateGenesis sha = some genesis ∧ chain.head? = some genesis
  bounded : chain.length ≤ maxBlocks
  index : ∀ (position : Nat) (block : Block), chain[position]? = some block →
    block.index.toNat = position
  minted : ∀ block ∈ chain.tail, Minted block

/-- Blocks that were minted, and honest chains of them. Transactions may be
any. -/
def supplyContents (sha : Sha256) : Contents where
  tx _ := True
  block := Minted
  chain := Honest sha

/-- An accepted block gets the position it says. -/
theorem honest_extended (sha : Sha256) (chain : Blockchain) (block : Block)
    (honest : Honest sha chain) (minted : Minted block) (follows : Extends sha chain block) :
    Honest sha (chain ++ [block]) := by
  obtain ⟨room, last, tip, index, -⟩ := follows
  have bound : chain.length < 10000 := room
  have nonempty : chain ≠ [] := by
    rintro rfl
    simp at tip
  obtain ⟨genesis, created, first⟩ := honest.start
  refine ⟨⟨genesis, created, by rw [List.head?_append, first]; rfl⟩, ?_, ?_, ?_⟩
  · simp only [List.length_append, List.length_singleton, maxBlocks]
    omega
  · intro position other here
    rcases Nat.lt_or_ge position chain.length with old | new
    · rw [List.getElem?_append_left old] at here
      exact honest.index position other here
    · rw [List.getElem?_append_right new] at here
      obtain ⟨same, rfl⟩ : position - chain.length = 0 ∧ block = other := by
        simpa [List.getElem?_singleton] using here
      have lastIndex := honest.index (chain.length - 1) last (by
        rw [← List.getLast?_eq_getElem?]
        exact tip)
      have positive := List.length_pos_of_ne_nil nonempty
      have one : (1 : UInt32).toNat = 1 := rfl
      rw [index, UInt32.toNat_add, lastIndex, one]
      omega
  · intro other member
    rw [List.tail_append_of_ne_nil nonempty] at member
    rcases List.mem_append.mp member with old | last
    · exact honest.minted other old
    · exact List.mem_singleton.mp last ▸ minted

/-- What nodes create is of this kind, and so is what they accept of this
kind. -/
theorem lawful_supply (ssl : OpenSSL) : (supplyContents ssl.sha256).Lawful ssl where
  started chain created := by
    obtain ⟨genesis, made, rfl⟩ := Option.map_eq_some_iff.mp created
    obtain ⟨⟨nonce, hash, same⟩, -⟩ := blockCreateGenesis_some ssl.sha256 genesis made
    refine ⟨⟨genesis, made, rfl⟩, by simp [maxBlocks], fun position block here => ?_, by simp⟩
    obtain ⟨rfl, rfl⟩ : position = 0 ∧ genesis = block := by
      simpa [List.getElem?_singleton] using here
    subst same
    rfl
  extended := honest_extended ssl.sha256
  mined filled attempts block filledFrom found := by
    obtain ⟨chain, mempool, wallet, begun, -, -, rfl⟩ := filledFrom
    exact minted_of_sameContent (blockMine_sameContent found) (minted_fillBlock _ _ _ _ _)

/-! ## Runs of honest networks -/

/-- Everything stored and under way is readable, and all chains are honest. Runs
of bytes can then be examined as runs of messages. -/
structure Tracked (net : Network ι ssl Message) : Prop where
  readable : Readable net
  supply : (supplyContents ssl.sha256).InNetwork net

/-- At the start there is the genesis block only. -/
theorem tracked_started (net : Network ι ssl Message) (started : net.Started) : Tracked net :=
  ⟨readable_started net started, Contents.inNetwork_started (lawful_supply ssl) net started⟩

/-- So every chain is honest. -/
theorem Tracked.honest {net : Network ι ssl Message} (tracked : Tracked net) (i : ι) :
    Honest ssl.sha256 (net.nodes i).chain := (tracked.supply.nodes i).chain

variable [DecidableEq ι]

/-- A run of the network of bytes with plain texts and short lines is a run of
the network of messages, and its end is tracked like its start. -/
theorem tracked_run (start : Network ι ssl Message) (reached : Network ι ssl UInt8)
    (events : List (NetEvent ι)) (tracked : Tracked start)
    (every : Every (Network.step bytes) (fun net event => PlainTexts event ∧ ShortLines net event)
      start.represent events)
    (ran : run (Network.step bytes) start.represent events = some reached) :
    ∃ typed, run (Network.step messages) start events = some typed ∧ typed.represent = reached ∧
      Tracked typed := by
  obtain ⟨agree, each⟩ := run_represent _ (fun _ _ both => both.1) (fun _ _ both => both.2) start
    events tracked.readable every
  rw [agree] at ran
  obtain ⟨typed, typedRan, same⟩ := Option.map_eq_some_iff.mp ran
  refine ⟨typed, typedRan, same, run_invariant (Network.step messages) _ Tracked ?_ start typed
    events tracked each typedRan⟩
  rintro net event next ⟨readable, supply⟩ ⟨plain, short⟩ stepped
  refine ⟨readable_step net next event readable plain short stepped,
    Contents.inNetwork_step (lawful_supply ssl) net next event supply ?_ stepped⟩
  cases event with
  | act i action => cases action <;> simp [Contents.Sends, supplyContents]
  | deliver | connect | accept | closed => trivial

/-! ## The supply -/

/-- What the coinbase transactions of a chain pay, as residues, fees
included. -/
def issued (chain : Blockchain) : Word :=
  (chain.tail.map fun block => unsigned block.transactions[0].amount).sum

/-- The rewards of minted blocks are fifty coins each and the fees of their
payments. -/
theorem issued_minted (blocks : List Block) (minted : ∀ block ∈ blocks, Minted block) :
    (blocks.map fun block => unsigned block.transactions[0].amount).sum =
      50 * blocks.length + ((chainTxs blocks).map fun tx => unsigned tx.fee).sum := by
  induction blocks with
  | nil => simp [chainTxs]
  | cons block rest ih =>
    have here := minted block (by simp)
    have others := ih fun other member => minted other (by simp [member])
    have zero : unsigned 0 = 0 := rfl
    have fees : (block.listed.map fun tx => unsigned tx.fee).sum =
        (block.listed.tail.map fun tx => unsigned tx.fee).sum := by
      rw [listed_eq_cons block here.count.1, List.map_cons, List.sum_cons, here.fee, zero, zero_add]
      rfl
    have split : chainTxs (block :: rest) = block.listed ++ chainTxs rest := rfl
    rw [List.map_cons, List.sum_cons, others, here.amount, split, List.map_append, List.sum_append,
      fees, List.length_cons]
    push_cast
    ring

/-- Fees are neither created nor lost. -/
theorem supply_honest (sha : Sha256) (chain : Blockchain) (honest : Honest sha chain) :
    (∑ᶠ addr, signed (chainGetBalance chain addr)) + issued chain =
      50 * ((chain.length - 1 : Nat) : Word) := by
  obtain ⟨genesis, created, first⟩ := honest.start
  obtain ⟨⟨nonce, hash, same⟩, -⟩ := blockCreateGenesis_some sha genesis created
  obtain ⟨rest, rfl⟩ := List.head?_eq_some_iff.mp first
  have nothing : genesis.listed = [] := by
    subst same
    rfl
  have split : chainTxs (genesis :: rest) = chainTxs rest := by
    rw [chainTxs, List.flatMap_cons, nothing]
    rfl
  have minted := issued_minted rest honest.minted
  rw [finsum_balances, split, issued, List.tail_cons, minted, List.length_cons, Nat.add_sub_cancel]
  ring

/-- In every run of a network of nodes, with plain texts and short lines,
every chain is honest, so its balances and its coinbase amounts add up to the
supply. -/
theorem supply_over_runs (start reached : Network ι ssl UInt8) (events : List (NetEvent ι))
    (started : start.Started)
    (every : Every (Network.step bytes) (fun net event => PlainTexts event ∧ ShortLines net event)
      start events)
    (ran : run (Network.step bytes) start events = some reached) (i : ι) :
    (reached.nodes i).chain.head? = blockCreateGenesis ssl.sha256 ∧
      (∀ (position : Nat) (block : Block), (reached.nodes i).chain[position]? = some block →
        block.index.toNat = position) ∧
      (∀ block ∈ (reached.nodes i).chain.tail, Minted block) ∧
      (∑ᶠ addr, signed (chainGetBalance (reached.nodes i).chain addr)) +
          issued (reached.nodes i).chain =
        50 * (((reached.nodes i).chain.length - 1 : Nat) : Word) := by
  rw [← represent_quiet start started.channel] at every ran
  obtain ⟨typed, -, rfl, tracked⟩ := tracked_run start.quiet reached events
    (tracked_started _ (quiet_started start started)) every ran
  have honest : Honest ssl.sha256 (typed.nodes i).chain := tracked.honest i
  obtain ⟨genesis, created, first⟩ := honest.start
  exact ⟨first.trans created.symm, honest.index, honest.minted, supply_honest _ _ honest⟩

/-- Two processes connect, the first one mines, and the second one takes the
block. Fifty coins are there on both sides. -/
theorem supply_over_a_run : ∃ reached : Network (Fin 2) stubSsl UInt8,
    (reached.nodes 1).chain.length = 2 ∧
      (∑ᶠ addr, signed (chainGetBalance (reached.nodes 1).chain addr)) +
        issued (reached.nodes 1).chain = 50 := by
  let events : List (NetEvent (Fin 2)) := [.connect 0 3 1 4, .accept 1 4, .act 0 (.mineTip 192),
    .act 0 .mineSelect, .act 0 .mineAdd, .act 0 .mineBroadcast, .deliver 1 4, .deliver 1 4,
    .deliver 1 4]
  have evaluated : (run (Network.step messages) (pair Message) events).map
      (fun net => (net.nodes 1).chain.length) = some 2 := by decide +kernel
  obtain ⟨typed, typedRan, length⟩ := Option.map_eq_some_iff.mp evaluated
  obtain ⟨every, ran⟩ := pair_run events typed (by decide) (by simp [events, PlainTexts]) typedRan
  have supply := supply_over_runs (pair UInt8) typed.represent events (pair_started UInt8) every ran 1
  refine ⟨typed.represent, length, ?_⟩
  rw [supply.2.2.2, show (typed.represent.nodes 1).chain.length = 2 from length]
  decide

end MiniCoin
