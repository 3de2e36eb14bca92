import MiniCoin.Affordability
import MiniCoin.ChainSafety
import MiniCoin.Tampering

/-!
# Overdrafts

`do_mine` tests each mempool entry on its own against the chain, but takes up to nine
together. So the entries of one sender may each be covered and still overdraw the account.
While no sum wraps, the balances after the new block are non-negative exactly if every
address can pay for all its selected entries together.
-/

namespace MiniCoin

open ByteStrings Residues Runs

variable {ssl : OpenSSL}

/-! ## Sums of transfers -/

/-- What transactions pay to an address, without wrapping. -/
def received (addr : CText addrLen) (txs : List Tx) : Nat :=
  (txs.map fun tx => if tx.receiver = addr then tx.amount.toNat else 0).sum

/-- What transactions cost an address, fees included. -/
def spent (addr : CText addrLen) (txs : List Tx) : Nat :=
  (txs.map fun tx => if tx.sender = addr then tx.amount.toNat + tx.fee.toNat else 0).sum

/-- All amounts and fees together. While this is small nothing wraps. -/
def turnover (txs : List Tx) : Nat := (txs.map fun tx => tx.amount.toNat + tx.fee.toNat).sum

/-- The turnover of one transaction more. -/
theorem turnover_cons (tx : Tx) (rest : List Tx) :
    turnover (tx :: rest) = tx.amount.toNat + tx.fee.toNat + turnover rest := by simp [turnover]

/-- The fees of one transaction more. -/
theorem feeSum_cons (tx : Tx) (rest : List Tx) : feeSum (tx :: rest) = tx.fee.toNat + feeSum rest := by
  simp [feeSum]

/-- What one transaction more pays. -/
theorem received_cons (addr : CText addrLen) (tx : Tx) (rest : List Tx) :
    received addr (tx :: rest) =
      (if tx.receiver = addr then tx.amount.toNat else 0) + received addr rest := by simp [received]

/-- What one transaction more costs. -/
theorem spent_cons (addr : CText addrLen) (tx : Tx) (rest : List Tx) :
    spent addr (tx :: rest) =
      (if tx.sender = addr then tx.amount.toNat + tx.fee.toNat else 0) + spent addr rest := by
  simp [spent]

/-- No sum exceeds the turnover. -/
theorem sums_le_turnover (addr : CText addrLen) (txs : List Tx) :
    received addr txs + feeSum txs ≤ turnover txs ∧ spent addr txs ≤ turnover txs := by
  induction txs with
  | nil => simp [received, feeSum, spent, turnover]
  | cons tx rest ih =>
    rw [received_cons, feeSum_cons, spent_cons, turnover_cons]
    split <;> split <;> omega

/-- A selection turns over no more than the whole. -/
theorem turnover_sublist (some all : List Tx) (part : some.Sublist all) :
    turnover some ≤ turnover all := (part.map _).sum_le_sum fun _ _ => Nat.zero_le _

/-- The transfers add up to what was received less what was spent, as
residues. -/
theorem sum_transfer (addr : CText addrLen) (txs : List Tx) :
    (txs.map (transfer addr)).sum = ((received addr txs - spent addr txs : Int) : Word) := by
  induction txs with
  | nil => simp [received, spent]
  | cons tx rest ih =>
    rw [List.map_cons, List.sum_cons, ih, received_cons, spent_cons, transfer, unsigned, unsigned]
    split <;> split <;> push_cast <;> ring

/-- The balance after transactions, in the signed range. -/
theorem toInt_foldl_balanceStep (addr : CText addrLen) (balance : Int64) (txs : List Tx) :
    (txs.foldl (balanceStep addr) balance).toInt =
      (balance.toInt + received addr txs - spent addr txs).bmod (2 ^ 64) := by
  refine toInt_of_signed _ _ ?_
  rw [signed_foldl_balanceStep, sum_transfer, signed]
  push_cast
  ring

/-- A balance is read block by block, so the last block can be split off. -/
theorem chainGetBalance_append (chain : Blockchain) (block : Block) (addr : CText addrLen) :
    chainGetBalance (chain ++ [block]) addr =
      block.listed.foldl (balanceStep addr) (chainGetBalance chain addr) := by
  simp [chainGetBalance]

/-! ## After mining -/

/-- What the owner of an address gets from the block with these payments. The
miner gets the reward and the fees as well. -/
def earned (miner addr : CText addrLen) (txs : List Tx) : Nat :=
  received addr txs + if addr = miner then 50 + feeSum txs else 0

/-- The address can pay for all its payments together, and its balance stays in
range. -/
structure PaysTogether (chain : Blockchain) (miner addr : CText addrLen) (txs : List Tx) : Prop where
  funds : (spent addr txs : Int) ≤ (chainGetBalance chain addr).toInt + earned miner addr txs
  range : (chainGetBalance chain addr).toInt + earned miner addr txs - spent addr txs < 2 ^ 63

/-- The coinbase transaction adds the reward and the fees to what the miner
gets. -/
theorem sums_coinbase (sha : Sha256) (miner addr : CText addrLen) (txs : List Tx)
    (other : addr ≠ coinbaseAddr) (small : feeSum txs < 2 ^ 62) :
    received addr (coinbaseTx sha miner txs :: txs) = earned miner addr txs ∧
      spent addr (coinbaseTx sha miner txs :: txs) = spent addr txs := by
  have amount : (coinbaseTx sha miner txs).amount.toNat = 50 + feeSum txs := by
    rw [coinbase_amount]
    omega
  have receiver : (coinbaseTx sha miner txs).receiver = miner := rfl
  have sender : (coinbaseTx sha miner txs).sender = coinbaseAddr := rfl
  rw [received_cons, spent_cons, amount, receiver, sender, if_neg other.symm, earned, zero_add,
    Nat.add_comm]
  simp only [eq_comm, and_self]

/-- While nothing wraps, mining keeps all balances non-negative exactly if every
address can pay for its payments among the first nine affordable mempool entries
together. -/
theorem balances_stay_iff (node filled after : Node ssl) (mined : Block)
    (selects : mineSelect node = some filled) (adds : mineAdd filled = some after)
    (accepted : after.mining = .added mined)
    (solvent : ∀ addr ≠ coinbaseAddr, 0 ≤ (chainGetBalance node.chain addr).toInt)
    (small : turnover node.mempool < 2 ^ 62) :
    (∀ addr ≠ coinbaseAddr, 0 ≤ (chainGetBalance after.chain addr).toInt) ↔
      ∀ addr ≠ coinbaseAddr, PaysTogether node.chain node.wallet.address addr
        ((node.mempool.filter (affordable node.chain)).take 9) := by
  obtain ⟨begun, content, grown⟩ := mined_block selects adds accepted
  rw [← selectTxs_eq]
  have bound : turnover (selectTxs node.chain node.mempool) < 2 ^ 62 :=
    lt_of_le_of_lt (turnover_sublist _ _ (selectTxs_sublist _ _)) small
  refine forall₂_congr fun addr other => ?_
  have sums := sums_le_turnover addr (selectTxs node.chain node.mempool)
  obtain ⟨gets, pays⟩ := sums_coinbase ssl.sha256 node.wallet.address addr
    (selectTxs node.chain node.mempool) other (by omega)
  have before := solvent addr other
  have upper := (chainGetBalance node.chain addr).toInt_lt
  have reward : earned node.wallet.address addr (selectTxs node.chain node.mempool) ≤
      received addr (selectTxs node.chain node.mempool) + (50 + feeSum (selectTxs node.chain node.mempool)) := by
    unfold earned
    split <;> omega
  have balance : (chainGetBalance after.chain addr).toInt =
      ((chainGetBalance node.chain addr).toInt +
        earned node.wallet.address addr (selectTxs node.chain node.mempool) -
          spent addr (selectTxs node.chain node.mempool)).bmod (2 ^ 64) := by
    rw [grown, chainGetBalance_append, content.listed, fillBlock_listed, toInt_foldl_balanceStep,
      gets, pays]
  rw [balance, Int.bmod_def]
  constructor
  · intro positive
    exact ⟨by omega, by omega⟩
  · rintro ⟨funds, range⟩
    omega

/-! ## An example -/

/-- The owner of one block sends 49 coins with a fee of 1 three times and mines
again. -/
def overdrawing : List Event :=
  let pay := Event.action (.send payee 49 1)
  [.action (.mineTip 192), .action .mineSelect, .action .mineAdd, .action .mineBroadcast, pay, pay,
    pay, .action (.mineTip 232)]

/-- Nobody has overdrawn after the first block. -/
theorem firstChain_solvent (addr : CText addrLen) (other : addr ≠ coinbaseAddr) :
    0 ≤ (chainGetBalance [genesisBlock, firstBlock] addr).toInt := by
  have listed : genesisBlock.listed = [] ∧
      firstBlock.listed = [coinbaseTx Sha2.sha256 (stubWallet 0).address []] := by decide +kernel
  have sender : (coinbaseTx Sha2.sha256 (stubWallet 0).address []).sender = coinbaseAddr := rfl
  have amount : (coinbaseTx Sha2.sha256 (stubWallet 0).address []).amount = 50 := by rfl
  simp only [chainGetBalance, List.foldl_cons, List.foldl_nil, listed, balanceStep, sender, amount,
    if_neg other.symm]
  split <;> decide

/-- The process before `do_mine` selects, after it has selected, and at its
end. -/
theorem overdrawing_run : ∃ (node filled after : Node stubSsl) (mined : Block),
    run nodeNext (freshNode (stubWallet 0)) overdrawing = some node ∧
      mineSelect node = some filled ∧ mineAdd filled = some after ∧ after.mining = .added mined ∧
      node.chain = [genesisBlock, firstBlock] ∧ (∀ tx ∈ node.mempool, tx.sender ≠ coinbaseAddr) ∧
      turnover node.mempool = 150 ∧ (chainGetBalance after.chain (stubWallet 0).address).toInt = -47 := by
  have evaluated : ((run nodeNext (freshNode (stubWallet 0)) overdrawing).bind fun node =>
      (mineSelect node).bind fun filled => (mineAdd filled).map fun after =>
        (after.mining == .idle, node.chain, node.mempool.map Tx.sender, turnover node.mempool,
          (chainGetBalance after.chain (stubWallet 0).address).toInt)) =
      some (false, [genesisBlock, firstBlock], List.replicate 3 (stubWallet 0).address, 150, -47) := by
    decide +kernel
  obtain ⟨node, ran, evaluated⟩ := Option.bind_eq_some_iff.mp evaluated
  obtain ⟨filled, selects, evaluated⟩ := Option.bind_eq_some_iff.mp evaluated
  obtain ⟨after, adds, evaluated⟩ := Option.map_eq_some_iff.mp evaluated
  simp only [Prod.mk.injEq, beq_eq_false_iff_ne] at evaluated
  obtain ⟨busy, chain, senders, total, balance⟩ := evaluated
  have paid : ∀ tx ∈ node.mempool, tx.sender ≠ coinbaseAddr := by
    intro tx member
    have sender : tx.sender ∈ node.mempool.map Tx.sender := List.mem_map_of_mem member
    rw [senders] at sender
    rw [List.eq_of_mem_replicate sender]
    exact extractAddress_ne_coinbase _
  refine ⟨node, filled, after, ?_⟩
  cases act_acts filled after .mineAdd [] (by simp [act, adds]) with
  | abandoned => exact absurd rfl busy
  | added stage found added =>
    exact ⟨_, ran, selects, adds, rfl, chain, paid, total, balance⟩

/-- Its account is overdrawn by 47 coins. -/
theorem mining_overdraws : ∃ (node filled after : Node stubSsl) (mined : Block),
    run nodeNext (freshNode (stubWallet 0)) overdrawing = some node ∧
      mineSelect node = some filled ∧ mineAdd filled = some after ∧ after.mining = .added mined ∧
      (∀ addr ≠ coinbaseAddr, 0 ≤ (chainGetBalance node.chain addr).toInt) ∧
      (∀ tx ∈ node.mempool, tx.sender ≠ coinbaseAddr) ∧ turnover node.mempool < 2 ^ 62 ∧
      ¬ ∀ addr ≠ coinbaseAddr, 0 ≤ (chainGetBalance after.chain addr).toInt := by
  obtain ⟨node, filled, after, mined, ran, selects, adds, accepted, chain, senders, total, balance⟩ :=
    overdrawing_run
  refine ⟨node, filled, after, mined, ran, selects, adds, accepted, ?_, senders, by omega, ?_⟩
  · rw [chain]
    exact firstChain_solvent
  · intro solvent
    have positive := solvent (stubWallet 0).address (extractAddress_ne_coinbase _)
    omega

/-- The same process, and what the equivalence says about it. -/
theorem balances_stay_iff_here : ∃ node filled after : Node stubSsl,
    mineSelect node = some filled ∧ mineAdd filled = some after ∧
      ((∀ addr ≠ coinbaseAddr, 0 ≤ (chainGetBalance after.chain addr).toInt) ↔
        ∀ addr ≠ coinbaseAddr, PaysTogether node.chain node.wallet.address addr
          ((node.mempool.filter (affordable node.chain)).take 9)) := by
  obtain ⟨node, filled, after, mined, -, selects, adds, accepted, chain, -, total, -⟩ :=
    overdrawing_run
  refine ⟨node, filled, after, selects, adds,
    balances_stay_iff node filled after mined selects adds accepted ?_ (by omega)⟩
  rw [chain]
  exact firstChain_solvent

end MiniCoin
