import MiniCoin.Affordability
import MiniCoin.ChainSafety
import MiniCoin.Tampering

/-!
# Pending payments

`do_mine` empties the mempool when it selects, takes at most nine entries, and may find at
the end that its block no longer fits the chain. What then becomes of the entries that their
senders could afford depends on what other threads did while the block was mined.
-/

namespace MiniCoin

open ByteStrings Runs

variable {ssl : OpenSSL}

/-- The balance of the sender covers the cost, as numbers. It is what a user
would expect of the test. -/
def CanAfford (chain : Blockchain) (tx : Tx) : Prop :=
  (tx.amount.toNat + tx.fee.toNat : Int) ≤ (chainGetBalance chain tx.sender).toInt

/-- Such a transaction passes the balance test. -/
theorem CanAfford.affordable {chain : Blockchain} {tx : Tx} (can : CanAfford chain tx) :
    affordable chain tx = true := by
  have upper := (chainGetBalance chain tx.sender).toInt_lt
  have lower := (chainGetBalance chain tx.sender).le_toInt
  unfold CanAfford at can
  rw [affordable_eq, covers, decide_eq_true_eq, Int64.le_iff_toInt_le, toInt_cost, Int.bmod_def]
  omega

/-- `do_mine` to its end. While the block is mined, the chain becomes `later`
and the entries `arrived` come into the emptied mempool. -/
def doMine (node : Node ssl) (time : Int64) (later : Blockchain) (arrived : List Tx) :
    Option (Node ssl) :=
  (mineTip node time).bind fun begun => (mineSelect begun).bind fun filled =>
    mineAdd { filled with chain := later, mempool := arrived }

/-- No payment is lost: it is in the appended block or in the mempool, whether
the block is accepted or refused. -/
def PaymentsKept (node after : Node ssl) : Prop :=
  ∀ tx ∈ node.mempool, CanAfford node.chain tx →
    tx ∈ after.mempool ∨ ∃ mined, after.mining = .added mined ∧ tx ∈ mined.listed

/-- The later chain has room and a tip with the same index and hash, so the
mined block still fits. -/
def TipStays (chain later : Blockchain) : Prop :=
  later.length < maxBlocks ∧ ∃ tip last, chain.getLast? = some tip ∧ later.getLast? = some last ∧
    last.index = tip.index ∧ last.hash = tip.hash

/-- A block mined on a tip is accepted exactly if the tip stays. -/
theorem extends_mined_iff (sha : Sha256) (chain later mempool : List _) (minerAddr : CText addrLen)
    (tip mined : Block) (time : Int64) (attempts : UInt64) (read : chain.getLast? = some tip)
    (found : blockMine sha (fillBlock sha chain mempool minerAddr (blockAfter tip time)) =
      some (attempts, mined)) :
    Extends sha later mined ↔ TipStays chain later := by
  obtain ⟨-, valid⟩ := blockMine_some sha _ _ _ found
  have content := blockMine_sameContent found
  have index : mined.index = tip.index + 1 := content.index
  have prevHash : mined.prevHash = tip.hash := content.prevHash
  constructor
  · rintro ⟨room, last, ends, follows, linked, -⟩
    refine ⟨room, tip, last, read, ends, ?_, ?_⟩
    · rw [index] at follows
      exact (UInt32.add_left_inj 1).mp follows.symm
    · rw [← linked, prevHash]
  · rintro ⟨room, same, last, readSame, ends, sameIndex, sameHash⟩
    obtain rfl : tip = same := Option.some.inj (read.symm.trans readSame)
    exact ⟨room, last, ends, by rw [index, sameIndex], by rw [prevHash, sameHash], valid⟩

/-- The forms of `do_mine` to its end. -/
theorem doMine_some (node after : Node ssl) (time : Int64) (later : Blockchain) (arrived : List Tx)
    (ended : doMine node time later arrived = some after) :
    after.mempool = arrived ∧ ∃ tip attempts mined, node.chain.getLast? = some tip ∧
      blockMine ssl.sha256 (fillBlock ssl.sha256 node.chain node.mempool node.wallet.address
        (blockAfter tip time)) = some (attempts, mined) ∧
      ((Extends ssl.sha256 later mined ∧ after.mining = .added mined) ∨
        (¬ Extends ssl.sha256 later mined ∧ after.mining = .idle)) := by
  obtain ⟨begun, tipRead, rest⟩ := Option.bind_eq_some_iff.mp ended
  obtain ⟨filled, selects, adds⟩ := Option.bind_eq_some_iff.mp rest
  obtain ⟨busy, made⟩ : ∃ busy, busy = { filled with chain := later, mempool := arrived } := ⟨_, rfl⟩
  rw [← made] at adds
  cases tip : node.chain.getLast? with
  | none => simp [mineTip, chainLastBlock, tip] at tipRead
  | some last =>
    simp only [mineTip, chainLastBlock, tip, Option.some.injEq] at tipRead
    subst tipRead
    simp only [mineSelect, Option.some.injEq] at selects
    subst selects
    cases act_acts busy after .mineAdd [] (by simp [act, adds]) with
    | added stage found accepted =>
      subst made
      obtain ⟨follows, rfl⟩ := extends_of_chainAddBlock _ _ _ _ accepted
      cases stage
      exact ⟨rfl, last, _, _, rfl, found, Or.inl ⟨follows, rfl⟩⟩
    | abandoned stage found stale =>
      subst made
      cases stage
      refine ⟨rfl, last, _, _, rfl, found, Or.inr ⟨fun follows => ?_, rfl⟩⟩
      have accepted := chainAddBlock_of_extends _ _ _ follows
      rw [stale] at accepted
      cases accepted

/-- No payment is lost exactly if each affordable entry arrives again, or is one
of the first nine that pass the balance test, or the coinbase transaction, and
the tip stays. -/
theorem paymentsKept_iff (node after : Node ssl) (time : Int64) (later : Blockchain)
    (arrived : List Tx) (ended : doMine node time later arrived = some after) :
    PaymentsKept node after ↔ ∀ tx ∈ node.mempool, CanAfford node.chain tx →
      tx ∈ arrived ∨ (TipStays node.chain later ∧
        tx ∈ coinbaseTx ssl.sha256 node.wallet.address
            ((node.mempool.filter (affordable node.chain)).take 9) ::
          (node.mempool.filter (affordable node.chain)).take 9) := by
  obtain ⟨mempool, tip, attempts, mined, read, found, outcome⟩ :=
    doMine_some node after time later arrived ended
  have stays := extends_mined_iff ssl.sha256 node.chain later node.mempool node.wallet.address tip
    mined time attempts read found
  have listed : mined.listed = _ := (blockMine_sameContent found).listed.trans
    (fillBlock_listed _ _ _ _ _)
  rw [selectTxs_eq] at listed
  refine forall₂_congr fun tx member => forall_congr' fun can => ?_
  rw [mempool, ← stays, ← listed]
  rcases outcome with ⟨follows, mining⟩ | ⟨refused, mining⟩
  · simp [mining, follows]
  · simp [mining, refused]

/-! ## An example -/

/-- The owner of one block sends one coin. -/
def sending : List Event :=
  [.action (.mineTip 192), .action .mineSelect, .action .mineAdd, .action .mineBroadcast,
    .action (.send payee 1 1)]

/-- A block that another miner finds at the same time. -/
def rivalBlock : Block :=
  { fillBlock Sha2.sha256 [genesisBlock, firstBlock] [] (stubWallet 1).address
      (blockAfter firstBlock 288) with
    hash := CText.ofBytes (ascii "0099d9f267f67568925189d654bd733e4c4fcde0b6b921fd80efcafd8741d983") }

/-- The process before `do_mine`, and at its end after the rival block has come
in. -/
theorem payment_run : ∃ (node after : Node stubSsl) (later : Blockchain),
    run nodeNext (freshNode (stubWallet 0)) sending = some node ∧
      chainAddBlock Sha2.sha256 node.chain rivalBlock = some later ∧
      doMine node 291 later [] = some after ∧ after.mempool = [] ∧ after.mining = .idle ∧
      ∃ tx ∈ node.mempool, CanAfford node.chain tx := by
  have evaluated : ((run nodeNext (freshNode (stubWallet 0)) sending).bind fun node =>
      (chainAddBlock Sha2.sha256 node.chain rivalBlock).bind fun later =>
        (doMine node 291 later []).map fun after =>
          (after.mempool, after.mining, node.mempool.map fun tx =>
            decide ((tx.amount.toNat + tx.fee.toNat : Int) ≤
              (chainGetBalance node.chain tx.sender).toInt))) =
      some ([], .idle, [true]) := by decide +kernel
  obtain ⟨node, ran, evaluated⟩ := Option.bind_eq_some_iff.mp evaluated
  obtain ⟨later, grown, evaluated⟩ := Option.bind_eq_some_iff.mp evaluated
  obtain ⟨after, ended, evaluated⟩ := Option.map_eq_some_iff.mp evaluated
  simp only [Prod.mk.injEq, List.map_eq_singleton_iff, decide_eq_true_eq] at evaluated
  obtain ⟨emptied, idle, tx, pending, can⟩ := evaluated
  exact ⟨node, after, later, ran, grown, ended, emptied, idle, tx, by simp [pending], can⟩

/-- Its payment is lost: `do_mine` has emptied the mempool, and its block is
refused because the chain has grown meanwhile. -/
theorem payment_lost : ∃ (node after : Node stubSsl) (later : Blockchain),
    run nodeNext (freshNode (stubWallet 0)) sending = some node ∧
      chainAddBlock Sha2.sha256 node.chain rivalBlock = some later ∧
      doMine node 291 later [] = some after ∧ ¬ PaymentsKept node after := by
  obtain ⟨node, after, later, ran, grown, ended, emptied, idle, tx, member, can⟩ := payment_run
  refine ⟨node, after, later, ran, grown, ended, fun kept => ?_⟩
  rcases kept tx member can with pending | ⟨mined, added, -⟩
  · rw [emptied] at pending
    exact absurd pending List.not_mem_nil
  · rw [idle] at added
    cases added

/-- The same process, and what the equivalence says about it: the payment has
not arrived again, and the tip has not stayed. -/
theorem paymentsKept_iff_here : ∃ (node after : Node stubSsl) (later : Blockchain),
    doMine node 291 later [] = some after ∧
      (PaymentsKept node after ↔ ∀ tx ∈ node.mempool, CanAfford node.chain tx →
        tx ∈ [] ∨ (TipStays node.chain later ∧
          tx ∈ coinbaseTx stubSsl.sha256 node.wallet.address
              ((node.mempool.filter (affordable node.chain)).take 9) ::
            (node.mempool.filter (affordable node.chain)).take 9)) := by
  obtain ⟨node, after, later, -, -, ended, -⟩ := payment_run
  exact ⟨node, after, later, ended, paymentsKept_iff node after 291 later [] ended⟩

end MiniCoin
