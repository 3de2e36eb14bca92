import MiniCoin.GenesisBlock
import MiniCoin.Transitions

/-!
# Two ways to take a chain

`chain_replace` judges a whole chain at once, and `chain_add_block` judges one block against
the tip. Both ask for the link to the predecessor and for proof of work; only the second one
looks at the index. So the two agree on a chain exactly if it is refused for its links or
numbers its blocks by their positions.
-/

namespace MiniCoin

open ByteStrings

/-- Blocks given to `chain_add_block` in order; `none` if one of them is
refused. -/
def addBlocks (sha : Sha256) (chain : Blockchain) (blocks : List Block) : Option Blockchain :=
  blocks.foldlM (chainAddBlock sha) chain

/-- What `chain_add_block` asks of a block after the tip: the next index, the
hash of the tip, and a hash of its own that is right and meets the target. -/
def Follows (sha : Sha256) (prev curr : Block) : Prop :=
  curr.index = prev.index + 1 ∧ Linked sha prev curr

/-- The block at each position has that position as its index. `chain_add_block`
keeps this up, and `chain_validate` does not ask for it. -/
def Numbered (chain : Blockchain) : Prop :=
  ∀ (position : Nat) (block : Block), chain[position]? = some block →
    block.index.toNat = position

/-- On a node that only has the genesis block, both ways take the chain, with
the same result, or both refuse it. -/
def PathsAgree (sha : Sha256) (genesis : Block) (rest : List Block) : Prop :=
  chainReplace sha [genesis] (genesis :: rest) = addBlocks sha [genesis] rest

/-- Blocks are added one by one exactly if each follows the one before it. -/
theorem addBlocks_iff (sha : Sha256) (chain grown : Blockchain) (last : Block) (blocks : List Block)
    (tip : chain.getLast? = some last) (fits : chain.length + blocks.length ≤ maxBlocks) :
    addBlocks sha chain blocks = some grown ↔
      (last :: blocks).IsChain (Follows sha) ∧ grown = chain ++ blocks := by
  induction blocks generalizing chain last with
  | nil => simp [addBlocks, eq_comm]
  | cons block rest ih =>
    rw [List.length_cons] at fits
    have unfolded : addBlocks sha chain (block :: rest) =
        (chainAddBlock sha chain block).bind fun longer => addBlocks sha longer rest := by
      simp [addBlocks]
    have others := ih (chain ++ [block]) block (by simp) (by simp; omega)
    rw [unfolded, Option.bind_eq_some_iff, List.isChain_cons_cons]
    constructor
    · rintro ⟨longer, added, later⟩
      obtain ⟨-, ⟨before, same, index, linked⟩, rfl⟩ := (chainAddBlock_iff _ _ _ _).mp added
      obtain rfl : last = before := Option.some.inj (tip.symm.trans same)
      obtain ⟨follow, rfl⟩ := others.mp later
      exact ⟨⟨⟨index, linked⟩, follow⟩, by simp⟩
    · rintro ⟨⟨⟨index, linked⟩, follow⟩, rfl⟩
      have added : chainAddBlock sha chain block = some (chain ++ [block]) :=
        (chainAddBlock_iff _ _ _ _).mpr ⟨by omega, ⟨last, tip, index, linked⟩, rfl⟩
      exact ⟨chain ++ [block], added, others.mpr ⟨follow, by simp⟩⟩

/-- Indices that count up from zero are positions. -/
theorem isChain_follows_iff (sha : Sha256) (genesis : Block) (rest : List Block)
    (zero : genesis.index = 0) (fits : (genesis :: rest).length ≤ maxBlocks) :
    (genesis :: rest).IsChain (Follows sha) ↔
      (genesis :: rest).IsChain (Linked sha) ∧ Numbered (genesis :: rest) := by
  have fits' : (genesis :: rest).length ≤ 10000 := fits
  have one : (1 : UInt32).toNat = 1 := rfl
  constructor
  · intro follow
    refine ⟨follow.imp fun _ _ both => both.2, fun position => ?_⟩
    induction position with
    | zero =>
      intro block here
      obtain rfl : genesis = block := by simpa using here
      rw [zero]
      rfl
    | succ position ih =>
      intro block here
      obtain ⟨inside, rfl⟩ := List.getElem?_eq_some_iff.mp here
      have before := ih _ (List.getElem?_eq_getElem (by omega))
      obtain ⟨index, -⟩ := List.isChain_iff_getElem.mp follow position inside
      rw [index, UInt32.toNat_add, before, one]
      omega
  · rintro ⟨linked, numbered⟩
    rw [List.isChain_iff_getElem] at linked ⊢
    intro position inside
    have before := numbered position _ (List.getElem?_eq_getElem (by omega))
    have after := numbered (position + 1) _ (List.getElem?_eq_getElem inside)
    refine ⟨UInt32.toNat_inj.mp ?_, linked position inside⟩
    rw [UInt32.toNat_add, before, after, one]
    omega

/-- The two ways agree on a chain after the genesis block exactly if links and
proof of work already rule it out, or its blocks are numbered by their
positions. -/
theorem pathsAgree_iff (sha : Sha256) (genesis : Block) (rest : List Block)
    (created : blockCreateGenesis sha = some genesis) (longer : 1 < (genesis :: rest).length)
    (fits : (genesis :: rest).length ≤ maxBlocks) :
    PathsAgree sha genesis rest ↔
      ((genesis :: rest).IsChain (Linked sha) → Numbered (genesis :: rest)) := by
  obtain ⟨⟨nonce, hash, same⟩, -⟩ := blockCreateGenesis_some sha genesis created
  have zero : genesis.index = 0 := by
    subst same
    rfl
  have split := isChain_follows_iff sha genesis rest zero fits
  have added (grown : Blockchain) := addBlocks_iff sha [genesis] grown genesis rest rfl (by
    simpa [Nat.add_comm] using fits)
  have replaced := chainReplace_iff sha [genesis] (genesis :: rest)
  constructor
  · intro agree linked
    have taken := (replaced _).mpr ⟨longer, linked, rfl⟩
    rw [agree] at taken
    exact (split.mp ((added _).mp taken).1).2
  · intro numbered
    refine Option.ext fun grown => ?_
    rw [replaced, added, split]
    constructor
    · rintro ⟨-, linked, rfl⟩
      exact ⟨⟨linked, numbered linked⟩, rfl⟩
    · rintro ⟨⟨linked, -⟩, rfl⟩
      exact ⟨longer, linked, rfl⟩

/-- A mined block on the genesis block with index 5. -/
def misnumberedBlock : Block :=
  { blockAfter genesisBlock 1073 with
    index := 5
    hash := CText.ofBytes (ascii "00558c99602d06bd907c93bb8ba181992128b4b3cb873f897b1afc8161374af9") }

/-- Only `chain_replace` takes it: `chain_add_block` compares the index with the
last one, and `chain_validate` leaves this test out. -/
theorem paths_disagree : ¬ PathsAgree Sha2.sha256 genesisBlock [misnumberedBlock] := by
  have taken : chainReplace Sha2.sha256 [genesisBlock] [genesisBlock, misnumberedBlock] =
      some [genesisBlock, misnumberedBlock] := by decide +kernel
  have refused : addBlocks Sha2.sha256 [genesisBlock] [misnumberedBlock] = none := by decide +kernel
  rw [PathsAgree, taken, refused]
  simp

/-- The same chain, and what the equivalence says about it: the index of its
second block is not the one that appending asks for. -/
theorem pathsAgree_iff_here : PathsAgree Sha2.sha256 genesisBlock [misnumberedBlock] ↔
    ([genesisBlock, misnumberedBlock].IsChain (Linked Sha2.sha256) →
      Numbered [genesisBlock, misnumberedBlock]) :=
  pathsAgree_iff Sha2.sha256 genesisBlock [misnumberedBlock] genesis_created (by decide) (by decide)

end MiniCoin
