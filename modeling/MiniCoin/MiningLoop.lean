import MiniCoin.Blocks

/-!
# The search loop of mining

`block_mine` counts nonces upward from zero and has no other exit than a hash that meets the
target. It therefore returns exactly if one of the `2 ^ 64` nonces gives such a hash, and then with
the least of them: a search that passes all nonces starts again with zero, where it has failed
before. What it returns does not depend on the nonce and the hash that the block had.
-/

namespace MiniCoin

open ByteStrings

variable {sha : Sha256} {block mined : Block} {attempts total nonce : UInt64}

/-- With this nonce the hash of the block meets the target. -/
def Hits (sha : Sha256) (block : Block) (nonce : UInt64) : Prop :=
  meetsTarget (blockComputeHash sha { block with nonce := nonce }) = true

instance (sha : Sha256) (block : Block) (nonce : UInt64) : Decidable (Hits sha block nonce) :=
  inferInstanceAs (Decidable (_ = true))

/-- `block_mine` returns: some number of rounds is enough for its loop. The fuel
is no part of the source, so this is what termination means. -/
def MineReturns (sha : Sha256) (block : Block) (attempts : UInt64) (mined : Block) : Prop :=
  ∃ fuel, blockMineLoop sha fuel { block with nonce := 0 } 0 = some (attempts, mined)

/-- The block with this nonce and the hash that belongs to it. -/
def sealed (sha : Sha256) (block : Block) (nonce : UInt64) : Block :=
  { block with nonce := nonce, hash := blockComputeHash sha { block with nonce := nonce } }

/-! ## Rounds -/

/-- The loop ends in the round of the first hit. -/
theorem blockMineLoop_round (fuel : Nat)
    (found : blockMineLoop sha fuel block attempts = some (total, mined)) :
    ∃ tries < fuel, Hits sha block (block.nonce + UInt64.ofNat tries) ∧
      (∀ earlier < tries, ¬ Hits sha block (block.nonce + UInt64.ofNat earlier)) ∧
      total = attempts + UInt64.ofNat tries + 1 ∧
      mined = sealed sha block (block.nonce + UInt64.ofNat tries) := by
  induction fuel generalizing block attempts with
  | zero => cases found
  | succ fuel ih =>
    have start : block.nonce + UInt64.ofNat 0 = block.nonce := by simp
    have shift (n : Nat) : block.nonce + 1 + UInt64.ofNat n = block.nonce + UInt64.ofNat (n + 1) := by
      rw [UInt64.add_assoc, UInt64.add_comm 1]
      simp
    rw [blockMineLoop] at found
    split at found
    · next target =>
      obtain ⟨rfl, rfl⟩ := Prod.mk.inj (Option.some.inj found)
      refine ⟨0, Nat.succ_pos fuel, ?_, fun earlier before => absurd before (Nat.not_lt_zero _), by simp, ?_⟩
      · rw [start]
        exact target
      · rw [start]
        rfl
    · next missed =>
      obtain ⟨tries, within, hit, failed, counted, result⟩ := ih found
      simp only [shift] at hit failed result
      refine ⟨tries + 1, by omega, hit, fun earlier before => ?_, ?_, result⟩
      · cases earlier with
        | zero =>
          rw [start]
          exact missed
        | succ earlier => exact failed earlier (by omega)
      · rw [counted, UInt64.add_assoc attempts 1, UInt64.add_comm 1]
        simp

/-- The search from zero ends with the least nonce that hits. -/
theorem MineReturns.least (returns : MineReturns sha block attempts mined) :
    Hits sha block mined.nonce ∧ (∀ nonce < mined.nonce, ¬ Hits sha block nonce) ∧
      attempts = mined.nonce + 1 ∧ mined = sealed sha block mined.nonce := by
  obtain ⟨fuel, found⟩ := returns
  obtain ⟨tries, -, hit, failed, counted, result⟩ := blockMineLoop_round fuel found
  simp only [UInt64.zero_add] at hit failed counted result
  -- A search that passed all nonces would have hit one round of them earlier.
  have small : tries < 2 ^ 64 := by
    by_contra large
    have again : UInt64.ofNat (tries - 2 ^ 64) = UInt64.ofNat tries := by
      apply UInt64.toNat_inj.mp
      rw [UInt64.toNat_ofNat', UInt64.toNat_ofNat']
      omega
    have missed := failed (tries - 2 ^ 64) (by omega)
    rw [again] at missed
    exact missed hit
  have nonce : mined.nonce = UInt64.ofNat tries := by rw [result]; rfl
  rw [nonce]
  refine ⟨hit, fun earlier before => ?_, counted, result⟩
  have value : (UInt64.ofNat tries).toNat = tries := UInt64.toNat_ofNat_of_lt' small
  have position : earlier.toNat < tries := by
    have less := UInt64.lt_iff_toNat_lt.mp before
    rwa [value] at less
  have missed := failed earlier.toNat position
  rwa [UInt64.ofNat_toNat] at missed

/-- The least nonce that hits is found within the bound of `blockMine`. -/
theorem blockMine_of_least (hit : Hits sha block nonce)
    (least : ∀ earlier < nonce, ¬ Hits sha block earlier) :
    blockMine sha block = some (nonce + 1, sealed sha block nonce) := by
  have value : UInt64.ofNat nonce.toNat = nonce := UInt64.ofNat_toNat
  obtain ⟨total, found⟩ := blockMineLoop_first sha (2 ^ 64) nonce.toNat { block with nonce := 0 } 0
    nonce.toNat_lt (fun earlier before => by
      have earlierValue : (UInt64.ofNat earlier).toNat = earlier :=
        UInt64.toNat_ofNat_of_lt' (lt_trans before nonce.toNat_lt)
      have missed := least (UInt64.ofNat earlier) (UInt64.lt_iff_toNat_lt.mpr (by rwa [earlierValue]))
      rw [UInt64.zero_add]
      exact Bool.eq_false_of_not_eq_true missed) (by
      rw [UInt64.zero_add, value]
      exact hit)
  rw [UInt64.zero_add, value] at found
  have returns : MineReturns sha block total (sealed sha block nonce) := ⟨_, found⟩
  have counted : total = nonce + 1 := returns.least.2.2.1
  rw [← counted]
  exact found

/-- If some nonce hits, then there is a least one. -/
theorem exists_least (hit : Hits sha block nonce) :
    ∃ least, Hits sha block least ∧ ∀ earlier < least, ¬ Hits sha block earlier := by
  induction size : nonce.toNat using Nat.strong_induction_on generalizing nonce with
  | _ size ih =>
  by_cases below : ∃ earlier < nonce, Hits sha block earlier
  · obtain ⟨earlier, before, hits⟩ := below
    exact ih earlier.toNat (size ▸ UInt64.lt_iff_toNat_lt.mp before) hits rfl
  · exact ⟨nonce, hit, fun earlier before hits => below ⟨earlier, before, hits⟩⟩

/-! ## Mining -/

/-- The bound of the loop of `blockMine` is no restriction: what any number of
rounds finds, it finds. -/
theorem blockMine_iff : blockMine sha block = some (attempts, mined) ↔ MineReturns sha block attempts mined := by
  refine ⟨fun found => ⟨_, found⟩, fun returns => ?_⟩
  obtain ⟨hit, least, counted, result⟩ := returns.least
  rw [blockMine_of_least hit least, ← counted, ← result]

/-- `block_mine` returns exactly if some nonce hits. It returns the least one
and the number of attempts up to it, with a block that passes `block_validate`
and differs in the nonce and the hash only, whatever these were before. -/
theorem mining_correct (sha : Sha256) (block : Block) :
    ((∃ attempts mined, MineReturns sha block attempts mined) ↔ ∃ nonce, Hits sha block nonce) ∧
    (∀ attempts mined, MineReturns sha block attempts mined →
      Hits sha block mined.nonce ∧ (∀ nonce < mined.nonce, ¬ Hits sha block nonce) ∧
        attempts = mined.nonce + 1 ∧ blockValidate sha mined = true ∧
        mined = { block with nonce := mined.nonce, hash := mined.hash }) ∧
    ∀ before hash attempts mined,
      MineReturns sha { block with nonce := before, hash := hash } attempts mined ↔
        MineReturns sha block attempts mined := by
  refine ⟨⟨?_, ?_⟩, fun attempts mined returns => ?_, fun before hash attempts mined => ?_⟩
  · rintro ⟨attempts, mined, returns⟩
    exact ⟨mined.nonce, returns.least.1⟩
  · rintro ⟨nonce, hit⟩
    obtain ⟨least, hits, first⟩ := exists_least hit
    exact ⟨_, _, blockMine_iff.mp (blockMine_of_least hits first)⟩
  · obtain ⟨hit, least, counted, result⟩ := returns.least
    obtain ⟨⟨nonce, hash, same⟩, valid⟩ := blockMine_some sha block mined attempts (blockMine_iff.mpr returns)
    exact ⟨hit, least, counted, valid, by rw [same]⟩
  · -- Both searches meet the same nonces, and the result is sealed anew.
    have same (nonce : UInt64) :
        Hits sha { block with nonce := before, hash := hash } nonce ↔ Hits sha block nonce := Iff.rfl
    constructor <;> intro returns <;> obtain ⟨hit, least, rfl, result⟩ := returns.least <;> rw [result]
    · exact blockMine_iff.mp (blockMine_of_least ((same _).mp hit) fun nonce less => mt (same _).mpr (least nonce less))
    · exact blockMine_iff.mp (blockMine_of_least ((same _).mpr hit) fun nonce less => mt (same _).mp (least nonce less))

end MiniCoin
