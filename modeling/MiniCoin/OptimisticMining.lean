import MiniCoin.Supply

/-!
# Mining as an optimistic transaction

`do_mine` holds no lock between reading the tip and adding its block. A chain is never
replaced by another one of the same length, and in an honest network the index of a block is
its position. So the block fits at the end exactly if the chain is still the one whose tip
was read, and then it has been the same chain all the time.
-/

namespace MiniCoin

open ByteStrings Runs

variable {ι : Type} {ssl : OpenSSL}

/-! ## Growth -/

/-- The chain has stayed the same or become longer. Equal length means that it
is the same chain. -/
def Grown (before after : Blockchain) : Prop := before = after ∨ before.length < after.length

/-- A chain that was not touched has grown in this sense. -/
theorem Grown.refl (chain : Blockchain) : Grown chain chain := Or.inl rfl

/-- Growth never makes a chain shorter. -/
theorem Grown.length_le {before after : Blockchain} (grown : Grown before after) :
    before.length ≤ after.length := by
  rcases grown with rfl | longer
  · exact Nat.le_refl _
  · exact Nat.le_of_lt longer

/-- Growth adds up. It is here that replacement by a longer chain must count as
growth. -/
theorem Grown.trans {first second third : Blockchain} (early : Grown first second)
    (late : Grown second third) : Grown first third := by
  rcases early with rfl | longer
  · exact late
  · exact Or.inr (Nat.lt_of_lt_of_le longer late.length_le)

/-- A chain that comes back was there all the time. -/
theorem Grown.eq_of_back {first second : Blockchain} (early : Grown first second)
    (late : Grown second first) : second = first := by
  rcases late with same | longer
  · exact same
  · exact absurd early.length_le (by omega)

/-- Nothing that a user does makes the chain of a node shrink. -/
theorem grown_acts {node next : Node ssl} {action : Action} {packets : List Packet}
    (acts : Acts node action next packets) : Grown node.chain next.chain := by
  cases acts with
  | refused | tip | selected | abandoned | announced => exact Grown.refl _
  | sent idle made =>
    rw [onNewTx_chain]
    exact Grown.refl _
  | added filled found accepted =>
    obtain ⟨-, rfl⟩ := extends_of_chainAddBlock _ _ _ _ accepted
    exact Or.inr (by simp)

/-- Nor anything that a node receives: a block is appended, and only a longer
chain replaces one. -/
theorem grown_reacts {node next : Node ssl} {fd : Nat} {message : Message} {packets : List Packet}
    (reacts : Reacts node fd message next packets) : Grown node.chain next.chain := by
  cases reacts with
  | nothing | request | ping => exact Grown.refl _
  | block accepted =>
    obtain ⟨-, rfl⟩ := extends_of_chainAddBlock _ _ _ _ accepted
    exact Or.inr (by simp)
  | tx tx =>
    rw [onNewTx_chain]
    exact Grown.refl _
  | chain accepted =>
    obtain ⟨longer, -, rfl⟩ := (chainReplace_iff _ _ _ _).mp accepted
    exact Or.inr longer

variable [DecidableEq ι]

/-- The step lemma: no step shortens a chain or exchanges it for one of the same
length. -/
theorem grown_step (net next : Network ι ssl Message) (event : NetEvent ι)
    (stepped : net.step messages event = some next) (i : ι) :
    Grown (net.nodes i).chain (next.nodes i).chain := by
  obtain ⟨move, moved, rfl⟩ := Option.map_eq_some_iff.mp stepped
  rw [(move.post_nodes messages).1]
  have changed (j : ι) (node : Node ssl) (grown : Grown (net.nodes j).chain node.chain) :
      Grown (net.nodes i).chain ((net.put j node).nodes i).chain := by
    by_cases same : i = j
    · subst same
      rwa [Network.put_same]
    · rw [Network.put_other net j i node same]
      exact Grown.refl _
  cases move_moves net event move moved with
  | acted acts => exact changed _ _ (grown_acts acts)
  | delivered waiting reacts => exact changed _ _ (grown_reacts reacts)
  | @peers _ j packets peers remote greeting =>
    exact changed j { net.nodes j with peers := peers } (Grown.refl _)

/-- The run lemma. -/
theorem grown_run (net reached : Network ι ssl Message) (events : List (NetEvent ι))
    (ran : run (Network.step messages) net events = some reached) (i : ι) :
    Grown (net.nodes i).chain (reached.nodes i).chain :=
  run_invariant (Network.step messages) (fun _ _ => True)
    (fun later => Grown (net.nodes i).chain (later.nodes i).chain)
    (fun before event after grown _ stepped => grown.trans (grown_step before after event stepped i))
    net reached events (Grown.refl _) (every_of_forall _ _ (fun _ _ => trivial) _ _) ran

/-! ## Between the tip and the end -/

/-- Node `i` mines on the last block of `tips`, and its chain has only grown
since. -/
structure Underway (tips : Blockchain) (begun : Block) (node : Node ssl) : Prop where
  grown : Grown tips node.chain
  stage : node.mining = .tipRead begun ∨
    ∃ (seen : Blockchain) (mempool : List Tx) (wallet : Wallet ssl),
      Grown tips seen ∧ Grown seen node.chain ∧
        node.mining = .selected (fillBlock ssl.sha256 seen mempool wallet.address begun)

/-- A change that keeps the stage of `do_mine` keeps it under way. -/
theorem Underway.of_grown {tips : Blockchain} {begun : Block} {node next : Node ssl}
    (underway : Underway tips begun node) (grown : Grown node.chain next.chain)
    (mining : next.mining = node.mining) : Underway tips begun next where
  grown := underway.grown.trans grown
  stage := by
    rw [mining]
    rcases underway.stage with read | ⟨seen, mempool, wallet, early, late, filled⟩
    · exact Or.inl read
    · exact Or.inr ⟨seen, mempool, wallet, early, late.trans grown, filled⟩

/-- Mining stays under way whatever else the main thread does, as it takes no
other command before `do_mine` is over. -/
theorem underway_acts {tips : Blockchain} {begun : Block} {node next : Node ssl} {action : Action}
    {packets : List Packet} (underway : Underway tips begun node)
    (acts : Acts node action next packets) (only : action ≠ .mineAdd) :
    Underway tips begun next := by
  have busy : node.mining ≠ .idle ∧ ∀ block, node.mining ≠ .added block := by
    rcases underway.stage with read | ⟨_, _, _, _, _, filled⟩
    · simp [read]
    · simp [filled]
  cases acts with
  | refused => exact underway
  | sent idle made => exact absurd idle busy.1
  | tip idle tip => exact absurd idle busy.1
  | selected read =>
    refine ⟨underway.grown, Or.inr ⟨node.chain, node.mempool, node.wallet, underway.grown,
      Grown.refl _, ?_⟩⟩
    rcases underway.stage with same | ⟨_, _, _, _, _, filled⟩
    · rw [read] at same
      cases same
      rfl
    · rw [read] at filled
      cases filled
  | added | abandoned => exact absurd rfl only
  | announced added => exact absurd added (busy.2 _)

/-- And whatever is received, since the handler threads do not know of the block
being mined. -/
theorem underway_reacts {tips : Blockchain} {begun : Block} {node next : Node ssl} {fd : Nat}
    {message : Message} {packets : List Packet} (underway : Underway tips begun node)
    (reacts : Reacts node fd message next packets) : Underway tips begun next := by
  refine underway.of_grown (grown_reacts reacts) ?_
  cases reacts with
  | nothing | block | request | chain | ping => rfl
  | tx tx => exact onNewTx_mining node tx

/-- So it stays under way over a step of the network, at this node or
elsewhere. -/
theorem underway_step (tips : Blockchain) (begun : Block) (net next : Network ι ssl Message)
    (event : NetEvent ι) (i : ι) (underway : Underway tips begun (net.nodes i))
    (only : event ≠ .act i .mineAdd) (stepped : net.step messages event = some next) :
    Underway tips begun (next.nodes i) := by
  obtain ⟨move, moved, rfl⟩ := Option.map_eq_some_iff.mp stepped
  rw [(move.post_nodes messages).1]
  have changed (j : ι) (node : Node ssl) (own : j = i → Underway tips begun node) :
      Underway tips begun ((net.put j node).nodes i) := by
    by_cases same : i = j
    · subst same
      rw [Network.put_same]
      exact own rfl
    · rw [Network.put_other net j i node same]
      exact underway
  cases move_moves net event move moved with
  | @acted j action node packets acts =>
    refine changed j node ?_
    rintro rfl
    exact underway_acts underway acts fun same => only (by rw [same])
  | @delivered j fd message rest node packets waiting reacts =>
    refine changed j node ?_
    rintro rfl
    exact underway_reacts underway reacts
  | @peers _ j packets peers remote greeting =>
    refine changed j { net.nodes j with peers := peers } ?_
    rintro rfl
    exact underway.of_grown (Grown.refl _) rfl

/-- And over every run that does not add the block. -/
theorem underway_run (tips : Blockchain) (begun : Block) (net reached : Network ι ssl Message)
    (events : List (NetEvent ι)) (i : ι) (underway : Underway tips begun (net.nodes i))
    (only : ∀ event ∈ events, event ≠ .act i .mineAdd)
    (ran : run (Network.step messages) net events = some reached) :
    Underway tips begun (reached.nodes i) := by
  induction events generalizing net with
  | nil =>
    obtain rfl := Option.some.inj ran
    exact underway
  | cons event rest ih =>
    obtain ⟨next, stepped, later⟩ := (run_cons _ _ _ _ _).mp ran
    exact ih next (underway_step tips begun net next event i underway (only event (by simp)) stepped)
      (fun other member => only other (by simp [member])) later

/-! ## The end -/

/-- A block on the tip of an honest chain fits another honest chain that has
grown from it exactly if the chain is the same. -/
theorem extends_iff_same (sha : Sha256) (tips chain : Blockchain) (last mined : Block)
    (honestTips : Honest sha tips) (honest : Honest sha chain) (grown : Grown tips chain)
    (room : tips.length < maxBlocks) (tip : tips.getLast? = some last)
    (index : mined.index = last.index + 1) (prevHash : mined.prevHash = last.hash)
    (valid : blockValidate sha mined = true) : Extends sha chain mined ↔ chain = tips := by
  constructor
  · rintro ⟨-, other, ends, follows, -⟩
    rcases grown with same | longer
    · exact same.symm
    · have position (chain : Blockchain) (block : Block) (honest : Honest sha chain)
          (ends : chain.getLast? = some block) : block.index.toNat = chain.length - 1 :=
        honest.index _ block (by rw [← List.getLast?_eq_getElem?, ends])
      have before := position tips last honestTips tip
      have after := position chain other honest ends
      have same : last.index = other.index := by
        rw [index] at follows
        exact (UInt32.add_left_inj 1).mp follows
      have nonempty : tips ≠ [] := by
        rintro rfl
        simp at tip
      have positive := List.length_pos_of_ne_nil nonempty
      rw [same, after] at before
      omega
  · rintro rfl
    exact ⟨room, last, tip, index, prevHash, valid⟩

/-- What the end of `do_mine` makes of a block under way: it is added exactly if
the chain is still the one whose tip was read, and then its payments were
selected from this very chain. -/
structure Committed (tips : Blockchain) (node next : Node ssl) : Prop where
  accepted : (∃ block, next.mining = .added block) ↔ node.chain = tips
  appended : ∀ block, next.mining = .added block →
    next.chain = tips ++ [block] ∧ ∃ mempool, block.listed.tail = selectTxs tips mempool
  refused : (∀ block, next.mining ≠ .added block) → next.chain = node.chain

/-- When the block is added the chain has only grown since the tip was read, and
`chain_add_block` compares with the chain that is there now. -/
theorem committed_of_underway {tips : Blockchain} {last : Block} {time : Int64}
    {node next : Node ssl} {packets : List Packet} (honestTips : Honest ssl.sha256 tips)
    (honest : Honest ssl.sha256 node.chain) (room : tips.length < maxBlocks)
    (tip : tips.getLast? = some last) (underway : Underway tips (blockAfter last time) node)
    (acts : Acts node .mineAdd next packets) : Committed tips node next := by
  have fits (block mined : Block) (attempts : UInt64) (filled : node.mining = .selected block)
      (found : blockMine ssl.sha256 block = some (attempts, mined)) :
      (Extends ssl.sha256 node.chain mined ↔ node.chain = tips) ∧
        (node.chain = tips → ∃ mempool, mined.listed.tail = selectTxs tips mempool) := by
    rcases underway.stage with read | ⟨seen, mempool, wallet, early, late, same⟩
    · rw [filled] at read
      cases read
    · rw [filled] at same
      cases same
      have content := blockMine_sameContent found
      obtain ⟨-, valid⟩ := blockMine_some _ _ _ _ found
      refine ⟨extends_iff_same ssl.sha256 tips node.chain last mined honestTips honest
        underway.grown room tip content.index content.prevHash valid, fun back => ?_⟩
      rw [back] at late
      rw [early.eq_of_back late] at content
      exact ⟨mempool, by rw [content.listed, fillBlock_listed, List.tail_cons]⟩
  cases acts with
  | added filled found accepted =>
    obtain ⟨follows, rfl⟩ := extends_of_chainAddBlock _ _ _ _ accepted
    obtain ⟨exact, selected⟩ := fits _ _ _ filled found
    have same := exact.mp follows
    refine ⟨⟨fun _ => same, fun _ => ⟨_, rfl⟩⟩, fun block added => ?_, fun never => ?_⟩
    · cases added
      exact ⟨by rw [same], selected same⟩
    · exact absurd rfl (never _)
  | abandoned filled found stale =>
    obtain ⟨exact, -⟩ := fits _ _ _ filled found
    refine ⟨⟨by simp, fun same => ?_⟩, by simp, fun _ => rfl⟩
    rw [chainAddBlock_of_extends _ _ _ (exact.mpr same)] at stale
    cases stale

/-- In a run of an honest network, `do_mine` appends its block exactly if the
chain is the one whose tip it has read. Then the chain has been the same all the
time, in particular when the balances were checked. A refused block leaves the
chain as it is. -/
theorem mining_optimistic (start before begun ready after : Network ι ssl UInt8)
    (early between : List (NetEvent ι)) (i : ι) (time : Int64) (started : start.Started)
    (every : Every (Network.step bytes) (fun net event => PlainTexts event ∧ ShortLines net event)
      start (early ++ .act i (.mineTip time) :: (between ++ [.act i .mineAdd])))
    (reads : run (Network.step bytes) start early = some before)
    (tip : before.step bytes (.act i (.mineTip time)) = some begun)
    (meanwhile : run (Network.step bytes) begun between = some ready)
    (only : ∀ event ∈ between, event ≠ .act i .mineAdd)
    (adds : ready.step bytes (.act i .mineAdd) = some after)
    (room : (before.nodes i).chain.length < maxBlocks) :
    Committed (before.nodes i).chain (ready.nodes i) (after.nodes i) ∧
      ((∃ block, (after.nodes i).mining = .added block) →
        ∀ (first rest : List (NetEvent ι)) (middle : Network ι ssl UInt8), between = first ++ rest →
          run (Network.step bytes) begun first = some middle →
            (middle.nodes i).chain = (before.nodes i).chain) := by
  rw [← represent_quiet start started.channel] at every reads
  obtain ⟨everyEarly, everyTip⟩ := (every_append _ _ _ _ _).mp every
  obtain ⟨before, -, rfl, trackedBefore⟩ := tracked_run start.quiet before early
    (tracked_started _ (quiet_started start started)) everyEarly reads
  have everyTip := everyTip _ reads
  obtain ⟨begun, begins, rfl, trackedBegun⟩ := tracked_run before begun [.act i (.mineTip time)]
    trackedBefore ⟨everyTip.1, fun _ _ => trivial⟩ ((run_cons _ _ _ _ _).mpr ⟨begun, tip, rfl⟩)
  obtain ⟨everyBetween, everyAdd⟩ := (every_append _ _ _ _ _).mp (everyTip.2 _ tip)
  obtain ⟨ready, typedRan, rfl, trackedReady⟩ := tracked_run begun ready between trackedBegun
    everyBetween meanwhile
  obtain ⟨after, ends, rfl, -⟩ := tracked_run ready after [.act i .mineAdd] trackedReady
    (everyAdd _ meanwhile) ((run_cons _ _ _ _ _).mpr ⟨after, adds, rfl⟩)
  obtain ⟨next, begins, same⟩ := (run_cons _ _ _ _ _).mp begins
  obtain rfl : begun = next := (Option.some.inj same).symm
  obtain ⟨next, ends, same⟩ := (run_cons _ _ _ _ _).mp ends
  obtain rfl : after = next := (Option.some.inj same).symm
  obtain ⟨tipNode, _, tipActs, tipNodes⟩ := step_act messages before begun i _ begins
  obtain ⟨endNode, _, endActs, endNodes⟩ := step_act messages ready after i _ ends
  have tipHere : begun.nodes i = tipNode := by rw [tipNodes, Network.put_same]
  have endHere : after.nodes i = endNode := by rw [endNodes, Network.put_same]
  cases tipActs with
  | @tip _ last idle tips =>
    have started : Underway (before.nodes i).chain (blockAfter last time) (begun.nodes i) := by
      rw [tipHere]
      exact ⟨Grown.refl _, Or.inl rfl⟩
    have underway : Underway (before.nodes i).chain (blockAfter last time) (ready.nodes i) :=
      underway_run _ _ begun ready between i started only typedRan
    have committed := committed_of_underway (trackedBefore.honest i) (trackedReady.honest i) room
      tips underway endActs
    rw [← endHere] at committed
    refine ⟨committed, fun accepted first rest middle split reached => ?_⟩
    have back : (ready.nodes i).chain = (before.nodes i).chain := committed.accepted.mp accepted
    rw [split] at everyBetween typedRan
    obtain ⟨everyFirst, -⟩ := (every_append _ _ _ _ _).mp everyBetween
    obtain ⟨middle, typedFirst, rfl, -⟩ := tracked_run begun middle first trackedBegun everyFirst
      reached
    obtain ⟨same, typedSame, late⟩ := (run_append _ _ _ _ _).mp typedRan
    rw [typedFirst] at typedSame
    obtain rfl := Option.some.inj typedSame
    have early : Grown (before.nodes i).chain (middle.nodes i).chain := by
      have grown := grown_run begun middle first typedFirst i
      rwa [tipHere] at grown
    have later := grown_run middle ready rest late i
    rw [back] at later
    exact early.eq_of_back later

/-- A run that ends with the third part of a `do_mine`, cut where this
begins. -/
theorem mining_parts (start after : Network ι ssl UInt8) (early between : List (NetEvent ι)) (i : ι) (time : Int64)
    (ran : run (Network.step bytes) start (early ++ .act i (.mineTip time) :: (between ++ [.act i .mineAdd])) =
      some after) :
    ∃ before begun ready, run (Network.step bytes) start early = some before ∧
      before.step bytes (.act i (.mineTip time)) = some begun ∧
      run (Network.step bytes) begun between = some ready ∧ ready.step bytes (.act i .mineAdd) = some after := by
  obtain ⟨before, reads, later⟩ := (run_append _ _ _ _ _).mp ran
  obtain ⟨begun, tip, later⟩ := (run_cons _ _ _ _ _).mp later
  obtain ⟨ready, meanwhile, later⟩ := (run_append _ _ _ _ _).mp later
  obtain ⟨_, adds, ends⟩ := (run_cons _ _ _ _ _).mp later
  obtain rfl := Option.some.inj ends
  exact ⟨before, begun, ready, reads, tip, meanwhile, adds⟩

/-- The first process mines twice. While it mines first, a block of the other
one arrives, and its own one is refused; while it mines again, a chain arrives
that is not longer, and its block is appended. -/
theorem mining_optimistic_here :
    let early : List (NetEvent (Fin 2)) := [.connect 0 3 1 4, .accept 1 4, .act 1 (.mineTip 201), .act 1 .mineSelect,
      .act 1 .mineAdd, .act 1 .mineBroadcast]
    let between : List (NetEvent (Fin 2)) := [.deliver 0 3, .deliver 0 3, .act 0 .mineSelect]
    let later : List (NetEvent (Fin 2)) := [.deliver 0 3, .act 0 .mineSelect]
    (∃ before begun ready after : Network (Fin 2) stubSsl UInt8,
      run (Network.step bytes) (pair UInt8) early = some before ∧
        before.step bytes (.act 0 (.mineTip 192)) = some begun ∧ run (Network.step bytes) begun between = some ready ∧
        ready.step bytes (.act 0 .mineAdd) = some after ∧ (after.nodes 0).mining = .idle ∧
        (ready.nodes 0).chain ≠ (before.nodes 0).chain) ∧
      ∃ before begun ready after : Network (Fin 2) stubSsl UInt8,
        run (Network.step bytes) (pair UInt8)
            (early ++ .act 0 (.mineTip 192) :: (between ++ [.act 0 .mineAdd, .deliver 1 4])) = some before ∧
          before.step bytes (.act 0 (.mineTip 744)) = some begun ∧ run (Network.step bytes) begun later = some ready ∧
          ready.step bytes (.act 0 .mineAdd) = some after ∧ (after.nodes 0).chain.length = 3 ∧
          ∀ (first rest : List (NetEvent (Fin 2))) (middle : Network (Fin 2) stubSsl UInt8), later = first ++ rest →
            run (Network.step bytes) begun first = some middle → (middle.nodes 0).chain = (before.nodes 0).chain := by
  intro early between later
  -- the length of a chain that a short run leads to
  have room (events : List (NetEvent (Fin 2))) (net : Network (Fin 2) stubSsl UInt8)
      (few : events.length ≤ 149) (plain : ∀ event ∈ events, PlainTexts event)
      (short : (run (Network.step messages) (pair Message) events).map
        (fun net => decide ((net.nodes 0).chain.length < maxBlocks)) = some true)
      (ran : run (Network.step bytes) (pair UInt8) events = some net) : (net.nodes 0).chain.length < maxBlocks := by
    obtain ⟨typed, typedRan, bound⟩ := Option.map_eq_some_iff.mp short
    obtain ⟨-, same⟩ := pair_run events typed few plain typedRan
    obtain rfl := Option.some.inj (same.symm.trans ran)
    exact of_decide_eq_true bound
  constructor
  · have evaluated : (run (Network.step messages) (pair Message)
        (early ++ .act 0 (.mineTip 192) :: (between ++ [.act 0 .mineAdd]))).map
          (fun net => decide ((net.nodes 0).mining = .idle)) = some true := by decide +kernel
    obtain ⟨typed, typedRan, idle⟩ := Option.map_eq_some_iff.mp evaluated
    obtain ⟨every, ran⟩ := pair_run _ typed (by decide) (by simp [early, between, PlainTexts]) typedRan
    obtain ⟨before, begun, ready, reads, tip, meanwhile, adds⟩ := mining_parts _ _ early between 0 192 ran
    have committed := (mining_optimistic (pair UInt8) before begun ready typed.represent early between 0 192
      (pair_started UInt8) every reads tip meanwhile (by simp [between]) adds
      (room early before (by decide) (by simp [early, PlainTexts]) (by decide +kernel) reads)).1
    have stays : (typed.represent.nodes 0).mining = .idle := of_decide_eq_true idle
    refine ⟨before, begun, ready, typed.represent, reads, tip, meanwhile, adds, stays, fun same => ?_⟩
    obtain ⟨block, added⟩ := committed.accepted.mpr same
    rw [stays] at added
    cases added
  · have evaluated : (run (Network.step messages) (pair Message)
        ((early ++ .act 0 (.mineTip 192) :: (between ++ [.act 0 .mineAdd, .deliver 1 4])) ++
          .act 0 (.mineTip 744) :: (later ++ [.act 0 .mineAdd]))).map
          (fun net => ((net.nodes 0).chain.length, (mineBroadcast (net.nodes 0)).isSome)) = some (3, true) := by
      decide +kernel
    obtain ⟨typed, typedRan, facts⟩ := Option.map_eq_some_iff.mp evaluated
    obtain ⟨length, broadcasts⟩ := Prod.mk.inj facts
    obtain ⟨every, ran⟩ := pair_run _ typed (by decide) (by simp [early, between, later, PlainTexts]) typedRan
    obtain ⟨before, begun, ready, reads, tip, meanwhile, adds⟩ := mining_parts _ _ _ later 0 744 ran
    obtain ⟨committed, still⟩ := mining_optimistic (pair UInt8) before begun ready typed.represent _ later 0 744
      (pair_started UInt8) every reads tip meanwhile (by simp [later]) adds
      (room _ before (by decide) (by simp [early, between, PlainTexts]) (by decide +kernel) reads)
    refine ⟨before, begun, ready, typed.represent, reads, tip, meanwhile, adds, length, still ?_⟩
    change ∃ block, (typed.nodes 0).mining = .added block
    cases stage : (typed.nodes 0).mining with
    | added block => exact ⟨block, rfl⟩
    | idle | tipRead | selected => simp [mineBroadcast, stage] at broadcasts

end MiniCoin
