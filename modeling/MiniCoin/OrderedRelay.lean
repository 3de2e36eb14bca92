import Mathlib.Combinatorics.SimpleGraph.Connectivity.Connected
import Mathlib.Logic.Relation

/-!
# Items that are relayed in order

The nodes of a graph have the first items of a common sequence, and keep it growing: a node that
has as many as any other creates the next item and later announces it to its neighbours. A node
takes an item from a neighbour if it is the next one that it lacks, and tells the other neighbours
at once; other items it drops. What is under way from one node to another stays in order.

Then what a node lacks of the items that a neighbour has told is under way to it. So nothing is
lacking anywhere when nothing is under way, although no node is asked for an item again.
-/

namespace OrderedRelay

universe u

variable {Node : Type u} [DecidableEq Node]

/-- How many items the nodes have and have told, and the items under way from
one node to another. -/
structure State (Node : Type u) where
  has : Node → Nat
  told : Node → Nat
  queue : Node → Node → List Nat

/-- Node `i` tells the item to its neighbours but those that are left out. -/
def tell (graph : SimpleGraph Node) (queue : Node → Node → List Nat) (i : Node) (item : Nat)
    (leftOut : Node → Prop) (next : Node → Node → List Nat) : Prop :=
  ∀ j k, graph.Adj j k →
    (j = i ∧ ¬ leftOut k → next j k = queue j k ++ [item]) ∧ (¬ (j = i ∧ ¬ leftOut k) → next j k = queue j k)

/-- What the nodes may do. Who has the most items creates the next one, who has
told less tells on, and an item that arrives is taken if it is the next one,
else dropped. -/
inductive Step (graph : SimpleGraph Node) (state : State Node) : State Node → Prop where
  | creates (i : Node) (sent : state.told i = state.has i) (most : ∀ j, state.has j ≤ state.has i) :
      Step graph state { state with has := Function.update state.has i (state.has i + 1) }
  | announces (i : Node) (unsent : state.told i < state.has i) (queue : Node → Node → List Nat)
      (told : tell graph state.queue i (state.told i) (fun _ => False) queue) :
      Step graph state ⟨state.has, Function.update state.told i (state.told i + 1), queue⟩
  | takes (i j : Node) (rest : List Nat) (adjacent : graph.Adj i j)
      (first : state.queue i j = state.has j :: rest) (queue : Node → Node → List Nat)
      (told : tell graph (Function.update state.queue i (Function.update (state.queue i) j rest)) j
        (state.has j) (· = i) queue) :
      Step graph state ⟨Function.update state.has j (state.has j + 1),
        Function.update state.told j (state.told j + 1), queue⟩
  | drops (i j : Node) (item : Nat) (rest : List Nat) (adjacent : graph.Adj i j)
      (first : state.queue i j = item :: rest) (other : item ≠ state.has j) :
      Step graph state
        { state with queue := Function.update state.queue i (Function.update (state.queue i) j rest) }

/-- What a neighbour has told is there or under way, in order; and nothing is
created before the last item is announced. -/
structure Ordered (graph : SimpleGraph Node) (state : State Node) : Prop where
  ahead : ∀ i, state.told i ≤ state.has i
  unsent : ∀ i, state.told i < state.has i →
    state.has i = state.told i + 1 ∧ ∀ j, j ≠ i → state.has j ≤ state.told i
  sorted : ∀ i j, graph.Adj i j → (state.queue i j).Pairwise (· < ·)
  below : ∀ i j, graph.Adj i j → ∀ item ∈ state.queue i j, item < state.told i
  covers : ∀ i j, graph.Adj i j → ∀ item, state.has j ≤ item → item < state.told i → item ∈ state.queue i j

variable {graph : SimpleGraph Node} {state next : State Node}

omit [DecidableEq Node] in
/-- The first item under way is not behind the next one that is lacking. -/
theorem Ordered.first_le (ordered : Ordered graph state) {i j : Node} (adjacent : graph.Adj i j) {item : Nat}
    {rest : List Nat} (first : state.queue i j = item :: rest) : item ≤ state.has j := by
  by_contra behind
  have told := ordered.below i j adjacent item (by simp [first])
  have lacking := ordered.covers i j adjacent (state.has j) (Nat.le_refl _) (by omega)
  have sorted := ordered.sorted i j adjacent
  rw [first] at lacking sorted
  rcases List.mem_cons.mp lacking with same | later
  · omega
  · have before := (List.pairwise_cons.mp sorted).1 _ later
    omega

omit [DecidableEq Node] in
/-- A node that takes an item has told all that it has. -/
theorem Ordered.told_of_takes (ordered : Ordered graph state) {i j : Node} (adjacent : graph.Adj i j)
    {rest : List Nat} (first : state.queue i j = state.has j :: rest) : state.told j = state.has j := by
  have told := ordered.below i j adjacent (state.has j) (by simp [first])
  have ahead := ordered.ahead i
  rcases Nat.lt_or_ge (state.told j) (state.has j) with unsent | all
  · have most := (ordered.unsent j unsent).2 i adjacent.ne
    omega
  · exact Nat.le_antisymm (ordered.ahead j) all

/-- The one with the most may make the next item: nobody has it, so all queues
stay behind it. -/
theorem ordered_creates (ordered : Ordered graph state) (i : Node) (sent : state.told i = state.has i)
    (most : ∀ j, state.has j ≤ state.has i) :
    Ordered graph { state with has := Function.update state.has i (state.has i + 1) } := by
  refine ⟨fun j => ?_, fun j unsent => ?_, ordered.sorted, ordered.below, fun j k adjacent item lacks told => ?_⟩
  · by_cases same : j = i
    · subst same
      simp [sent]
    · simpa [same] using ordered.ahead j
  · by_cases same : j = i
    · subst same
      exact ⟨by simp [sent], fun k other => by simpa [other, sent] using most k⟩
    · -- another node cannot have an unsent item: it would have the most
      simp only [Function.update_of_ne same] at unsent
      have fewer := (ordered.unsent j unsent).2 i (Ne.symm same)
      have more := most j
      omega
  · refine ordered.covers j k adjacent item ?_ told
    by_cases same : k = i
    · subst same
      simp only [Function.update_self] at lacks
      omega
    · simpa [same] using lacks

/-- Telling the neighbours an item puts it at the end of each queue, after all
earlier ones. -/
theorem ordered_announces (ordered : Ordered graph state) (i : Node) (unsent : state.told i < state.has i)
    (queue : Node → Node → List Nat) (told : tell graph state.queue i (state.told i) (fun _ => False) queue) :
    Ordered graph ⟨state.has, Function.update state.told i (state.told i + 1), queue⟩ := by
  obtain ⟨one, others⟩ := ordered.unsent i unsent
  have grown (j k : Node) (adjacent : graph.Adj j k) :
      queue j k = if j = i then state.queue j k ++ [state.told i] else state.queue j k := by
    split_ifs with same
    · exact (told j k adjacent).1 ⟨same, id⟩
    · exact (told j k adjacent).2 fun both => same both.1
  refine ⟨fun j => ?_, fun j later => ?_, fun j k adjacent => ?_, fun j k adjacent item member => ?_,
    fun j k adjacent item lacks late => ?_⟩
  · by_cases same : j = i
    · subst same
      simp only [Function.update_self]
      omega
    · simpa [same] using ordered.ahead j
  · by_cases same : j = i
    · subst same
      simp only [Function.update_self] at later
      omega
    · simpa [same] using ordered.unsent j (by simpa [same] using later)
  · have sorted := ordered.sorted j k adjacent
    simp only [grown j k adjacent]
    split_ifs with same
    · subst same
      exact List.pairwise_append.mpr ⟨sorted, by simp, fun item member last isLast => by
        rw [List.mem_singleton.mp isLast]
        exact ordered.below j k adjacent item member⟩
    · exact sorted
  · simp only [grown j k adjacent] at member
    by_cases same : j = i
    · subst same
      rw [if_pos rfl] at member
      simp only [Function.update_self]
      rcases List.mem_append.mp member with old | new
      · have before := ordered.below j k adjacent item old
        omega
      · rw [List.mem_singleton.mp new]
        omega
    · rw [if_neg same] at member
      simpa [same] using ordered.below j k adjacent item member
  · simp only [grown j k adjacent]
    by_cases same : j = i
    · subst same
      simp only [Function.update_self] at late
      rw [if_pos rfl, List.mem_append, List.mem_singleton]
      rcases Nat.lt_or_ge item (state.told j) with early | new
      · exact Or.inl (ordered.covers j k adjacent item lacks early)
      · exact Or.inr (by omega)
    · rw [if_neg same]
      exact ordered.covers j k adjacent item lacks (by simpa [same] using late)

/-- An item that has been read is under way no longer. -/
theorem ordered_read (ordered : Ordered graph state) {i j : Node} (adjacent : graph.Adj i j) {item : Nat}
    {rest : List Nat} (first : state.queue i j = item :: rest) (has : Node → Nat)
    (kept : ∀ k, state.has k ≤ has k) (read : item < has j) (a b : Node) (joined : graph.Adj a b) :
    let queue := Function.update state.queue i (Function.update (state.queue i) j rest)
    (queue a b).Pairwise (· < ·) ∧ (∀ other ∈ queue a b, other < state.told a) ∧
      ∀ other, has b ≤ other → other < state.told a → other ∈ queue a b := by
  intro queue
  have sorted := ordered.sorted a b joined
  have below := ordered.below a b joined
  have covers (other : Nat) (lacks : has b ≤ other) (told : other < state.told a) : other ∈ state.queue a b :=
    ordered.covers a b joined other ((kept b).trans lacks) told
  by_cases same : a = i ∧ b = j
  · obtain ⟨rfl, rfl⟩ := same
    have here : queue a b = rest := by simp [queue]
    rw [first] at sorted below
    rw [here]
    refine ⟨(List.pairwise_cons.mp sorted).2, fun other member => below other (by simp [member]),
      fun other lacks told => ?_⟩
    have member := covers other lacks told
    rw [first] at member
    rcases List.mem_cons.mp member with head | later
    · omega
    · exact later
  · have there : queue a b = state.queue a b := by
      by_cases near : a = i
      · subst near
        simp [queue, Function.update_of_ne fun far => same ⟨rfl, far⟩]
      · simp [queue, near]
    rw [there]
    exact ⟨sorted, below, covers⟩

/-- An item other than the next one is known already, and dropping it loses
nothing: whoever lacks an item finds it later in a queue. -/
theorem ordered_drops (ordered : Ordered graph state) {i j : Node} (adjacent : graph.Adj i j) {item : Nat}
    {rest : List Nat} (first : state.queue i j = item :: rest) (other : item ≠ state.has j) :
    Ordered graph
      { state with queue := Function.update state.queue i (Function.update (state.queue i) j rest) } := by
  have early := ordered.first_le adjacent first
  have read := ordered_read ordered adjacent first state.has (fun _ => Nat.le_refl _) (by omega)
  exact ⟨ordered.ahead, ordered.unsent, fun a b joined => (read a b joined).1,
    fun a b joined => (read a b joined).2.1, fun a b joined => (read a b joined).2.2⟩

/-- The next item is taken and passed on at once to all neighbours but the one
it came from, who has it. -/
theorem ordered_takes (ordered : Ordered graph state) {i j : Node} (adjacent : graph.Adj i j)
    {rest : List Nat} (first : state.queue i j = state.has j :: rest) (queue : Node → Node → List Nat)
    (told : tell graph (Function.update state.queue i (Function.update (state.queue i) j rest)) j
      (state.has j) (· = i) queue) :
    Ordered graph ⟨Function.update state.has j (state.has j + 1),
      Function.update state.told j (state.told j + 1), queue⟩ := by
  have all := ordered.told_of_takes adjacent first
  have sender := ordered.below i j adjacent (state.has j) (by simp [first])
  have senderHas := ordered.ahead i
  have kept (k : Node) : state.has k ≤ Function.update state.has j (state.has j + 1) k := by
    by_cases same : k = j
    · subst same
      simp
    · simp [same]
  have read := ordered_read ordered adjacent first (Function.update state.has j (state.has j + 1)) kept (by simp)
  generalize Function.update state.queue i (Function.update (state.queue i) j rest) = drained at read told
  have grown (a b : Node) (joined : graph.Adj a b) :
      queue a b = if a = j ∧ b ≠ i then drained a b ++ [state.has j] else drained a b := by
    split_ifs with both
    · exact (told a b joined).1 both
    · exact (told a b joined).2 both
  have earlier (a b : Node) (joined : graph.Adj a b) (item : Nat) (member : item ∈ drained a b) :
      item < state.told a := (read a b joined).2.1 item member
  refine ⟨fun k => ?_, fun k unsent => ?_, fun a b joined => ?_, fun a b joined item member => ?_,
    fun a b joined item lacks late => ?_⟩
  · by_cases same : k = j
    · subst same
      simp [all]
    · simpa [same] using ordered.ahead k
  · by_cases same : k = j
    · subst same
      simp [all] at unsent
    · simp only [Function.update_of_ne same] at unsent ⊢
      obtain ⟨one, others⟩ := ordered.unsent k unsent
      refine ⟨one, fun other different => ?_⟩
      by_cases near : other = j
      · -- the sender has told the item, so it is not the one that has an unsent item more
        subst near
        have bound : state.told i ≤ state.told k := by
          by_cases senderIs : k = i
          · rw [senderIs]
          · exact senderHas.trans (others i (Ne.symm senderIs))
        simp only [Function.update_self]
        omega
      · simpa [near] using others other different
  · simp only [grown a b joined]
    split_ifs with both
    · refine List.pairwise_append.mpr ⟨(read a b joined).1, by simp, fun item member last isLast => ?_⟩
      have before := earlier a b joined item member
      rw [both.1] at before
      rw [List.mem_singleton.mp isLast]
      omega
    · exact (read a b joined).1
  · simp only [grown a b joined] at member
    by_cases near : a = j
    · subst near
      simp only [Function.update_self]
      split_ifs at member with both
      · rcases List.mem_append.mp member with old | new
        · have before := earlier a b joined item old
          omega
        · rw [List.mem_singleton.mp new]
          omega
      · have before := earlier a b joined item member
        omega
    · rw [if_neg fun both => near both.1] at member
      simpa [near] using earlier a b joined item member
  · simp only [grown a b joined]
    by_cases near : a = j
    · subst near
      simp only [Function.update_self] at late
      rcases Nat.lt_or_ge item (state.told a) with early | new
      · have there := (read a b joined).2.2 item lacks early
        split_ifs with both
        · exact List.mem_append_left _ there
        · exact there
      · obtain rfl : item = state.has a := by omega
        by_cases back : b = i
        · -- the sender has the item
          subst back
          simp only [Function.update_of_ne adjacent.ne] at lacks
          omega
        · rw [if_pos ⟨rfl, back⟩]
          exact List.mem_append_right _ (by simp)
    · rw [if_neg fun both => near both.1]
      exact (read a b joined).2.2 item lacks (by simpa [near] using late)

/-- The step lemma. -/
theorem ordered_step (ordered : Ordered graph state) (step : Step graph state next) : Ordered graph next := by
  cases step with
  | creates i sent most => exact ordered_creates ordered i sent most
  | announces i unsent queue told => exact ordered_announces ordered i unsent queue told
  | takes i j rest adjacent first queue told => exact ordered_takes ordered adjacent first queue told
  | drops i j item rest adjacent first other => exact ordered_drops ordered adjacent first other

omit [DecidableEq Node] in
/-- When nothing is under way and everything is told, the nodes of a connected
graph have the same items. -/
theorem Ordered.same (ordered : Ordered graph state) (connected : graph.Connected)
    (quiet : ∀ i j, graph.Adj i j → state.queue i j = []) (told : ∀ i, state.told i = state.has i)
    (i j : Node) : state.has i = state.has j := by
  have neighbours (a b : Node) (adjacent : graph.Adj a b) : state.has a ≤ state.has b := by
    by_contra fewer
    have waits := ordered.covers a b adjacent (state.has b) (Nat.le_refl _) (by rw [told]; omega)
    rw [quiet a b adjacent] at waits
    exact absurd waits List.not_mem_nil
  obtain ⟨walk⟩ := connected.preconnected i j
  induction walk with
  | nil => rfl
  | cons adjacent walk ih =>
    exact (Nat.le_antisymm (neighbours _ _ adjacent) (neighbours _ _ adjacent.symm)).trans ih

end OrderedRelay
