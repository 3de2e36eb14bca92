import Mathlib.Data.Set.Function
import Mathlib.Logic.Relation
import Mathlib.Data.List.Induction

/-!
# Histories that grow into a tree

Parties hold histories: lists of blocks behind a common root. A block gives a name to itself and
tells the name of its predecessor and its position. A party writes a block behind its own history,
appends a block that another one has written if what it tells fits, or takes over a history that
some party had.

As long as no two blocks that were written have the same name, the histories form a tree, although
the parties look at no more than the last block: a block stands behind one history only.
-/

namespace BlockTrees

universe u v w

variable {Block : Type u} {Name : Type v} {Party : Type w}

/-- What a block tells of itself: its own name, the name of the block it
stands behind, and its position. A reader of a block knows nothing else of
its history. -/
structure Labels (Block : Type u) (Name : Type v) where
  name : Block → Name
  parent : Block → Name
  position : Block → Nat

/-- What the block tells fits to the end of the history. The last name is
compared and nothing before it, as in a chain of hashes. -/
def Fits (labels : Labels Block Name) (history : List Block) (block : Block) : Prop :=
  labels.position block = history.length ∧
    ∃ last, history.getLast? = some last ∧ labels.parent block = labels.name last

/-- The histories have grown block by block from the root. So each of them has
all its beginnings in the set, and the set may branch anywhere. -/
structure Tree (labels : Labels Block Name) (root : Block) (histories : Set (List Block)) : Prop where
  start : [root] ∈ histories
  behind : ∀ history ∈ histories, history = [root] ∨
    ∃ before block, before ∈ histories ∧ Fits labels before block ∧ history = before ++ [block]

/-- The blocks that stand behind others. -/
def written (histories : Set (List Block)) : Set Block :=
  {block | ∃ before, before ≠ [] ∧ before ++ [block] ∈ histories}

/-- More histories hold more blocks. -/
theorem written_mono {histories later : Set (List Block)} (grown : histories ⊆ later) :
    written histories ⊆ written later :=
  fun _ ⟨before, nonempty, member⟩ => ⟨before, nonempty, grown member⟩

variable {labels : Labels Block Name} {root : Block} {histories : Set (List Block)}

theorem Fits.ne_nil {history : List Block} {block : Block} (fits : Fits labels history block) :
    history ≠ [] := by
  obtain ⟨-, last, tip, -⟩ := fits
  rintro rfl
  simp at tip

namespace Tree

/-- The tree that consists of the root. -/
theorem single (labels : Labels Block Name) (root : Block) : Tree labels root {[root]} :=
  ⟨rfl, fun _ member => Or.inl member⟩

/-- A tree grows where a block fits. -/
theorem grow (tree : Tree labels root histories) {history : List Block} {block : Block}
    (member : history ∈ histories) (fits : Fits labels history block) :
    Tree labels root (insert (history ++ [block]) histories) := by
  refine ⟨Or.inr tree.start, fun other there => ?_⟩
  rcases there with rfl | old
  · exact Or.inr ⟨history, block, Or.inr member, fits, rfl⟩
  · rcases tree.behind other old with first | ⟨before, last, earlier, fit, same⟩
    · exact Or.inl first
    · exact Or.inr ⟨before, last, Or.inr earlier, fit, same⟩

/-- What stands behind others has grown there. -/
theorem of_append (tree : Tree labels root histories) {before : List Block} {block : Block}
    (nonempty : before ≠ []) (member : before ++ [block] ∈ histories) :
    before ∈ histories ∧ Fits labels before block := by
  rcases tree.behind _ member with first | ⟨other, last, earlier, fits, same⟩
  · refine absurd (congrArg List.length first) ?_
    have positive := List.length_pos_iff.mpr nonempty
    simp
    omega
  · obtain ⟨rfl, single⟩ := List.append_inj' same rfl
    obtain rfl : block = last := by simpa using single
    exact ⟨earlier, fits⟩

theorem ne_nil (tree : Tree labels root histories) {history : List Block} (member : history ∈ histories) :
    history ≠ [] := by
  rcases tree.behind history member with rfl | ⟨before, block, -, -, rfl⟩ <;> simp

/-- With a history the tree has all its beginnings. -/
theorem take_mem (tree : Tree labels root histories) (history : List Block) (member : history ∈ histories)
    (position : Nat) (inside : position < history.length) : history.take (position + 1) ∈ histories := by
  induction history using List.reverseRecOn with
  | nil => simp at inside
  | append_singleton before block ih =>
    by_cases last : position = before.length
    · subst last
      rwa [List.take_of_length_le (by simp)]
    · have within : position < before.length := by
        simp only [List.length_append, List.length_singleton] at inside
        omega
      rw [List.take_append_of_le_length (by omega)]
      exact ih (tree.of_append (List.ne_nil_of_length_pos (by omega)) member).1 within

/-- If no two blocks have the same name, a block stands behind one history
only. -/
theorem eq_of_name (tree : Tree labels root histories)
    (distinct : Set.InjOn labels.name (written histories)) (history other : List Block)
    (member : history ∈ histories) (otherMember : other ∈ histories)
    (lengths : history.length = other.length) (block last : Block) (tip : history.getLast? = some block)
    (otherTip : other.getLast? = some last) (names : labels.name block = labels.name last) :
    history = other := by
  induction history using List.reverseRecOn generalizing other block last with
  | nil => simp at tip
  | append_singleton before first ih =>
    obtain rfl : first = block := by simpa using tip
    obtain ⟨start, rfl⟩ : ∃ start, other = start ++ [last] := by
      obtain ⟨start, same⟩ := List.getLast?_eq_some_iff.mp otherTip
      exact ⟨start, same⟩
    have sameLength : before.length = start.length := by simpa using lengths
    by_cases empty : before = []
    · -- both consist of the root
      subst empty
      obtain rfl : start = [] := List.length_eq_zero_iff.mp sameLength.symm
      have one (only : Block) (there : [only] ∈ histories) : only = root := by
        rcases tree.behind _ there with same | ⟨earlier, behind, earlierMember, -, same⟩
        · simpa using same
        · have positive := List.length_pos_iff.mpr (tree.ne_nil earlierMember)
          have lengths := congrArg List.length same
          simp only [List.length_singleton, List.length_append] at lengths
          omega
      rw [List.nil_append, List.nil_append, one first (by simpa using member),
        one last (by simpa using otherMember)]
    · have nonempty : start ≠ [] := by
        rintro rfl
        exact empty (List.length_eq_zero_iff.mp sameLength)
      obtain ⟨earlier, -, ending, ends, parent⟩ := tree.of_append empty member
      obtain ⟨otherEarlier, -, otherEnding, otherEnds, otherParent⟩ := tree.of_append nonempty otherMember
      have same : first = last := distinct ⟨before, empty, member⟩ ⟨start, nonempty, otherMember⟩ names
      subst same
      rw [ih start earlier otherEarlier sameLength ending otherEnding ends otherEnds (parent.symm.trans otherParent)]

/-- Two histories with equal names at a position are equal up to there. -/
theorem take_eq (tree : Tree labels root histories)
    (distinct : Set.InjOn labels.name (written histories)) {history other : List Block}
    (member : history ∈ histories) (otherMember : other ∈ histories) (position : Nat) {block last : Block}
    (here : history[position]? = some block) (there : other[position]? = some last)
    (names : labels.name block = labels.name last) :
    history.take (position + 1) = other.take (position + 1) := by
  have inside := (List.getElem?_eq_some_iff.mp here).1
  have otherInside := (List.getElem?_eq_some_iff.mp there).1
  refine tree.eq_of_name distinct _ _ (tree.take_mem history member position inside)
    (tree.take_mem other otherMember position otherInside) (by simp; omega) block last ?_ ?_ names
  · rw [List.getLast?_take]
    simp [here]
  · rw [List.getLast?_take]
    simp [there]

/-- A block that fits behind a history and was written was written there. -/
theorem append_mem (tree : Tree labels root histories)
    (distinct : Set.InjOn labels.name (written histories)) {history : List Block} {block : Block}
    (member : history ∈ histories) (fits : Fits labels history block) (known : block ∈ written histories) :
    history ++ [block] ∈ histories := by
  obtain ⟨before, nonempty, there⟩ := known
  obtain ⟨earlier, position, last, tip, parent⟩ := tree.of_append nonempty there
  obtain ⟨samePosition, ending, ends, own⟩ := fits
  have same : history = before := tree.eq_of_name distinct history before member earlier
    (samePosition.symm.trans position) ending last ends tip (own.symm.trans parent)
  rwa [same]

end Tree

/-! ## Parties -/

/-- What a party may do with the history that it holds, and what becomes of the
histories that were ever held. -/
inductive Turn (labels : Labels Block Name) (histories : Set (List Block)) (history : List Block) :
    Set (List Block) → List Block → Prop where
  | rests : Turn labels histories history histories history
  | writes (block : Block) (fits : Fits labels history block) :
      Turn labels histories history (insert (history ++ [block]) histories) (history ++ [block])
  | follows (block : Block) (fits : Fits labels history block) (known : block ∈ written histories) :
      Turn labels histories history histories (history ++ [block])
  | adopts (other : List Block) (known : other ∈ histories) : Turn labels histories history histories other

/-- No history is forgotten. -/
theorem Turn.grows {later : Set (List Block)} {history next : List Block}
    (turn : Turn labels histories history later next) : histories ⊆ later := by
  cases turn with
  | rests | follows | adopts => exact subset_rfl
  | writes => exact Set.subset_insert _ _

/-- The histories remain a tree, and the party holds one of them. -/
theorem Turn.tree {later : Set (List Block)} {history next : List Block}
    (turn : Turn labels histories history later next) (tree : Tree labels root histories)
    (member : history ∈ histories) (distinct : Set.InjOn labels.name (written histories)) :
    Tree labels root later ∧ next ∈ later := by
  cases turn with
  | rests => exact ⟨tree, member⟩
  | writes block fits => exact ⟨tree.grow member fits, Or.inl rfl⟩
  | follows block fits known => exact ⟨tree, tree.append_mem distinct member fits known⟩
  | adopts _ known => exact ⟨tree, known⟩

/-- What the parties hold, and the histories that were ever held. The second
part only serves the proof: it remembers what has been given up. -/
structure State (Party : Type w) (Block : Type u) where
  held : Party → List Block
  histories : Set (List Block)

/-- One party takes a turn, and the others hold what they held. -/
def Step (labels : Labels Block Name) (state next : State Party Block) : Prop :=
  ∃ party, Turn labels state.histories (state.held party) next.histories (next.held party) ∧
    ∀ other, other ≠ party → next.held other = state.held other

/-- The histories are a tree, and all parties are in it. This is the invariant:
with distinct names a block that fits a history of the tree is on it only where
it was written. -/
structure Safe (labels : Labels Block Name) (root : Block) (state : State Party Block) : Prop where
  tree : Tree labels root state.histories
  held : ∀ party, state.held party ∈ state.histories

/-- The step lemma: a turn keeps the tree and the chains in it, as long as
different blocks have different names. -/
theorem safe_step {state next : State Party Block} (safe : Safe labels root state)
    (step : Step labels state next) (distinct : Set.InjOn labels.name (written state.histories)) :
    Safe labels root next := by
  obtain ⟨party, turn, others⟩ := step
  obtain ⟨tree, held⟩ := turn.tree safe.tree (safe.held party) distinct
  refine ⟨tree, fun other => ?_⟩
  by_cases same : other = party
  · exact same ▸ held
  · rw [others other same]
    exact turn.grows (safe.held other)

/-- If no two of the blocks that were ever written have the same name, the
parties stay in one tree. -/
theorem safe_run {state next : State Party Block} (safe : Safe labels root state)
    (steps : Relation.ReflTransGen (Step labels) state next)
    (distinct : Set.InjOn labels.name (written next.histories)) : Safe labels root next := by
  induction steps with
  | refl => exact safe
  | tail earlier step ih =>
    obtain ⟨party, turn, others⟩ := step
    have before := distinct.mono (written_mono turn.grows)
    exact safe_step (ih before) ⟨party, turn, others⟩ before

/-- In that case any two parties agree on all that is before a block with a name
that they share. -/
theorem agree_run {state next : State Party Block} (safe : Safe labels root state)
    (steps : Relation.ReflTransGen (Step labels) state next)
    (distinct : Set.InjOn labels.name (written next.histories)) (one other : Party) (position : Nat)
    {block last : Block} (here : (next.held one)[position]? = some block)
    (there : (next.held other)[position]? = some last) (names : labels.name block = labels.name last) :
    (next.held one).take (position + 1) = (next.held other).take (position + 1) := by
  have reached := safe_run safe steps distinct
  exact reached.tree.take_eq distinct (reached.held one) (reached.held other) position here there names

end BlockTrees
