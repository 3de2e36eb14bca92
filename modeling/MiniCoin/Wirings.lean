import MiniCoin.Networks
import Mathlib.Combinatorics.SimpleGraph.Connectivity.Connected
import Mathlib.Combinatorics.SimpleGraph.Finite

/-!
# Networks on a graph

Nodes whose connections form a graph: one connection for each pair of neighbours, with a
descriptor at each end. Actions and deliveries leave the connections as they are.
-/

namespace MiniCoin

open Runs

variable {ι : Type} {ssl : OpenSSL} {α : Type}

/-- The active peers of a node are its neighbours; the descriptor `fd i j` leads
from node `i` to node `j`, and `fd j i` leads back. -/
structure Wired (graph : SimpleGraph ι) (fd : ι → ι → Nat) (net : Network ι ssl α) : Prop where
  nodup : ∀ i, (activeFds (net.nodes i)).Nodup
  active : ∀ i n, n ∈ activeFds (net.nodes i) ↔ ∃ j, graph.Adj i j ∧ n = fd i j
  distinct : ∀ i j k, graph.Adj i j → graph.Adj i k → fd i j = fd i k → j = k
  remote : ∀ i j, graph.Adj i j → net.remote (i, fd i j) = some (j, fd j i)

/-- What holds of one node and of the neighbours of those of which it holds,
holds of all nodes of a connected graph. -/
theorem forall_of_closed (graph : SimpleGraph ι) (connected : graph.Connected) (property : ι → Prop)
    (closed : ∀ i j, graph.Adj i j → property i → property j) (start : ι) (holds : property start)
    (i : ι) : property i := by
  obtain ⟨walk⟩ := connected.preconnected start i
  induction walk with
  | nil => exact holds
  | cons adjacent walk ih => exact ih (closed _ _ adjacent holds)

/-- No command changes the peer table, once the connections stand. -/
theorem acts_peers {node next : Node ssl} {action : Action} {packets : List Packet}
    (acts : Acts node action next packets) : next.peers = node.peers := by
  cases acts with
  | refused | tip | selected | added | abandoned | announced => rfl
  | sent idle made => exact onNewTx_peers node _

/-- No message changes the peer table. -/
theorem reacts_peers {node next : Node ssl} {fd : Nat} {message : Message} {packets : List Packet}
    (reacts : Reacts node fd message next packets) : next.peers = node.peers := by
  cases reacts with
  | nothing | block | request | chain | ping => rfl
  | tx tx => exact onNewTx_peers node tx

section

variable {graph : SimpleGraph ι} {fd : ι → ι → Nat} {net next : Network ι ssl α}

/-- The wiring depends on the peers and the far ends only. -/
theorem Wired.congr {β : Type} {later : Network ι ssl β} (wired : Wired graph fd net)
    (peers : ∀ i, (later.nodes i).peers = (net.nodes i).peers) (remote : later.remote = net.remote) :
    Wired graph fd later := by
  have same (i : ι) : activeFds (later.nodes i) = activeFds (net.nodes i) := by
    rw [activeFds, activeFds, peers i]
  refine ⟨fun i => ?_, fun i n => ?_, wired.distinct, fun i j adjacent => ?_⟩
  · rw [same]
    exact wired.nodup i
  · rw [same]
    exact wired.active i n
  · rw [remote]
    exact wired.remote i j adjacent

/-- A node has no more active peers than neighbours. -/
theorem activeFds_length_le [Fintype ι] [DecidableRel graph.Adj] (wired : Wired graph fd net) (i : ι) :
    (activeFds (net.nodes i)).length ≤ graph.degree i := by
  classical
  rw [← List.toFinset_card_of_nodup (wired.nodup i), ← graph.card_neighborFinset_eq_degree]
  have inside : (activeFds (net.nodes i)).toFinset ⊆ (graph.neighborFinset i).image (fd i) := by
    intro n member
    obtain ⟨j, adjacent, rfl⟩ := (wired.active i n).mp (List.mem_toFinset.mp member)
    exact Finset.mem_image_of_mem _ ((graph.mem_neighborFinset i j).mpr adjacent)
  exact (Finset.card_le_card inside).trans Finset.card_image_le

/-- A node sends to its neighbours. -/
theorem mem_activeFds_remote (wired : Wired graph fd net) (i : ι) (n : Nat) (socket : ι × Nat) :
    (n ∈ activeFds (net.nodes i) ∧ net.remote (i, n) = some socket) ↔
      ∃ j, graph.Adj i j ∧ n = fd i j ∧ socket = (j, fd j i) := by
  constructor
  · rintro ⟨member, far⟩
    obtain ⟨j, adjacent, rfl⟩ := (wired.active i n).mp member
    rw [wired.remote i j adjacent] at far
    exact ⟨j, adjacent, rfl, (Option.some.inj far).symm⟩
  · rintro ⟨j, adjacent, rfl, rfl⟩
    exact ⟨(wired.active i _).mpr ⟨j, adjacent, rfl⟩, wired.remote i j adjacent⟩

end

/-- These nodes with the connections of the graph, and nothing under way. -/
def wire {n : Nat} (graph : SimpleGraph (Fin n)) [DecidableRel graph.Adj] (nodes : Fin n → Node ssl) :
    Network (Fin n) ssl α where
  nodes i := { nodes i with
    peers := ((List.finRange n).filter fun j => graph.Adj i j).map fun j => ⟨j.val, true⟩ }
  remote socket :=
    if inside : socket.2 < n then
      if graph.Adj socket.1 ⟨socket.2, inside⟩ then some (⟨socket.2, inside⟩, socket.1.val) else none
    else none
  channel _ := []

/-- The network built from a graph is wired as the graph says. -/
theorem wired_wire {n : Nat} (graph : SimpleGraph (Fin n)) [DecidableRel graph.Adj]
    (nodes : Fin n → Node ssl) :
    Wired graph (fun _ j => j.val) (wire graph nodes : Network (Fin n) ssl α) := by
  have fds (i : Fin n) : activeFds ((wire graph nodes : Network (Fin n) ssl α).nodes i) =
      ((List.finRange n).filter fun j => graph.Adj i j).map Fin.val := by
    simp [activeFds, wire, List.filter_map, Function.comp_def]
  refine ⟨fun i => ?_, fun i m => ?_, fun i j k _ _ => Fin.ext, fun i j adjacent => ?_⟩
  · rw [fds]
    exact ((List.nodup_finRange n).filter _).map Fin.val_injective
  · rw [fds]
    simp [eq_comm]
  · simp [wire, adjacent]

variable [DecidableEq ι] {graph : SimpleGraph ι} {fd : ι → ι → Nat} {net : Network ι ssl Message}

/-- What one node does leaves the wiring as it is. -/
theorem wired_post (wired : Wired graph fd net) (i : ι) (node : Node ssl) (packets : List Packet)
    (before : Network ι ssl Message) (nodes : before.nodes = (net.put i node).nodes)
    (remote : before.remote = net.remote) (peers : node.peers = (net.nodes i).peers) :
    Wired graph fd (Move.post messages ⟨before, i, packets⟩) := by
  obtain ⟨postNodes, postRemote⟩ := Move.post_nodes messages (⟨before, i, packets⟩ : Move ι ssl Message)
  refine wired.congr (fun j => ?_) (postRemote.trans remote)
  rw [postNodes, nodes]
  by_cases same : j = i
  · subst same
    rw [Network.put_same, peers]
  · rw [Network.put_other net i j node same]

end MiniCoin
