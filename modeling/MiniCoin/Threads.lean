import MiniCoin.Custody
import MiniCoin.PeerSlots

/-!
# The threads and their descriptors

The threads of a process at the granularity of their system calls: the main thread with
`node_connect_peer`, the two broadcasts, `do_network_status` and `node_stop`, `accept_thread`, and a
`peer_handler` for each slot of the peer table. The kernel gives any free descriptor to a new
connection. The reads and writes of `running`, `active` and the descriptors of peers are the steps
of their own that they are in the source, where `active` is not always guarded by `peers_lock`.

From `pthread_mutex_destroy` on, C does not say what the calls with `peers_lock` do. Here they do
not return.

The code sees descriptors only. The connection that each of them stood for when it was obtained
goes along, and every system call is recorded with the connection that it reached.
-/

namespace MiniCoin

open Runs DescriptorTables

namespace Threads

/-- A slot of the peer table, and the connection that it was given to. The code
sees the descriptor alone. -/
structure Slot where
  peer : Peer
  connection : Nat

def Slot.link (slot : Slot) : Link := ⟨slot.peer.fd, slot.connection⟩

/-! ## Where the threads are -/

/-- In `node_request_chain`: the tests, and the calls of `send` for the bytes
that are left. -/
inductive Asking where
  | testing (idx : Nat)
  | sending (link : Link) (left : Nat)

/-- In `broadcast_block_except` or `node_broadcast_tx`, with the descriptor that
is left out and the length of the line. -/
inductive Casting where
  | locking (exclude : Option Nat) (length : Nat)
  | looking (idx : Nat) (exclude : Option Nat) (length : Nat)
  | sending (idx : Nat) (link : Link) (left : Nat) (exclude : Option Nat) (length : Nat)

/-- In `do_network_status`: the line with the number of peers, and one for each
peer. -/
inductive Listing where
  | locking
  | heading
  | looking (idx : Nat)

/-- In `add_peer`; `telling` is `on_peer_connected`, with what is left of the
lines. -/
inductive Adding where
  | registering (link : Link)
  | refused (link : Link)
  | creating (idx : Nat) (link : Link)
  | asking (link : Link) (asking : Asking)
  | calling (link : Link)
  | telling (link : Link) (lengths : List Nat)

/-- In `peer_handler`; `reading` is in `read_message`, with the bytes that it
has so far. -/
inductive Handler where
  | unborn
  | testing
  | reading (total : Nat)
  | handling
  | answering (left : Nat)
  | casting (casting : Casting)
  | failed
  | closing
  | ended

/-- In `accept_thread`: it tests `running`, waits in `accept`, or is in
`add_peer`. -/
inductive Accept where
  | testing
  | waiting
  | adding (adding : Adding)
  | ended

/-- In `node_stop`, before the statement that the name says. Between two
statements any other thread may take steps. -/
inductive Stop where
  | halting
  | shutting
  | closing
  | locking
  | looking (idx : Nat)
  | clearing (idx : Nat)
  | closingPeer (idx : Nat)
  | destroying
  | stopped

/-- The main thread: between two calls, in `node_connect_peer`, in a broadcast,
in `do_network_status` or in `node_stop`. -/
inductive Main where
  | menu
  | connecting (link : Link)
  | failed (link : Link)
  | adding (adding : Adding)
  | counting
  | asking (asking : Asking)
  | casting (casting : Casting)
  | listing (listing : Listing)
  | stopping (stop : Stop)

/-- `peers_lock`. After `pthread_mutex_destroy` nobody is modelled to take it,
as the call would be undefined. -/
inductive Lock where
  | free
  | held
  | destroyed
  deriving DecidableEq

/-! ## System calls -/

/-- The memory that the threads share, the descriptors, and the system calls so
far. -/
structure State where
  table : Table
  slots : List Slot
  server : Link
  listening : Bool
  running : Bool
  lock : Lock
  main : Main
  accept : Accept
  handlers : Nat → Handler
  deeds : List Custody.Deed

namespace State

/-- A system call for the link is recorded. -/
def does (state : State) (kind : Custody.Kind) (link : Link) : State :=
  { state with deeds := state.deeds ++ [⟨kind, link, state.table.entry link.fd, !state.running⟩] }

/-- `close`. -/
def closes (state : State) (link : Link) : State :=
  { state.does .close link with table := state.table.closes link.fd }

/-- `send` takes some of the bytes, or fails; with what is left for the loop of
`send_message`. -/
def sends (state : State) (link : Link) (left count : Nat) : Option (State × Nat) :=
  if count ≤ left ∧ (count = 0 ∨ state.table.entry link.fd ≠ none) then
    some (state.does .write link, if count = 0 then 0 else left - count)
  else none

def withHandler (state : State) (idx : Nat) (handler : Handler) : State :=
  { state with handlers := Function.update state.handlers idx handler }

/-- `active = 0`. -/
def clears (state : State) (idx : Nat) : State :=
  { state with slots := state.slots.modify idx fun slot => { slot with peer := { slot.peer with active := false } } }

end State

/-- What is not decided by the program: the results of system calls, what a
received line makes `handle_message` send, what the user chooses, the sizes of
the mempool and of lines. -/
inductive Outcome where
  | goes
  | fails
  | opens (fd : Nat)
  | sent (count : Nat)
  | received (newline : Bool)
  | resends (lengths : List Nat)
  | answers (length : Nat)
  | casts (length : Nat)
  | lists
  | stops

/-! ## Steps of a thread -/

/-- The line of `node_request_chain`. -/
def requestLength : Nat := (protocolSerializeMsg .requestChain none).length

/-- `node_request_chain`; at its end there is no next place. -/
def askStep (state : State) : Asking → Outcome → Option (State × Option Asking)
  | .testing idx, .goes =>
    match state.slots[idx]? with
    | none => some (state, none)
    | some slot => some (state, if slot.peer.active then some (.sending slot.link requestLength) else none)
  | .sending link left, .sent count =>
    (state.sends link left count).map fun (after, left) =>
      (after, if left = 0 then none else some (.sending link left))
  | _, _ => none

/-- The broadcasts. The lock is held from the first look at the table to the
last, over all calls of `send`. -/
def castStep (state : State) : Casting → Outcome → Option (State × Option Casting)
  | .locking exclude length, .goes =>
    if state.lock = .free then some ({ state with lock := .held }, some (.looking 0 exclude length)) else none
  | .looking idx exclude length, .goes =>
    match state.slots[idx]? with
    | none => some ({ state with lock := .free }, none)
    | some slot => some (state, some
      (if slot.peer.active ∧ some slot.peer.fd ≠ exclude then .sending idx slot.link length exclude length
        else .looking (idx + 1) exclude length))
  | .sending idx link left exclude length, .sent count =>
    (state.sends link left count).map fun (after, left) =>
      (after, some
        (if left = 0 then .looking (idx + 1) exclude length else .sending idx link left exclude length))
  | _, _ => none

/-- `do_network_status`, which prints while it has the lock. -/
def listStep (state : State) : Listing → Option (State × Option Listing)
  | .locking =>
    if state.lock = .free then some ({ state with lock := .held }, some .heading) else none
  | .heading => some (state, some (.looking 0))
  | .looking idx =>
    match state.slots[idx]? with
    | none => some ({ state with lock := .free }, none)
    | some _ => some (state, some (.looking (idx + 1)))

/-- `add_peer`; its locked part is one step, since it only assigns. The handler
starts before the request is sent. -/
def addStep (state : State) : Adding → Outcome → Option (State × Option Adding)
  | .registering link, .goes =>
    if state.lock = .free then
      if maxPeers ≤ state.slots.length then some (state, some (.refused link))
      else some ({ state with slots := state.slots ++ [⟨⟨link.fd, true⟩, link.thing⟩] },
        some (.creating state.slots.length link))
    else none
  | .refused link, .goes => some (state.closes link, none)
  | .creating idx link, .goes => some (state.withHandler idx .testing, some (.asking link (.testing idx)))
  | .asking link asking, outcome =>
    (askStep state asking outcome).map fun (after, next) =>
      (after, some (match next with
        | none => .calling link
        | some asking => .asking link asking))
  | .calling link, .resends lengths => some (state, some (.telling link lengths))
  | .telling _ [], .goes => some (state, none)
  | .telling link (left :: rest), .sent count =>
    (state.sends link left count).map fun (after, left) =>
      (after, some (.telling link (if left = 0 then rest else left :: rest)))
  | _, _ => none

/-- `peer_handler` of a slot. It reads the descriptor from the slot each time,
and tests `active` before each line. -/
def handlerStep (state : State) (idx : Nat) (outcome : Outcome) : Option State :=
  match state.slots[idx]? with
  | none => none
  | some slot =>
    match state.handlers idx, outcome with
    | .testing, .goes =>
      some (state.withHandler idx (if state.running ∧ slot.peer.active then .reading 0 else .ended))
    | .reading total, .received newline =>
      if state.table.entry slot.peer.fd = none then none
      else some ((state.does .read slot.link).withHandler idx
        (if newline ∨ total + 1 = maxMsgSize - 1 then .handling else .reading (total + 1)))
    | .reading _, .fails => some ((state.does .read slot.link).withHandler idx .failed)
    -- nothing is sent for a line that is refused, or that only changes the node
    | .handling, .goes => some (state.withHandler idx .testing)
    | .handling, .answers length => some (state.withHandler idx (.answering length))
    | .answering left, .sent count =>
      (state.sends slot.link left count).map fun (after, left) =>
        after.withHandler idx (if left = 0 then .testing else .answering left)
    | .handling, .casts length => some (state.withHandler idx (.casting (.locking (some slot.peer.fd) length)))
    | .casting casting, outcome =>
      (castStep state casting outcome).map fun (after, next) =>
        after.withHandler idx (match next with
          | none => .testing
          | some casting => .casting casting)
    | .failed, .goes => some ((state.clears idx).withHandler idx .closing)
    | .closing, .goes => some ((state.closes slot.link).withHandler idx .ended)
    | _, _ => none

/-- `accept_thread`; `accept` gives nothing when the listening socket was shut
down. -/
def acceptStep (state : State) (outcome : Outcome) : Option State :=
  match state.accept, outcome with
  | .testing, .goes => some { state with accept := if state.running then .waiting else .ended }
  | .waiting, .opens fd =>
    if state.listening ∧ state.table.Holds state.server ∧ state.table.entry fd = none then
      some { state.does .accept state.server with
        table := state.table.opens fd
        accept := .adding (.registering ⟨fd, state.table.count⟩) }
    else none
  | .waiting, .fails => some { state.does .accept state.server with accept := .testing }
  | .adding adding, outcome =>
    (addStep state adding outcome).map fun (after, next) =>
      { after with accept := match next with
        | none => .testing
        | some adding => .adding adding }
  | _, _ => none

/-- `node_stop`. A lock that is in use is not destroyed, as the result of the
call is not looked at. -/
def stopStep (state : State) : Stop → Option (State × Stop)
  | .halting => some ({ state with running := false }, .shutting)
  | .shutting => some ({ state with listening := false }, .closing)
  | .closing => some (state.closes state.server, .locking)
  | .locking => if state.lock = .free then some ({ state with lock := .held }, .looking 0) else none
  | .looking idx =>
    match state.slots[idx]? with
    | none => some ({ state with lock := .free }, .destroying)
    | some slot => some (state, if slot.peer.active then .clearing idx else .looking (idx + 1))
  | .clearing idx => some (state.clears idx, .closingPeer idx)
  | .closingPeer idx => state.slots[idx]?.map fun slot => (state.closes slot.link, .looking (idx + 1))
  | .destroying => some ({ state with lock := if state.lock = .free then .destroyed else state.lock }, .stopped)
  | .stopped => none

/-- The main thread: the menu, and the calls that use the table or the lock. -/
def mainStep (state : State) (outcome : Outcome) : Option State :=
  match state.main, outcome with
  | .menu, .opens fd =>
    if state.table.entry fd = none then
      some { state with table := state.table.opens fd, main := .connecting ⟨fd, state.table.count⟩ }
    else none
  | .menu, .casts length => some { state with main := .casting (.locking none length) }
  | .menu, .lists => some { state with main := .listing .locking }
  | .menu, .stops => some { state with main := .stopping .halting }
  | .connecting link, .goes => some { state with main := .adding (.registering link) }
  | .connecting link, .fails => some { state with main := .failed link }
  | .failed link, .goes => some { state.closes link with main := .menu }
  | .adding adding, outcome =>
    (addStep state adding outcome).map fun (after, next) =>
      { after with main := match next with
        | none => .counting
        | some adding => .adding adding }
  | .counting, .goes => some { state with main := .asking (.testing (state.slots.length - 1)) }
  | .asking asking, outcome =>
    (askStep state asking outcome).map fun (after, next) =>
      { after with main := match next with
        | none => .menu
        | some asking => .asking asking }
  | .casting casting, outcome =>
    (castStep state casting outcome).map fun (after, next) =>
      { after with main := match next with
        | none => .menu
        | some casting => .casting casting }
  | .listing listing, .goes =>
    (listStep state listing).map fun (after, next) =>
      { after with main := match next with
        | none => .menu
        | some listing => .listing listing }
  | .stopping stop, .goes => (stopStep state stop).map fun (after, next) => { after with main := .stopping next }
  | _, _ => none

/-- The thread that goes on, and what comes of its step. A run is any sequence
of turns, so it may interleave the threads in any way. -/
inductive Turn where
  | main (outcome : Outcome)
  | accept (outcome : Outcome)
  | handler (idx : Nat) (outcome : Outcome)

def step (state : State) : Turn → Option State
  | .main outcome => mainStep state outcome
  | .accept outcome => acceptStep state outcome
  | .handler idx outcome => handlerStep state idx outcome

/-- After `node_init`, with the listening socket only. -/
def start (fd : Nat) : State where
  table := (⟨fun _ => none, 0⟩ : Table).opens fd
  slots := []
  server := ⟨fd, 0⟩
  listening := true
  running := true
  lock := .free
  main := .menu
  accept := .testing
  handlers := fun _ => .unborn
  deeds := []

end Threads

end MiniCoin
