import MiniCoin.MessageCodec
import MiniCoin.Runs

/-!
# Networks of nodes

Nodes joined by connections. A connection has a descriptor at each end and delivers, in
order, what is sent into it; bytes that wait to be read at an end are its channel. A step
is an action of a user, the handling of one received line, or a change of the peer tables.
Descriptors name connections and are not used twice.

The network of the source transports bytes. The same network with messages in place of
their bytes is its abstraction: while all messages are plain and short, each step of one
is the step of the other.
-/

namespace MiniCoin

open ByteStrings Runs

variable {ι : Type} [DecidableEq ι] {ssl : OpenSSL} {α : Type}

/-- The nodes, the far end of every connected descriptor, and what waits to be
read. -/
@[ext] structure Network (ι : Type) (ssl : OpenSSL) (α : Type) where
  nodes : ι → Node ssl
  remote : ι × Nat → Option (ι × Nat)
  channel : ι × Nat → List α

/-- How messages travel: what is written for one, and what a reader thread does
with what waits for it, if that is enough for a line. -/
structure Transport (ssl : OpenSSL) (α : Type) where
  encode : Message → List α
  receive : Node ssl → Nat → List α → Option ((Node ssl × List Packet) × List α)

/-- Bytes, as in the source: one pass of the loop of `peer_handler`. It reads
one line, or a full buffer, and handles it. -/
def bytes : Transport ssl UInt8 where
  encode := Message.text
  receive node fd stream :=
    (readMessage stream).map fun (line, rest) => (handleMessage node fd line, rest)

/-- Messages instead of their bytes. One step takes the first message that
waits. -/
def messages : Transport ssl Message where
  encode message := [message]
  receive node fd
    | [] => none
    | message :: rest => some (react node fd message, rest)

namespace Network

/-- The network with another node in one place. -/
def put (net : Network ι ssl α) (i : ι) (node : Node ssl) : Network ι ssl α :=
  { net with nodes := Function.update net.nodes i node }

/-- The network after something has been read from one end. -/
def drain (net : Network ι ssl α) (socket : ι × Nat) (rest : List α) : Network ι ssl α :=
  { net with channel := Function.update net.channel socket rest }

/-- Both ends of a new connection. -/
def join (net : Network ι ssl α) (near far : ι × Nat) : Network ι ssl α :=
  { net with remote := Function.update (Function.update net.remote near (some far)) far (some near) }

/-- `send_message`: what is sent into an end waits at the other one. A
descriptor without a far end swallows it. -/
def post (transport : Transport ssl α) (sender : ι) (net : Network ι ssl α) (packet : Packet) :
    Network ι ssl α :=
  match net.remote (sender, packet.fd) with
  | none => net
  | some far =>
    { net with channel :=
        Function.update net.channel far (net.channel far ++ transport.encode packet.message) }

end Network

/-- What happens in a network. Node `i` connects from its descriptor `fd` to
descriptor `fd'` of node `j`, which `j` accepts in a later step. -/
inductive NetEvent (ι : Type) where
  | act (i : ι) (action : Action)
  | deliver (i : ι) (fd : Nat)
  | connect (i : ι) (fd : Nat) (j : ι) (fd' : Nat)
  | accept (j : ι) (fd' : Nat)
  | closed (i : ι) (fd : Nat)

/-- A step before its messages are sent: the network, and who sends what. Both
networks, of bytes and of messages, have moves of the same form. -/
@[ext] structure Move (ι : Type) (ssl : OpenSSL) (α : Type) where
  net : Network ι ssl α
  sender : ι
  packets : List Packet

/-- The packets of a move are sent in their order. -/
def Move.post (transport : Transport ssl α) (move : Move ι ssl α) : Network ι ssl α :=
  move.packets.foldl (Network.post transport move.sender) move.net

namespace Network

/-- What a step does before anything is sent: which node changes, and what it
will send. -/
def move (transport : Transport ssl α) (net : Network ι ssl α) : NetEvent ι → Option (Move ι ssl α)
  | .act i action =>
    (act (net.nodes i) action).map fun (node, packets) => ⟨net.put i node, i, packets⟩
  | .deliver i fd =>
    if fd ∈ activeFds (net.nodes i) then
      (transport.receive (net.nodes i) fd (net.channel (i, fd))).map fun ((node, packets), rest) =>
        ⟨(net.put i node).drain (i, fd) rest, i, packets⟩
    else none
  | .connect i fd j fd' =>
    if net.remote (i, fd) = none ∧ net.remote (j, fd') = none ∧ (i, fd) ≠ (j, fd') then
      let (node, packets) := nodeConnectPeer (net.nodes i) fd
      some ⟨(net.put i node).join (i, fd) (j, fd'), i, packets⟩
    else none
  | .accept j fd' =>
    if net.remote (j, fd') ≠ none ∧ fd' ∉ (net.nodes j).peers.map (·.fd) then
      let (node, packets) := addPeer (net.nodes j) fd'
      some ⟨net.put j node, j, packets⟩
    else none
  | .closed i fd =>
    if fd ∈ activeFds (net.nodes i) then some ⟨net.put i (peerClosed (net.nodes i) fd), i, []⟩
    else none

/-- One step with the messages it sends. A delivered line is handled whole: what
it makes the node do and what it makes the node send happen in this step,
whatever locks the handler gives back and takes again on its way. -/
def step (transport : Transport ssl α) (net : Network ι ssl α) (event : NetEvent ι) :
    Option (Network ι ssl α) :=
  (net.move transport event).map (Move.post transport)

/-- Processes that have just started, without connections. All connections of a
run are made in it. -/
structure Started (net : Network ι ssl α) : Prop where
  nodes : ∀ i, MiniCoin.Started (net.nodes i)
  remote : ∀ socket, net.remote socket = none
  channel : ∀ socket, net.channel socket = []

/-- The node that was put is there. -/
@[simp] theorem put_same (net : Network ι ssl α) (i : ι) (node : Node ssl) :
    (net.put i node).nodes i = node := by simp [put]

/-- The other nodes stay. -/
theorem put_other (net : Network ι ssl α) (i j : ι) (node : Node ssl) (other : j ≠ i) :
    (net.put i node).nodes j = net.nodes j := by simp [put, other]

/-- Putting back what is there changes nothing. -/
theorem put_self (net : Network ι ssl α) (i : ι) : net.put i (net.nodes i) = net := by
  rw [put, Function.update_eq_self]

/-- A property of all nodes survives a change of one of them. -/
theorem forall_put (net : Network ι ssl α) (i : ι) (node : Node ssl) (property : Node ssl → Prop)
    (all : ∀ j, property (net.nodes j)) (new : property node) :
    ∀ j, property ((net.put i node).nodes j) := by
  intro j
  by_cases same : j = i
  · subst same
    rwa [put_same]
  · rw [put_other net i j node same]
    exact all j

/-! ## What waits in the channels -/

/-- Sending a packet changes neither nodes nor connections. -/
theorem post_nodes (transport : Transport ssl α) (sender : ι) (net : Network ι ssl α)
    (packet : Packet) : (net.post transport sender packet).nodes = net.nodes ∧
      (net.post transport sender packet).remote = net.remote := by
  unfold post
  split <;> exact ⟨rfl, rfl⟩

/-- A message waits if it waited before or has just been sent. -/
theorem mem_post (sender : ι) (net : Network ι ssl Message) (packet : Packet) (socket : ι × Nat)
    (message : Message) (waits : message ∈ (net.post messages sender packet).channel socket) :
    message ∈ net.channel socket ∨ message = packet.message := by
  unfold post at waits
  split at waits
  · exact Or.inl waits
  · next far _ =>
    by_cases same : socket = far
    · subst same
      simpa [messages] using waits
    · simp only [Function.update_of_ne same] at waits
      exact Or.inl waits

end Network

/-- Nor does sending all packets of a move. -/
theorem Move.post_nodes (transport : Transport ssl α) (move : Move ι ssl α) :
    (move.post transport).nodes = move.net.nodes ∧
      (move.post transport).remote = move.net.remote := by
  obtain ⟨net, sender, packets⟩ := move
  unfold Move.post
  induction packets generalizing net with
  | nil => exact ⟨rfl, rfl⟩
  | cons packet rest ih =>
    obtain ⟨nodes, remote⟩ := Network.post_nodes transport sender net packet
    obtain ⟨nodes', remote'⟩ := ih (net.post transport sender packet)
    exact ⟨nodes'.trans nodes, remote'.trans remote⟩

/-- What waits after a move was waiting before or is one of its packets. -/
theorem Move.mem_post (move : Move ι ssl Message) (socket : ι × Nat) (message : Message)
    (waits : message ∈ (move.post messages).channel socket) :
    message ∈ move.net.channel socket ∨ ∃ packet ∈ move.packets, message = packet.message := by
  obtain ⟨net, sender, packets⟩ := move
  unfold Move.post at waits
  induction packets generalizing net with
  | nil => exact Or.inl waits
  | cons packet rest ih =>
    rcases ih _ waits with before | ⟨later, member, same⟩
    · rcases Network.mem_post sender net packet socket message before with old | new
      · exact Or.inl old
      · exact Or.inr ⟨packet, List.mem_cons_self, new⟩
    · exact Or.inr ⟨later, List.mem_cons_of_mem _ member, same⟩

/-- Where the packets of a step wait. -/
theorem mem_post_iff (net : Network ι ssl Message) (sender : ι) (packets : List Packet)
    (socket : ι × Nat) (message : Message) :
    message ∈ (Move.post messages ⟨net, sender, packets⟩).channel socket ↔
      message ∈ net.channel socket ∨
        ∃ packet ∈ packets, net.remote (sender, packet.fd) = some socket ∧ packet.message = message := by
  unfold Move.post
  induction packets generalizing net with
  | nil => simp
  | cons packet rest ih =>
    have remote := (Network.post_nodes messages sender net packet).2
    have here : message ∈ (net.post messages sender packet).channel socket ↔
        message ∈ net.channel socket ∨
          (net.remote (sender, packet.fd) = some socket ∧ packet.message = message) := by
      unfold Network.post
      cases far : net.remote (sender, packet.fd) with
      | none => simp
      | some target =>
        by_cases same : socket = target
        · subst same
          simp [messages, eq_comm]
        · simp [same, Ne.symm same]
    have later := ih (net.post messages sender packet)
    simp only at later
    rw [List.foldl_cons, later, here, remote]
    simp only [List.mem_cons, exists_eq_or_imp, or_assoc]

/-! ## The forms of a step -/

/-- What one step can do in the network of messages. Connections of all kinds
are one case, since they change nothing but the table of peers. -/
inductive Moves (net : Network ι ssl Message) : NetEvent ι → Move ι ssl Message → Prop where
  | acted {i : ι} {action : Action} {node : Node ssl} {packets : List Packet}
      (acts : Acts (net.nodes i) action node packets) :
      Moves net (.act i action) ⟨net.put i node, i, packets⟩
  | delivered {i : ι} {fd : Nat} {message : Message} {rest : List Message} {node : Node ssl}
      {packets : List Packet} (waiting : net.channel (i, fd) = message :: rest)
      (reacts : Reacts (net.nodes i) fd message node packets) :
      Moves net (.deliver i fd) ⟨(net.put i node).drain (i, fd) rest, i, packets⟩
  | peers {event : NetEvent ι} {i : ι} {packets : List Packet} (peers : List Peer)
      (remote : ι × Nat → Option (ι × Nat))
      (greeting : ∀ packet ∈ packets, Greeting (net.nodes i) packet) :
      Moves net event
        ⟨{ net.put i { net.nodes i with peers := peers } with remote := remote }, i, packets⟩

/-- Every move is one of these cases, so proofs about networks need not unfold
the transport. -/
theorem move_moves (net : Network ι ssl Message) (event : NetEvent ι) (move : Move ι ssl Message)
    (moved : net.move messages event = some move) : Moves net event move := by
  cases event with
  | act i action =>
    obtain ⟨⟨node, packets⟩, acted, rfl⟩ := Option.map_eq_some_iff.mp moved
    exact .acted (act_acts _ _ _ _ acted)
  | deliver i fd =>
    simp only [Network.move] at moved
    split at moved
    · obtain ⟨⟨⟨node, packets⟩, rest⟩, received, rfl⟩ := Option.map_eq_some_iff.mp moved
      cases waiting : net.channel (i, fd) with
      | nil => simp [waiting, messages] at received
      | cons message others =>
        rw [waiting] at received
        obtain ⟨reaction, rfl⟩ := Prod.mk.inj (Option.some.inj received)
        have reacts := react_reacts (net.nodes i) fd message
        rw [reaction] at reacts
        exact .delivered waiting reacts
    · simp at moved
  | connect i fd j fd' =>
    simp only [Network.move] at moved
    split at moved
    · obtain rfl := Option.some.inj moved
      obtain ⟨⟨peers, kept⟩, greeting⟩ := nodeConnectPeer_greets (net.nodes i) fd
      rw [kept]
      exact .peers peers _ greeting
    · simp at moved
  | accept j fd' =>
    simp only [Network.move] at moved
    split at moved
    · obtain rfl := Option.some.inj moved
      obtain ⟨⟨peers, kept⟩, greeting⟩ := addPeer_greets (net.nodes j) fd'
      rw [kept]
      exact .peers peers net.remote greeting
    · simp at moved
  | closed i fd =>
    simp only [Network.move] at moved
    split at moved
    · obtain rfl := Option.some.inj moved
      exact .peers _ net.remote (by simp)
    · simp at moved

/-- An action changes the nodes as `act` says. -/
theorem step_act (transport : Transport ssl α) (net next : Network ι ssl α) (i : ι) (action : Action)
    (stepped : net.step transport (.act i action) = some next) :
    ∃ node packets, Acts (net.nodes i) action node packets ∧ next.nodes = (net.put i node).nodes := by
  obtain ⟨move, moved, rfl⟩ := Option.map_eq_some_iff.mp stepped
  obtain ⟨⟨node, packets⟩, acted, rfl⟩ := Option.map_eq_some_iff.mp moved
  exact ⟨node, packets, act_acts _ _ _ _ acted, (Move.post_nodes transport _).1⟩

/-- What an action does in the network of messages. -/
theorem step_of_act (net next : Network ι ssl Message) (i : ι) (action : Action)
    (stepped : net.step messages (.act i action) = some next) :
    ∃ node packets, Acts (net.nodes i) action node packets ∧
      next = Move.post messages ⟨net.put i node, i, packets⟩ := by
  obtain ⟨move, moved, rfl⟩ := Option.map_eq_some_iff.mp stepped
  obtain ⟨⟨node, packets⟩, acted, rfl⟩ := Option.map_eq_some_iff.mp moved
  exact ⟨node, packets, act_acts _ _ _ _ acted, rfl⟩

/-- What a delivery does there: the first waiting message is handled. -/
theorem move_of_deliver (net : Network ι ssl Message) (move : Move ι ssl Message) (i : ι) (fd : Nat)
    (moved : net.move messages (.deliver i fd) = some move) :
    fd ∈ activeFds (net.nodes i) ∧ ∃ message rest, net.channel (i, fd) = message :: rest ∧
      move = ⟨(net.put i (react (net.nodes i) fd message).1).drain (i, fd) rest, i,
        (react (net.nodes i) fd message).2⟩ := by
  simp only [Network.move] at moved
  split at moved
  · next active =>
    cases waiting : net.channel (i, fd) with
    | nil => simp [waiting, messages] at moved
    | cons message rest =>
      simp only [waiting, messages, Option.map_some, Option.some.injEq] at moved
      exact ⟨active, message, rest, rfl, moved.symm⟩
  · cases moved

/-- The handling of a message takes the first one that waits, and sends what the
node answers. -/
theorem step_of_deliver (net next : Network ι ssl Message) (i : ι) (fd : Nat)
    (stepped : net.step messages (.deliver i fd) = some next) :
    fd ∈ activeFds (net.nodes i) ∧ ∃ message rest, net.channel (i, fd) = message :: rest ∧
      next = Move.post messages ⟨(net.put i (react (net.nodes i) fd message).1).drain (i, fd) rest, i,
        (react (net.nodes i) fd message).2⟩ := by
  obtain ⟨move, moved, rfl⟩ := Option.map_eq_some_iff.mp stepped
  obtain ⟨active, message, rest, waiting, rfl⟩ := move_of_deliver net move i fd moved
  exact ⟨active, message, rest, waiting, rfl⟩

/-- What holds of all nodes and of all that waits is kept by a move, if what an
action or a delivery makes of the node and sends has it, and changes of the peer
tables do no harm. -/
theorem forall_move (good : Node ssl → Prop) (fine : Message → Prop) (net : Network ι ssl Message)
    (event : NetEvent ι) (move : Move ι ssl Message) (nodes : ∀ i, good (net.nodes i))
    (channels : ∀ socket, ∀ message ∈ net.channel socket, fine message)
    (acted : ∀ i action node packets, event = .act i action → Acts (net.nodes i) action node packets →
      good node ∧ ∀ packet ∈ packets, fine packet.message)
    (delivered : ∀ i fd message rest node packets, event = .deliver i fd →
      net.channel (i, fd) = message :: rest → Reacts (net.nodes i) fd message node packets →
        good node ∧ ∀ packet ∈ packets, fine packet.message)
    (peers : ∀ i table, good { net.nodes i with peers := table })
    (greets : ∀ i packet, Greeting (net.nodes i) packet → fine packet.message)
    (moved : net.move messages event = some move) :
    (∀ i, good (move.net.nodes i)) ∧
      (∀ socket, ∀ message ∈ move.net.channel socket, fine message) ∧
        ∀ packet ∈ move.packets, fine packet.message := by
  have others (moves : Moves net event move) (quiet : ∀ i action, event ≠ .act i action) :
      (∀ i, good (move.net.nodes i)) ∧
        (∀ socket, ∀ message ∈ move.net.channel socket, fine message) ∧
          ∀ packet ∈ move.packets, fine packet.message := by
    cases moves with
    | acted acts => exact absurd rfl (quiet _ _)
    | @delivered i fd message rest node packets waiting reacts =>
      obtain ⟨new, sent⟩ := delivered i fd message rest node packets rfl waiting reacts
      refine ⟨net.forall_put i node _ nodes new, fun socket other member => ?_, sent⟩
      by_cases here : socket = (i, fd)
      · subst here
        refine channels (i, fd) other ?_
        rw [waiting]
        exact List.mem_cons_of_mem _ (by simpa [Network.drain] using member)
      · exact channels socket other (by simpa [Network.drain, here, Network.put] using member)
    | @peers _ i packets table remote greeting =>
      exact ⟨net.forall_put i _ _ nodes (peers i table), channels,
        fun packet member => greets i packet (greeting packet member)⟩
  cases event with
  | act i action =>
    obtain ⟨⟨node, packets⟩, result, rfl⟩ := Option.map_eq_some_iff.mp moved
    obtain ⟨new, sent⟩ := acted i action node packets rfl (act_acts _ _ _ _ result)
    exact ⟨net.forall_put i node _ nodes new, channels, sent⟩
  | deliver | connect | accept | closed =>
    exact others (move_moves net _ move moved) (by simp)

/-- The same for a step. -/
theorem forall_step (good : Node ssl → Prop) (fine : Message → Prop) (net next : Network ι ssl Message)
    (event : NetEvent ι) (nodes : ∀ i, good (net.nodes i))
    (channels : ∀ socket, ∀ message ∈ net.channel socket, fine message)
    (acted : ∀ i action node packets, event = .act i action → Acts (net.nodes i) action node packets →
      good node ∧ ∀ packet ∈ packets, fine packet.message)
    (delivered : ∀ i fd message rest node packets, event = .deliver i fd →
      net.channel (i, fd) = message :: rest → Reacts (net.nodes i) fd message node packets →
        good node ∧ ∀ packet ∈ packets, fine packet.message)
    (peers : ∀ i table, good { net.nodes i with peers := table })
    (greets : ∀ i packet, Greeting (net.nodes i) packet → fine packet.message)
    (stepped : net.step messages event = some next) :
    (∀ i, good (next.nodes i)) ∧ ∀ socket, ∀ message ∈ next.channel socket, fine message := by
  obtain ⟨move, moved, rfl⟩ := Option.map_eq_some_iff.mp stepped
  obtain ⟨new, waiting, sent⟩ := forall_move good fine net event move nodes channels acted delivered
    peers greets moved
  refine ⟨by rw [(move.post_nodes messages).1]; exact new, fun socket message waits => ?_⟩
  rcases move.mem_post socket message waits with old | ⟨packet, member, rfl⟩
  · exact waiting socket message old
  · exact sent packet member

/-! ## The two networks -/

/-- The network of bytes that a network of messages stands for: each message is
replaced by its line. -/
def Network.represent (net : Network ι ssl Message) : Network ι ssl UInt8 where
  nodes := net.nodes
  remote := net.remote
  channel socket := (net.channel socket).flatMap Message.text

/-- The move of bytes that a move of messages stands for. -/
def Move.represent (move : Move ι ssl Message) : Move ι ssl UInt8 :=
  ⟨move.net.represent, move.sender, move.packets⟩

/-- Sending a message is sending its bytes. -/
theorem represent_post (sender : ι) (net : Network ι ssl Message) (packet : Packet) :
    (net.post messages sender packet).represent = net.represent.post bytes sender packet := by
  unfold Network.post
  have same : net.represent.remote = net.remote := rfl
  rw [same]
  cases net.remote (sender, packet.fd) with
  | none => rfl
  | some far =>
    refine Network.ext rfl rfl ?_
    funext socket
    by_cases here : socket = far
    · subst here
      simp [Network.represent, messages, bytes]
    · simp [Network.represent, here]

/-- So is sending all packets of a move. -/
theorem Move.represent_post (move : Move ι ssl Message) :
    (move.post messages).represent = move.represent.post bytes := by
  obtain ⟨net, sender, packets⟩ := move
  simp only [Move.post, Move.represent]
  induction packets generalizing net with
  | nil => rfl
  | cons packet rest ih => rw [List.foldl_cons, List.foldl_cons, ih, MiniCoin.represent_post]

/-- The message is one short line, and what is done with the line is done with
the message. -/
structure Faithful (ssl : OpenSSL) (message : Message) : Prop where
  text : message.text = message.line ++ [10]
  oneLine : 10 ∉ message.line
  short : message.text.length < maxMsgSize
  read : ∀ (node : Node ssl) (fd : Nat), handleMessage node fd message.line = react node fd message

/-- A plain and short message is faithful: this is where framing and both
parsers are used. -/
theorem faithful_plain (message : Message) (plain : message.Plain)
    (short : message.text.length < maxMsgSize) : Faithful ssl message where
  text := plain.text.1
  oneLine member := (plain.text.2 10 member).2 rfl
  short := short
  read node fd := handleMessage_line node fd message plain

/-- Every waiting message will be read as it was written. This is the invariant
that joins the two networks. -/
def Deliverable (net : Network ι ssl Message) : Prop :=
  ∀ socket, ∀ message ∈ net.channel socket, message.Plain ∧ message.text.length < maxMsgSize

omit [DecidableEq ι] in
/-- So all that waits in a deliverable network is. -/
theorem Deliverable.faithful {net : Network ι ssl Message} (deliverable : Deliverable net) :
    ∀ socket, ∀ message ∈ net.channel socket, Faithful ssl message := by
  intro socket message waits
  obtain ⟨plain, short⟩ := deliverable socket message waits
  exact faithful_plain message plain short

/-- Reading a message is reading its bytes. -/
theorem represent_drain (net : Network ι ssl Message) (socket : ι × Nat) (rest : List Message) :
    (net.drain socket rest).represent = net.represent.drain socket (rest.flatMap Message.text) := by
  refine Network.ext rfl rfl ?_
  funext other
  by_cases here : other = socket
  · subst here
    simp [Network.represent, Network.drain]
  · simp [Network.represent, Network.drain, here]

/-- A reader thread does the same in both networks. -/
theorem receive_represent (node : Node ssl) (fd : Nat) (waiting : List Message)
    (faithful : ∀ message ∈ waiting, Faithful ssl message) :
    bytes.receive node fd (waiting.flatMap Message.text) =
      (messages.receive node fd waiting).map fun (result, rest) =>
        (result, rest.flatMap Message.text) := by
  cases waiting with
  | nil => rfl
  | cons message rest =>
    obtain ⟨text, oneLine, short, read⟩ := faithful message (by simp)
    have short' : message.line.length < maxMsgSize - 1 := by
      rw [text, List.length_append, List.length_singleton] at short
      omega
    have split : (message :: rest).flatMap Message.text =
        message.line ++ 10 :: rest.flatMap Message.text := by
      rw [List.flatMap_cons, text]
      simp
    rw [split]
    simp only [bytes, messages, readMessage_line _ _ oneLine short', Option.map_some, read node fd]

/-- A delivery handles the first of the messages that wait at a socket. -/
theorem step_deliver (net next : Network ι ssl UInt8) (i : ι) (fd : Nat) (waiting : List Message)
    (channel : net.channel (i, fd) = waiting.flatMap Message.text)
    (faithful : ∀ message ∈ waiting, Faithful ssl message)
    (stepped : net.step bytes (.deliver i fd) = some next) :
    ∃ message rest, waiting = message :: rest ∧
      next = Move.post bytes ⟨(net.put i (react (net.nodes i) fd message).1).drain (i, fd)
        (rest.flatMap Message.text), i, (react (net.nodes i) fd message).2⟩ := by
  obtain ⟨move, moved, rfl⟩ := Option.map_eq_some_iff.mp stepped
  simp only [Network.move] at moved
  split at moved
  · obtain ⟨⟨⟨node, packets⟩, others⟩, received, rfl⟩ := Option.map_eq_some_iff.mp moved
    rw [channel, receive_represent (net.nodes i) fd waiting faithful] at received
    cases waiting with
    | nil => simp [messages] at received
    | cons message rest =>
      simp only [messages, Option.map_some, Option.some.injEq, Prod.mk.injEq] at received
      obtain ⟨reaction, rfl⟩ := received
      exact ⟨message, rest, rfl, by rw [reaction]⟩
  · simp at moved

/-- With faithful messages the two networks make the same moves. -/
theorem move_faithful (net : Network ι ssl Message) (event : NetEvent ι)
    (faithful : ∀ socket, ∀ message ∈ net.channel socket, Faithful ssl message) :
    net.represent.move bytes event = (net.move messages event).map Move.represent := by
  have nodes : net.represent.nodes = net.nodes := rfl
  have remote : net.represent.remote = net.remote := rfl
  cases event with
  | act i action =>
    simp only [Network.move, Option.map_map]
    rfl
  | deliver i fd =>
    have received := receive_represent (net.nodes i) fd (net.channel (i, fd)) (faithful (i, fd))
    have channel : net.represent.channel (i, fd) =
        (net.channel (i, fd)).flatMap Message.text := rfl
    simp only [Network.move, nodes, channel, received]
    by_cases active : fd ∈ activeFds (net.nodes i)
    · rw [if_pos active, if_pos active, Option.map_map, Option.map_map]
      refine congrArg (fun f => Option.map f _) (funext fun result => ?_)
      simp only [Function.comp_apply, Move.represent, represent_drain]
      rfl
    · rw [if_neg active, if_neg active]
      rfl
  | connect i fd j fd' =>
    simp only [Network.move, nodes, remote]
    by_cases free : net.remote (i, fd) = none ∧ net.remote (j, fd') = none ∧ (i, fd) ≠ (j, fd')
    · rw [if_pos free, if_pos free]
      rfl
    · rw [if_neg free, if_neg free]
      rfl
  | accept j fd' =>
    simp only [Network.move, nodes, remote]
    by_cases fresh : net.remote (j, fd') ≠ none ∧ fd' ∉ (net.nodes j).peers.map (·.fd)
    · rw [if_pos fresh, if_pos fresh]
      rfl
    · rw [if_neg fresh, if_neg fresh]
      rfl
  | closed i fd =>
    simp only [Network.move, nodes]
    by_cases active : fd ∈ activeFds (net.nodes i)
    · rw [if_pos active, if_pos active]
      rfl
    · rw [if_neg active, if_neg active]
      rfl

/-- So they do while everything is plain and short. -/
theorem move_represent (net : Network ι ssl Message) (event : NetEvent ι)
    (deliverable : Deliverable net) :
    net.represent.move bytes event = (net.move messages event).map Move.represent :=
  move_faithful net event deliverable.faithful

/-- Each step of the network of bytes is the step of the network of messages. -/
theorem step_faithful (net : Network ι ssl Message) (event : NetEvent ι)
    (faithful : ∀ socket, ∀ message ∈ net.channel socket, Faithful ssl message) :
    net.represent.step bytes event = (net.step messages event).map Network.represent := by
  rw [Network.step, Network.step, move_faithful net event faithful, Option.map_map, Option.map_map]
  exact congrArg (fun f => Option.map f _) (funext fun move => (move.represent_post).symm)

/-- And so each step of one is the step of the other. -/
theorem step_represent (net : Network ι ssl Message) (event : NetEvent ι)
    (deliverable : Deliverable net) :
    net.represent.step bytes event = (net.step messages event).map Network.represent :=
  step_faithful net event deliverable.faithful

end MiniCoin
