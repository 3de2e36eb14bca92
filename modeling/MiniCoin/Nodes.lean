import MiniCoin.Protocol
import MiniCoin.Wallets

/-!
# One node

The state of a process and what changes it: the handlers of `net.c` and the user's
actions and callbacks of `main.c`. Each function returns the new state and the
messages it sends, addressed by file descriptor. A message stands for the text that
the source builds for it, `Message.text`.

`do_mine` releases its locks between reading the tip, selecting transactions, adding
the mined block and broadcasting it, so these are four actions; `Mining` is the local
state they hand on. The user interface runs one action at a time. `on_new_block` is
never assigned in the source, so accepting a block has no further effect.
-/

namespace MiniCoin

open ByteStrings

/-- `MEMPOOL_SIZE`, `MAX_PEERS` and `MAX_MSG_SIZE`, the sizes of the arrays and
of the line buffer. -/
def mempoolSize : Nat := 100
def maxPeers : Nat := 16
def maxMsgSize : Nat := 1024 * 1024

/-- The parts of `peer_t` that decide where messages go. Host and port are for
the prints only. -/
structure Peer where
  fd : Nat
  active : Bool
  deriving DecidableEq

/-- Where `do_mine` stands, with the block it has built so far. It gives back
`chain->lock` between these stages, so anything may happen there. -/
inductive Mining where
  | idle
  | tipRead (block : Block)
  | selected (block : Block)
  | added (block : Block)
  deriving DecidableEq

structure Node (ssl : OpenSSL) where
  chain : Blockchain
  mempool : List Tx
  wallet : Wallet ssl
  peers : List Peer
  mining : Mining

/-- What a node sends. A message that is received is one of these too, if its
line can be parsed. -/
inductive Message where
  | newBlock (block : Block)
  | newTx (tx : Tx)
  | requestChain
  | chainResponse (chain : Blockchain)
  | ping
  | pong
  deriving DecidableEq

/-- The text given to `send_message`, its newline included. Only some messages
have a payload of their own. -/
def Message.text : Message → List UInt8
  | newBlock block => protocolSerializeMsg .newBlock (some (protocolSerializeBlock block))
  | newTx tx => protocolSerializeMsg .newTx (some (protocolSerializeTx tx))
  | requestChain => protocolSerializeMsg .requestChain none
  | chainResponse chain => protocolSerializeMsg .chainResponse (some (protocolSerializeChain chain))
  | ping => protocolSerializeMsg .ping none
  | pong => protocolSerializeMsg .pong none

structure Packet where
  fd : Nat
  message : Message
  deriving DecidableEq

variable {ssl : OpenSSL}

/-! ## Receiving -/

/-- The loop of `read_message`: `none` while the line is incomplete. At the
newline, or with a full buffer, the line is handed over. -/
def readLoop : Nat → List UInt8 → Option (List UInt8 × List UInt8)
  | 0, stream => some ([], stream)
  | _ + 1, [] => none
  | room + 1, c :: stream =>
    if c = 10 then some ([], stream)
    else (readLoop room stream).map fun (line, rest) => (c :: line, rest)

/-- `read_message`: one line without its newline, or a full buffer, and what is
left. -/
def readMessage (stream : List UInt8) : Option (List UInt8 × List UInt8) :=
  readLoop (maxMsgSize - 1) stream

/-- `on_new_tx`: a full mempool drops the transaction, and nothing is
verified. -/
def onNewTx (node : Node ssl) (tx : Tx) : Node ssl :=
  if node.mempool.length < mempoolSize then { node with mempool := node.mempool ++ [tx] } else node

/-- The descriptors of the active peers, in table order, as the broadcasts visit
them. -/
def activeFds (node : Node ssl) : List Nat := (node.peers.filter (·.active)).map (·.fd)

/-- `broadcast_block_except`: to every active peer but the one with the
descriptor that is left out. -/
def broadcastBlockExcept (node : Node ssl) (block : Block) (excludeFd : Option Nat) : List Packet :=
  ((activeFds node).filter fun fd => some fd ≠ excludeFd).map fun fd => ⟨fd, .newBlock block⟩

/-- `node_broadcast_tx`: to every active peer. -/
def nodeBroadcastTx (node : Node ssl) (tx : Tx) : List Packet :=
  (activeFds node).map fun fd => ⟨fd, .newTx tx⟩

/-- `handle_message` on the bytes of one line. A block is forwarded if it was
accepted; a transaction is stored and goes no further; an answer to a request
goes back to its sender. -/
def handleMessage (node : Node ssl) (peerFd : Nat) (raw : List UInt8) : Node ssl × List Packet :=
  let (type, payload) := protocolParseMsg (cstr raw)
  if type = MsgType.newBlock.code then
    match payload.bind protocolDeserializeBlock with
    | none => (node, [])
    | some block =>
      match chainAddBlock ssl.sha256 node.chain block with
      | none => (node, [])
      | some chain =>
        let node := { node with chain := chain }
        (node, broadcastBlockExcept node block (some peerFd))
  else if type = MsgType.newTx.code then
    match payload.map protocolDeserializeTx with
    | some (0, tx) => (onNewTx node tx, [])
    | _ => (node, [])
  else if type = MsgType.requestChain.code then
    (node, [⟨peerFd, .chainResponse node.chain⟩])
  else if type = MsgType.chainResponse.code then
    match payload.bind protocolDeserializeChain with
    | none => (node, [])
    | some other =>
      match chainReplace ssl.sha256 node.chain other with
      | none => (node, [])
      | some chain => ({ node with chain := chain }, [])
  else if type = MsgType.ping.code then
    (node, [⟨peerFd, .pong⟩])
  else (node, [])

/-! ## Connections -/

/-- `node_request_chain`: only an active peer is asked. -/
def nodeRequestChain (node : Node ssl) (peerIdx : Nat) : List Packet :=
  match node.peers[peerIdx]? with
  | some peer => if peer.active then [⟨peer.fd, .requestChain⟩] else []
  | none => []

/-- `on_peer_connected`: the whole mempool is sent to the new peer. -/
def onPeerConnected (node : Node ssl) (peerFd : Nat) : List Packet :=
  node.mempool.map fun tx => ⟨peerFd, .newTx tx⟩

/-- `add_peer`. A full table refuses the connection, which is then closed.
Otherwise the new peer is asked for its chain and gets the mempool. -/
def addPeer (node : Node ssl) (fd : Nat) : Node ssl × List Packet :=
  if maxPeers ≤ node.peers.length then (node, [])
  else
    let idx := node.peers.length
    let node := { node with peers := node.peers ++ [⟨fd, true⟩] }
    (node, nodeRequestChain node idx ++ onPeerConnected node fd)

/-- `node_connect_peer` once the socket is connected: the result of `add_peer`
is ignored, and the last peer of the table is asked for its chain again. -/
def nodeConnectPeer (node : Node ssl) (fd : Nat) : Node ssl × List Packet :=
  let (node, packets) := addPeer node fd
  if node.peers.length = 0 then (node, packets)
  else (node, packets ++ nodeRequestChain node (node.peers.length - 1))

/-- The end of `peer_handler` when its stream ends. The slot is marked and stays
in the table. -/
def peerClosed (node : Node ssl) (fd : Nat) : Node ssl :=
  { node with peers := node.peers.map fun peer =>
      if peer.fd = fd then { peer with active := false } else peer }

/-! ## Sending a transaction -/

/-- What `scanf("%64s")` stores: one to 64 bytes without blanks. A shorter
address is taken as it is. -/
structure Token where
  bytes : List UInt8
  nonempty : bytes ≠ []
  bound : bytes.length ≤ 64
  solid : ∀ c ∈ bytes, isSpace c = false

/-- The transaction that `do_send` makes, if it passes the checks and can be
signed. -/
def doSendTx (node : Node ssl) (receiver : Token) (amount fee : UInt64) : Option Tx :=
  if fee < minTxFee then none
  else
    let balance := chainGetBalance node.chain node.wallet.address
    let totalCost := amount + fee
    if balance < totalCost.toInt64 then none
    else
      walletSignTx node.wallet
        (txCreate ssl.sha256 node.wallet.address (CText.ofBytes receiver.bytes) amount fee)

/-- `do_send`. A full mempool drops the transaction, which is broadcast all the
same. -/
def doSend (node : Node ssl) (receiver : Token) (amount fee : UInt64) : Node ssl × List Packet :=
  match doSendTx node receiver amount fee with
  | none => (node, [])
  | some tx =>
    let node := onNewTx node tx
    (node, nodeBroadcastTx node tx)

/-! ## Mining -/

/-- The first part of `do_mine`: the header fields taken from the tip. The lock
is given back after that. -/
def mineTip (node : Node ssl) (time : Int64) : Option (Node ssl) :=
  match chainLastBlock node.chain with
  | none => none
  | some last =>
    some { node with mining := .tipRead { Block.zero with
      index := last.index + 1
      timestamp := time
      prevHash := last.hash } }

/-- The balance test of `do_mine` for one mempool entry. Each entry is tested by
itself, and the sum of amount and fee wraps in 64 bits. -/
def affordable (chain : Blockchain) (tx : Tx) : Bool :=
  (tx.amount + tx.fee).toInt64 ≤ chainGetBalance chain tx.sender

/-- The selection loop of `do_mine`: affordable entries in mempool order, while
slots are left. -/
def selectLoop (chain : Blockchain) : Nat → List Tx → List Tx
  | 0, _ => []
  | _ + 1, [] => []
  | slots + 1, tx :: rest =>
    if affordable chain tx then tx :: selectLoop chain slots rest
    else selectLoop chain (slots + 1) rest

/-- The transactions that `do_mine` takes from the mempool: at most nine, as one
slot is for the reward. -/
def selectTxs (chain : Blockchain) (mempool : List Tx) : List Tx :=
  selectLoop chain (maxTxPerBlock - 1) mempool

/-- The coinbase transaction of `do_mine`: reward and fees. It is hashed again
after the fees were added. -/
def coinbaseTx (sha : Sha256) (minerAddr : CText addrLen) (txs : List Tx) : Tx :=
  let reward := txCreateCoinbase sha minerAddr
  let totalFees := txs.foldl (fun total tx => total + tx.fee) 0
  txComputeHash sha { reward with amount := reward.amount + totalFees }

/-- The second part of `do_mine`: transactions are selected, the mempool is
emptied and the coinbase transaction takes slot 0. -/
def fillBlock (sha : Sha256) (chain : Blockchain) (mempool : List Tx) (minerAddr : CText addrLen)
    (block : Block) : Block :=
  let txs := selectTxs chain mempool
  { block with
    txCount := Int32.ofNat (txs.length + 1)
    transactions := fillSlots (coinbaseTx sha minerAddr txs :: txs) }

def mineSelect (node : Node ssl) : Option (Node ssl) :=
  match node.mining with
  | .tipRead block =>
    some { node with
      mempool := []
      mining := .selected
        (fillBlock ssl.sha256 node.chain node.mempool node.wallet.address block) }
  | _ => none

/-- The third part of `do_mine`: the nonce is searched and the block is added,
unless the chain has changed. There is no step when the search does not end. -/
def mineAdd (node : Node ssl) : Option (Node ssl) :=
  match node.mining with
  | .selected block =>
    match blockMine ssl.sha256 block with
    | none => none
    | some (_, mined) =>
      match chainAddBlock ssl.sha256 node.chain mined with
      | none => some { node with mining := .idle }
      | some chain => some { node with chain := chain, mining := .added mined }
  | _ => none

/-- The last part of `do_mine`: `node_broadcast_block`, to every active peer. -/
def mineBroadcast (node : Node ssl) : Option (Node ssl × List Packet) :=
  match node.mining with
  | .added block => some ({ node with mining := .idle }, broadcastBlockExcept node block none)
  | _ => none

/-! ## Steps -/

/-- What the user does: a payment, or one of the four parts of `do_mine` between
which the lock is given back. -/
inductive Action where
  | send (receiver : Token) (amount fee : UInt64)
  | mineTip (time : Int64)
  | mineSelect
  | mineAdd
  | mineBroadcast

/-- The effect of an action, where the interface allows it: one thread runs the
menu, so a payment cannot be made in the middle of `do_mine`. -/
def act (node : Node ssl) : Action → Option (Node ssl × List Packet)
  | .send receiver amount fee =>
    if node.mining = .idle then some (doSend node receiver amount fee) else none
  | .mineTip time => if node.mining = .idle then (mineTip node time).map (·, []) else none
  | .mineSelect => (mineSelect node).map (·, [])
  | .mineAdd => (mineAdd node).map (·, [])
  | .mineBroadcast => mineBroadcast node

/-- Everything that can happen to a node: the user acts, a line arrives, or a
connection comes or goes. -/
inductive Event where
  | action (action : Action)
  | receive (fd : Nat) (line : List UInt8)
  | accept (fd : Nat)
  | connect (fd : Nat)
  | closed (fd : Nat)

/-- The effect of an event on the node and what it sends. A run of a node is a
list of events. -/
def nodeStep (node : Node ssl) : Event → Option (Node ssl × List Packet)
  | .action action => act node action
  | .receive fd line => some (handleMessage node fd line)
  | .accept fd => some (addPeer node fd)
  | .connect fd => some (nodeConnectPeer node fd)
  | .closed fd => some (peerClosed node fd, [])

/-- A process after its start: the genesis chain, an empty mempool and no
peers. -/
structure Started (node : Node ssl) : Prop where
  chain : chainInit ssl.sha256 = some node.chain
  mempool : node.mempool = []
  peers : node.peers = []
  mining : node.mining = .idle

end MiniCoin
