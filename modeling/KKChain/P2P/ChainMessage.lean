import KKChain.Sync.BlockRequest

/-! # Requests and their handlers

A request is handed to the connection with its type. The connection wraps the payloads it knows in a message and drops
the others without an error. The remote handler of the type reads one field of the message.
-/

namespace KKChain.P2P

open HeaderRequest BlockRequest

/-- `Message_Type`. -/
inductive MessageType where
  | chainStatus
  | getBlockBodies
  | blocksBodies
  | getBlockHeaders
  | blockHeaders
  | transactions
  | getReceipts
  | receipts
  | newBlockHashs
  | newBlock
  | getBlocks
  | blocks
  | fetchBlocks
  | blocksFetched
deriving DecidableEq

structure ChainStatusMsg where
  chainID : UInt64
  td : Bytes
  currentBlockHash : Bytes
  currentBlockNum : UInt64
  genesisBlockHash : Bytes

/-- What a message may carry. -/
inductive Payload where
  | chainStatus (m : ChainStatusMsg)
  | getBlockHeaders (m : GetBlockHeadersMsg)
  | data (b : Bytes)
  | getBlocks (m : GetBlocksMsg)
  | fetchBlocks (hashes : List Bytes)

/-- `Message` of the chain protocol. -/
structure ChainMessage where
  type : MessageType
  chainStatusMsg : Option ChainStatusMsg := none
  getBlockHeadersMsg : Option GetBlockHeadersMsg := none
  dataMsg : Option Bytes := none
  getBlocksMsg : Option GetBlocksMsg := none
  fetchBlocksMsg : Option (List Bytes) := none

/-- `NewMessage`; absent for a payload it does not know. -/
def newMessage (type : MessageType) : Payload → Option ChainMessage
  | .chainStatus m => some { type, chainStatusMsg := some m }
  | .data b => some { type, dataMsg := some b }
  | .getBlockHeaders m => some { type, getBlockHeadersMsg := some m }
  | .getBlocks m => some { type, getBlocksMsg := some m }
  | .fetchBlocks _ => none

/-- `SendChainMsg`: what is written, and the error, for a `WriteMessage`. -/
def sendChainMsg {ε : Type} (writeMessage : Option ChainMessage → Option ε) (type : MessageType) :
    Payload → List (Option ChainMessage) × Option ε
  | .data b => ([newMessage type (.data b)], writeMessage (newMessage type (.data b)))
  | .getBlockHeaders m => ([newMessage type (.getBlockHeaders m)], writeMessage (newMessage type (.getBlockHeaders m)))
  | .getBlocks m => ([newMessage type (.getBlocks m)], writeMessage (newMessage type (.getBlocks m)))
  | _ => ([], none)

/-- What the handler that `handlerForMsgType` selects reads of a message. Transactions are not read before they are
accepted. -/
def ChainMessage.read (acceptTxs : Bool) (m : ChainMessage) : Option Payload :=
  match m.type with
  | .chainStatus => m.chainStatusMsg.map .chainStatus
  | .getBlockHeaders => m.getBlockHeadersMsg.map .getBlockHeaders
  | .getBlocks => m.getBlocksMsg.map .getBlocks
  | .fetchBlocks => m.fetchBlocksMsg.map .fetchBlocks
  | .transactions => if acceptTxs then m.dataMsg.map .data else none
  | .getBlockBodies | .blocksBodies | .blockHeaders | .getReceipts | .receipts | .newBlockHashs | .newBlock | .blocks
  | .blocksFetched => m.dataMsg.map .data

/-- The methods of a peer that send. Of what is sent as JSON, the bytes, unless it cannot be marshalled. -/
inductive Request where
  | sendTransactions (json : Option Bytes)
  | sendNewBlockHashes (json : Option Bytes)
  | sendNewBlock (json : Option Bytes)
  | requestHeader (origin : List Hash)
  | requestHeadersByHash (origin : Hash) (amount skip : UInt64) (reverse : Bool)
  | requestBlocksByHash (hashes : List Hash)
  | requestHeadersByNumber (origin amount skip : UInt64) (reverse : Bool)
  | requestBlocksByNumber (origin amount : UInt64)

/-- The type and the payload that a method hands to the connection, unless it returns an error before. -/
def Request.payload : Request → Option (MessageType × Payload)
  | sendTransactions json => json.map fun b => (.transactions, .data b)
  | sendNewBlockHashes json => json.map fun b => (.newBlockHashs, .data b)
  | sendNewBlock json => json.map fun b => (.newBlock, .data b)
  | requestHeader origin => origin.head?.map fun hash =>
    (.getBlockHeaders, .getBlockHeaders ⟨hash.bytes, 0, 1, 0, false⟩)
  | requestHeadersByHash origin amount skip reverse =>
    some (.getBlockHeaders, .getBlockHeaders ⟨origin.bytes, 0, amount, skip, reverse⟩)
  | requestBlocksByHash hashes => some (.fetchBlocks, .fetchBlocks (hashes.map Hash.bytes))
  | requestHeadersByNumber origin amount skip reverse =>
    some (.getBlockHeaders, .getBlockHeaders ⟨[], origin, amount, skip, reverse⟩)
  | requestBlocksByNumber origin amount => some (.getBlocks, .getBlocks ⟨origin, amount⟩)

/-- One message is written, and its handler reads the payload. -/
def Delivered (acceptTxs : Bool) (payload : Payload) (written : List (Option ChainMessage)) : Prop :=
  ∃ m, written = [some m] ∧ m.read acceptTxs = some payload

/-- The request is not one for blocks by hash, and transactions are accepted. -/
def Request.Served (acceptTxs : Bool) : Request → Prop
  | requestBlocksByHash _ => False
  | sendTransactions _ => acceptTxs = true
  | _ => True

/-- A request that returns without an error is delivered, but for the blocks that are asked for by hash, which are never
sent, and for transactions that are not accepted yet. -/
theorem request_delivered_iff {ε : Type} {writeMessage : Option ChainMessage → Option ε} {request : Request}
    {type : MessageType} {payload : Payload} (acceptTxs : Bool) (given : request.payload = some (type, payload))
    (returned : (sendChainMsg writeMessage type payload).2 = none) :
    Delivered acceptTxs payload (sendChainMsg writeMessage type payload).1 ↔ request.Served acceptTxs := by
  cases request with
  | sendTransactions json | sendNewBlockHashes json | sendNewBlock json =>
    obtain ⟨b, -, same⟩ := Option.map_eq_some_iff.mp given
    cases same
    simp [Delivered, sendChainMsg, newMessage, ChainMessage.read, Request.Served]
  | requestHeader origin =>
    obtain ⟨hash, -, same⟩ := Option.map_eq_some_iff.mp given
    cases same
    simp [Delivered, sendChainMsg, newMessage, ChainMessage.read, Request.Served]
  | _ =>
    cases given
    simp [Delivered, sendChainMsg, newMessage, ChainMessage.read, Request.Served]

/-- The blocks from the first one on. -/
theorem request_delivered_number : ∃ type payload, (Request.requestBlocksByNumber 1 5).payload = some (type, payload) ∧
    Delivered false payload (sendChainMsg (ε := Empty) (fun _ => none) type payload).1 :=
  ⟨_, _, rfl, (request_delivered_iff (ε := Empty) false (rfl : (Request.requestBlocksByNumber 1 5).payload = some _)
    rfl).mpr trivial⟩

/-- A block that is asked for by its hash: nothing is written, and no error returned. -/
theorem request_dropped : ∃ type payload, (Request.requestBlocksByHash [1]).payload = some (type, payload) ∧
    sendChainMsg (ε := Empty) (fun _ => none) type payload = ([], none) :=
  ⟨_, _, rfl, rfl⟩

end KKChain.P2P
