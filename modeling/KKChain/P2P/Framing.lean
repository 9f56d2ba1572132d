import KKChain.P2P.Connection
import KKChain.P2P.WireEncode

/-! # Frames

`WriteMessage` puts a frame on the stream, four bytes with the size and the envelope, and `ReadMessage` on the other
side reads it in as many calls of `Read` as the transport needs. The writer does not limit the size as the reader does,
and the reader forgets an error of the transport in the body, so that the missing bytes are zero. Zeros are an error
wherever a field should start, but not in the content of the last field of an envelope, which is the protocol if there
is one.
-/

namespace KKChain

open List BigEndian

variable {b written buffer : Bytes} {k n num cut : ℕ}

namespace P2P

open Wire Connection Message

section Write

/-- A field that is left out if it is empty. -/
def nonempty (num : ℕ) (b : Bytes) : List (ℕ × Bytes) := if b = [] then [] else [(num, b)]

def ID.fields (id : ID) : List (ℕ × Bytes) := nonempty 1 (id.publicKey.getD []) ++ nonempty 2 id.address

def Any.fields (any : Any) : List (ℕ × Bytes) := nonempty 1 any.typeUrl ++ nonempty 2 any.value

/-- A field with a number, which is left out at zero. -/
def varintField (num n : ℕ) : Bytes := if n = 0 then [] else UInt8.ofNat (num * 8) :: encodeVarint n

/-- `Marshal` of an envelope. -/
def Message.marshal (m : Message) : Bytes :=
  encodeFields (m.message.toList.map fun any => (1, encodeFields any.fields)) ++
    (encodeFields (m.sender.toList.map fun id => (2, encodeFields id.fields)) ++
      (encodeFields (nonempty 3 (m.signature.getD [])) ++
        (varintField 4 m.messageNonce ++
          (encodeFields (nonempty 5 m.protocol) ++ varintField 6 m.compressAlgorithm))))

/-- The errors of `WriteMessage`. -/
inductive WriteError where
  | emptyMessage
  | marshalAny
  | sign
  | socket

/-- What a connection uses to write: the ID of the host, the encoding of a message with its type, and the key of the
host. -/
structure Sender (μ : Type) where
  id : ID
  marshalAny : μ → Option Any
  sign : Bytes → Option Bytes

variable {μ : Type} (s : Sender μ)

def Sender.prepareMessage : Option μ → Except (Fault WriteError) Message
  | none => .error (.error .emptyMessage)
  | some message =>
    match s.marshalAny message with
    | none => .error (.error .marshalAny)
    | some raw =>
      match s.sign (serializeMessage s.id raw.value) with
      | none => .error (.error .sign)
      | some signature => .ok ⟨some raw, some s.id, some signature, 0, [], 0⟩

/-- The loop of `write`. Every call of `Write` takes some bytes, and may fail. -/
def writeLoop : List (ℕ × Bool) → Bytes → Except (Fault WriteError) Unit × Bytes
  | _, [] => (.ok (), [])
  | [], _ :: _ => (.error .diverges, [])
  | (n, failed) :: calls, b :: buffer =>
    if failed then (.error (.error .socket), (b :: buffer).take n)
    else
      let (result, written) := writeLoop calls ((b :: buffer).drop n)
      (result, (b :: buffer).take n ++ written)

/-- A size and the bytes. -/
def frame (bytes : Bytes) : Bytes := BigEndian.fixed 4 bytes.length ++ bytes

/-- `write`: the result, and what was put on the stream. -/
def write (calls : List (ℕ × Bool)) (message : Message) : Except (Fault WriteError) Unit × Bytes :=
  if Rlp.maxAlloc < (frame message.marshal).length then (.error .panic, []) else writeLoop calls (frame message.marshal)

def Sender.writeMessage (calls : List (ℕ × Bool)) (message : Option μ) (protocol : Bytes) :
    Except (Fault WriteError) Unit × Bytes :=
  match s.prepareMessage message with
  | .error fault => (.error fault, [])
  | .ok signed => write calls { signed with protocol }

theorem writeLoop_eq_ok {calls : List (ℕ × Bool)} (ran : writeLoop calls buffer = (.ok (), written)) :
    written = buffer := by
  induction calls generalizing buffer written with
  | nil =>
    cases buffer with
    | nil => exact (Prod.mk.inj ran).2.symm
    | cons b buffer => cases (Prod.mk.inj ran).1
  | cons call calls ih =>
    cases buffer with
    | nil => exact (Prod.mk.inj ran).2.symm
    | cons b buffer =>
      rw [writeLoop] at ran
      split_ifs at ran
      · cases (Prod.mk.inj ran).1
      · obtain ⟨done, rfl⟩ := Prod.mk.inj ran
        have rest := ih (Prod.ext done rfl)
        exact (congrArg (_ ++ ·) rest).trans (take_append_drop ..)

/-- One call of `Write` that takes everything. -/
theorem writeLoop_single (all : buffer.length ≤ n) : (writeLoop [(n, false)] buffer).1 = .ok () := by
  cases buffer with
  | nil => rfl
  | cons b buffer =>
    rw [writeLoop, if_neg Bool.false_ne_true, drop_eq_nil_of_le all]
    rfl

/-- A call of `WriteMessage`, and how the transport takes its bytes. -/
structure Write (μ : Type) where
  message : μ
  protocol : Bytes
  calls : List (ℕ × Bool)

/-- The envelope of a message that has an encoding and a signature. -/
structure Sender.Seals (w : Write μ) (raw : Any) (signature : Bytes) : Prop where
  marshalAny : s.marshalAny w.message = some raw
  sign : s.sign (serializeMessage s.id raw.value) = some signature

/-- The fields of an envelope with a message and a sender, but no numbers. -/
def bodyFields (raw : Any) (id : ID) (signature protocol : Bytes) : List (ℕ × Bytes) :=
  (1, encodeFields raw.fields) :: (2, encodeFields id.fields) :: (nonempty 3 signature ++ nonempty 5 protocol)

/-- The bytes of an envelope. -/
def body (raw : Any) (id : ID) (signature protocol : Bytes) : Bytes :=
  encodeFields (bodyFields raw id signature protocol)

theorem Message.marshal_eq_body (raw : Any) (id : ID) (signature protocol : Bytes) :
    Message.marshal ⟨some raw, some id, some signature, 0, protocol, 0⟩ = body raw id signature protocol := by
  simp [Message.marshal, body, bodyFields, varintField, encodeFields]

/-- If `WriteMessage` returns nil, then the whole frame is on the stream. -/
theorem Sender.writeMessage_eq_ok {s : Sender μ} {w : Write μ}
    (ran : s.writeMessage w.calls (some w.message) w.protocol = (.ok (), written)) :
    ∃ raw signature, s.Seals w raw signature ∧ (frame (body raw s.id signature w.protocol)).length ≤ Rlp.maxAlloc ∧
      written = frame (body raw s.id signature w.protocol) := by
  unfold writeMessage prepareMessage at ran
  cases any : s.marshalAny w.message with
  | none =>
    simp only [any] at ran
    cases (Prod.mk.inj ran).1
  | some raw =>
    cases sign : s.sign (serializeMessage s.id raw.value) with
    | none =>
      simp only [any, sign] at ran
      cases (Prod.mk.inj ran).1
    | some signature =>
      simp only [any, sign] at ran
      rw [write, marshal_eq_body] at ran
      split_ifs at ran with large
      · cases (Prod.mk.inj ran).1
      · exact ⟨raw, signature, ⟨any, sign⟩, not_lt.mp large, writeLoop_eq_ok ran⟩

end Write

section Read

/-- A loop of `Read` calls into a buffer of a size, over the chunks that the transport has for it. A chunk that does not
fit stays in part, an empty chunk is a call that returns nothing. Behind the last chunk is the end of the stream, which
an eager transport reports together with it. The result has the bytes, whether the last call failed, and the other
chunks. -/
def readLoop (eager : Bool) : ℕ → List Bytes → Bytes × Bool × List Bytes
  | 0, chunks => ([], false, chunks)
  | _ + 1, [] => ([], true, [])
  | size + 1, chunk :: chunks =>
    if size + 1 < chunk.length then (chunk.take (size + 1), false, chunk.drop (size + 1) :: chunks)
    else if eager ∧ chunks = [] then (chunk, true, [])
    else
      let (bytes, failed, chunks) := readLoop eager (size + 1 - chunk.length) chunks
      (chunk ++ bytes, failed, chunks)

/-- The reading side: the remote peer, and the chunks of the stream. -/
structure Reader where
  remotePeer : ID
  chunks : List Bytes

variable {μ : Type} (net : Network μ) {c : Connection}

/-- `ReadMessage` over the chunks of a stream. The error of the transport in the body is overwritten by the one of
`Unmarshal`. -/
def Reader.readMessage (eager : Bool) (r : Reader) : Except (Fault ReadError) (Envelope × μ) × Reader :=
  let (header, failed, chunks) := readLoop eager 4 r.chunks
  if failed then (.error (.error .eof), { r with chunks })
  else
    let size := BigEndian.toNat header
    if size = 0 then (.error (.error .emptyMessage), { r with chunks })
    else if 4000000 < size then (.error (.error (.tooLarge size)), { r with chunks })
    else
      let (bytes, _, chunks) := readLoop eager size chunks
      match accept net (bytes ++ List.replicate (size - bytes.length) 0) with
      | .error fault => (.error fault, { r with chunks })
      | .ok e =>
        let r : Reader := ⟨if r.remotePeer.publicKey = none then e.sender else r.remotePeer, chunks⟩
        match net.unmarshalAny e.content with
        | none => (.error (.error .unmarshalAny), r)
        | some message => (.ok (e, message), r)

/-- What a loop of `Read` calls does does not depend on the chunks, but for whether it sees the end. -/
theorem readLoop_eq (eager : Bool) (size : ℕ) (chunks : List Bytes) :
    (readLoop eager size chunks).1 = chunks.flatten.take size ∧
      (readLoop eager size chunks).2.2.flatten = chunks.flatten.drop size ∧
      (chunks.flatten.length < size → (readLoop eager size chunks).2.1 = true) ∧
      (size < chunks.flatten.length → (readLoop eager size chunks).2.1 = false) := by
  induction chunks generalizing size with
  | nil =>
    cases size with
    | zero => exact ⟨rfl, rfl, by simp, by simp⟩
    | succ size => exact ⟨rfl, rfl, by simp [readLoop], by simp⟩
  | cons chunk chunks ih =>
    cases size with
    | zero => exact ⟨rfl, rfl, by simp, by simp [readLoop]⟩
    | succ size =>
      rw [readLoop, flatten_cons]
      split_ifs with part last
      · refine ⟨(take_append_of_le_length part.le).symm, ?_, fun short => ?_, fun _ => rfl⟩
        · rw [flatten_cons, drop_append_of_le_length part.le]
        · rw [length_append] at short
          omega
      · obtain ⟨-, rfl⟩ := last
        have whole : chunk.length ≤ size + 1 := not_lt.mp part
        rw [flatten_nil, append_nil, take_of_length_le whole, drop_eq_nil_of_le whole]
        exact ⟨rfl, rfl, fun _ => rfl, fun more => absurd more part⟩
      · obtain ⟨bytes, rest, ends, goes⟩ := ih (size + 1 - chunk.length)
        have whole : chunk.length ≤ size + 1 := not_lt.mp part
        rw [take_append, drop_append, take_of_length_le whole, drop_eq_nil_of_le whole,
          length_append]
        refine ⟨congrArg (chunk ++ ·) bytes, rest, fun short => ends (by omega), fun more => goes (by omega)⟩

/-- An empty body is no envelope. -/
theorem accept_zeros {size : ℕ} (positive : 0 < size) : ∃ e, accept net (replicate size 0) = .error (.error e) := by
  obtain ⟨e, read⟩ : Fails (unmarshal (replicate size 0) Message.schema .empty) := fields_zeros positive drop_zero
  refine ⟨.wire e, ?_⟩
  rw [accept, read]
  rfl

/-- Both sides of a step return an error, or both return the same and the states still agree. -/
def Agree {ε α σ τ : Type} (R : σ → τ → Prop) (x : Except (Fault ε) α × σ) (y : Except (Fault ε) α × τ) : Prop :=
  (∃ e e', x.1 = .error (.error e) ∧ y.1 = .error (.error e')) ∨ x.1 = y.1 ∧ R x.2 y.2

/-- The stream of a reader is the input of the connection. -/
def Reader.Reads (r : Reader) (c : Connection) : Prop := r.remotePeer = c.remotePeer ∧ r.chunks.flatten = c.input

/-- A header without a body never leads to a message. -/
theorem Connection.readMessage_header {net : Network μ} (short : c.input.length ≤ 4) :
    ∃ e, (c.readMessage net).1 = .error (.error e) := by
  have nothing : c.input.drop 4 = [] := drop_eq_nil_of_le short
  cases read : readFrame c.input with
  | error e =>
    refine ⟨e, ?_⟩
    rw [Connection.readMessage, read]
  | ok found =>
    rw [readFrame, nothing] at read
    dsimp only at read
    split_ifs at read with less empty large
    cases read
    obtain ⟨e, refused⟩ := accept_zeros net (Nat.pos_of_ne_zero empty)
    refine ⟨e, ?_⟩
    simp only [Connection.readMessage, readFrame, nothing, if_neg less, if_neg empty, if_neg large, take_nil,
      length_nil, Nat.sub_zero, nil_append, refused]

/-- Over any chunks, `ReadMessage` returns the same messages. -/
theorem Reader.readMessage_agree (net : Network μ) {r : Reader} (same : r.Reads c) (eager : Bool) :
    Agree Reader.Reads (r.readMessage net eager) (c.readMessage net) := by
  obtain ⟨peer, input⟩ := same
  obtain ⟨header, behind, ends, goes⟩ := readLoop_eq eager 4 r.chunks
  rw [input] at header behind ends goes
  cases failed : (readLoop eager 4 r.chunks).2.1 with
  | true =>
    have short : c.input.length ≤ 4 := not_lt.mp fun more => by
      rw [goes more] at failed
      cases failed
    obtain ⟨e, refused⟩ := readMessage_header short
    refine .inl ⟨.eof, e, ?_, refused⟩
    simp only [readMessage, failed, if_true]
  | false =>
    have whole : ¬c.input.length < 4 := fun short => by
      rw [ends short] at failed
      cases failed
    unfold readMessage Connection.readMessage readFrame
    simp only [failed, if_neg whole, header, Bool.false_eq_true, if_false]
    generalize toNat (c.input.take 4) = size
    by_cases empty : size = 0
    · simp only [if_pos empty]
      exact .inl ⟨_, _, rfl, rfl⟩
    by_cases large : 4000000 < size
    · simp only [if_neg empty, if_pos large]
      exact .inl ⟨_, _, rfl, rfl⟩
    · obtain ⟨bytes, rest, -, -⟩ := readLoop_eq eager size (readLoop eager 4 r.chunks).2.2
      rw [behind] at bytes rest
      have missing : size - ((c.input.drop 4).take size).length = size - (c.input.drop 4).length := by
        rw [length_take]
        omega
      simp only [if_neg empty, if_neg large, bytes, missing, peer]
      generalize accept net _ = accepted
      cases accepted with
      | error fault => exact .inr ⟨rfl, rfl, rest⟩
      | ok e =>
        dsimp only
        cases net.unmarshalAny e.content with
        | none => exact .inl ⟨_, _, rfl, rfl⟩
        | some message => exact .inr ⟨rfl, rfl, rest⟩

end Read

section Envelope

variable {raw : Any} {id : ID} {signature protocol : Bytes}

/-- What is decoded for a field that is left out if it is empty. -/
def present (b : Bytes) : Option Bytes := if b = [] then none else some b

theorem nonempty_eq_cons (some_ : b ≠ []) : nonempty num b = [(num, b)] := if_neg some_

theorem mem_nonempty {f : ℕ × Bytes} (mem : f ∈ nonempty num b) : f.1 = num ∧ f.2 = b ∧ b ≠ [] := by
  unfold nonempty at mem
  split_ifs at mem with empty
  · cases mem
  · rw [mem_singleton.mp mem]
    exact ⟨rfl, rfl, empty⟩

theorem ID.setBytes_total (num : ℕ) (b : Bytes) (id : ID) : ∃ id', ID.schema.setBytes num b id = .ok id' := by
  unfold ID.schema
  dsimp only
  split <;> exact ⟨_, rfl⟩

theorem Any.setBytes_total (num : ℕ) (b : Bytes) (any : Any) : ∃ any', Any.schema.setBytes num b any = .ok any' := by
  unfold Any.schema
  dsimp only
  split <;> exact ⟨_, rfl⟩

/-- The two fields of an ID or an `Any`. -/
theorem fit_two {σ : Type} (schema : Schema σ) (first : schema.kind 1 = some .bytes)
    (second : schema.kind 2 = some .bytes) (a b : Bytes) :
    Fit schema (nonempty 1 a ++ nonempty 2 b) ∧ ∀ f ∈ nonempty 1 a ++ nonempty 2 b, f.2 ≠ [] := by
  refine ⟨fun f mem => ?_, fun f mem => ?_⟩
  all_goals rcases mem_append.mp mem with inside | inside
  all_goals obtain ⟨number, content, some_⟩ := mem_nonempty inside
  · rw [number]
    exact ⟨by decide, first⟩
  · rw [number]
    exact ⟨by decide, second⟩
  · exact content ▸ some_
  · exact content ▸ some_

theorem ID.unmarshal_fields (bound : (encodeFields id.fields).length < 2 ^ 63) :
    unmarshal (encodeFields id.fields) ID.schema .empty = .ok ⟨present (id.publicKey.getD []), id.address⟩ := by
  have fit : Fit ID.schema id.fields := (fit_two _ rfl rfl _ _).1
  rw [unmarshal_encodeFields fit bound]
  unfold ID.fields nonempty present
  by_cases key : id.publicKey.getD [] = [] <;> by_cases address : id.address = []
  all_goals simp only [key, address, if_true, if_false]
  all_goals rfl

theorem Any.unmarshal_fields (bound : (encodeFields raw.fields).length < 2 ^ 63) :
    unmarshal (encodeFields raw.fields) Any.schema .empty = .ok raw := by
  have fit : Fit Any.schema raw.fields := (fit_two _ rfl rfl _ _).1
  rw [unmarshal_encodeFields fit bound]
  obtain ⟨type, value⟩ := raw
  unfold Any.fields nonempty
  by_cases typed : type = [] <;> by_cases valued : value = []
  all_goals simp only [typed, valued, if_true, if_false]
  all_goals rfl

theorem bodyFields_fit : Fit Message.schema (bodyFields raw id signature protocol) := by
  intro f mem
  simp only [bodyFields, mem_cons, mem_append] at mem
  rcases mem with rfl | rfl | inside | inside
  · exact ⟨⟨Nat.le_refl 1, show 1 < 16 by decide⟩, rfl⟩
  · exact ⟨⟨show 1 ≤ 2 by decide, show 2 < 16 by decide⟩, rfl⟩
  all_goals
    rw [(mem_nonempty inside).1]
    exact ⟨by decide, rfl⟩

theorem Message.setBytes_message (b : Bytes) (m : Message) : Message.schema.setBytes 1 b m =
    (unmarshal b Any.schema (m.message.getD .empty)).map fun any => { m with message := some any } := by
  change (unmarshal b Any.schema (m.message.getD .empty)).bind _ = _
  cases unmarshal b Any.schema (m.message.getD .empty) <;> rfl

theorem Message.setBytes_sender (b : Bytes) (m : Message) : Message.schema.setBytes 2 b m =
    (unmarshal b ID.schema (m.sender.getD .empty)).map fun id => { m with sender := some id } := by
  change (unmarshal b ID.schema (m.sender.getD .empty)).bind _ = _
  cases unmarshal b ID.schema (m.sender.getD .empty) <;> rfl

theorem length_parts_lt (bound : (body raw id signature protocol).length < n) :
    (encodeFields raw.fields).length < n ∧ (encodeFields id.fields).length < n := by
  rw [body, bodyFields, encodeFields_cons, encodeFields_cons, length_append, length_append, length_encodeField,
    length_encodeField] at bound
  dsimp only at bound
  omega

/-- What an envelope is without its signature and its protocol. -/
def Message.bare (raw : Any) (id : ID) : Message :=
  ⟨some raw, some ⟨present (id.publicKey.getD []), id.address⟩, none, 0, [], 0⟩

/-- The first two fields. -/
theorem setFields_bare (bound : (body raw id signature protocol).length < 2 ^ 63) (rest : List (ℕ × Bytes)) :
    setFields Message.schema ((1, encodeFields raw.fields) :: (2, encodeFields id.fields) :: rest) .empty =
      setFields Message.schema rest (Message.bare raw id) := by
  obtain ⟨any, sender⟩ := length_parts_lt bound
  have first : Message.schema.setBytes 1 (encodeFields raw.fields) .empty = .ok ⟨some raw, none, none, 0, [], 0⟩ := by
    rw [setBytes_message]
    exact congrArg (Except.map _) (Any.unmarshal_fields any)
  have second : Message.schema.setBytes 2 (encodeFields id.fields) ⟨some raw, none, none, 0, [], 0⟩ =
      .ok (Message.bare raw id) := by
    rw [setBytes_sender]
    exact congrArg (Except.map _) (ID.unmarshal_fields sender)
  rw [setFields, foldlM_cons, first]
  change foldlM _ _ _ = _
  rw [foldlM_cons, second]
  rfl

/-- A whole body. -/
theorem unmarshal_body (bound : (body raw id signature protocol).length < 2 ^ 63) :
    unmarshal (body raw id signature protocol) Message.schema .empty =
      .ok { Message.bare raw id with signature := present signature, protocol } := by
  rw [body, unmarshal_encodeFields bodyFields_fit bound, bodyFields, setFields_bare bound]
  unfold nonempty present
  by_cases signed : signature = [] <;> by_cases labelled : protocol = []
  all_goals simp only [signed, labelled, if_true, if_false]
  all_goals rfl

/-- The envelope has all that the reader asks for. -/
structure Complete (id : ID) (signature : Bytes) : Prop where
  key : id.publicKey.getD [] ≠ []
  address : id.address ≠ []
  signature : signature ≠ []

variable {μ : Type} {net : Network μ}

theorem present_of_ne (some_ : b ≠ []) : present b = some b := if_neg some_

/-- Of a whole body with all its parts, the signature decides. -/
theorem accept_body (net : Network μ) (bound : (body raw id signature protocol).length < 2 ^ 63)
    (complete : Complete id signature) :
    accept net (body raw id signature protocol) =
      if net.verify (id.publicKey.getD []) (serializeMessage id raw.value) signature then
        .ok ⟨id.publicKey.getD [], id.address, raw, protocol⟩
      else .error (.error .verifySign) := by
  rw [accept, unmarshal_body bound, Message.bare, present_of_ne complete.key, present_of_ne complete.signature]
  dsimp only
  rw [if_neg complete.address]
  rfl

/-- A whole body is accepted only with all its parts. -/
theorem complete_of_accept {e : Envelope} (bound : (body raw id signature protocol).length < 2 ^ 63)
    (accepted : accept net (body raw id signature protocol) = .ok e) : Complete id signature := by
  rw [accept, unmarshal_body bound, Message.bare] at accepted
  by_cases key : id.publicKey.getD [] = []
  · rw [present, if_pos key] at accepted
    cases accepted
  by_cases signed : signature = []
  · rw [present_of_ne key, present, if_pos signed] at accepted
    cases accepted
  · rw [present_of_ne key, present_of_ne signed] at accepted
    dsimp only at accepted
    split_ifs at accepted with address
    exact ⟨key, address, signed⟩

theorem orderly_map {α β : Type} {r : Result α} (f : α → β) (orderly : Orderly r) : Orderly (r.map f) := by
  rcases orderly with ⟨m, rfl⟩ | ⟨e, rfl⟩
  · exact .inl ⟨f m, rfl⟩
  · exact .inr ⟨e, rfl⟩

theorem bodyFields_tame (bound : (body raw id signature protocol).length < 2 ^ 63) :
    Tame Message.schema (bodyFields raw id signature protocol) := by
  obtain ⟨any, sender⟩ := length_parts_lt bound
  intro f mem i m
  simp only [bodyFields, mem_cons, mem_append] at mem
  rcases mem with rfl | rfl | inside | inside
  · obtain ⟨fit, some_⟩ := fit_two Any.schema rfl rfl raw.typeUrl raw.value
    rw [setBytes_message, setBytes_message]
    exact ⟨orderly_map _ (unmarshal_zeroed_total Any.setBytes_total fit some_ any _),
      orderly_map _ (unmarshal_zeros ..)⟩
  · obtain ⟨fit, some_⟩ := fit_two ID.schema rfl rfl (id.publicKey.getD []) id.address
    rw [setBytes_sender, setBytes_sender]
    exact ⟨orderly_map _ (unmarshal_zeroed_total ID.setBytes_total fit some_ sender _),
      orderly_map _ (unmarshal_zeros ..)⟩
  all_goals
    rw [(mem_nonempty inside).1]
    exact ⟨.inl ⟨_, rfl⟩, .inl ⟨_, rfl⟩⟩

/-- The content of the last field of an envelope. -/
def lastContent (signature protocol : Bytes) : Bytes := if protocol = [] then signature else protocol

/-- The envelope without its last field, and with it. -/
theorem bodyFields_last (signed : signature ≠ []) : ∃ front num, bodyFields raw id signature protocol =
    front ++ [(num, lastContent signature protocol)] ∧ ∀ i, bodyFields raw id
      (if protocol = [] then zeroed i signature else signature) (zeroed i protocol) =
        front ++ [(num, zeroed i (lastContent signature protocol))] := by
  by_cases labelled : protocol = []
  · subst labelled
    refine ⟨[(1, encodeFields raw.fields), (2, encodeFields id.fields)], 3, ?_, fun i => ?_⟩
    · simp [bodyFields, lastContent, nonempty, signed]
    · simp [bodyFields, lastContent, nonempty, zeroed_ne_nil signed]
  · refine ⟨[(1, encodeFields raw.fields), (2, encodeFields id.fields), (3, signature)], 5, ?_, fun i => ?_⟩
    · simp [bodyFields, lastContent, nonempty, signed, labelled]
    · simp [bodyFields, lastContent, nonempty, signed, labelled, zeroed_ne_nil labelled]

theorem lastContent_ne_nil (signed : signature ≠ []) : lastContent signature protocol ≠ [] := by
  unfold lastContent
  split_ifs with labelled
  · exact signed
  · exact labelled

/-- A body that is cut before the content of its last field is an error. -/
theorem accept_cut (net : Network μ) (bound : (body raw id signature protocol).length < 2 ^ 63)
    (signed : signature ≠ [])
    (inner : k + (lastContent signature protocol).length < (body raw id signature protocol).length) :
    ∃ e, accept net (zeroed k (body raw id signature protocol)) = .error (.error e) := by
  have within : k < (encodeFields (bodyFields raw id signature protocol)).length :=
    Nat.lt_of_le_of_lt (Nat.le_add_right ..) inner
  obtain ⟨front, f, rest, split, j, cut, rfl⟩ := exists_cut within
  have last : rest ≠ [] ∨ j + f.2.length < (encodeField f).length ∧ f.2 ≠ [] := by
    refine or_iff_not_imp_left.mpr fun more => ?_
    obtain rfl := not_not.mp more
    obtain ⟨front', num, same, -⟩ := bodyFields_last signed
    obtain ⟨-, single⟩ := append_inj' (split.symm.trans same) rfl
    obtain rfl := (cons.inj single).1
    refine ⟨?_, lastContent_ne_nil signed⟩
    rw [body, split, encodeFields_append, length_append, encodeFields_singleton] at inner
    change j + (lastContent signature protocol).length < _
    omega
  have fit : Fit Message.schema (front ++ f :: rest) := split ▸ bodyFields_fit
  have tame : Tame Message.schema (front ++ f :: rest) := split ▸ bodyFields_tame bound
  rw [body, split] at bound ⊢
  obtain ⟨e, failed⟩ := unmarshal_zeroed fit tame bound cut last
  refine ⟨.wire e, ?_⟩
  rw [accept, failed]
  rfl

theorem length_lastContent_le (signed : signature ≠ []) :
    (lastContent signature protocol).length ≤ (body raw id signature protocol).length := by
  obtain ⟨front, num, same, -⟩ := bodyFields_last signed
  rw [body, same, encodeFields_append, length_append, encodeFields_singleton, length_encodeField]
  dsimp only
  omega

/-- A body that is cut in the content of its last field is an envelope that ends in zeros. -/
theorem zeroed_body {i : ℕ} (signed : signature ≠ []) (inside : i ≤ (lastContent signature protocol).length) :
    zeroed ((body raw id signature protocol).length - (lastContent signature protocol).length + i)
      (body raw id signature protocol) =
        body raw id (if protocol = [] then zeroed i signature else signature) (zeroed i protocol) := by
  obtain ⟨front, num, same, cut⟩ := bodyFields_last signed
  have length : (body raw id signature protocol).length - (lastContent signature protocol).length + i =
      (encodeFields front).length + (1 + (encodeVarint (lastContent signature protocol).length).length + i) := by
    rw [body, same, encodeFields_append, length_append, encodeFields_singleton, length_encodeField]
    dsimp only
    omega
  rw [length, body, body, cut, same]
  exact zeroed_last (f := (num, lastContent signature protocol)) i inside

theorem accept_parts {e : Envelope} (accepted : accept net b = .ok e) :
    ∃ m, unmarshal b Message.schema .empty = .ok m ∧ m.sender ≠ none ∧ m.signature ≠ none ∧
      e.protocol = m.protocol := by
  unfold accept at accepted
  split at accepted
  · cases accepted
  · rename_i content key address signature nonce protocol algorithm read
    split_ifs at accepted
    cases accepted
    exact ⟨_, read, by simp, by simp, rfl⟩
  · cases accepted

/-- A body that ends too early is accepted only without its protocol. -/
theorem accept_take {e : Envelope} (bound : (body raw id signature protocol).length < 2 ^ 63)
    (cut : k < (body raw id signature protocol).length)
    (accepted : accept net ((body raw id signature protocol).take k) = .ok e) : e.protocol ≠ protocol := by
  obtain ⟨m, read, sender, signed, label⟩ := accept_parts accepted
  obtain ⟨front, g, rest, split, set⟩ := unmarshal_take bodyFields_fit bound cut read
  rw [label]
  match front with
  | [] =>
    cases set
    exact absurd rfl sender
  | [f] =>
    obtain rfl := (cons.inj split).1
    obtain ⟨m', stored, ran⟩ := setFields_cons_eq_ok.mp set
    cases ran
    rw [setBytes_message] at stored
    cases decoded : unmarshal (encodeFields raw.fields) Any.schema (Message.empty.message.getD .empty) with
    | error fault =>
      rw [decoded] at stored
      cases stored
    | ok any =>
      rw [decoded] at stored
      cases stored
      exact absurd rfl sender
  | f :: f' :: front =>
    obtain ⟨first, others⟩ := cons.inj split
    obtain ⟨second, others⟩ := cons.inj others
    rw [← first, ← second, setFields_bare bound] at set
    cases front with
    | nil =>
      cases set
      exact absurd rfl signed
    | cons f'' front =>
      -- two more fields are the signature and the protocol
      obtain ⟨rfl, rfl, labelled⟩ : f'' = (3, signature) ∧ front = [] ∧ protocol ≠ [] := by
        unfold nonempty at others
        by_cases unsigned : signature = [] <;> by_cases unlabelled : protocol = []
        all_goals simp [unsigned, unlabelled] at others
        obtain ⟨third, last⟩ := others
        have length := congrArg length last
        simp only [length_cons, length_append, length_nil] at length
        exact ⟨third.symm, length_eq_zero_iff.mp (by omega), unlabelled⟩
      cases set
      exact labelled.symm

end Envelope

section Delivery

/-- Reads return these values in order, and then an error. -/
def Delivers {ε α σ : Type} (read : σ → Except (Fault ε) α × σ) : List α → σ → Prop
  | [], s => ∃ e, (read s).1 = .error (.error e)
  | a :: rest, s => (read s).1 = .ok a ∧ Delivers read rest (read s).2

theorem Agree.delivers {ε α σ τ : Type} {R : σ → τ → Prop} {read : σ → Except (Fault ε) α × σ}
    {read' : τ → Except (Fault ε) α × τ} (agree : ∀ {s t}, R s t → Agree R (read s) (read' t)) {sent : List α} {s : σ}
    {t : τ} (related : R s t) : Delivers read sent s ↔ Delivers read' sent t := by
  induction sent generalizing s t with
  | nil =>
    rcases agree related with ⟨e, e', first, second⟩ | ⟨same, -⟩
    · exact ⟨fun _ => ⟨e', second⟩, fun _ => ⟨e, first⟩⟩
    · rw [Delivers, Delivers, same]
  | cons a sent ih =>
    rcases agree related with ⟨e, e', first, second⟩ | ⟨same, next⟩
    · rw [Delivers, Delivers, first, second]
      exact ⟨fun h => (nomatch h.1), fun h => (nomatch h.1)⟩
    · rw [Delivers, Delivers, same, ih next]

variable {μ : Type} (net : Network μ)

/-- What `ReadMessage` returns of a message: its content and its protocol. -/
def returned (found : Envelope × μ) : μ × Bytes := (found.2, found.1.protocol)

def Reader.read (eager : Bool) (r : Reader) : Except (Fault ReadError) (μ × Bytes) × Reader :=
  ((r.readMessage net eager).1.map returned, (r.readMessage net eager).2)

def Connection.read (c : Connection) : Except (Fault ReadError) (μ × Bytes) × Connection :=
  ((c.readMessage net).1.map returned, (c.readMessage net).2)

/-- What is delivered does not depend on the chunks. -/
theorem Reader.delivers_iff {r : Reader} {c : Connection} (same : r.Reads c) (eager : Bool) (sent : List (μ × Bytes)) :
    Delivers (Reader.read net eager) sent r ↔ Delivers (Connection.read net) sent c := by
  refine Agree.delivers (R := Reader.Reads) (fun {r c} same => ?_) same
  rcases Reader.readMessage_agree net same eager with ⟨e, e', first, second⟩ | ⟨equal, next⟩
  · exact .inl ⟨e, e', congrArg (Except.map returned) first, congrArg (Except.map returned) second⟩
  · exact .inr ⟨congrArg (Except.map returned) equal, next⟩

section Frame

variable {bytes rest : Bytes}

theorem length_frame : (frame bytes).length = 4 + bytes.length := by
  rw [frame, length_append, length_fixed]

/-- The frame at the start of a stream, or as much of it as the stream has. -/
theorem readFrame_take (rest : Bytes) (small : bytes.length ≤ 4000000) (some_ : bytes ≠ []) (header : 4 ≤ k) :
    readFrame ((frame bytes).take k ++ rest) = .ok ((bytes.take (k - 4) ++ rest).take bytes.length ++
        replicate (bytes.length - (bytes.take (k - 4) ++ rest).length) 0,
          (bytes.take (k - 4) ++ rest).drop bytes.length) := by
  have positive := length_pos_iff.mpr some_
  have fixed := length_fixed 4 bytes.length
  have split : (frame bytes).take k ++ rest = BigEndian.fixed 4 bytes.length ++ (bytes.take (k - 4) ++ rest) := by
    rw [frame, take_append, take_of_length_le (by omega), fixed, append_assoc]
  have size : BigEndian.toNat (BigEndian.fixed 4 bytes.length) = bytes.length := by
    rw [toNat_fixed, Nat.mod_eq_of_lt (by omega)]
  rw [readFrame, split, if_neg (by rw [length_append]; omega)]
  dsimp only
  rw [take_left' fixed, drop_left' fixed, size, if_neg (by omega), if_neg (by omega)]

theorem readFrame_frame (small : bytes.length ≤ 4000000) (some_ : bytes ≠ []) :
    readFrame (frame bytes ++ rest) = .ok (bytes, rest) := by
  have read := readFrame_take rest small some_ (Nat.le_add_right 4 bytes.length)
  rw [← length_frame, take_length, length_frame, Nat.add_sub_cancel_left, take_length, take_left,
    drop_left, length_append, Nat.sub_eq_zero_of_le (Nat.le_add_right ..), replicate_zero,
    append_nil] at read
  exact read

theorem readFrame_cut (small : bytes.length ≤ 4000000) (header : 4 ≤ k) (cut : k < (frame bytes).length) :
    readFrame ((frame bytes).take k) = .ok (zeroed (k - 4) bytes, []) := by
  rw [length_frame] at cut
  have read := readFrame_take [] small (length_pos_iff.mp (by omega)) header
  rw [append_nil, append_nil, take_take, drop_eq_nil_of_le (by rw [length_take]; omega),
    Nat.min_eq_right (by omega), length_take_of_le (by omega)] at read
  exact read

/-- A frame is read as it is, unless the size does not fit into four bytes. -/
theorem readFrame_eq_ok {found rest' : Bytes} (read : readFrame (frame bytes ++ rest) = .ok (found, rest')) :
    (bytes.length ≤ 4000000 ∧ found = bytes ∧ rest' = rest) ∨ ∃ k < bytes.length, found = bytes.take k := by
  have fixed := length_fixed 4 bytes.length
  rw [readFrame, frame, append_assoc] at read
  dsimp only at read
  rw [take_left' fixed, drop_left' fixed, toNat_fixed] at read
  split_ifs at read with short empty large
  cases read
  by_cases fits : bytes.length < 256 ^ 4
  · rw [Nat.mod_eq_of_lt fits] at large ⊢
    rw [take_left, drop_left, length_append, Nat.sub_eq_zero_of_le (Nat.le_add_right ..),
      replicate_zero, append_nil]
    exact .inl ⟨not_lt.mp large, rfl, rfl⟩
  · have less : bytes.length % 256 ^ 4 < bytes.length := lt_of_lt_of_le (Nat.mod_lt _ (by decide)) (not_lt.mp fits)
    refine .inr ⟨_, less, ?_⟩
    rw [take_append_of_le_length less.le, length_append, Nat.sub_eq_zero_of_le (by omega), replicate_zero,
      append_nil]

end Frame

section Connection

variable {net} {c : Connection} {raw : Any} {id : ID} {signature protocol rest : Bytes} {message : μ}

theorem Connection.read_of_accept {e : Envelope} (read : readFrame c.input = .ok (b, rest))
    (accepted : accept net b = .ok e) (known : net.unmarshalAny e.content = some message) :
    (c.read net).1 = .ok (message, e.protocol) ∧ (c.read net).2.input = rest := by
  simp only [Connection.read, Connection.readMessage, read, accepted, known, and_true]
  rfl

theorem Connection.read_of_refuse {e : ReadError} (read : readFrame c.input = .ok (b, rest))
    (refused : accept net b = .error (.error e)) : (c.read net).1 = .error (.error e) := by
  simp only [Connection.read, Connection.readMessage, read, refused]
  rfl

theorem Connection.read_of_error {e : ReadError} (read : readFrame c.input = .error e) :
    (c.read net).1 = .error (.error e) := by
  simp only [Connection.read, Connection.readMessage, read]
  rfl

/-- What was read was in a frame, and accepted. -/
theorem Connection.read_eq_ok (read : (c.read net).1 = .ok (message, protocol)) :
    ∃ b e, readFrame c.input = .ok (b, (c.read net).2.input) ∧ accept net b = .ok e ∧ e.protocol = protocol := by
  cases found : readFrame c.input with
  | error e =>
    rw [read_of_error found] at read
    cases read
  | ok frame =>
    obtain ⟨b, rest⟩ := frame
    cases accepted : accept net b with
    | error fault =>
      simp only [Connection.read, Connection.readMessage, found, accepted] at read
      cases read
    | ok e =>
      cases known : net.unmarshalAny e.content with
      | none =>
        simp only [Connection.read, Connection.readMessage, found, accepted, known] at read
        cases read
      | some message' =>
        obtain ⟨result, input⟩ := read_of_accept found accepted known
        rw [result] at read
        exact ⟨b, e, by rw [input], accepted, congrArg Prod.snd (Except.ok.inj read)⟩

end Connection

end Delivery

section Streams

variable {μ : Type}

/-- The reading side checks the signatures and knows the types of the writing side. -/
structure Sender.Compatible (s : Sender μ) (net : Network μ) : Prop where
  verify : ∀ {data signature}, s.sign data = some signature → net.verify (s.id.publicKey.getD []) data signature = true
  unmarshalAny : ∀ {message raw}, s.marshalAny message = some raw → net.unmarshalAny raw = some message

/-- `WriteMessage` returned nil for all these messages. -/
def Sender.Wrote (s : Sender μ) (ws : List (Write μ)) : Prop :=
  ∀ w ∈ ws, (s.writeMessage w.calls (some w.message) w.protocol).1 = .ok ()

/-- The bytes on the stream. -/
def Sender.stream (s : Sender μ) (ws : List (Write μ)) : Bytes :=
  ws.flatMap fun w => (s.writeMessage w.calls (some w.message) w.protocol).2

def Write.sent (w : Write μ) : μ × Bytes := (w.message, w.protocol)

/-- The host has a key and an address, the signature is not empty, and the envelope is not longer than the reader takes.
-/
def Sender.Fits (s : Sender μ) (w : Write μ) : Prop :=
  ∀ raw signature, s.Seals w raw signature →
    Complete s.id signature ∧ (body raw s.id signature w.protocol).length ≤ 4000000

/-- The bytes of a frame in front of a cut have the tag and the length of the last field of the envelope, and this is
the protocol, or a signature that passes with zeros for what is missing. -/
def Sender.Survives (s : Sender μ) (net : Network μ) (w : Write μ) (cut : ℕ) : Prop :=
  ∃ raw signature, s.Seals w raw signature ∧
    (frame (body raw s.id signature w.protocol)).length ≤ cut + (lastContent signature w.protocol).length ∧
    (w.protocol ≠ [] ∨ net.verify (s.id.publicKey.getD []) (serializeMessage s.id raw.value)
      (zeroed (cut + signature.length - (frame (body raw s.id signature w.protocol)).length) signature) = true)

variable {s : Sender μ} {net : Network μ} {w : Write μ} {ws : List (Write μ)} {raw : Any} {signature rest : Bytes}
  {c : Connection}

theorem Sender.Seals.unique {raw' : Any} {signature' : Bytes} (first : s.Seals w raw signature)
    (second : s.Seals w raw' signature') : raw = raw' ∧ signature = signature' := by
  cases first.marshalAny.symm.trans second.marshalAny
  exact ⟨rfl, Option.some.inj (first.sign.symm.trans second.sign)⟩

theorem Sender.fits_iff (sealed : s.Seals w raw signature) :
    s.Fits w ↔ Complete s.id signature ∧ (body raw s.id signature w.protocol).length ≤ 4000000 := by
  refine ⟨fun fits => fits raw signature sealed, fun fits raw' signature' sealed' => ?_⟩
  obtain ⟨rfl, rfl⟩ := sealed.unique sealed'
  exact fits

theorem body_ne_nil {id : ID} {protocol : Bytes} : body raw id signature protocol ≠ [] := by
  rw [body, bodyFields, encodeFields_cons, encodeField]
  exact cons_ne_nil _ _

/-- A message that fits is read as it was written. -/
theorem Connection.read_frame (compatible : s.Compatible net) (sealed : s.Seals w raw signature)
    (complete : Complete s.id signature) (small : (body raw s.id signature w.protocol).length ≤ 4000000)
    (input : c.input = frame (body raw s.id signature w.protocol) ++ rest) :
    (c.read net).1 = .ok w.sent ∧ (c.read net).2.input = rest := by
  have accepted := accept_body net (small.trans_lt (by decide)) complete
  rw [if_pos (compatible.verify sealed.sign)] at accepted
  exact read_of_accept (input ▸ readFrame_frame small body_ne_nil) accepted
    (compatible.unmarshalAny sealed.marshalAny)

/-- A message that is read as it was written fits. -/
theorem Connection.fits_of_read (alloc : (frame (body raw s.id signature w.protocol)).length ≤ Rlp.maxAlloc)
    (input : c.input = frame (body raw s.id signature w.protocol) ++ rest) (read : (c.read net).1 = .ok w.sent) :
    Complete s.id signature ∧ (body raw s.id signature w.protocol).length ≤ 4000000 := by
  have bound : (body raw s.id signature w.protocol).length < 2 ^ 63 := by
    rw [length_frame, Rlp.maxAlloc] at alloc
    omega
  obtain ⟨b, e, found, accepted, label⟩ := read_eq_ok read
  rw [input] at found
  rcases readFrame_eq_ok found with ⟨small, rfl, -⟩ | ⟨k, cut, rfl⟩
  · exact ⟨complete_of_accept bound accepted, small⟩
  · exact absurd label (accept_take bound cut accepted)

/-- Of a message that fits and is cut, the reader makes an error or another message. -/
theorem Connection.read_cut (compatible : s.Compatible net) (sealed : s.Seals w raw signature)
    (complete : Complete s.id signature) (small : (body raw s.id signature w.protocol).length ≤ 4000000)
    (inside : cut < (frame (body raw s.id signature w.protocol)).length)
    (input : c.input = (frame (body raw s.id signature w.protocol)).take cut) :
    (∃ e, (c.read net).1 = .error (.error e)) ↔ ¬s.Survives net w cut := by
  have bound : (body raw s.id signature w.protocol).length < 2 ^ 63 := lt_of_le_of_lt small (by decide)
  have least : (lastContent signature w.protocol).length ≤ (body raw s.id signature w.protocol).length :=
    length_lastContent_le complete.signature
  have length : (frame (body raw s.id signature w.protocol)).length = 4 + (body raw s.id signature w.protocol).length :=
    length_frame
  by_cases inner : cut + (lastContent signature w.protocol).length < (frame (body raw s.id signature w.protocol)).length
  · -- the last field has no content in front of the cut
    have dead : ¬s.Survives net w cut := by
      rintro ⟨raw', signature', sealed', enough, -⟩
      obtain ⟨rfl, rfl⟩ := sealed.unique sealed'
      omega
    refine iff_of_true ?_ dead
    by_cases header : 4 ≤ cut
    · obtain ⟨e, refused⟩ := accept_cut net (k := cut - 4) bound complete.signature (by omega)
      exact ⟨e, read_of_refuse (input ▸ readFrame_cut small header inside) refused⟩
    · have short : readFrame c.input = .error .eof := if_pos (by rw [input, length_take]; omega)
      exact ⟨_, read_of_error short⟩
  · have header : 4 ≤ cut := by omega
    obtain ⟨i, offset⟩ : ∃ i, cut - 4 =
        (body raw s.id signature w.protocol).length - (lastContent signature w.protocol).length + i :=
      Nat.exists_eq_add_of_le (by omega)
    have read := readFrame_cut small header inside
    rw [← input, offset, zeroed_body complete.signature (by omega)] at read
    have total : (body raw s.id (if w.protocol = [] then zeroed i signature
      else signature) (zeroed i w.protocol)).length <
        2 ^ 63 := by
      rwa [← zeroed_body complete.signature (by omega), length_zeroed]
    by_cases labelled : w.protocol = []
    · rw [if_pos labelled] at read total
      have content : lastContent signature w.protocol = signature := if_pos labelled
      have missing : i = cut + signature.length - (frame (body raw s.id signature w.protocol)).length := by
        rw [content] at offset least inner
        omega
      have survives : s.Survives net w cut ↔
          net.verify (s.id.publicKey.getD []) (serializeMessage s.id raw.value) (zeroed i signature) = true := by
        rw [missing]
        refine ⟨?_, fun passes => ⟨raw, signature, sealed, not_lt.mp inner, .inr passes⟩⟩
        rintro ⟨raw', signature', sealed', -, label | passes⟩
        · exact absurd labelled label
        · obtain ⟨rfl, rfl⟩ := sealed.unique sealed'
          exact passes
      have accepted := accept_body net total ⟨complete.key, complete.address, zeroed_ne_nil complete.signature i⟩
      rw [survives]
      split_ifs at accepted with passes
      · have message := (read_of_accept read accepted (compatible.unmarshalAny sealed.marshalAny)).1
        refine iff_of_false ?_ (not_not.mpr passes)
        rintro ⟨e, refused⟩
        cases message.symm.trans refused
      · exact iff_of_true ⟨_, read_of_refuse read accepted⟩ passes
    · rw [if_neg labelled] at read total
      have accepted := accept_body net total complete
      rw [if_pos (compatible.verify sealed.sign)] at accepted
      have message := (read_of_accept read accepted (compatible.unmarshalAny sealed.marshalAny)).1
      refine iff_of_false ?_ (not_not.mpr ⟨raw, signature, sealed, not_lt.mp inner, .inl labelled⟩)
      rintro ⟨e, refused⟩
      cases message.symm.trans refused

theorem Sender.Wrote.head (wrote : s.Wrote (w :: ws)) : ∃ raw signature, s.Seals w raw signature ∧
    (frame (body raw s.id signature w.protocol)).length ≤ Rlp.maxAlloc ∧
    s.stream [w] = frame (body raw s.id signature w.protocol) := by
  obtain ⟨raw, signature, sealed, alloc, written⟩ :=
    Sender.writeMessage_eq_ok (Prod.ext (wrote w (.head _)) rfl)
  exact ⟨raw, signature, sealed, alloc, (flatMap_singleton ..).trans written⟩

theorem Sender.Wrote.tail (wrote : s.Wrote (w :: ws)) : s.Wrote ws := fun v mem => wrote v (.tail _ mem)

theorem Sender.stream_cons (w : Write μ) (ws : List (Write μ)) : s.stream (w :: ws) = s.stream [w] ++ s.stream ws := by
  rw [stream, stream, stream, flatMap_cons, flatMap_singleton]

/-- Exactly the messages that were written are read if all of them fit. -/
theorem Connection.delivers_iff_fits (compatible : s.Compatible net) (wrote : s.Wrote ws)
    (input : c.input = s.stream ws) :
    Delivers (Connection.read net) (ws.map Write.sent) c ↔ ∀ w ∈ ws, s.Fits w := by
  induction ws generalizing c with
  | nil =>
    have short : readFrame c.input = .error .eof := by rw [input]; rfl
    exact iff_of_true ⟨_, read_of_error short⟩ (by simp)
  | cons w ws ih =>
    obtain ⟨raw, signature, sealed, alloc, written⟩ := wrote.head
    rw [Sender.stream_cons, written] at input
    rw [map_cons, Delivers, forall_mem_cons, Sender.fits_iff sealed]
    refine ⟨fun ⟨read, rest⟩ => ?_, fun ⟨⟨complete, small⟩, rest⟩ => ?_⟩
    · obtain ⟨complete, small⟩ := fits_of_read alloc input read
      have next := (read_frame compatible sealed complete small input).2
      exact ⟨⟨complete, small⟩, (ih wrote.tail next).mp rest⟩
    · obtain ⟨read, next⟩ := read_frame compatible sealed complete small input
      exact ⟨read, (ih wrote.tail next).mpr rest⟩

/-- A stream in one chunk. -/
theorem Reader.delivers_single (compatible : s.Compatible net) (wrote : s.Wrote ws) :
    Delivers (Reader.read net false) (ws.map Write.sent) ⟨.empty, [s.stream ws]⟩ ↔ ∀ w ∈ ws, s.Fits w := by
  have same : Reader.Reads ⟨.empty, [s.stream ws]⟩ ⟨.empty, s.stream ws⟩ := ⟨rfl, flatten_singleton⟩
  rw [Reader.delivers_iff net same]
  exact delivers_iff_fits compatible wrote rfl

/-- If the stream is cut in a frame, the messages before are read, and then an error if the frame does not survive. -/
theorem Connection.delivers_iff_cut {front back : List (Write μ)} (compatible : s.Compatible net)
    (wrote : s.Wrote (front ++ w :: back)) (fits : ∀ v ∈ front ++ [w], s.Fits v) (inside : cut < (s.stream [w]).length)
    (input : c.input = (s.stream (front ++ w :: back)).take ((s.stream front).length + cut)) :
    Delivers (Connection.read net) (front.map Write.sent) c ↔ ¬s.Survives net w cut := by
  induction front generalizing c with
  | nil =>
    obtain ⟨raw, signature, sealed, -, written⟩ := wrote.head
    obtain ⟨complete, small⟩ := fits w (mem_singleton_self w) raw signature sealed
    have first : (s.stream []).length + cut = cut := Nat.zero_add cut
    rw [nil_append, first, Sender.stream_cons, take_append_of_le_length inside.le, written] at input
    rw [written] at inside
    exact read_cut compatible sealed complete small inside input
  | cons v front ih =>
    obtain ⟨raw, signature, sealed, -, written⟩ := wrote.head
    obtain ⟨complete, small⟩ := fits v mem_cons_self raw signature sealed
    rw [cons_append, Sender.stream_cons v front, Sender.stream_cons v (front ++ _), length_append, Nat.add_assoc,
      take_length_add_append, written] at input
    obtain ⟨read, next⟩ := read_frame compatible sealed complete small input
    rw [map_cons, Delivers, and_iff_right read]
    exact ih wrote.tail (fun u mem => fits u (.tail _ mem)) next

/-- Messages for which `WriteMessage` returned nil are read exactly if they fit, over any chunks. In a stream that is
cut in a frame, with messages that fit, what was before is read, and then an error exactly if the frame does not
survive. -/
theorem framing_iff_fits (compatible : s.Compatible net) (eager : Bool) (peer : ID) (chunks : List Bytes) :
    (∀ ws, s.Wrote ws → chunks.flatten = s.stream ws →
      (Delivers (Reader.read net eager) (ws.map Write.sent) ⟨peer, chunks⟩ ↔ ∀ w ∈ ws, s.Fits w)) ∧
    ∀ front w back cut, s.Wrote (front ++ w :: back) → (∀ v ∈ front ++ [w], s.Fits v) → cut < (s.stream [w]).length →
      chunks.flatten = (s.stream (front ++ w :: back)).take ((s.stream front).length + cut) →
      (Delivers (Reader.read net eager) (front.map Write.sent) ⟨peer, chunks⟩ ↔ ¬s.Survives net w cut) := by
  have same : Reader.Reads ⟨peer, chunks⟩ ⟨peer, chunks.flatten⟩ := ⟨rfl, rfl⟩
  refine ⟨fun ws wrote input => ?_, fun front w back cut wrote fits inside input => ?_⟩
  · rw [Reader.delivers_iff net same]
    exact delivers_iff_fits compatible wrote input
  · rw [Reader.delivers_iff net same]
    exact delivers_iff_cut compatible wrote fits inside input

/-- A host whose messages are bytes of type 1. -/
def plainSender : Sender Bytes where
  id := ⟨some [5], [1]⟩
  marshalAny m := some ⟨[1], m⟩
  sign _ := some [7]

def plainNetwork : Network Bytes where
  verify key _ signature := key = [5] && signature = [7]
  unmarshalAny any := some any.value
  handles _ := true
  hello _ := true

theorem plainSender_compatible : plainSender.Compatible plainNetwork := by
  refine ⟨fun signed => ?_, fun marshalled => ?_⟩
  · cases signed
    rfl
  · cases marshalled
    rfl

/-- Two messages, the second in two calls of `Write`. -/
def plainWrites : List (Write Bytes) := [⟨[3], [1, 2], [(100, false)]⟩, ⟨[4], [], [(5, false), (100, false)]⟩]

theorem plainWrites_fit : plainSender.Wrote plainWrites ∧ ∀ w ∈ plainWrites, plainSender.Fits w := by
  refine ⟨fun w mem => ?_, fun w mem raw signature sealed => ?_⟩
  all_goals simp only [plainWrites, mem_cons, not_mem_nil, or_false] at mem
  · rcases mem with rfl | rfl <;> rfl
  · cases sealed.marshalAny
    cases sealed.sign
    refine ⟨⟨by decide, by decide, by decide⟩, ?_⟩
    rcases mem with rfl | rfl <;> decide +kernel

theorem not_survives_plain : ¬plainSender.Survives plainNetwork ⟨[3], [1, 2], [(100, false)]⟩ 6 := by
  rintro ⟨raw, signature, sealed, enough, -⟩
  cases sealed.marshalAny
  cases sealed.sign
  revert enough
  decide +kernel

/-- Two messages that fit are read from two chunks. If the stream ends after six bytes, there is an error. -/
theorem framing_plain : plainSender.Wrote plainWrites ∧ (∀ w ∈ plainWrites, plainSender.Fits w) ∧
    Delivers (Reader.read plainNetwork true) [([3], [1, 2]), ([4], [])]
      ⟨.empty, [(plainSender.stream plainWrites).take 3, (plainSender.stream plainWrites).drop 3]⟩ ∧
    Delivers (Reader.read plainNetwork true) [] ⟨.empty, [(plainSender.stream plainWrites).take (0 + 6)]⟩ := by
  obtain ⟨wrote, fits⟩ := plainWrites_fit
  refine ⟨wrote, fits, ((framing_iff_fits plainSender_compatible true .empty _).1 plainWrites wrote ?_).mpr fits,
    ((framing_iff_fits plainSender_compatible true .empty _).2 [] _ [⟨[4], [], [(5, false), (100, false)]⟩] 6 wrote ?_
      (by decide +kernel) flatten_singleton).mpr not_survives_plain⟩
  · rw [flatten_cons, flatten_cons, flatten_nil, append_nil, take_append_drop]
  · intro w member
    exact mem_singleton.mp member ▸ fits _ (.head _)

/-- A message of four million bytes. -/
def largeWrite : Write Bytes := ⟨List.replicate 4000000 0, [], [(2 ^ 40, false)]⟩

theorem length_body_plain {m : Bytes} (size : m.length = n + 1) : (body ⟨[1], m⟩ plainSender.id [7] []).length =
    n + 17 + (encodeVarint (n + 1)).length + (encodeVarint (n + 5 + (encodeVarint (n + 1)).length)).length := by
  have some_ : m ≠ [] := fun empty => by rw [empty] at size; cases size
  have fields : Any.fields ⟨[1], m⟩ = [(1, [1]), (2, m)] := by rw [Any.fields, nonempty_eq_cons some_]; rfl
  have content : (encodeFields (Any.fields ⟨[1], m⟩)).length = n + 5 + (encodeVarint (n + 1)).length := by
    rw [fields, encodeFields_cons, encodeFields_singleton, length_append, length_encodeField, length_encodeField]
    dsimp only
    rw [size]
    have one : 1 + (encodeVarint [(1 : UInt8)].length).length + [(1 : UInt8)].length = 3 := rfl
    omega
  have others :
    (encodeFields ((2, encodeFields plainSender.id.fields) :: (nonempty 3 [7] ++ nonempty 5 []))).length = 11 := rfl
  rw [body, bodyFields, encodeFields_cons, length_append, others, length_encodeField]
  dsimp only
  rw [content]
  omega

theorem length_largeWrite : (body ⟨[1], largeWrite.message⟩ plainSender.id [7] []).length = 4000024 := by
  have size : largeWrite.message.length = 3999999 + 1 := length_replicate ..
  rw [length_body_plain size]
  decide +kernel

theorem wrote_largeWrite : plainSender.Wrote [largeWrite] := by
  intro w mem
  obtain rfl := mem_singleton.mp mem
  have length : (frame (body ⟨[1], largeWrite.message⟩ plainSender.id [7] [])).length = 4000028 := by
    rw [length_frame, length_largeWrite]
  change (write largeWrite.calls ⟨some ⟨[1], largeWrite.message⟩, some plainSender.id, some [7], 0, [], 0⟩).1 = _
  rw [write, marshal_eq_body, if_neg (by rw [length]; decide)]
  exact writeLoop_single (by rw [length]; decide)

/-- The frame of the large message is written, but the reader refuses it. A message with a protocol of two bytes is read
from a stream that ends in the middle of them, with a zero for the missing byte. -/
theorem not_delivers_plain : plainSender.Compatible plainNetwork ∧
    (plainSender.Wrote [largeWrite] ∧ ¬Delivers (Reader.read plainNetwork false) [largeWrite.sent]
      ⟨.empty, [plainSender.stream [largeWrite]]⟩) ∧
    plainSender.Wrote plainWrites ∧
      (Reader.read plainNetwork false ⟨.empty, [(plainSender.stream plainWrites).take
        ((plainSender.stream (plainWrites.take 1)).length - 1)]⟩).1 = .ok ([3], [1, 0]) := by
  refine ⟨plainSender_compatible, ⟨wrote_largeWrite, fun delivered => ?_⟩, plainWrites_fit.1, rfl⟩
  have fits := (Reader.delivers_single plainSender_compatible wrote_largeWrite).mp delivered
  have small := (fits largeWrite (mem_singleton_self _) _ _ ⟨rfl, rfl⟩).2
  change (body ⟨[1], largeWrite.message⟩ plainSender.id [7] []).length ≤ 4000000 at small
  rw [length_largeWrite] at small
  omega

end Streams

end P2P

end KKChain
