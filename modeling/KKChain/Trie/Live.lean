import KKChain.Trie.Stored
import KKChain.Machine.Proc

/-! # Nodes in memory

A trie in memory has nodes in hex keys with their caches, and hashes for the parts that are not loaded. A stored node is
expanded to it, or decoded if only its bytes are there.
-/

namespace KKChain.Trie

open Rlp

structure NodeFlag where
  hash : Option Hash
  gen : UInt16
  dirty : Bool
deriving DecidableEq

/-- `canUnload` of a node's flags. -/
def NodeFlag.canUnload (flags : NodeFlag) (cachegen cachelimit : UInt16) : Bool :=
  !flags.dirty && decide (cachelimit ≤ cachegen - flags.gen)

/-- `node`, with `nil` for the nil interface. -/
inductive LiveNode where
  | nil
  | value (b : Bytes)
  | hash (h : Hash)
  | short (key : Key) (val : LiveNode) (flags : NodeFlag)
  | full (children : Nibble → LiveNode) (flags : NodeFlag)

namespace LiveNode

def isNil : LiveNode → Bool
  | nil => true
  | _ => false

@[simp] theorem isNil_iff {n : LiveNode} : n.isNil = true ↔ n = nil := by
  cases n <;> simp [isNil]

end LiveNode

/-- The flags of a node that is loaded. -/
def NodeFlag.loaded (hash : Option Hash) (gen : UInt16) : NodeFlag := ⟨hash, gen, false⟩

/-- What `expandNode` does not panic on: no short node has a nil child or an empty key. -/
def Stored.expandable : Stored → Bool
  | nil => false
  | value _ => true
  | hash _ => true
  | short key val => !key.isEmpty && val.expandable
  | full children => (List.finRange 17).all fun i => (children i).isNil || (children i).expandable

/-- `expandNode`, where it does not panic. -/
def Stored.expand (gen : UInt16) : Option Hash → Stored → LiveNode
  | _, nil => .nil
  | _, value b => .value b
  | _, hash h => .hash h
  | own, short key val => .short (compactToHex key) (val.expand gen none) (.loaded own gen)
  | own, full children => .full (fun i => (children i).expand gen none) (.loaded own gen)

/-- The errors of `decodeNode`. -/
inductive DecodeError where
  | unexpectedEOF
  | raw (e : RawError)
  | count (c : ℕ)
  | oversized (size : ℕ)
  | refSize (size : ℕ)
deriving DecidableEq

abbrev Decoded := Except (Fault DecodeError)

def ofRaw {α : Type} : Except RawError α → Decoded α
  | .ok a => .ok a
  | .error e => .error (.error (.raw e))

/-- `decodeRef`, with the function for embedded nodes. -/
def decodeRef (decode : Bytes → Decoded LiveNode) (buf : Bytes) : Decoded (LiveNode × Bytes) := do
  let (kind, val, rest) ← ofRaw (split buf)
  if kind = .list then
    if 32 < buf.length - rest.length then .error (.error (.oversized (buf.length - rest.length)))
    else (decode buf).map fun n => (n, rest)
  else if kind = .string ∧ val.length = 0 then .ok (.nil, rest)
  else if kind = .string ∧ val.length = 32 then .ok (.hash (Hash.ofBytes val), rest)
  else .error (.error (.refSize val.length))

/-- `decodeShort`. `compactToHex` panics on an empty key. -/
def decodeShort (decode : Bytes → Decoded LiveNode) (hash : Option Hash) (gen : UInt16) (elems : Bytes) :
    Decoded LiveNode := do
  let (kbuf, rest) ← ofRaw (splitString elems)
  if kbuf = [] then .error .panic
  else
    let key := compactToHex kbuf
    if hasTerm key then do
      let (val, _) ← ofRaw (splitString rest)
      .ok (.short key (.value val) (.loaded hash gen))
    else do
      let (r, _) ← decodeRef decode rest
      .ok (.short key r (.loaded hash gen))

/-- The loop of `decodeFull`. -/
def decodeRefs (decode : Bytes → Decoded LiveNode) : ℕ → Bytes → Decoded (List LiveNode × Bytes)
  | 0, elems => .ok ([], elems)
  | k + 1, elems => do
    let (cld, rest) ← decodeRef decode elems
    let (clds, rest) ← decodeRefs decode k rest
    .ok (cld :: clds, rest)

def decodeFull (decode : Bytes → Decoded LiveNode) (hash : Option Hash) (gen : UInt16) (elems : Bytes) :
    Decoded LiveNode := do
  let (clds, rest) ← decodeRefs decode 16 elems
  let (val, _) ← ofRaw (splitString rest)
  .ok (.full (fun i => clds.getD i.val (if val.length = 0 then .nil else .value val)) (.loaded hash gen))

/-- `decodeNode`. An embedded node is shorter than the one around it. -/
def decodeWith (gen : UInt16) : ℕ → Option Hash → Bytes → Decoded LiveNode
  | 0, _, _ => .error .diverges
  | fuel + 1, hash, buf =>
    if buf = [] then .error (.error .unexpectedEOF)
    else do
      let (elems, _) ← ofRaw (splitList buf)
      match countValues elems with
      | 2 => decodeShort (decodeWith gen fuel none) hash gen elems
      | 17 => decodeFull (decodeWith gen fuel none) hash gen elems
      | c => .error (.error (.count c))

def decodeNode (hash : Option Hash) (buf : Bytes) (gen : UInt16) : Decoded LiveNode :=
  decodeWith gen (buf.length + 1) hash buf

end KKChain.Trie
