import KKChain.Trie.Key

/-! # Stored nodes

The database keeps nodes collapsed: keys in compact form, children by their hash or, if they are small, in place. A node
and its children stand for one RLP item.
-/

namespace KKChain.Trie

open Rlp

/-- A node without its caches: `rawShortNode`, `rawFullNode`, `hashNode` and `valueNode`, with `nil` for the nil
interface. -/
inductive Stored where
  | nil
  | value (b : Bytes)
  | hash (h : Hash)
  | short (key : Bytes) (val : Stored)
  | full (children : Nibble → Stored)

namespace Stored

def isNil : Stored → Bool
  | nil => true
  | _ => false

@[simp] theorem isNil_iff {n : Stored} : n.isNil = true ↔ n = nil := by
  cases n <;> simp [isNil]

/-- The item a node stands for. In a full node, a missing child is an empty string. -/
def item : Stored → Item
  | nil => .list []
  | value b => .str b
  | hash h => .str h.bytes
  | short key val => .list [.str key, val.item]
  | full children => .list (List.ofFn fun i => if (children i).isNil then .str [] else (children i).item)

def gatherChildren : Stored → List Hash
  | short _ val => val.gatherChildren
  | full children => (List.finRange 16).flatMap fun i => (children i.castSucc).gatherChildren
  | hash h => [h]
  | value _ => []
  | nil => []

end Stored

/-- What the cache holds of a node: a raw blob or a collapsed node. -/
inductive Content where
  | blob (b : Bytes)
  | node (n : Stored)

namespace Content

/-- `rlp`. There is no encoding of the nil interface. -/
def rlp : Content → Option Bytes
  | blob b => some b
  | node n => if n.isNil then none else some n.item.encode

/-- The children inside of the node; a blob has none. -/
def children : Content → List Hash
  | blob _ => []
  | node n => n.gatherChildren

end Content

end KKChain.Trie
