import KKChain.P2P.ClosestPeers

/-! # Discovery of peers

A node asks another one for the peers that are closest to a target, and enters those it is told of. An entry of the
answer names a peer by its key in hexadecimal and by one address; what does not parse gives no peer, and the handler
then follows a nil pointer.
-/

namespace KKChain

open UInt8

namespace P2P

namespace Dht

/-! ### Hexadecimal strings -/

def fromHexChar (c : UInt8) : Option UInt8 :=
  if 48 ≤ c ∧ c ≤ 57 then some (c - 48)
  else if 97 ≤ c ∧ c ≤ 102 then some (c - 97 + 10)
  else if 65 ≤ c ∧ c ≤ 70 then some (c - 65 + 10)
  else none

/-- `hex.DecodeString`: an error for a character that is no digit and for an odd length. -/
def decodeString : Bytes → Option Bytes
  | [] => some []
  | [_] => none
  | first :: second :: rest => do
    let a ← fromHexChar first
    let b ← fromHexChar second
    let bytes ← decodeString rest
    some ((a <<< 4 ||| b) :: bytes)

/-- The digits of `hex.EncodeToString`. -/
def hexDigit (n : UInt8) : UInt8 := if n < 10 then 48 + n else 87 + n

def encodeToString (bytes : Bytes) : Bytes :=
  List.flatMap (fun b : UInt8 => [hexDigit (b >>> 4), hexDigit (b &&& 15)]) bytes

theorem fromHexChar_hexDigit {n : UInt8} (digit : n < 16) : fromHexChar (hexDigit n) = some n := by
  have all : ∀ m < 16, fromHexChar (hexDigit (ofNat m)) = some (ofNat m) := by decide
  simpa using all n.toNat (lt_iff_toNat_lt.mp digit)

theorem decodeString_encodeToString (bytes : Bytes) : decodeString (encodeToString bytes) = some bytes := by
  induction bytes with
  | nil => rfl
  | cons b rest ih =>
    have digits : b >>> 4 < 16 ∧ b &&& 15 < 16 ∧ (b >>> 4) <<< 4 ||| (b &&& 15) = b := by
      have all : ∀ m < 256, ofNat m >>> 4 < 16 ∧ ofNat m &&& 15 < 16 ∧
          (ofNat m >>> 4) <<< 4 ||| (ofNat m &&& 15) = ofNat m := by decide +kernel
      simpa using all b.toNat b.toNat_lt
    rw [show encodeToString (b :: rest) = hexDigit (b >>> 4) :: hexDigit (b &&& 15) :: encodeToString rest from rfl,
      decodeString, fromHexChar_hexDigit digits.1, fromHexChar_hexDigit digits.2.1, ih]
    simp [digits.2.2]

/-! ### The messages and their handlers -/

/-- `Message_Peer`. -/
structure PBPeer where
  id : Bytes
  addrs : List Bytes
deriving DecidableEq

def peerIDToPBPeer (p : PeerID) : PBPeer := ⟨encodeToString p.key, [p.id.address]⟩

/-- `PBPeerToPeerID`: nil if the id is no hexadecimal string or there is not exactly one address. -/
def pbPeerToPeerID (sha : Sha256) (p : PBPeer) : Option PeerID :=
  match decodeString p.id, p.addrs with
  | some pubk, [addr] => some (.create sha addr pubk)
  | _, _ => none

/-- `DHT`, with the keys of the stop channels there are and the peers for which a goroutine was started that pings
them. -/
structure DHT (sha : Sha256) where
  self : PeerID
  table : RoutingTable
  stopCh : List Bytes
  pings : List PeerID
  created : ∃ address key, self = .create sha address key
  table_self : table.self = self

namespace DHT

variable {sha : Sha256}

theorem update_self {t t' : RoutingTable} {p : PeerID} (ran : t.update p = .ok t') : t'.self = t.self := by
  rw [RoutingTable.update] at ran
  split at ran
  · rw [← Except.ok.inj ran]
  · dsimp only at ran
    split at ran
    · cases ran
    · rw [← Except.ok.inj ran]
      rfl

/-- `AddPeer`. The time it notes in the peer is left out. -/
def addPeer (peer : PeerID) : Proc Empty (DHT sha) Unit := fun d =>
  match ran : d.table.update peer with
  | .error e => .error e d
  | .ok t =>
    let d := { d with table := t, table_self := (update_self ran).trans d.table_self }
    if !peer.equals d.self && !d.stopCh.contains (encodeToString peer.hash) then
      .ok () { d with pings := peer :: d.pings }
    else .ok () d

def handleFindPeerResult : List PBPeer → Proc Empty (DHT sha) Unit
  | [] => pure ()
  | p :: pbPeers => do
    let peer ← Proc.orFault .panic (pbPeerToPeerID sha p)
    addPeer peer
    handleFindPeerResult pbPeers

/-- `handleFindPeer`: the entries of the answer, or none if the key is no hexadecimal string. -/
def handleFindPeer (key : Bytes) : Proc Empty (DHT sha) (Option (List PBPeer)) := do
  match decodeString key with
  | none => pure none
  | some target =>
    let closest ← Proc.ofExcept ((← get).table.findClosestPeers ⟨.empty, target⟩ BucketSize)
    pure (some (closest.map peerIDToPBPeer))

section Handlers

variable {d : DHT sha} {e : PBPeer} {entries : List PBPeer}

theorem pbPeerToPeerID_isSome_iff :
    (pbPeerToPeerID sha e).isSome ↔ (decodeString e.id).isSome ∧ e.addrs.length = 1 := by
  rw [pbPeerToPeerID]
  split
  · rename_i pubk addr decoded addrs
    simp [decoded, addrs]
  · rename_i other
    cases decoded : decodeString e.id with
    | none => simp
    | some pubk =>
      simp only [Option.isSome_none, Bool.false_eq_true, Option.isSome_some, true_and, false_iff]
      intro single
      obtain ⟨addr, addrs⟩ := List.length_eq_one_iff.mp single
      exact other pubk addr decoded addrs

/-- `AddPeer` returns for every peer that `CreateID` made. -/
theorem addPeer_run (d : DHT sha) (address key : Bytes) :
    ∃ d', (addPeer (.create sha address key)).run d = .ok () d' := by
  obtain ⟨address', key', self⟩ := d.created
  have sized : d.table.Sized (.create sha address key) := by
    constructor <;> rw [d.table_self, self]
    · rw [PeerID.hash_create, PeerID.hash_create, sha.length_sum, sha.length_sum]
    · rw [PeerID.hash_create, sha.length_sum]
      decide
  obtain ⟨t, step⟩ := RoutingTable.exists_step (c := .update (.create sha address key)) sized
  have ran : d.table.update (.create sha address key) = .ok t := step
  rw [EStateM.run, addPeer]
  split
  · rename_i failed
    cases ran.symm.trans failed
  · dsimp only
    split
    · exact ⟨_, rfl⟩
    · exact ⟨_, rfl⟩

/-- Entries that parse are handed to `AddPeer` one after the other. -/
theorem handleFindPeerResult_eq (parse : ∀ e ∈ entries, (pbPeerToPeerID sha e).isSome) :
    (handleFindPeerResult entries : Proc Empty (DHT sha) Unit) =
      (entries.filterMap (pbPeerToPeerID sha)).forM addPeer := by
  induction entries with
  | nil => rfl
  | cons e entries ih =>
    obtain ⟨head, tail⟩ := List.forall_mem_cons.mp parse
    obtain ⟨peer, parsed⟩ := Option.isSome_iff_exists.mp head
    rw [handleFindPeerResult, List.filterMap_cons_some parsed, parsed, ih tail]
    rfl

/-- `AddPeer` of all entries that parse returns. -/
theorem forM_addPeer_run (d : DHT sha) (entries : List PBPeer) :
    ∃ d', ((entries.filterMap (pbPeerToPeerID sha)).forM addPeer).run d = .ok () d' := by
  induction entries generalizing d with
  | nil => exact ⟨d, rfl⟩
  | cons e entries ih =>
    cases parsed : pbPeerToPeerID sha e with
    | none =>
      rw [List.filterMap_cons_none parsed]
      exact ih d
    | some peer =>
      obtain ⟨address, key, rfl⟩ : ∃ address key, peer = .create sha address key := by
        rw [pbPeerToPeerID] at parsed
        split at parsed
        · exact ⟨_, _, (Option.some.inj parsed).symm⟩
        · cases parsed
      obtain ⟨d₁, first⟩ := addPeer_run d address key
      obtain ⟨d₂, rest⟩ := ih d₁
      rw [List.filterMap_cons_some parsed]
      exact ⟨d₂, Proc.bind_eq_ok.mpr ⟨(), d₁, first, rest⟩⟩

end Handlers

end DHT

open DHT

/-- The handler returns with every entry that parses handed to `AddPeer`, in order, and the others skipped, exactly if
there are no others. -/
theorem find_peer_result_iff {sha : Sha256} (d : DHT sha) (entries : List PBPeer) :
    (∃ d', (handleFindPeerResult entries).run d = .ok () d' ∧
        ((entries.filterMap (pbPeerToPeerID sha)).forM addPeer).run d = .ok () d') ↔
      ∀ e ∈ entries, (decodeString e.id).isSome ∧ e.addrs.length = 1 := by
  simp only [← @pbPeerToPeerID_isSome_iff sha]
  constructor
  · rintro ⟨d', ran, -⟩
    induction entries generalizing d with
    | nil => simp
    | cons e entries ih =>
      rw [handleFindPeerResult, Proc.bind_eq_ok] at ran
      obtain ⟨peer, d₁, parsed, ran⟩ := ran
      obtain ⟨found, rfl⟩ := Proc.orFault_eq_ok.mp parsed
      obtain ⟨-, d₂, -, rest⟩ := Proc.bind_eq_ok.mp ran
      exact List.forall_mem_cons.mpr ⟨by rw [found]; rfl, ih d₂ rest⟩
  · intro parse
    obtain ⟨d', ran⟩ := forM_addPeer_run d entries
    exact ⟨d', by rw [handleFindPeerResult_eq parse, ran], ran⟩

/-- A node that knows only itself. -/
def lonely : DHT padded where
  self := .create padded [] [0]
  table := RoutingTable.empty (.create padded [] [0])
  stopCh := []
  pings := []
  created := ⟨[], [0], rfl⟩
  table_self := rfl

/-- An entry without an address. -/
theorem find_peer_result_panics : ∃ d : DHT padded, ∃ entries,
    (handleFindPeerResult entries).run d = .error .panic d := ⟨lonely, [⟨[], []⟩], rfl⟩

/-- What a node answers parses: the peers it sends are those it has. -/
theorem pbPeerToPeerID_peerIDToPBPeer (sha : Sha256) (p : PeerID) :
    pbPeerToPeerID sha (peerIDToPBPeer p) = some (.create sha p.id.address p.key) := by
  rw [pbPeerToPeerID, peerIDToPBPeer, decodeString_encodeToString]

/-- No answer of a node stops the one that asked. -/
theorem handleFindPeerResult_reply {sha : Sha256} {d d₁ : DHT sha} {key : Bytes} {entries : List PBPeer}
    (answered : (handleFindPeer key).run d = .ok (some entries) d₁) (asker : DHT sha) :
    ∃ asker', (handleFindPeerResult entries).run asker = .ok () asker' := by
  have parse : ∀ e ∈ entries, (pbPeerToPeerID sha e).isSome := by
    rw [handleFindPeer] at answered
    split at answered
    · simp at answered
    · obtain ⟨d₀, d₂, -, answered⟩ := Proc.bind_eq_ok.mp answered
      obtain ⟨closest, d₃, -, answered⟩ := Proc.bind_eq_ok.mp answered
      obtain ⟨same, -⟩ := Proc.pure_eq_ok.mp answered
      cases same
      intro e mem
      obtain ⟨p, -, rfl⟩ := List.mem_map.mp mem
      rw [pbPeerToPeerID_peerIDToPBPeer]
      rfl
  rw [handleFindPeerResult_eq parse]
  exact forM_addPeer_run asker entries

/-- A node that was told of one peer answers 64 zeros with it. -/
theorem handleFindPeerResult_reply_known : ∃ (d d₁ : DHT padded) (entries : List PBPeer),
    (handleFindPeer (.replicate 64 48)).run d = .ok (some entries) d₁ ∧ entries.length = 1 ∧
    ∃ asker', (handleFindPeerResult entries).run lonely = .ok () asker' := by
  obtain ⟨answer, d₁, ran, found⟩ : ∃ answer d₁, (addPeer (.create padded [7] [1]) >>= fun _ =>
      handleFindPeer (.replicate 64 48)).run lonely = .ok answer d₁ ∧ answer.any (·.length = 1) := by
    decide +kernel
  obtain ⟨-, d, -, answered⟩ := Proc.bind_eq_ok.mp ran
  obtain ⟨entries, rfl, single⟩ := (Option.any_eq_true _ _).mp found
  exact ⟨d, d₁, entries, answered, of_decide_eq_true single, handleFindPeerResult_reply answered lonely⟩

end Dht

end P2P

end KKChain
