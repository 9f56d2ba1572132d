import KKChain.Machine.UndoLog
import KKChain.State.StateObject

/-! # The state database in use

`StateDB` with its journal. Objects are found by address, so the pointers of the source are reads and writes of the
table of live objects. A `none` is a run-time panic.
-/

namespace KKChain

structure Log where
  address : Address
  topics : List Hash
  data : Bytes
  blockNumber : UInt64
  txHash : Hash
  txIndex : ℕ
  blockHash : Hash
  index : UInt64
deriving DecidableEq, Repr

inductive JournalEntry where
  | createObject (account : Address)
  | resetObject (account : Address) (prev : StateObject)
  | suicide (account : Address) (prev : Bool) (prevbalance : ℤ)
  | balance (account : Address) (prev : ℤ)
  | nonce (account : Address) (prev : UInt64)
  | storage (account : Address) (key prevalue : Hash)
  | code (account : Address) (prevcode : Option Bytes) (prevhash : Hash)
  | refund (prev : UInt64)
  | addLog (txhash : Hash)
  | addPreimage (hash : Hash)
  | touch (account : Address)

def JournalEntry.dirtied : JournalEntry → Option Address
  | createObject account => some account
  | resetObject _ _ => none
  | suicide account _ _ => some account
  | balance account _ => some account
  | nonce account _ => some account
  | storage account _ _ => some account
  | code account _ _ => some account
  | refund _ => none
  | addLog _ => none
  | addPreimage _ => none
  | touch account => some account

/-- `journal`. The latest entry comes first. -/
structure Journal where
  entries : List JournalEntry
  dirties : GoMap Address ℤ

namespace Journal

variable (j : Journal)

/-- `newJournal`. -/
def new : Journal := ⟨[], ∅⟩

def dirty (addr : Address) : Journal := { j with dirties := j.dirties.insert addr ((j.dirties.lookup addr).getD 0 + 1) }

def append (entry : JournalEntry) : Journal :=
  match entry.dirtied with
  | none => { j with entries := entry :: j.entries }
  | some addr => { j.dirty addr with entries := entry :: j.entries }

/-- The mark of an entry is dropped. -/
def clean (addr : Address) : Journal :=
  let count := (j.dirties.lookup addr).getD 0 - 1
  { j with dirties := if count = 0 then j.dirties.erase addr else j.dirties.insert addr count }

/-- The entry was undone and `entries` are left. -/
def pop (entry : JournalEntry) (entries : List JournalEntry) : Journal :=
  match entry.dirtied with
  | none => { j with entries }
  | some addr => { j.clean addr with entries }

end Journal

structure Revision where
  id : ℕ
  journalIndex : ℕ
deriving DecidableEq, Repr

/-- The address of the RIPEMD precompile. -/
def ripemd : Address := 3

structure StateDB (C : Crypto) where
  db : StateDatabase C
  trie : Trie Account
  stateObjects : GoMap Address StateObject
  stateObjectsDirty : GoMap Address Unit
  refund : UInt64
  thash : Hash
  bhash : Hash
  txIndex : ℕ
  logs : Hash → List Log
  logSize : UInt64
  preimages : Hash → Option Bytes
  journal : Journal
  /-- The oldest comes first. -/
  validRevisions : List Revision
  nextRevisionId : ℕ

namespace StateDB

variable {C : Crypto}

/-- `New` with an open trie. -/
def ofTrie (db : StateDatabase C) (trie : Trie Account) : StateDB C where
  db := db
  trie := trie
  stateObjects := ∅
  stateObjectsDirty := ∅
  refund := 0
  thash := 0
  bhash := 0
  txIndex := 0
  logs := fun _ => []
  logSize := 0
  preimages := fun _ => none
  journal := .new
  validRevisions := []
  nextRevisionId := 0

variable (s : StateDB C)

abbrev accountKey (C : Crypto) (addr : Address) : Bytes := C.secure addr.bytes

def append (entry : JournalEntry) : StateDB C := { s with journal := s.journal.append entry }

def setStateObject (addr : Address) (obj : StateObject) : StateDB C :=
  { s with stateObjects := s.stateObjects.insert addr obj }

def getStateObject (addr : Address) : Option StateObject × StateDB C :=
  match s.stateObjects.lookup addr with
  | some obj => (if obj.deleted then none else some obj, s)
  | none =>
    match s.trie.get (accountKey C addr) with
    | none => (none, s)
    | some data => (some (.newObject data), s.setStateObject addr (.newObject data))

/-- `createObject`: the new object and the one it replaces. -/
def createObject (addr : Address) : StateObject × Option StateObject × StateDB C :=
  let (prev, s) := s.getStateObject addr
  let s := match prev with
    | none => s.append (.createObject addr)
    | some prev => s.append (.resetObject addr prev)
  (.blank C, prev, s.setStateObject addr (.blank C))

def getOrNewStateObject (addr : Address) : StateObject × StateDB C :=
  match s.getStateObject addr with
  | (some obj, s) => (obj, s)
  | (none, s) =>
    let (obj, _, s) := s.createObject addr
    (obj, s)

def touch (addr : Address) : StateDB C :=
  let s := s.append (.touch addr)
  if addr = ripemd then { s with journal := s.journal.dirty addr } else s

section Getters

def exist (addr : Address) : Bool × StateDB C :=
  let (obj, s) := s.getStateObject addr
  (obj.isSome, s)

def empty (addr : Address) : Bool × StateDB C :=
  let (obj, s) := s.getStateObject addr
  (obj.all (·.empty C), s)

def getBalance (addr : Address) : ℤ × StateDB C :=
  let (obj, s) := s.getStateObject addr
  ((obj.map (·.data.balance)).getD 0, s)

def getNonce (addr : Address) : UInt64 × StateDB C :=
  let (obj, s) := s.getStateObject addr
  ((obj.map (·.data.nonce)).getD 0, s)

def getCodeHash (addr : Address) : Hash × StateDB C :=
  let (obj, s) := s.getStateObject addr
  ((obj.map (·.data.codeHash)).getD 0, s)

def getCode (addr : Address) : Bytes × StateDB C :=
  match s.getStateObject addr with
  | (none, s) => ([], s)
  | (some obj, s) =>
    let (code, obj) := obj.getCode s.db
    (code.getD [], s.setStateObject addr obj)

def getCodeSize (addr : Address) : ℕ × StateDB C :=
  match s.getStateObject addr with
  | (none, s) => (0, s)
  | (some obj, s) => ((obj.code.or (s.db.codes obj.data.codeHash)).getD [] |>.length, s)

def getState (addr : Address) (key : Hash) : Hash × StateDB C :=
  match s.getStateObject addr with
  | (none, s) => (0, s)
  | (some obj, s) =>
    let (value, obj) := obj.getState s.db key
    (value, s.setStateObject addr obj)

def hasSuicided (addr : Address) : Bool × StateDB C :=
  let (obj, s) := s.getStateObject addr
  (obj.any (·.suicided), s)

end Getters

section Setters

/-- `SetBalance` of an object. -/
def writeBalance (addr : Address) (obj : StateObject) (amount : ℤ) : StateDB C :=
  (s.append (.balance addr obj.data.balance)).setStateObject addr (obj.setBalance amount)

def addBalance (addr : Address) (amount : ℤ) : StateDB C :=
  let (obj, s) := s.getOrNewStateObject addr
  if amount = 0 then
    if obj.empty C then s.touch addr else s
  else s.writeBalance addr obj (obj.data.balance + amount)

def subBalance (addr : Address) (amount : ℤ) : StateDB C :=
  let (obj, s) := s.getOrNewStateObject addr
  if amount = 0 then s else s.writeBalance addr obj (obj.data.balance - amount)

def setBalance (addr : Address) (amount : ℤ) : StateDB C :=
  let (obj, s) := s.getOrNewStateObject addr
  s.writeBalance addr obj amount

def setNonce (addr : Address) (nonce : UInt64) : StateDB C :=
  let (obj, s) := s.getOrNewStateObject addr
  (s.append (.nonce addr obj.data.nonce)).setStateObject addr (obj.setNonce nonce)

def setCode (addr : Address) (code : Bytes) : StateDB C :=
  let (obj, s) := s.getOrNewStateObject addr
  let (prevcode, obj) := obj.getCode s.db
  (s.append (.code addr prevcode obj.data.codeHash)).setStateObject addr (obj.setCode (C.keccak code) (some code))

def setState (addr : Address) (key value : Hash) : StateDB C :=
  let (obj, s) := s.getOrNewStateObject addr
  let (prevalue, obj) := obj.getState s.db key
  (s.append (.storage addr key prevalue)).setStateObject addr (obj.setState key value)

def suicide (addr : Address) : Bool × StateDB C :=
  match s.getStateObject addr with
  | (none, s) => (false, s)
  | (some obj, s) =>
    (true, (s.append (.suicide addr obj.suicided obj.data.balance)).setStateObject addr
      { obj.setBalance 0 with suicided := true })

/-- `CreateAccount`: the balance is carried over. -/
def createAccount (addr : Address) : StateDB C :=
  let (obj, prev, s) := s.createObject addr
  match prev with
  | none => s
  | some prev => s.setStateObject addr (obj.setBalance prev.data.balance)

def addRefund (gas : UInt64) : StateDB C := { s.append (.refund s.refund) with refund := s.refund + gas }

def addLog (log : Log) : StateDB C :=
  let log := { log with txHash := s.thash, blockHash := s.bhash, txIndex := s.txIndex, index := s.logSize }
  { s.append (.addLog s.thash) with
    logs := Function.update s.logs s.thash (s.logs s.thash ++ [log])
    logSize := s.logSize + 1 }

def addPreimage (hash : Hash) (preimage : Bytes) : StateDB C :=
  match s.preimages hash with
  | some _ => s
  | none => { s.append (.addPreimage hash) with preimages := Function.update s.preimages hash (some preimage) }

def prepare (thash bhash : Hash) (txIndex : ℕ) : StateDB C := { s with thash, bhash, txIndex }

end Setters

section Revert

/-- A change of an object that has to be there. -/
def revise (addr : Address) (f : StateObject → StateObject) : Option (StateDB C) :=
  match s.getStateObject addr with
  | (none, _) => none
  | (some obj, s) => some (s.setStateObject addr (f obj))

/-- A change of an object if it is there. -/
def reviseIfAny (addr : Address) (f : StateObject → StateObject) : StateDB C :=
  match s.getStateObject addr with
  | (none, s) => s
  | (some obj, s) => s.setStateObject addr (f obj)

/-- The latest log of a transaction goes. -/
def dropLog (txhash : Hash) : Option (StateDB C) :=
  match s.logs txhash with
  | [] => none
  | logs => some { s with logs := Function.update s.logs txhash logs.dropLast, logSize := s.logSize - 1 }

end Revert

end StateDB

def JournalEntry.revert {C : Crypto} (s : StateDB C) : JournalEntry → Option (StateDB C)
  | createObject account => some { s with
      stateObjects := s.stateObjects.erase account
      stateObjectsDirty := s.stateObjectsDirty.erase account }
  | resetObject account prev => some (s.setStateObject account prev)
  | suicide account prev prevbalance =>
    some (s.reviseIfAny account fun obj => { obj.setBalance prevbalance with suicided := prev })
  | balance account prev => s.revise account (·.setBalance prev)
  | nonce account prev => s.revise account (·.setNonce prev)
  | storage account key prevalue => s.revise account (·.setState key prevalue)
  | code account prevcode prevhash => s.revise account (·.setCode prevhash prevcode)
  | refund prev => some { s with refund := prev }
  | addLog txhash => s.dropLog txhash
  | addPreimage hash => some { s with preimages := Function.update s.preimages hash none }
  | touch _ => some s

namespace StateDB

variable {C : Crypto} (s : StateDB C)

/-- One round of the loop in `journal.revert`, which drops the entry at once. -/
def undo : Option (StateDB C) :=
  match s.journal.entries with
  | [] => none
  | entry :: entries => (entry.revert s).map fun s => { s with journal := s.journal.pop entry entries }

/-- `journal.revert`. -/
def revertJournal (snapshot : ℕ) : Option (StateDB C) := UndoLog.undoN undo (s.journal.entries.length - snapshot) s

def snapshot : ℕ × StateDB C :=
  (s.nextRevisionId, { s with
    nextRevisionId := s.nextRevisionId + 1
    validRevisions := s.validRevisions ++ [⟨s.nextRevisionId, s.journal.entries.length⟩] })

/-- `RevertToSnapshot`. The search is for the first revision whose identifier is not smaller. -/
def revertToSnapshot (revid : ℕ) : Option (StateDB C) :=
  let idx := s.validRevisions.findIdx fun revision => revid ≤ revision.id
  match s.validRevisions[idx]? with
  | none => none
  | some revision =>
    if revision.id ≠ revid then none
    else (s.revertJournal revision.journalIndex).map fun s =>
      { s with validRevisions := s.validRevisions.take idx }

def clearJournalAndRefund : StateDB C := { s with journal := .new, validRevisions := [], refund := 0 }

/-- `updateStateObject`. An account with a negative balance has no encoding. -/
def updateStateObject (addr : Address) (obj : StateObject) : Option (StateDB C) :=
  if obj.data.balance < 0 then none
  else some { s with trie := s.trie.insert (accountKey C addr) obj.data }

def deleteStateObject (addr : Address) (obj : StateObject) : StateDB C :=
  { s.setStateObject addr { obj with deleted := true } with trie := s.trie.delete (accountKey C addr) }

/-- One round of the loop in `Finalise`. -/
def finaliseObject (deleteEmptyObjects : Bool) (s : StateDB C) (addr : Address) : Option (StateDB C) :=
  match s.stateObjects.lookup addr with
  | none => some s
  | some obj => do
    let s ← if obj.suicided || (deleteEmptyObjects && obj.empty C) then some (s.deleteStateObject addr obj)
      else (s.setStateObject addr (obj.updateRoot s.db)).updateStateObject addr (obj.updateRoot s.db)
    some { s with stateObjectsDirty := s.stateObjectsDirty.insert addr () }

/-- `Finalise`. The order of the addresses is that of the list. -/
def finalise (deleteEmptyObjects : Bool) : Option (StateDB C) := do
  let s ← s.journal.dirties.keys.foldlM (finaliseObject deleteEmptyObjects) s
  some s.clearJournalAndRefund

def intermediateRoot (deleteEmptyObjects : Bool) : Option (Hash × StateDB C) := do
  let s ← s.finalise deleteEmptyObjects
  some (s.trie.hash C Account.enc, s)

/-- `Reset`. If the root cannot be opened nothing happens. -/
def reset (root : Hash) : StateDB C :=
  match s.db.openTrie root with
  | none => s
  | some trie => { ofTrie s.db trie with nextRevisionId := s.nextRevisionId }

section Copy

/-- An object is copied into `state`. -/
def copyObject (state : StateDB C) (addr : Address) (obj : StateObject) : StateDB C :=
  { state.setStateObject addr obj.deepCopy with stateObjectsDirty := state.stateObjectsDirty.insert addr () }

/-- One round of the first loop in `Copy`, over the marked addresses. -/
def copyMarked (state : StateDB C) (addr : Address) : StateDB C :=
  match s.stateObjects.lookup addr with
  | none => state
  | some obj => state.copyObject addr obj

/-- One round of the second loop in `Copy`, over `stateObjectsDirty`. -/
def copyDirty (state : StateDB C) (addr : Address) : Option (StateDB C) :=
  match state.stateObjects.lookup addr with
  | some _ => some state
  | none => (s.stateObjects.lookup addr).map (state.copyObject addr)

def copy : Option (StateDB C) :=
  let state :=
    { ofTrie s.db s.trie with refund := s.refund, logs := s.logs, logSize := s.logSize, preimages := s.preimages }
  s.stateObjectsDirty.keys.foldlM s.copyDirty (s.journal.dirties.keys.foldl s.copyMarked state)

end Copy

section Commit

/-- `Commit` of an object, with whether it succeeds. -/
def commitObject (deleteEmptyObjects : Bool) (s : StateDB C) (addr : Address) : Option (Bool × StateDB C) :=
  match s.stateObjects.lookup addr with
  | none => some (true, s)
  | some obj =>
    let isDirty := (s.stateObjectsDirty.lookup addr).isSome
    if obj.suicided || (isDirty && deleteEmptyObjects && obj.empty C) then some (true, s.deleteStateObject addr obj)
    else if isDirty then
      let (db, obj) := obj.commitCode s.db
      let (committed, db, obj) := obj.commitTrie db
      let s := { s.setStateObject addr obj with db := db }
      if committed then (s.updateStateObject addr obj).map fun s => (true, s) else some (false, s)
    else some (true, s)

/-- The loop over the objects in `Commit`, which ends at the first error. -/
def commitObjects (deleteEmptyObjects : Bool) : List Address → StateDB C → Option (Bool × StateDB C)
  | [], s => some (true, s)
  | addr :: rest, s => do
    let (committed, s) ← commitObject deleteEmptyObjects s addr
    if committed then
      commitObjects deleteEmptyObjects rest { s with stateObjectsDirty := s.stateObjectsDirty.erase addr }
    else some (false, s)

/-- The marked addresses become dirty. -/
def markDirty : StateDB C :=
  { s with
    stateObjectsDirty := s.journal.dirties.keys.foldl (fun dirty addr => dirty.insert addr ()) s.stateObjectsDirty }

/-- `Commit`: the root, if there was no error. -/
def commit (deleteEmptyObjects : Bool) : Option (Option Hash × StateDB C) := do
  let (committed, s) ← commitObjects deleteEmptyObjects s.stateObjects.keys s.markDirty
  let s := s.clearJournalAndRefund
  if committed then
    let root := s.trie.hash C Account.enc
    some (some root, { s with db := s.db.insertTrie root s.trie })
  else some (none, s)

end Commit

end StateDB

end KKChain
