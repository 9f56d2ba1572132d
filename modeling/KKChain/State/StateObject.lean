import KKChain.ToMathlib.AList
import KKChain.Trie.Hash
import KKChain.Trie.Secure

/-! # State objects

`stateObject` keeps an account in memory: the account itself, its code, and its storage as a trie with the slots read
so far and the writes to come. What such an object stands for is a `LedgerAccount`, where all writes have reached the
storage. `Coherent` says that the slots in memory and the trie do not contradict each other; every method keeps it,
and does to the account what it says.
-/

namespace KKChain

open Rlp AList

abbrev GoMap (κ ν : Type) := AList fun _ : κ => ν

/-- The key a `SecureTrie` uses in place of `key`. -/
def Crypto.secure (C : Crypto) (key : Bytes) : Bytes := (C.keccak key).bytes

def Crypto.emptyCodeHash (C : Crypto) : Hash := C.keccak []

/-- A word of storage. Zero is not stored. -/
abbrev Word := {v : Hash // v ≠ 0}

namespace Word

/-- The value of a slot as it is stored. -/
def ofHash (v : Hash) : Option Word := if nonzero : v ≠ 0 then some ⟨v, nonzero⟩ else none

/-- The value of a slot as it is read. -/
def toHash (stored : Option Word) : Hash := stored.elim 0 Subtype.val

@[simp] theorem toHash_ofHash (v : Hash) : toHash (ofHash v) = v := by
  unfold ofHash
  split_ifs with zero
  · rfl
  · exact (not_not.mp zero).symm

@[simp] theorem ofHash_toHash (stored : Option Word) : ofHash (toHash stored) = stored := by
  cases stored with
  | none => rfl
  | some v => exact dif_pos v.2

/-- A word without its leading zeros. -/
def enc (v : Word) : Bytes := (Item.str (BigEndian.minimal v.1.toNat)).encode

end Word

structure Account where
  nonce : UInt64
  balance : ℤ
  root : Hash
  codeHash : Hash
deriving DecidableEq, Repr

namespace Account

/-- The encoding of an account, where the balance is not negative. -/
def enc (a : Account) : Bytes :=
  (Item.list [.str (BigEndian.minimal a.nonce.toNat), .str (BigEndian.minimal a.balance.natAbs), .str a.root.bytes,
    .str a.codeHash.bytes]).encode

end Account

/-- The state database: tries by their root, contract code by its hash. -/
structure StateDatabase (C : Crypto) where
  tries : Hash → Option (Trie Account)
  storages : Hash → Option (Trie Word)
  codes : Hash → Option Bytes
  /-- Nothing but the empty code is kept under its hash. -/
  emptyCode : (codes C.emptyCodeHash).getD [] = []

namespace StateDatabase

/-- A database with nothing in it. -/
def blank (C : Crypto) : StateDatabase C := ⟨fun _ => none, fun _ => none, fun _ => none, rfl⟩

variable {C : Crypto} (db : StateDatabase C)

def openTrie (root : Hash) : Option (Trie Account) := if root = 0 ∨ root = emptyRoot then some .empty else db.tries root

def openStorageTrie (root : Hash) : Option (Trie Word) :=
  if root = 0 ∨ root = emptyRoot then some .empty else db.storages root

/-- `InsertBlob`. What is there stays, and the empty code is the only one with its hash. -/
def insertBlob (hash : Hash) (blob : Bytes) : StateDatabase C :=
  if other : hash = C.emptyCodeHash then db
  else { db with
    codes := Function.update db.codes hash (some ((db.codes hash).getD blob))
    emptyCode := by rw [Function.update_of_ne (Ne.symm other)]; exact db.emptyCode }

/-- A storage trie is written. -/
def insertStorage (root : Hash) (trie : Trie Word) : StateDatabase C :=
  { db with storages := Function.update db.storages root (some ((db.storages root).getD trie)) }

/-- A state trie is written. -/
def insertTrie (root : Hash) (trie : Trie Account) : StateDatabase C :=
  { db with tries := Function.update db.tries root (some ((db.tries root).getD trie)) }

/-- Every storage trie of `db` can be opened in `db'`. -/
def Extends (db db' : StateDatabase C) : Prop :=
  ∀ {root trie}, db.openStorageTrie root = some trie → db'.openStorageTrie root = some trie

/-- The code with a hash, if it is not held already. -/
def codeOf (codeHash : Hash) (held : Option Bytes) : Option Bytes :=
  held.or (if codeHash = C.emptyCodeHash then none else db.codes codeHash)

end StateDatabase

/-- `stateObject`. An error of the database is remembered in `dbErr`. -/
structure StateObject where
  data : Account
  trie : Option (Trie Word)
  code : Option Bytes
  cachedStorage : GoMap Hash Hash
  dirtyStorage : GoMap Hash Hash
  dirtyCode : Bool
  suicided : Bool
  deleted : Bool
  dbErr : Bool

/-- An account as its users see it. -/
structure LedgerAccount where
  nonce : UInt64
  balance : ℤ
  codeHash : Hash
  code : Bytes
  storage : Trie Word
  suicided : Bool

namespace LedgerAccount

def fresh (C : Crypto) : LedgerAccount := ⟨0, 0, C.emptyCodeHash, [], .empty, false⟩

def empty (C : Crypto) (a : LedgerAccount) : Bool := a.nonce = 0 ∧ a.balance = 0 ∧ a.codeHash = C.emptyCodeHash

def slot (C : Crypto) (a : LedgerAccount) (key : Hash) : Hash := Word.toHash (a.storage.get (C.secure key.bytes))

def setSlot (C : Crypto) (a : LedgerAccount) (key value : Hash) : LedgerAccount :=
  { a with storage := a.storage.put (C.secure key.bytes) (Word.ofHash value) }

/-- What is written into the state trie. -/
def toAccount (C : Crypto) (a : LedgerAccount) : Account :=
  ⟨a.nonce, a.balance, a.storage.hash C Word.enc, a.codeHash⟩

end LedgerAccount

namespace StateObject

variable {C : Crypto} (db : StateDatabase C) (obj : StateObject)

def newObject (data : Account) : StateObject := ⟨data, none, none, ∅, ∅, false, false, false, false⟩

/-- The object of an `Account{}`. -/
def blank (C : Crypto) : StateObject := newObject ⟨0, 0, 0, C.emptyCodeHash⟩

def empty (C : Crypto) (obj : StateObject) : Bool :=
  obj.data.nonce = 0 ∧ obj.data.balance = 0 ∧ obj.data.codeHash = C.emptyCodeHash

/-- The trie that `getTrie` returns. A trie that cannot be opened counts as empty. -/
def storageTrie : Trie Word := obj.trie.getD ((db.openStorageTrie obj.data.root).getD .empty)

def getTrie : StateObject :=
  match obj.trie with
  | some _ => obj
  | none =>
    { obj with
      trie := some ((db.openStorageTrie obj.data.root).getD .empty)
      dbErr := obj.dbErr || (db.openStorageTrie obj.data.root).isNone }

def getState (key : Hash) : Hash × StateObject :=
  match obj.cachedStorage.lookup key with
  | some value => (value, obj)
  | none =>
    let obj := obj.getTrie db
    let value := Word.toHash ((obj.storageTrie db).get (C.secure key.bytes))
    (value, { obj with cachedStorage := obj.cachedStorage.insert key value })

def setState (key value : Hash) : StateObject :=
  { obj with cachedStorage := obj.cachedStorage.insert key value, dirtyStorage := obj.dirtyStorage.insert key value }

/-- The writes to come, as entries of the trie. -/
def pending (C : Crypto) (obj : StateObject) : List (Bytes × Option Word) :=
  obj.dirtyStorage.entries.map fun e => (C.secure (Hash.bytes e.1), Word.ofHash e.2)

def updateTrie : StateObject :=
  { obj.getTrie db with
    trie := some ((obj.storageTrie db).putAll (obj.pending C))
    dirtyStorage := ∅ }

def updateRoot : StateObject :=
  let obj := obj.updateTrie db
  { obj with data := { obj.data with root := (obj.storageTrie db).hash C Word.enc } }

/-- `Code`. -/
def getCode : Option Bytes × StateObject :=
  match obj.code with
  | some code => (some code, obj)
  | none =>
    if obj.data.codeHash = C.emptyCodeHash then (none, obj)
    else
      let code := db.codes obj.data.codeHash
      (code, { obj with code := code, dbErr := obj.dbErr || code.isNone })

def setCode (codeHash : Hash) (code : Option Bytes) : StateObject :=
  { obj with code := code, data := { obj.data with codeHash := codeHash }, dirtyCode := true }

/-- Code that is new is written into the database. -/
def commitCode : StateDatabase C × StateObject :=
  match obj.code with
  | none => (db, obj)
  | some code => if obj.dirtyCode then (db.insertBlob obj.data.codeHash code, { obj with dirtyCode := false })
    else (db, obj)

/-- `CommitTrie`, with whether it succeeds. An object that met an error of the database does not. -/
def commitTrie : Bool × StateDatabase C × StateObject :=
  let obj := obj.updateTrie db
  if obj.dbErr then (false, db, obj)
  else
    let root := (obj.storageTrie db).hash C Word.enc
    (true, db.insertStorage root (obj.storageTrie db), { obj with data := { obj.data with root } })

/-- What `Commit` does with a dirty object. -/
def committed : Bool × StateDatabase C × StateObject := (obj.commitCode db).2.commitTrie (obj.commitCode db).1

def deepCopy : StateObject :=
  { newObject obj.data with
    trie := obj.trie
    code := obj.code
    dirtyStorage := obj.dirtyStorage
    cachedStorage := obj.dirtyStorage
    suicided := obj.suicided
    dirtyCode := obj.dirtyCode
    deleted := obj.deleted }

def setBalance (amount : ℤ) : StateObject := { obj with data := { obj.data with balance := amount } }

def setNonce (nonce : UInt64) : StateObject := { obj with data := { obj.data with nonce := nonce } }

/-- The account the object stands for. -/
def view : LedgerAccount where
  nonce := obj.data.nonce
  balance := obj.data.balance
  codeHash := obj.data.codeHash
  code := (db.codeOf obj.data.codeHash obj.code).getD []
  storage := (obj.storageTrie db).putAll (obj.pending C)
  suicided := obj.suicided

/-- The slots in memory are among `K` and agree with the open trie wherever nothing is to be written. -/
structure Coherent (C : Crypto) (K : Set Hash) (obj : StateObject) : Prop where
  keys : ∀ {key value}, obj.cachedStorage.lookup key = some value → key ∈ K
  dirty : ∀ {key value}, obj.dirtyStorage.lookup key = some value → obj.cachedStorage.lookup key = some value
  clean : ∀ {key value}, obj.cachedStorage.lookup key = some value → obj.dirtyStorage.lookup key = none →
    ∃ trie, obj.trie = some trie ∧ trie.get (C.secure key.bytes) = Word.ofHash value

end StateObject

/-- The keys of storage are told apart by their hashes. -/
abbrev Crypto.SlotsApart (C : Crypto) (K : Set Hash) : Prop := Set.InjOn (fun key : Hash => C.secure key.bytes) K

namespace StateObject

variable {C : Crypto} {db : StateDatabase C} {obj obj' : StateObject} {K : Set Hash} {key value : Hash}

theorem coherent_newObject (data : Account) : (newObject data).Coherent C K where
  keys found := by simp [newObject] at found
  dirty found := by simp [newObject] at found
  clean found := by simp [newObject] at found

theorem view_blank (db : StateDatabase C) : (blank C).view db = LedgerAccount.fresh C := by
  simp [view, blank, newObject, LedgerAccount.fresh, StateDatabase.codeOf, storageTrie, StateDatabase.openStorageTrie,
    pending, Trie.putAll]

section Trie

theorem map_fst_pending : (obj.pending C).map Prod.fst = obj.dirtyStorage.keys.map fun key => C.secure key.bytes := by
  simp [pending, keys, List.keys]

theorem mem_pending {e : Bytes × Option Word} : e ∈ obj.pending C ↔
    ∃ key value, obj.dirtyStorage.lookup key = some value ∧ e = (C.secure key.bytes, Word.ofHash value) := by
  simp only [pending, List.mem_map, Sigma.exists]
  refine exists₂_congr fun key value => and_congr ?_ eq_comm
  rw [← mem_lookup_iff, Option.mem_def]

variable (coherent : obj.Coherent C K) (apart : C.SlotsApart K)
include coherent

theorem Coherent.mem_of_dirty (found : obj.dirtyStorage.lookup key = some value) : key ∈ K :=
  coherent.keys (coherent.dirty found)

include apart

theorem Coherent.nodup_pending : ((obj.pending C).map Prod.fst).Nodup := by
  rw [map_fst_pending]
  refine List.Nodup.map_on (fun a memA b memB same => ?_) obj.dirtyStorage.keys_nodup
  obtain ⟨_, foundA⟩ := mem_keys_iff_exists.mp memA
  obtain ⟨_, foundB⟩ := mem_keys_iff_exists.mp memB
  exact apart (coherent.mem_of_dirty foundA) (coherent.mem_of_dirty foundB) same

/-- A slot that is to be written has the new value in the account. -/
theorem Coherent.get_of_dirty (found : obj.dirtyStorage.lookup key = some value) :
    (obj.view db).storage.get (C.secure key.bytes) = Word.ofHash value :=
  Trie.get_putAll_of_mem _ (coherent.nodup_pending apart) (mem_pending.mpr ⟨key, value, found, rfl⟩)

omit apart coherent in
/-- Where nothing is to be written the account has what the trie has. -/
theorem get_of_not_dirty {k : Bytes}
    (absent : ∀ key value, obj.dirtyStorage.lookup key = some value → C.secure key.bytes ≠ k) :
    (obj.view db).storage.get k = (obj.storageTrie db).get k := by
  apply Trie.get_putAll_of_notMem
  intro mem
  obtain ⟨_, inPending, rfl⟩ := List.mem_map.mp mem
  obtain ⟨key, value, found, rfl⟩ := mem_pending.mp inPending
  exact absent key value found rfl

theorem Coherent.get_of_clean (mem : key ∈ K) (absent : obj.dirtyStorage.lookup key = none) :
    (obj.view db).storage.get (C.secure key.bytes) = (obj.storageTrie db).get (C.secure key.bytes) := by
  refine get_of_not_dirty fun key' value found same => ?_
  obtain rfl := apart (coherent.mem_of_dirty found) mem same
  rw [absent] at found
  cases found

theorem Coherent.get_of_cached (found : obj.cachedStorage.lookup key = some value) :
    (obj.view db).storage.get (C.secure key.bytes) = Word.ofHash value := by
  cases dirty : obj.dirtyStorage.lookup key with
  | none =>
    obtain ⟨trie, opened, stored⟩ := coherent.clean found dirty
    rw [coherent.get_of_clean apart (coherent.keys found) dirty, ← stored, storageTrie, opened]
    rfl
  | some v =>
    cases (coherent.dirty dirty).symm.trans found
    exact coherent.get_of_dirty apart dirty

end Trie

section Methods

variable (db obj)

@[simp] theorem storageTrie_getTrie : (obj.getTrie db).storageTrie db = obj.storageTrie db := by
  cases opened : obj.trie <;> simp [getTrie, storageTrie, opened]

theorem trie_getTrie : (obj.getTrie db).trie = some (obj.storageTrie db) := by
  cases opened : obj.trie <;> simp [getTrie, storageTrie, opened]

@[simp] theorem dirtyStorage_getTrie : (obj.getTrie db).dirtyStorage = obj.dirtyStorage := by
  cases opened : obj.trie <;> simp [getTrie, opened]

@[simp] theorem cachedStorage_getTrie : (obj.getTrie db).cachedStorage = obj.cachedStorage := by
  cases opened : obj.trie <;> simp [getTrie, opened]

@[simp] theorem data_getTrie : (obj.getTrie db).data = obj.data := by
  cases opened : obj.trie <;> simp [getTrie, opened]

@[simp] theorem code_getTrie : (obj.getTrie db).code = obj.code := by
  cases opened : obj.trie <;> simp [getTrie, opened]

@[simp] theorem suicided_getTrie : (obj.getTrie db).suicided = obj.suicided := by
  cases opened : obj.trie <;> simp [getTrie, opened]

@[simp] theorem deleted_getTrie : (obj.getTrie db).deleted = obj.deleted := by
  cases opened : obj.trie <;> simp [getTrie, opened]

end Methods

/-- What an account is depends on these parts of the object. -/
theorem view_congr (data : obj'.data = obj.data)
    (code : db.codeOf obj.data.codeHash obj'.code = db.codeOf obj.data.codeHash obj.code)
    (trie : obj'.storageTrie db = obj.storageTrie db) (dirty : obj'.dirtyStorage = obj.dirtyStorage)
    (suicided : obj'.suicided = obj.suicided) : obj'.view db = obj.view db := by
  simp only [view, pending, data, code, trie, dirty, suicided]

/-- The slots depend on these parts of the object. -/
theorem Coherent.congr (coherent : obj.Coherent C K) (cached : obj'.cachedStorage = obj.cachedStorage)
    (dirty : obj'.dirtyStorage = obj.dirtyStorage) (trie : obj'.trie = obj.trie) : obj'.Coherent C K where
  keys found := coherent.keys (cached ▸ found)
  dirty found := by
    rw [cached]
    exact coherent.dirty (dirty ▸ found)
  clean found absent := by
    rw [trie]
    exact coherent.clean (cached ▸ found) (dirty ▸ absent)

section GetState

variable (coherent : obj.Coherent C K) (apart : C.SlotsApart K) (mem : key ∈ K)
include coherent apart mem

theorem Coherent.getState_fst : (obj.getState db key).1 = (obj.view db).slot C key := by
  unfold getState
  split
  · rename_i value found
    rw [LedgerAccount.slot, coherent.get_of_cached apart found, Word.toHash_ofHash]
  · rename_i absent
    have clean : obj.dirtyStorage.lookup key = none := by
      by_contra dirty
      obtain ⟨value, found⟩ := Option.ne_none_iff_exists'.mp dirty
      rw [coherent.dirty found] at absent
      cases absent
    dsimp only
    rw [LedgerAccount.slot, coherent.get_of_clean apart mem clean, storageTrie_getTrie]

omit coherent apart mem in
theorem view_getState (key : Hash) : (obj.getState db key).2.view db = obj.view db := by
  unfold getState
  split
  · rfl
  · exact view_congr (data_getTrie db obj) (by simp) (storageTrie_getTrie db obj) (dirtyStorage_getTrie db obj)
      (suicided_getTrie db obj)

omit coherent apart mem in
@[simp] theorem deleted_getState (key : Hash) : (obj.getState db key).2.deleted = obj.deleted := by
  unfold getState
  split
  · rfl
  · exact deleted_getTrie db obj

omit apart in
theorem Coherent.getState : (obj.getState db key).2.Coherent C K := by
  unfold StateObject.getState
  split
  · exact coherent
  · rename_i absent
    constructor
    · intro key' value found
      rw [lookup_insert_eq_ite] at found
      split_ifs at found with same
      · rwa [same]
      · exact coherent.keys (by simpa using found)
    · intro key' value found
      have dirty : obj.dirtyStorage.lookup key' = some value := by simpa using found
      rw [lookup_insert_eq_ite, if_neg]
      · simpa using coherent.dirty dirty
      · rintro rfl
        rw [coherent.dirty dirty] at absent
        cases absent
    · intro key' value found clean
      refine ⟨obj.storageTrie db, trie_getTrie db obj, ?_⟩
      rw [lookup_insert_eq_ite] at found
      split_ifs at found with same
      · rw [← Option.some.inj found, Word.ofHash_toHash, same, storageTrie_getTrie]
      · obtain ⟨trie, opened, stored⟩ := coherent.clean (by simpa using found) (by simpa using clean)
        rw [← stored, storageTrie, opened]
        rfl

end GetState

section SetState

variable (coherent : obj.Coherent C K) (apart : C.SlotsApart K) (mem : key ∈ K)
include coherent mem

theorem Coherent.setState (value : Hash) : (obj.setState key value).Coherent C K where
  keys {key' value'} found := by
    rw [StateObject.setState, lookup_insert_eq_ite] at found
    split_ifs at found with same
    · rwa [same]
    · exact coherent.keys found
  dirty {key' value'} found := by
    rw [StateObject.setState, lookup_insert_eq_ite] at found ⊢
    split_ifs at found ⊢ with same
    · exact found
    · exact coherent.dirty found
  clean {key' value'} found clean := by
    rw [StateObject.setState, lookup_insert_eq_ite] at found clean
    split_ifs at found clean with same
    exact coherent.clean found clean

include apart

theorem Coherent.view_setState (value : Hash) :
    (obj.setState key value).view db = (obj.view db).setSlot C key value := by
  have coherent' := coherent.setState mem value
  have storage : ((obj.setState key value).view db).storage =
      (obj.view db).storage.put (C.secure key.bytes) (Word.ofHash value) := by
    refine Trie.ext_get fun k => ?_
    rw [Trie.get_put]
    split_ifs with same
    · rw [same]
      exact coherent'.get_of_dirty apart (lookup_insert _)
    · by_cases written : ∃ key' value', obj.dirtyStorage.lookup key' = some value' ∧ C.secure key'.bytes = k
      · obtain ⟨key', value', found, rfl⟩ := written
        have other : key' ≠ key := fun eq => same (by rw [eq])
        rw [coherent.get_of_dirty apart found, coherent'.get_of_dirty apart]
        rw [StateObject.setState, lookup_insert_eq_ite, if_neg other, found]
      · push Not at written
        rw [get_of_not_dirty written, get_of_not_dirty]
        · rfl
        · intro key' value' found
          rw [StateObject.setState, lookup_insert_eq_ite] at found
          split_ifs at found with isKey
          · exact fun eq => same (by rw [← eq, isKey])
          · exact written key' value' found
  rw [LedgerAccount.setSlot, ← storage]
  rfl

end SetState

theorem getCode_fst (db : StateDatabase C) (obj : StateObject) :
    (obj.getCode db).1 = db.codeOf obj.data.codeHash obj.code := by
  unfold getCode StateDatabase.codeOf
  split
  · rename_i held
    rw [held, Option.some_or]
  · rename_i held
    rw [held, Option.none_or]
    split_ifs <;> rfl

theorem view_getCode (db : StateDatabase C) (obj : StateObject) : (obj.getCode db).2.view db = obj.view db := by
  unfold getCode
  split
  · rfl
  · rename_i held
    split_ifs with empty
    · rfl
    · refine view_congr rfl ?_ rfl rfl rfl
      cases found : db.codes obj.data.codeHash <;> simp [StateDatabase.codeOf, held, empty, found]

theorem Coherent.getCode (coherent : obj.Coherent C K) : (obj.getCode db).2.Coherent C K := by
  unfold StateObject.getCode
  split
  · exact coherent
  · split_ifs
    · exact coherent
    · exact coherent.congr rfl rfl rfl

@[simp] theorem deleted_getCode (db : StateDatabase C) (obj : StateObject) :
    (obj.getCode db).2.deleted = obj.deleted := by
  unfold getCode
  split
  · rfl
  · split_ifs <;> rfl

section UpdateRoot

variable (db obj)

theorem view_updateRoot : (obj.updateRoot db).view db = obj.view db := by
  simp [view, updateRoot, updateTrie, storageTrie, pending, Trie.putAll]

theorem data_updateRoot : (obj.updateRoot db).data = (obj.view db).toAccount C := by
  simp [view, updateRoot, updateTrie, storageTrie, LedgerAccount.toAccount]

variable {db obj}

theorem Coherent.updateRoot (coherent : obj.Coherent C K) (apart : C.SlotsApart K) :
    (obj.updateRoot db).Coherent C K where
  keys found := coherent.keys (by simpa [StateObject.updateRoot, updateTrie] using found)
  dirty found := by simp [StateObject.updateRoot, updateTrie] at found
  clean {key value} found _ :=
    ⟨(obj.view db).storage, rfl, coherent.get_of_cached apart
      (by simpa [StateObject.updateRoot, updateTrie] using found)⟩

end UpdateRoot

section Commit

/-- Writing the code leaves the object as it is, but for a flag. -/
theorem commitCode_snd (db : StateDatabase C) (obj : StateObject) :
    ∃ dirtyCode, (obj.commitCode db).2 = { obj with dirtyCode := dirtyCode } := by
  unfold commitCode
  split
  · exact ⟨obj.dirtyCode, rfl⟩
  · split_ifs
    · exact ⟨false, rfl⟩
    · exact ⟨obj.dirtyCode, rfl⟩

theorem openStorageTrie_commitCode (db : StateDatabase C) (obj : StateObject) (root : Hash) :
    (obj.commitCode db).1.openStorageTrie root = db.openStorageTrie root := by
  have storages : (obj.commitCode db).1.storages = db.storages := by
    unfold commitCode
    split
    · rfl
    · split_ifs
      · unfold StateDatabase.insertBlob
        split_ifs <;> rfl
      · rfl
  unfold StateDatabase.openStorageTrie
  rw [storages]

theorem extends_insertStorage (db : StateDatabase C) (root : Hash) (trie : Trie Word) :
    db.Extends (db.insertStorage root trie) := by
  intro root' trie' opened
  unfold StateDatabase.openStorageTrie at opened ⊢
  split_ifs at opened ⊢
  · exact opened
  · unfold StateDatabase.insertStorage
    dsimp only
    rw [Function.update_apply]
    split_ifs with same
    · rw [← same, opened]
      rfl
    · exact opened

/-- What `updateTrie` makes of an object depends on the storage tries of the database only. -/
theorem updateTrie_congr {db' : StateDatabase C} (same : ∀ root, db'.openStorageTrie root = db.openStorageTrie root)
    (obj : StateObject) : obj.updateTrie db' = obj.updateTrie db := by
  simp only [updateTrie, getTrie, storageTrie, same]

/-- An object is committed unless it met an error. -/
theorem committed_fst (db : StateDatabase C) (obj : StateObject) :
    (obj.committed db).1 = !(obj.updateTrie db).dbErr := by
  obtain ⟨dirtyCode, shape⟩ := commitCode_snd db obj
  have errors : ((obj.commitCode db).2.updateTrie (obj.commitCode db).1).dbErr = (obj.updateTrie db).dbErr := by
    rw [shape, updateTrie_congr (openStorageTrie_commitCode db obj)]
    cases opened : obj.trie <;> simp [updateTrie, getTrie, opened]
  unfold committed commitTrie
  dsimp only
  rw [← errors]
  cases ((obj.commitCode db).2.updateTrie (obj.commitCode db).1).dbErr <;> rfl

/-- What becomes of an object that is committed. -/
theorem committed_snd (db : StateDatabase C) (obj : StateObject) : db.Extends (obj.committed db).2.1 ∧
    ∃ dirtyCode data, (obj.committed db).2.2 = { obj.updateTrie db with dirtyCode := dirtyCode, data := data } ∧
      ((obj.committed db).1 = true → data = (obj.view db).toAccount C) := by
  obtain ⟨dirtyCode, shape⟩ := commitCode_snd db obj
  have same := openStorageTrie_commitCode db obj
  have updated : (obj.commitCode db).2.updateTrie (obj.commitCode db).1 =
      { obj.updateTrie db with dirtyCode := dirtyCode } := by
    rw [shape, updateTrie_congr same]
    cases opened : obj.trie <;> simp [updateTrie, getTrie, opened, storageTrie, pending]
  unfold committed commitTrie
  dsimp only
  rw [updated]
  split_ifs with failed
  · exact ⟨fun opened => (same _).trans opened, dirtyCode, (obj.updateTrie db).data, rfl, nofun⟩
  · refine ⟨fun opened => extends_insertStorage _ _ _ ((same _).trans opened), dirtyCode, _, rfl, fun _ => ?_⟩
    simp [updateTrie, storageTrie, LedgerAccount.toAccount, view]

end Commit

theorem Coherent.deepCopy (coherent : obj.Coherent C K) : obj.deepCopy.Coherent C K where
  keys found := coherent.mem_of_dirty found
  dirty found := found
  clean {key value} found clean := by
    change obj.dirtyStorage.lookup key = some value at found
    change obj.dirtyStorage.lookup key = none at clean
    rw [clean] at found
    cases found

end StateObject

end KKChain
