import DrutaDB.Hash

/-!
# The store and its recency list

`store.hpp` and `lru.cpp`: `kv_store` owns the nodes, and the nodes are linked from `TAIL`, the
least recently used, to `HEAD`.  A node is known by its key, since `kv_store` owns at most one
node a key and a node's key never changes; reading or writing a node that `kv_store` no longer
owns is a fault.
-/

namespace DrutaDB

open Machine Decimal Capacity

/-- `DrutaValue::data`; which form it is stands for `DrutaValue::type`. -/
inductive Data
  | string (s : Bytes)
  | list (l : List Bytes)
  | hash (h : DrutaHash)
  | set (s : Std.ExtTreeSet Bytes)

structure DrutaValue where
  data : Data
  expiryTime : ℤ := 0
  memoryUsage : ℕ

/-- The constructor for `STRING`. -/
def DrutaValue.ofString (d : Bytes) (e : ℤ) : DrutaValue where
  data := .string d
  expiryTime := e
  memoryUsage := sizeofString + copyCapacity d

structure DrutaNode where
  key : Bytes
  next : Option Bytes := none
  prev : Option Bytes := none
  value : DrutaValue

/-- `sizeof(DrutaNode)` with libstdc++ on a 64-bit machine. -/
def sizeofDrutaNode : ℕ := 160

/-- `DrutaNode::get_memory_usage` of a node with this key and value. -/
def nodeUsage (key : Bytes) (value : DrutaValue) : ℕ :=
  addSize (sizeofDrutaNode + copyCapacity key) value.memoryUsage

def DrutaNode.getMemoryUsage (n : DrutaNode) : ℕ := nodeUsage n.key n.value

def lruMaxMemory : ℕ := 64 * 1024 * 1024

/-- `kv_store` and the globals of `lru.cpp`.  `evicted` holds the keys `evict_lru` announced on
the console, and `wrapped` whether a subtraction from a memory counter ever went below zero. -/
structure Store where
  kvStore : Std.ExtTreeMap Bytes DrutaNode := ∅
  head : Option Bytes := none
  tail : Option Bytes := none
  lruSize : ℕ := 0
  currentMemoryUsage : ℕ := 0
  evicted : List Bytes := []
  wrapped : Bool := false

/-- What ends a run of the program. -/
inductive Fault
  /-- A node is read or written after `kv_store` freed it. -/
  | useAfterFree
  /-- `front` or `back` of an empty deque. -/
  | emptyDeque
  /-- The first argument of an empty command. -/
  | noArguments
  /-- A loop that does not end. -/
  | endless
  /-- An exception nobody catches. -/
  | uncaught (e : StdException)
  deriving DecidableEq, Repr

abbrev StoreM := StateT Store (Except Fault)

namespace Store

/-- `kv_store.find(key)` -/
def find (key : Bytes) : StoreM (Option DrutaValue) := fun s =>
  .ok (s.kvStore[key]?.map (·.value), s)

/-- A read through a pointer to the node of a key. -/
def deref (key : Bytes) : StoreM DrutaNode := fun s =>
  match s.kvStore[key]? with
  | some n => .ok (n, s)
  | none => .error .useAfterFree

/-- A write through a pointer to the node of a key. -/
def modifyNode (key : Bytes) (f : DrutaNode → DrutaNode) : StoreM Unit := fun s =>
  match s.kvStore[key]? with
  | some n => .ok ((), { s with kvStore := s.kvStore.insert key (f n) })
  | none => .error .useAfterFree

/-- `node->value = value` -/
def setValue (key : Bytes) (value : DrutaValue) : StoreM Unit :=
  modifyNode key fun n => { n with value }

/-- `kv_store[key] = std::make_unique<DrutaNode>(key, value)` -/
def newNode (key : Bytes) (value : DrutaValue) : StoreM Unit :=
  modify fun s => { s with kvStore := s.kvStore.insert key { key, value } }

/-- `kv_store.erase(key)` -/
def erase (key : Bytes) : StoreM Unit :=
  modify fun s => { s with kvStore := s.kvStore.erase key }

/-- `current_memory_usage -= amount` -/
def subUsage (amount : ℕ) : StoreM Unit :=
  modify fun s => { s with
    currentMemoryUsage := subSize s.currentMemoryUsage amount
    wrapped := s.wrapped || decide (s.currentMemoryUsage < amount) }

/-- Whether a subtraction from the counter of a value went below zero. -/
def noteWrap (b : Bool) : StoreM Unit :=
  modify fun s => { s with wrapped := s.wrapped || b }

def detach (node : Bytes) : StoreM Unit := do
  let n ← deref node
  match n.prev with
  | some p => modifyNode p fun m => { m with next := n.next }
  | none => modify fun s => { s with tail := n.next }
  match n.next with
  | some q => modifyNode q fun m => { m with prev := n.prev }
  | none => modify fun s => { s with head := n.prev }
  modifyNode node fun m => { m with prev := none, next := none }

def attachHead (node : Bytes) : StoreM Unit := do
  match (← get).head with
  | none => modify fun s => { s with head := some node, tail := some node }
  | some h =>
    modifyNode node fun m => { m with prev := some h }
    modifyNode h fun m => { m with next := some node }
    modify fun s => { s with head := some node }

def evictLru : StoreM Unit := do
  match (← get).tail with
  | none => pure ()
  | some node =>
    let n ← deref node
    modify fun s => { s with evicted := s.evicted ++ [n.key] }
    subUsage n.getMemoryUsage
    detach node
    erase n.key
    modify fun s => { s with lruSize := s.lruSize - 1 }

/-- `while (current_memory_usage > LRU_MAX_MEMORY && TAIL) evict_lru();` for at most so many
rounds. -/
def evictWhile : ℕ → StoreM Unit
  | 0 => fun s => if lruMaxMemory < s.currentMemoryUsage ∧ s.tail.isSome then .error .endless
      else .ok ((), s)
  | fuel + 1 => fun s => if lruMaxMemory < s.currentMemoryUsage ∧ s.tail.isSome then
      (do evictLru; evictWhile fuel).run s else .ok ((), s)

/-- The eviction loop; every round erases a node, so one round a node is enough. -/
def evictLoop : StoreM Unit := do
  evictWhile (← get).kvStore.size

def addLru (node : Bytes) : StoreM Unit := do
  let n ← deref node
  modify fun s => { s with
    currentMemoryUsage := addSize s.currentMemoryUsage n.getMemoryUsage }
  attachHead node
  modify fun s => { s with lruSize := s.lruSize + 1 }
  evictLoop

/-- The counter `notify_memory_change` leaves. -/
def notified (usage oldSize newSize : ℕ) : ℕ :=
  if oldSize < newSize then addSize usage (newSize - oldSize)
  else if oldSize - newSize < usage then usage - (oldSize - newSize)
  else 0

def notifyMemoryChange (oldSize newSize : ℕ) : StoreM Unit := do
  modify fun s => { s with
    currentMemoryUsage := notified s.currentMemoryUsage oldSize newSize }
  evictLoop

def touchLru (node : Bytes) : StoreM Unit := do
  if (← get).head = some node then pure ()
  else
    detach node
    attachHead node

def updateLru (node : Bytes) (value : DrutaValue) : StoreM Unit := do
  let oldSize := (← deref node).getMemoryUsage
  setValue node value
  let newSize := (← deref node).getMemoryUsage
  notifyMemoryChange oldSize newSize
  touchLru node

def removeFromLru (node : Bytes) : StoreM Unit := do
  let n ← deref node
  subUsage n.getMemoryUsage
  detach node
  modify fun s => { s with lruSize := s.lruSize - 1 }

/-- `clear_lru` and `kv_store.clear()` -/
def clear (s : Store) : Store :=
  { s with kvStore := ∅, head := none, tail := none, lruSize := 0, currentMemoryUsage := 0 }

end Store

end DrutaDB
