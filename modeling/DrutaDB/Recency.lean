import DrutaDB.Lib.RecencyList
import DrutaDB.Server

/-!
# The store as a recency list

What the store is for, without pointers: values by key in the order of their last use, and an
account of their memory.  A command looks at the value of one key and has one of a few effects on
it; nothing else changes unless the account exceeds the limit, and then the oldest keys go.
-/

namespace DrutaDB

open Machine Decimal Capacity

/-- The memory counter, the keys evicted so far, and whether a counter ever went below zero. -/
structure Account where
  usage : ℕ := 0
  evicted : List Bytes := []
  wrapped : Bool := false

namespace Account

def exceeds (a : Account) : Bool := lruMaxMemory < a.usage

def note (a : Account) (b : Bool) : Account := { a with wrapped := a.wrapped || b }

/-- A node leaves the account. -/
def release (a : Account) (k : Bytes) (v : DrutaValue) : Account where
  usage := subSize a.usage (nodeUsage k v)
  evicted := a.evicted
  wrapped := a.wrapped || decide (a.usage < nodeUsage k v)

def evict (a : Account) (e : Bytes × DrutaValue) : Account :=
  { a.release e.1 e.2 with evicted := a.evicted ++ [e.1] }

/-- What `notify_memory_change` makes of the counter. -/
def notify (a : Account) (oldSize newSize : ℕ) : Account :=
  { a with usage := Store.notified a.usage oldSize newSize }

end Account

structure Recency where
  nodes : RecencyList Bytes DrutaValue := .empty
  account : Account := {}

/-- What a command does to the value of its key. -/
inductive Effect
  | keep
  /-- The key is deleted. -/
  | drop
  /-- The value is written, its change of size is notified if it is given, and the key is
  touched. -/
  | assign (v : DrutaValue) (change : Option (ℕ × ℕ)) (wraps : Bool)
  /-- The key is touched before its value is written. -/
  | pop (v : DrutaValue) (oldSize newSize : ℕ) (wraps : Bool)
  | create (v : DrutaValue)
  /-- The key is made with the first value and then assigned the second. -/
  | createAssign (v₀ v : DrutaValue) (oldSize newSize : ℕ) (wraps : Bool)
  | fail (f : Fault)

/-- The value read last, as a touch leaves it. -/
def Effect.touch (v : DrutaValue) : Effect := .assign v none false

structure Outcome where
  reply : Bytes
  success : Bool := false
  effect : Effect := .keep

/-- A command on the store. -/
inductive Action
  /-- It works on one key. -/
  | access (key : Bytes) (outcome : Option DrutaValue → Outcome)
  /-- It reads. -/
  | inspect (m : StoreM (Bytes × Bool))
  | delete (keys : List Bytes)

/-! ## The linked nodes of a recency list -/

def firstKey (l : List (Bytes × DrutaValue)) : Option Bytes := l.head?.map Prod.fst

def lastKey (l : List (Bytes × DrutaValue)) : Option Bytes := l.getLast?.map Prod.fst

/-- The nodes of the entries, between a node before them and one behind them. -/
def links : Option Bytes → Option Bytes → List (Bytes × DrutaValue) →
    Std.ExtTreeMap Bytes DrutaNode
  | _, _, [] => ∅
  | p, n, (k, v) :: l =>
    (links (some k) n l).insert k { key := k, next := (firstKey l).or n, prev := p, value := v }

namespace Store

/-- The store with these nodes; `loose` is owned but not linked. -/
def linked (s : Store) (l : List (Bytes × DrutaValue)) (loose : Option (Bytes × DrutaValue)) :
    Store :=
  { s with
    kvStore := match loose with
      | none => links none none l
      | some (k, v) => (links none none l).insert k { key := k, value := v }
    head := lastKey l
    tail := firstKey l }

end Store

/-- A store with the account's counters and so many nodes. -/
def Account.store (a : Account) (n : ℕ) : Store where
  lruSize := n
  currentMemoryUsage := a.usage
  evicted := a.evicted
  wrapped := a.wrapped

namespace Recency

/-- The store whose nodes are the entries of the list. -/
def toStore (r : Recency) : Store :=
  (r.account.store r.nodes.length).linked r.nodes.entries none

def find (r : Recency) (key : Bytes) : Option DrutaValue := r.nodes.find key

/-- The oldest keys are evicted while the limit is exceeded. -/
def settle (r : Recency) : Recency :=
  ⟨(r.nodes.shed Account.exceeds Account.evict r.account).1,
    (r.nodes.shed Account.exceeds Account.evict r.account).2⟩

def drop (r : Recency) (key : Bytes) : Recency :=
  match r.find key with
  | some v => ⟨r.nodes.remove key, r.account.release key v⟩
  | none => r

/-- A new key. -/
def add (r : Recency) (key : Bytes) (v : DrutaValue) : Recency :=
  settle ⟨r.nodes.push key v,
    { r.account with usage := addSize r.account.usage (nodeUsage key v) }⟩

def write (r : Recency) (key : Bytes) (v : DrutaValue) (wraps : Bool) : Recency :=
  ⟨r.nodes.replace key v, r.account.note wraps⟩

def notify (r : Recency) (oldSize newSize : ℕ) : Recency :=
  settle ⟨r.nodes, r.account.notify oldSize newSize⟩

/-- The key becomes the most recent; a key that is gone is a fault. -/
def touch (r : Recency) (key : Bytes) : Except Fault Recency :=
  match r.find key with
  | some v => .ok { r with nodes := r.nodes.push key v }
  | none => .error .useAfterFree

/-- A value is written, its change notified, and its key touched. -/
def assign (r : Recency) (key : Bytes) (v : DrutaValue) (change : Option (ℕ × ℕ))
    (wraps : Bool) : Except Fault Recency :=
  match change with
  | some (oldSize, newSize) => ((r.write key v wraps).notify oldSize newSize).touch key
  | none => (r.write key v wraps).touch key

def perform (key : Bytes) (r : Recency) : Effect → Except Fault Recency
  | .keep => .ok r
  | .drop => .ok (r.drop key)
  | .assign v change wraps => r.assign key v change wraps
  | .pop v oldSize newSize wraps => do
    let r' ← r.touch key
    return (r'.write key v wraps).notify oldSize newSize
  | .create v => .ok (r.add key v)
  | .createAssign v₀ v oldSize newSize wraps =>
    match (r.add key v₀).find key with
    | some _ => (r.add key v₀).assign key v (some (oldSize, newSize)) wraps
    | none => .error .useAfterFree
  | .fail f => .error f

/-- A command on a key, from its outcome. -/
def apply (r : Recency) (key : Bytes) (o : Outcome) : Except Fault ((Bytes × Bool) × Recency) :=
  (r.perform key o.effect).map fun r' => ((o.reply, o.success), r')

/-- `FLUSHDB`. -/
def flush (r : Recency) : Recency := ⟨.empty, { r.account with usage := 0 }⟩

end Recency

namespace Action

/-- The loop of `DEL` on the list. -/
def deleteAll : List Bytes → Recency → ℕ × Recency
  | [], r => (0, r)
  | key :: keys, r =>
    match r.find key with
    | some _ => ((deleteAll keys (r.drop key)).1 + 1, (deleteAll keys (r.drop key)).2)
    | none => deleteAll keys r

/-- The reply of a command, its success flag, and the list after it. -/
def run (r : Recency) : Action → Except Fault ((Bytes × Bool) × Recency)
  | .access key outcome => r.apply key (outcome (r.find key))
  | .inspect m => (m r.toStore).map fun a => (a.1, r)
  | .delete keys =>
    let (deleted, r') := deleteAll keys r
    .ok ((sendInteger deleted, decide (0 < deleted)), r')

end Action

/-! ## What the commands do -/

section Outcomes

variable (now : ℤ) (args : List Bytes)

def setOutcome (o : Option DrutaValue) : Outcome :=
  match setOptions now (args.drop 3) 0 with
  | .error _ => { reply := notInteger }
  | .ok expireAt =>
    let v := DrutaValue.ofString (arg args 2) expireAt
    { reply := okReply, success := true
      effect := match o with
        | some old => .assign v (some (nodeUsage (arg args 1) old, nodeUsage (arg args 1) v)) false
        | none => .create v }

def getOutcome : Option DrutaValue → Outcome
  | none => { reply := nilReply }
  | some v =>
    match v.data with
    | .string d =>
      if v.expired now then { reply := nilReply, effect := .drop }
      else { reply := respBulkString d, effect := .touch v }
    | _ => { reply := wrongType }

def pushOutcome (atFront : Bool) : Option DrutaValue → Outcome
  | some v =>
    match v.data with
    | .list l =>
      let (l', delta) := pushLoop atFront (args.drop 2) l 0
      { reply := sendInteger l'.length, success := true
        effect := .assign { v with data := .list l', memoryUsage := addSize v.memoryUsage delta }
          (some (0, delta)) false }
    | _ => { reply := wrongType }
  | none =>
    let (l', delta) := pushLoop atFront (args.drop 2) [] 0
    { reply := sendInteger l'.length, success := true
      effect := .create { data := .list l', memoryUsage := delta } }

def lrangeOutcome : Option DrutaValue → Outcome
  | none => { reply := ascii "*0" ++ crlf }
  | some v =>
    match v.data with
    | .list l =>
      match stoi (arg args 2), stoi (arg args 3) with
      | .ok li, .ok ri => { reply := lrangeReply l li ri, effect := .touch v }
      | _, _ =>
        { reply := ascii "-WRONGTYPE Non-numeric values given for range" ++ crlf
          effect := .touch v }
    | _ => { reply := wrongType }

def popOutcome (fromFront : Bool) : Option DrutaValue → Outcome
  | none =>
    if 3 < args.length then { reply := ascii "-ERR Invalid number of arguments" ++ crlf }
    else { reply := ascii "*0" ++ crlf }
  | some v =>
    if 3 < args.length then { reply := ascii "-ERR Invalid number of arguments" ++ crlf }
    else
      match v.data with
      | .list l =>
        let count := min (popCount args) (toInt l.length)
        match popLoop (if fromFront then l else l.reverse) count with
        | .error f => { reply := [], effect := .fail f }
        | .ok (taken, left) =>
          let delta := toSize (taken.map listElementUsage).sum
          { reply := respArray count ++ taken.flatMap respBulkString, success := true
            effect := .pop { v with
              data := .list (if fromFront then left else left.reverse)
              memoryUsage := subSize v.memoryUsage delta } delta 0
                (decide (v.memoryUsage < delta)) }
      | _ => { reply := wrongType }

def llenOutcome : Option DrutaValue → Outcome
  | none => { reply := ascii ":0" ++ crlf }
  | some v =>
    match v.data with
    | .list l => { reply := sendInteger l.length, effect := .touch v }
    | _ => { reply := wrongType }

/-- The value `HSET` leaves of a value that holds the hash. -/
def hsetValue (v : DrutaValue) (h : DrutaHash) : DrutaValue :=
  let h' := (hsetLoop (args.drop 2) h 0 false).1
  { v with data := .hash h', memoryUsage := shiftUsage v.memoryUsage h.memoryUsage h'.memoryUsage }

def hsetOutcome (o : Option DrutaValue) : Outcome :=
  if args.length < 4 ∨ args.length % 2 ≠ 0 then { reply := wrongNumber "hset" }
  else
    match o with
    | some v =>
      match v.data with
      | .hash h =>
        let (h', created, wraps) := hsetLoop (args.drop 2) h 0 false
        { reply := sendInteger created, success := decide (0 < created)
          effect := .assign (hsetValue args v h) (some (h.memoryUsage, h'.memoryUsage))
            (wraps || decide (v.memoryUsage < h.memoryUsage - h'.memoryUsage)) }
      | _ => { reply := wrongType }
    | none =>
      let v : DrutaValue := { data := .hash .empty, memoryUsage := 0 }
      let (h', created, wraps) := hsetLoop (args.drop 2) .empty 0 false
      { reply := sendInteger created, success := decide (0 < created)
        effect := .createAssign v (hsetValue args v .empty) 0 h'.memoryUsage wraps }

def hgetOutcome (o : Option DrutaValue) : Outcome :=
  if args.length ≠ 3 then { reply := wrongNumber "hget" }
  else
    match o with
    | none => { reply := nilReply }
    | some v =>
      match v.data with
      | .hash h =>
        match h.getHash (arg args 2) with
        | some val => { reply := respBulkString val, effect := .touch v }
        | none => { reply := nilReply }
      | _ => { reply := wrongType }

def hgetallOutcome (o : Option DrutaValue) : Outcome :=
  if args.length ≠ 2 then { reply := wrongNumber "hgetall" }
  else
    match o with
    | none => { reply := ascii "*0" ++ crlf }
    | some v =>
      match v.data with
      | .hash h =>
        match reserve (addSize 1024 h.memoryUsage) with
        | .ok _ =>
          { reply := respArray (h.toList.length * 2 : ℕ) ++
              h.toList.flatMap fun p => respBulkString p.1 ++ respBulkString p.2
            effect := .touch v }
        | .error e => { reply := [], effect := .fail (.uncaught e) }
      | _ => { reply := wrongType }

def hdelOutcome (o : Option DrutaValue) : Outcome :=
  if args.length < 3 then { reply := wrongNumber "hdel" }
  else
    match o with
    | none => { reply := sendInteger 0 }
    | some v =>
      match v.data with
      | .hash h =>
        let (h', deleted, wraps) := hdelLoop (args.drop 2) h 0 false
        { reply := sendInteger deleted, success := decide (0 < deleted)
          effect := if h'.memoryUsage < h.memoryUsage then
              .assign { v with
                data := .hash h'
                memoryUsage := subSize v.memoryUsage (h.memoryUsage - h'.memoryUsage) }
                (some (h.memoryUsage, h'.memoryUsage))
                (wraps || decide (v.memoryUsage < h.memoryUsage - h'.memoryUsage))
            else .assign { v with data := .hash h' } none wraps }
      | _ => { reply := wrongType }

def hlenOutcome (o : Option DrutaValue) : Outcome :=
  if args.length ≠ 2 then { reply := wrongNumber "hlen" }
  else
    match o with
    | none => { reply := sendInteger 0 }
    | some v =>
      match v.data with
      | .hash h => { reply := sendInteger h.size }
      | _ => { reply := wrongType }

def saddOutcome : Option DrutaValue → Outcome
  | some v =>
    match v.data with
    | .set s =>
      let (s', delta, created) := saddLoop (args.drop 2) s 0 0
      { reply := sendInteger created, success := decide (0 < created)
        effect := .assign
          { v with data := .set s', memoryUsage := addSize v.memoryUsage (toSize delta) }
          (some (0, toSize delta)) false }
    | _ => { reply := wrongType }
  | none =>
    let (s', usage, created) := saddNewLoop (args.drop 2) ∅ 0 0
    { reply := sendInteger created, success := decide (0 < created)
      effect := .create { data := .set s', memoryUsage := usage } }

def sismemberOutcome (o : Option DrutaValue) : Outcome :=
  if args.length ≠ 3 then { reply := wrongNumber "sismember" }
  else
    match o with
    | none => { reply := sendInteger 0 }
    | some v =>
      match v.data with
      | .set s => { reply := sendInteger (if s.contains (arg args 2) then 1 else 0) }
      | _ => { reply := wrongType }

def smismemberOutcome (o : Option DrutaValue) : Outcome :=
  if args.length < 3 then { reply := wrongNumber "sismember" }
  else
    match o with
    | none => { reply := sendInteger 0 }
    | some v =>
      match v.data with
      | .set s =>
        { reply := respArray (args.length - 2 : ℕ) ++ (args.drop 2).flatMap fun a =>
            (if s.contains a then ascii ":1" else ascii ":0") ++ crlf }
      | _ => { reply := wrongType }

def scardOutcome (o : Option DrutaValue) : Outcome :=
  if args.length ≠ 2 then { reply := wrongNumber "scard" }
  else
    match o with
    | none => { reply := sendInteger 0 }
    | some v =>
      match v.data with
      | .set s => { reply := sendInteger s.size }
      | _ => { reply := wrongType }

def smembersOutcome (o : Option DrutaValue) : Outcome :=
  if args.length ≠ 2 then { reply := wrongNumber "smembers" }
  else
    match o with
    | none => { reply := ascii "*0" ++ crlf }
    | some v =>
      match v.data with
      | .set s =>
        match reserve (addSize 1024 v.memoryUsage) with
        | .ok _ => { reply := respArrayOf s.toList }
        | .error e => { reply := [], effect := .fail (.uncaught e) }
      | _ => { reply := wrongType }

def sdelOutcome : Option DrutaValue → Outcome
  | some v =>
    match v.data with
    | .set s =>
      let (s', delta, deleted) := sdelLoop (args.drop 2) s 0 0
      { reply := sendInteger deleted, success := decide (0 < deleted)
        effect := .assign
          { v with data := .set s', memoryUsage := subSize v.memoryUsage (toSize delta) }
          (some (toSize delta, 0)) (decide (v.memoryUsage < toSize delta)) }
    | _ => { reply := wrongType }
  | none => { reply := noSuchKey }

/-- What a branch of `handle_command` does to the store, if it works on it. -/
def Call.action : Call → Option Action
  | .set => some (.access (arg args 1) (setOutcome now args))
  | .get => some (.access (arg args 1) (getOutcome now))
  | .rpush => some (.access (arg args 1) (pushOutcome args false))
  | .lpush => some (.access (arg args 1) (pushOutcome args true))
  | .lrange => some (.access (arg args 1) (lrangeOutcome args))
  | .lpop => some (.access (arg args 1) (popOutcome args true))
  | .rpop => some (.access (arg args 1) (popOutcome args false))
  | .del => some (.delete (args.drop 1))
  | .llen => some (.access (arg args 1) llenOutcome)
  | .hset => some (.access (arg args 1) (hsetOutcome args))
  | .hget => some (.access (arg args 1) (hgetOutcome args))
  | .hgetall => some (.access (arg args 1) (hgetallOutcome args))
  | .hdel => some (.access (arg args 1) (hdelOutcome args))
  | .hlen => some (.access (arg args 1) (hlenOutcome args))
  | .sadd => some (.access (arg args 1) (saddOutcome args))
  | .scard => some (.access (arg args 1) (scardOutcome args))
  | .sismember => some (.access (arg args 1) (sismemberOutcome args))
  | .smembers => some (.access (arg args 1) (smembersOutcome args))
  | .smismember => some (.access (arg args 1) (smismemberOutcome args))
  | .sinter => some (.inspect (commandSinter args))
  | .sunion => some (.inspect (commandSunion args))
  | .sdiff => some (.inspect (commandSdiff args))
  | .sdel => some (.access (arg args 1) (sdelOutcome args))
  | .memstats => some (.inspect commandMemstats)
  | _ => none

end Outcomes

/-! ## What an event does to the store -/

inductive Change
  | quiet
  | flush
  | act (a : Action)

/-- `FLUSHDB` with its flag. -/
def flushes (args : List Bytes) : Bool := 2 ≤ args.length && arg args 1 = ascii "--sure"

def Call.change (now : ℤ) (args : List Bytes) (c : Call) : Change :=
  match c.action now args with
  | some a => .act a
  | none => if c = .flushdb ∧ flushes args then .flush else .quiet

/-- The branch a command takes. -/
def callOf (args : List Bytes) : Call := route (toUpper (args.headD [])) args.length

def Event.change (s : Server) : Event → Change
  | .connect _ => .quiet
  | .disconnect _ => .quiet
  | .command env fd args =>
    if turnedAway s fd (toUpper (args.headD [])) then .quiet else (callOf args).change env.now args

end DrutaDB
