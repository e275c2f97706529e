import DrutaDB.Parser
import DrutaDB.Store

/-!
# The commands on the store

The `command_*` functions of `commands.cpp` that work on `kv_store`.  Each gives the bytes it
sends to its client and its success flag, `false` for those that return nothing.  The clock comes
in as `now`; `command_set` reads it for each `EX` or `PX`, and the last of them counts.
-/

namespace DrutaDB

open Machine Decimal Capacity Store

/-- `args[i]`, for an `i` the dispatch has checked. -/
def arg (args : List Bytes) (i : ℕ) : Bytes := args.getD i []

/-- `toupper` of every character, in the C locale. -/
def toUpper (s : Bytes) : Bytes := s.map fun c => if 97 ≤ c ∧ c ≤ 122 then c - 32 else c

/-- `send_integer` -/
def sendInteger (n : ℤ) : Bytes := byte ':' :: toDecimalInt (toInt n) ++ crlf

def nilReply : Bytes := ascii "$-1" ++ crlf

def wrongType : Bytes :=
  ascii "-WRONGTYPE Operation against a key holding the wrong kind of value" ++ crlf

/-- The array of bulk strings. -/
def respArrayOf (l : List Bytes) : Bytes := respArray l.length ++ l.flatMap respBulkString

/-- The error of a command with a wrong number of arguments, under the name it gives itself. -/
def wrongNumber (name : String) : Bytes :=
  ascii "-ERR wrong number of arguments for '" ++ ascii name ++ ascii "' command" ++ crlf

/-! ## Strings -/

/-- The option loop of `command_set`, from the argument it has reached. -/
def setOptions (now : ℤ) : List Bytes → ℤ → Except StdException ℤ
  | opt :: val :: rest, expireAt =>
    if toUpper opt = ascii "EX" then
      match stoll val with
      | .ok seconds => setOptions now rest (toLong (now + toLong (seconds * 1000)))
      | .error e => .error e
    else if toUpper opt = ascii "PX" then
      match stoll val with
      | .ok ms => setOptions now rest (toLong (now + ms))
      | .error e => .error e
    else if toUpper opt = ascii "PXAT" then
      match stoll val with
      | .ok ms => setOptions now rest ms
      | .error e => .error e
    else setOptions now (val :: rest) expireAt
  | _, expireAt => .ok expireAt

def notInteger : Bytes := ascii "-ERR value is not an integer or out of range" ++ crlf

def okReply : Bytes := ascii "+OK" ++ crlf

def commandSet (now : ℤ) (args : List Bytes) : StoreM (Bytes × Bool) := do
  let key := arg args 1
  match setOptions now (args.drop 3) 0 with
  | .error _ => pure (notInteger, false)
  | .ok expireAt =>
    match ← find key with
    | some _ => updateLru key (.ofString (arg args 2) expireAt)
    | none =>
      newNode key (.ofString (arg args 2) expireAt)
      addLru key
    pure (okReply, true)

/-- The test `GET` makes on a deadline. -/
def DrutaValue.expired (now : ℤ) (v : DrutaValue) : Bool :=
  v.expiryTime ≠ 0 && v.expiryTime < now

def commandGet (now : ℤ) (args : List Bytes) : StoreM (Bytes × Bool) := do
  let key := arg args 1
  match ← find key with
  | none => pure (nilReply, false)
  | some v =>
    match v.data with
    | .string d =>
      if v.expired now then
        removeFromLru key
        erase key
        pure (nilReply, false)
      else
        touchLru key
        pure (respBulkString d, false)
    | _ => pure (wrongType, false)

/-! ## Lists -/

/-- What an element of a list counts for: `calc_string_usage(s) + sizeof(std::string) + 8`. -/
def listElementUsage (s : Bytes) : ℕ := copyCapacity s + sizeofString + 8

/-- The loop of `generic_push`: the list and the memory added. -/
def pushLoop (atFront : Bool) : List Bytes → List Bytes → ℕ → List Bytes × ℕ
  | [], l, delta => (l, delta)
  | a :: as, l, delta =>
    pushLoop atFront as (if atFront then a :: l else l ++ [a]) (addSize delta (listElementUsage a))

def genericPush (args : List Bytes) (atFront : Bool) : StoreM (Bytes × Bool) := do
  let key := arg args 1
  match ← find key with
  | some v =>
    match v.data with
    | .list l =>
      let (l', delta) := pushLoop atFront (args.drop 2) l 0
      setValue key { v with data := .list l', memoryUsage := addSize v.memoryUsage delta }
      notifyMemoryChange 0 delta
      touchLru key
      pure (sendInteger l'.length, true)
    | _ => pure (wrongType, false)
  | none =>
    let (l', delta) := pushLoop atFront (args.drop 2) [] 0
    newNode key { data := .list l', memoryUsage := delta }
    addLru key
    pure (sendInteger l'.length, true)

def commandRpush (args : List Bytes) : StoreM (Bytes × Bool) := genericPush args false

def commandLpush (args : List Bytes) : StoreM (Bytes × Bool) := genericPush args true

/-- The bounds `command_lrange` clamps, for a list of `size` elements. -/
def lrangeBounds (size li ri : ℤ) : ℤ × ℤ :=
  let li := if li < 0 then toInt (li + size) else li
  let ri := if ri < 0 then toInt (ri + size) else ri
  (max li 0, min ri (toInt (size - 1)))

/-- The reply of `LRANGE` for the two indices. -/
def lrangeReply (l : List Bytes) (li ri : ℤ) : Bytes :=
  let size := toInt l.length
  let (li, ri) := lrangeBounds size li ri
  if size ≤ li ∨ ri < li then ascii "*0" ++ crlf
  else
    respArray (ri - li + 1) ++ (List.range (ri - li + 1).toNat).flatMap fun i =>
      respBulkString (l.getD (i + li.toNat) [])

def commandLrange (args : List Bytes) : StoreM (Bytes × Bool) := do
  let key := arg args 1
  match ← find key with
  | none => pure (ascii "*0" ++ crlf, false)
  | some v =>
    match v.data with
    | .list l =>
      touchLru key
      match stoi (arg args 2), stoi (arg args 3) with
      | .ok li, .ok ri => pure (lrangeReply l li ri, false)
      | _, _ => pure (ascii "-WRONGTYPE Non-numeric values given for range" ++ crlf, false)
    | _ => pure (wrongType, false)

/-- The loop `while (actual_pop)` of `generic_pop` on the elements in the order it takes them:
those taken and those left. -/
def popLoop : List Bytes → ℤ → Except Fault (List Bytes × List Bytes)
  | [], n => if n = 0 then .ok ([], []) else .error .emptyDeque
  | a :: l, n =>
    if n = 0 then .ok ([], a :: l)
    else
      match popLoop l (n - 1) with
      | .ok (taken, left) => .ok (a :: taken, left)
      | .error f => .error f

/-- The count of `LPOP` and `RPOP`; what is not a number counts as one. -/
def popCount (args : List Bytes) : ℤ :=
  if args.length = 3 then
    match stoi (arg args 2) with
    | .ok n => n
    | .error _ => 1
  else 1

def genericPop (args : List Bytes) (fromFront : Bool) : StoreM (Bytes × Bool) := do
  let key := arg args 1
  if 3 < args.length then pure (ascii "-ERR Invalid number of arguments" ++ crlf, false)
  else
    match ← find key with
    | none => pure (ascii "*0" ++ crlf, false)
    | some v =>
      match v.data with
      | .list l =>
        touchLru key
        let count := min (popCount args) (toInt l.length)
        let (taken, left) ← popLoop (if fromFront then l else l.reverse) count
        let delta := toSize (taken.map listElementUsage).sum
        setValue key { v with
          data := .list (if fromFront then left else left.reverse)
          memoryUsage := subSize v.memoryUsage delta }
        noteWrap (v.memoryUsage < delta)
        notifyMemoryChange delta 0
        pure (respArray count ++ taken.flatMap respBulkString, true)
      | _ => pure (wrongType, false)

def commandLpop (args : List Bytes) : StoreM (Bytes × Bool) := genericPop args true

def commandRpop (args : List Bytes) : StoreM (Bytes × Bool) := genericPop args false

def commandLlen (args : List Bytes) : StoreM (Bytes × Bool) := do
  let key := arg args 1
  match ← find key with
  | none => pure (ascii ":0" ++ crlf, false)
  | some v =>
    match v.data with
    | .list l =>
      touchLru key
      pure (sendInteger l.length, false)
    | _ => pure (wrongType, false)

/-! ## Keys -/

/-- The loop of `command_del`: how many of the keys it deletes. -/
def delLoop : List Bytes → StoreM ℕ
  | [] => pure 0
  | key :: keys => do
    match ← find key with
    | some _ =>
      removeFromLru key
      erase key
      return 1 + (← delLoop keys)
    | none => delLoop keys

def commandDel (args : List Bytes) : StoreM (Bytes × Bool) := do
  let deleted ← delLoop (args.drop 1)
  pure (sendInteger deleted, decide (0 < deleted))

/-! ## Hashes -/

/-- The loop of `command_hset`: the hash, how many fields were created, and whether a counter of
the hash went below zero. -/
def hsetLoop : List Bytes → DrutaHash → ℕ → Bool → DrutaHash × ℕ × Bool
  | field :: value :: rest, h, created, wraps =>
    hsetLoop rest (h.setHash field value).1
      (if (h.setHash field value).2 then created + 1 else created)
      (wraps || h.setHashWraps field)
  | _, h, created, wraps => (h, created, wraps)

/-- The counter of a value after that of its hash went from `oldMem` to `newMem`. -/
def shiftUsage (usage oldMem newMem : ℕ) : ℕ :=
  if oldMem < newMem then addSize usage (newMem - oldMem)
  else if newMem < oldMem then subSize usage (oldMem - newMem)
  else usage

/-- `command_hset` from the point where it holds the node and its hash. -/
def hsetNode (key : Bytes) (v : DrutaValue) (h : DrutaHash) (args : List Bytes) :
    StoreM (Bytes × Bool) := do
  let oldMem := h.memoryUsage
  let (h', created, wraps) := hsetLoop (args.drop 2) h 0 false
  let newMem := h'.memoryUsage
  setValue key { v with data := .hash h', memoryUsage := shiftUsage v.memoryUsage oldMem newMem }
  noteWrap (wraps || decide (v.memoryUsage < oldMem - newMem))
  notifyMemoryChange oldMem newMem
  touchLru key
  pure (sendInteger created, decide (0 < created))

def commandHset (args : List Bytes) : StoreM (Bytes × Bool) := do
  if args.length < 4 ∨ args.length % 2 ≠ 0 then pure (wrongNumber "hset", false)
  else
    let key := arg args 1
    match ← find key with
    | some v =>
      match v.data with
      | .hash h => hsetNode key v h args
      | _ => pure (wrongType, false)
    | none =>
      let v : DrutaValue := { data := .hash .empty, memoryUsage := 0 }
      newNode key v
      addLru key
      let _ ← deref key
      hsetNode key v .empty args

def commandHget (args : List Bytes) : StoreM (Bytes × Bool) := do
  if args.length ≠ 3 then pure (wrongNumber "hget", false)
  else
    let key := arg args 1
    match ← find key with
    | none => pure (nilReply, false)
    | some v =>
      match v.data with
      | .hash h =>
        match h.getHash (arg args 2) with
        | some val =>
          touchLru key
          pure (respBulkString val, false)
        | none => pure (nilReply, false)
      | _ => pure (wrongType, false)

/-- An exception that leaves the command. -/
def uncaught {α : Type} (r : Except StdException α) : Except Fault α :=
  r.mapError .uncaught

def commandHgetall (args : List Bytes) : StoreM (Bytes × Bool) := do
  if args.length ≠ 2 then pure (wrongNumber "hgetall", false)
  else
    let key := arg args 1
    match ← find key with
    | none => pure (ascii "*0" ++ crlf, false)
    | some v =>
      match v.data with
      | .hash h =>
        touchLru key
        uncaught (reserve (addSize 1024 h.memoryUsage))
        pure (respArray (h.toList.length * 2 : ℕ) ++
          h.toList.flatMap fun p => respBulkString p.1 ++ respBulkString p.2, false)
      | _ => pure (wrongType, false)

/-- The loop of `command_hdel`: the hash, how many fields were deleted, and whether a counter of
the hash went below zero. -/
def hdelLoop : List Bytes → DrutaHash → ℕ → Bool → DrutaHash × ℕ × Bool
  | [], h, deleted, wraps => (h, deleted, wraps)
  | field :: rest, h, deleted, wraps =>
    hdelLoop rest (h.delHash field).1
      (if (h.delHash field).2 then deleted + 1 else deleted)
      (wraps || h.delHashWraps field)

def commandHdel (args : List Bytes) : StoreM (Bytes × Bool) := do
  if args.length < 3 then pure (wrongNumber "hdel", false)
  else
    let key := arg args 1
    match ← find key with
    | none => pure (sendInteger 0, false)
    | some v =>
      match v.data with
      | .hash h =>
        let oldMem := h.memoryUsage
        let (h', deleted, wraps) := hdelLoop (args.drop 2) h 0 false
        let newMem := h'.memoryUsage
        noteWrap wraps
        if newMem < oldMem then
          setValue key { v with
            data := .hash h', memoryUsage := subSize v.memoryUsage (oldMem - newMem) }
          noteWrap (v.memoryUsage < oldMem - newMem)
          notifyMemoryChange oldMem newMem
        else setValue key { v with data := .hash h' }
        touchLru key
        pure (sendInteger deleted, decide (0 < deleted))
      | _ => pure (wrongType, false)

def commandHlen (args : List Bytes) : StoreM (Bytes × Bool) := do
  if args.length ≠ 2 then pure (wrongNumber "hlen", false)
  else
    match ← find (arg args 1) with
    | none => pure (sendInteger 0, false)
    | some v =>
      match v.data with
      | .hash h => pure (sendInteger h.size, false)
      | _ => pure (wrongType, false)

/-! ## Sets -/

/-- What a member of a set counts for. -/
def setElementUsage (s : Bytes) : ℕ := copyCapacity s + sizeofString + 8 * sizeofPointer

/-- The loop of `command_sadd` on a set in the store, its memory delta an `int`: the set, the
delta, and how many members were new. -/
def saddLoop : List Bytes → Std.ExtTreeSet Bytes → ℤ → ℕ → Std.ExtTreeSet Bytes × ℤ × ℕ
  | [], s, delta, created => (s, delta, created)
  | a :: as, s, delta, created =>
    if s.contains a then saddLoop as s delta created
    else saddLoop as (s.insert a) (toInt (toSize (delta + setElementUsage a))) (created + 1)

/-- The loop of `command_sadd` on a set of its own, its memory counter a `size_t`. -/
def saddNewLoop : List Bytes → Std.ExtTreeSet Bytes → ℕ → ℕ → Std.ExtTreeSet Bytes × ℕ × ℕ
  | [], s, usage, created => (s, usage, created)
  | a :: as, s, usage, created =>
    if s.contains a then saddNewLoop as s usage created
    else saddNewLoop as (s.insert a) (addSize usage (setElementUsage a)) (created + 1)

def commandSadd (args : List Bytes) : StoreM (Bytes × Bool) := do
  let key := arg args 1
  match ← find key with
  | some v =>
    match v.data with
    | .set s =>
      let (s', delta, created) := saddLoop (args.drop 2) s 0 0
      setValue key { v with data := .set s', memoryUsage := addSize v.memoryUsage (toSize delta) }
      notifyMemoryChange 0 (toSize delta)
      touchLru key
      pure (sendInteger created, decide (0 < created))
    | _ => pure (wrongType, false)
  | none =>
    let (s', usage, created) := saddNewLoop (args.drop 2) ∅ 0 0
    newNode key { data := .set s', memoryUsage := usage }
    addLru key
    pure (sendInteger created, decide (0 < created))

def commandSismember (args : List Bytes) : StoreM (Bytes × Bool) := do
  if args.length ≠ 3 then pure (wrongNumber "sismember", false)
  else
    match ← find (arg args 1) with
    | none => pure (sendInteger 0, false)
    | some v =>
      match v.data with
      | .set s => pure (sendInteger (if s.contains (arg args 2) then 1 else 0), false)
      | _ => pure (wrongType, false)

def commandSmismember (args : List Bytes) : StoreM (Bytes × Bool) := do
  if args.length < 3 then pure (wrongNumber "sismember", false)
  else
    match ← find (arg args 1) with
    | none => pure (sendInteger 0, false)
    | some v =>
      match v.data with
      | .set s => pure (respArray (args.length - 2 : ℕ) ++ (args.drop 2).flatMap fun a =>
          (if s.contains a then ascii ":1" else ascii ":0") ++ crlf, false)
      | _ => pure (wrongType, false)

def commandScard (args : List Bytes) : StoreM (Bytes × Bool) := do
  if args.length ≠ 2 then pure (wrongNumber "scard", false)
  else
    match ← find (arg args 1) with
    | none => pure (sendInteger 0, false)
    | some v =>
      match v.data with
      | .set s => pure (sendInteger s.size, false)
      | _ => pure (wrongType, false)

def commandSmembers (args : List Bytes) : StoreM (Bytes × Bool) := do
  if args.length ≠ 2 then pure (wrongNumber "smembers", false)
  else
    match ← find (arg args 1) with
    | none => pure (ascii "*0" ++ crlf, false)
    | some v =>
      match v.data with
      | .set s =>
        uncaught (reserve (addSize 1024 v.memoryUsage))
        pure (respArrayOf s.toList, false)
      | _ => pure (wrongType, false)

/-- The loop of `command_sdiff` over the keys after the first; those that hold no set are
skipped. -/
def sdiffLoop : List Bytes → Std.ExtTreeSet Bytes → StoreM (Std.ExtTreeSet Bytes)
  | [], diff => pure diff
  | key :: keys, diff => do
    match ← find key with
    | some { data := .set s, .. } =>
      sdiffLoop keys (s.toList.foldl (fun d a => if d.contains a then d.erase a else d) diff)
    | _ => sdiffLoop keys diff

def commandSdiff (args : List Bytes) : StoreM (Bytes × Bool) := do
  if args.length < 2 then pure (wrongNumber "sismember", false)
  else
    match ← find (arg args 1) with
    | some v =>
      match v.data with
      | .set s => return (respArrayOf (← sdiffLoop (args.drop 2) s).toList, false)
      | _ => pure (wrongType, false)
    | none => return (respArrayOf (← sdiffLoop (args.drop 2) ∅).toList, false)

/-- The loop of `command_sinter` over the keys after the first, or `none` where it meets a key
that holds no set. -/
def sinterLoop : List Bytes → Std.ExtTreeSet Bytes → StoreM (Option (Std.ExtTreeSet Bytes))
  | [], inter => pure (some inter)
  | key :: keys, inter => do
    match ← find key with
    | none => pure (some ∅)
    | some v =>
      match v.data with
      | .set s =>
        let next := inter.toList.foldl
          (fun n a => if s.contains a then n.insert a else n) (∅ : Std.ExtTreeSet Bytes)
        if next.isEmpty then pure (some next) else sinterLoop keys next
      | _ => pure none

/-- The reply of `command_sinter` after its loop. -/
def sinterReply : Option (Std.ExtTreeSet Bytes) → Bytes
  | some inter => respArrayOf inter.toList
  | none => wrongType

def commandSinter (args : List Bytes) : StoreM (Bytes × Bool) := do
  if args.length < 2 then pure (wrongNumber "sismember", false)
  else
    match ← find (arg args 1) with
    | some v =>
      match v.data with
      | .set s => return (sinterReply (← sinterLoop (args.drop 2) s), false)
      | _ => pure (wrongType, false)
    | none => return (sinterReply (← sinterLoop (args.drop 2) ∅), false)

/-- The loop of `command_sunion`; keys that hold no set are skipped. -/
def sunionLoop : List Bytes → Std.ExtTreeSet Bytes → StoreM (Std.ExtTreeSet Bytes)
  | [], union => pure union
  | key :: keys, union => do
    match ← find key with
    | some { data := .set s, .. } => sunionLoop keys (s.toList.foldl (·.insert ·) union)
    | _ => sunionLoop keys union

def commandSunion (args : List Bytes) : StoreM (Bytes × Bool) := do
  if args.length < 2 then pure (wrongNumber "sismember", false)
  else return (respArrayOf (← sunionLoop (args.drop 1) ∅).toList, false)

/-- The loop of `command_sdel`, its memory delta an `int`: the set, the delta, and how many
members were deleted. -/
def sdelLoop : List Bytes → Std.ExtTreeSet Bytes → ℤ → ℕ → Std.ExtTreeSet Bytes × ℤ × ℕ
  | [], s, delta, deleted => (s, delta, deleted)
  | a :: as, s, delta, deleted =>
    if s.contains a then
      sdelLoop as (s.erase a) (toInt (toSize (delta + setElementUsage a))) (deleted + 1)
    else sdelLoop as s delta deleted

/-- The error of `SDEL` on a missing key, as it is sent. -/
def noSuchKey : Bytes := ascii "-ERR no such key"

def commandSdel (args : List Bytes) : StoreM (Bytes × Bool) := do
  let key := arg args 1
  match ← find key with
  | some v =>
    match v.data with
    | .set s =>
      let (s', delta, deleted) := sdelLoop (args.drop 2) s 0 0
      setValue key { v with data := .set s', memoryUsage := subSize v.memoryUsage (toSize delta) }
      noteWrap (v.memoryUsage < toSize delta)
      notifyMemoryChange (toSize delta) 0
      touchLru key
      pure (sendInteger deleted, decide (0 < deleted))
    | _ => pure (wrongType, false)
  | none => pure (noSuchKey, false)

/-! ## Statistics -/

def commandMemstats : StoreM (Bytes × Bool) := do
  pure (ascii "+Memory Usage: " ++ toDecimal (← get).currentMemoryUsage ++ ascii " bytes" ++ crlf ++
    ascii " +Memory Limit: " ++ toDecimal lruMaxMemory ++ ascii " bytes" ++ crlf, false)

end DrutaDB
