import DrutaDB.Lib.Capacity
import DrutaDB.Lib.Machine

/-!
# The hash value

`drutahash.hpp` and `drutahash.cpp`: a hash is a vector of fields until it has more than
`drutaMaxKey` of them, and a map from then on.  It keeps its own memory counter, to which an
insertion adds the capacities of its arguments and from which an overwrite or a deletion
subtracts those of the stored strings.
-/

namespace DrutaDB

open Machine Decimal Capacity

/-- `sizeof(std::string)` -/
def sizeofString : ℕ := 32

/-- `sizeof(void*)` -/
def sizeofPointer : ℕ := 8

def mapNodeOverhead : ℕ := 8 * sizeofPointer

def hashEntryOverheadMap : ℕ := sizeofString * 2 + mapNodeOverhead

def hashEntryOverheadVector : ℕ := sizeofString * 2

def drutaMaxKey : ℕ := 64

/-- `DrutaHash::data`; which form it is stands for `DrutaHash::type`. -/
inductive HashData
  | map (m : Std.ExtTreeMap Bytes CString)
  | vector (vec : List (CString × CString))

structure DrutaHash where
  data : HashData
  memoryUsage : ℕ

namespace DrutaHash

/-- The hash built from an empty vector. -/
def empty : DrutaHash := ⟨.vector [], 0⟩

/-- The entry of a field as it is stored.  A map node copied its key when it was made. -/
def entry (h : DrutaHash) (field : Bytes) : Option (CString × CString) :=
  match h.data with
  | .vector vec => vec.find? (·.1.bytes = field)
  | .map m => m[field]?.map fun v => (.copy field, v)

/-- `DrutaHash::get_hash` -/
def getHash (h : DrutaHash) (field : Bytes) : Option Bytes :=
  (h.entry field).map (·.2.bytes)

/-- The first entry of the field, its value assigned. -/
def assignVec (field value : Bytes) : List (CString × CString) → List (CString × CString)
  | [] => []
  | p :: vec => if p.1.bytes = field then (p.1, p.2.assign value) :: vec
      else p :: assignVec field value vec

/-- `m[p.first] = std::move(p.second)` -/
def moveInto (m : Std.ExtTreeMap Bytes CString) (p : CString × CString) :
    Std.ExtTreeMap Bytes CString :=
  m.insert p.1.bytes ((m[p.1.bytes]?.getD CString.empty).moveAssign p.2).1

/-- `DrutaHash::convert_to_map` -/
def convertToMap (h : DrutaHash) : DrutaHash :=
  match h.data with
  | .map _ => h
  | .vector vec =>
    let m := vec.foldl moveInto ∅
    ⟨.map m, addSize h.memoryUsage (m.size * mapNodeOverhead)⟩

/-- `DrutaHash::set_hash`; whether the field was inserted is returned. -/
def setHash (h : DrutaHash) (field value : Bytes) : DrutaHash × Bool :=
  match h.data with
  | .vector vec =>
    match vec.find? (·.1.bytes = field) with
    | some (_, old) =>
      (⟨.vector (assignVec field value vec),
        addSize (subSize h.memoryUsage old.capacity) (old.assign value).capacity⟩, false)
    | none =>
      let h' : DrutaHash := ⟨.vector (vec ++ [(.copy field, .copy value)]),
        addSize h.memoryUsage
          (copyCapacity field + copyCapacity value + hashEntryOverheadVector)⟩
      (if drutaMaxKey < vec.length + 1 then h'.convertToMap else h', true)
  | .map m =>
    match m[field]? with
    | some old =>
      (⟨.map (m.insert field (old.assign value)),
        addSize (subSize h.memoryUsage old.capacity) (old.assign value).capacity⟩, false)
    | none =>
      (⟨.map (m.insert field (CString.empty.assign value)),
        addSize h.memoryUsage
          (copyCapacity field + copyCapacity value + hashEntryOverheadMap)⟩, true)

/-- A pair is move-assigned one component after the other. -/
def movePair (t s : CString × CString) : (CString × CString) × (CString × CString) :=
  (((t.1.moveAssign s.1).1, (t.2.moveAssign s.2).1),
    ((t.1.moveAssign s.1).2, (t.2.moveAssign s.2).2))

/-- The vector without the first entry of the field. -/
def eraseVec (field : Bytes) : List (CString × CString) → List (CString × CString)
  | [] => []
  | p :: vec => if p.1.bytes = field then shiftDown movePair p vec else p :: eraseVec field vec

/-- `DrutaHash::del_hash`; whether the field was there is returned. -/
def delHash (h : DrutaHash) (field : Bytes) : DrutaHash × Bool :=
  match h.data with
  | .vector vec =>
    match vec.find? (·.1.bytes = field) with
    | some p =>
      (⟨.vector (eraseVec field vec),
        subSize h.memoryUsage (p.1.capacity + p.2.capacity + hashEntryOverheadVector)⟩, true)
    | none => (h, false)
  | .map m =>
    match m[field]? with
    | some v =>
      (⟨.map (m.erase field),
        subSize h.memoryUsage (copyCapacity field + v.capacity + hashEntryOverheadMap)⟩, true)
    | none => (h, false)

/-- `DrutaHash::size` -/
def size (h : DrutaHash) : ℕ :=
  match h.data with
  | .vector vec => vec.length
  | .map m => m.size

/-- The fields and values in the order an iteration of the data visits them. -/
def toList (h : DrutaHash) : List (Bytes × Bytes) :=
  match h.data with
  | .vector vec => vec.map fun p => (p.1.bytes, p.2.bytes)
  | .map m => m.toList.map fun p => (p.1, p.2.bytes)

/-- Whether the subtraction `set_hash` makes on overwriting goes below zero. -/
def setHashWraps (h : DrutaHash) (field : Bytes) : Bool :=
  (h.entry field).any fun p => h.memoryUsage < p.2.capacity

/-- Whether the subtraction `del_hash` makes goes below zero. -/
def delHashWraps (h : DrutaHash) (field : Bytes) : Bool :=
  (h.entry field).any fun p => h.memoryUsage < p.1.capacity + p.2.capacity +
    match h.data with
    | .vector _ => hashEntryOverheadVector
    | .map _ => hashEntryOverheadMap

end DrutaHash

end DrutaDB
