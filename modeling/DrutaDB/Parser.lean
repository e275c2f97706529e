import DrutaDB.Lib.Decimal
import DrutaDB.Lib.Feed
import DrutaDB.Lib.Machine

/-!
# The RESP parser

`parser_resp.cpp`, and `format_resp_command` of `aof.cpp`, whose output it reads.  A call of
`parse_and_execute` gives the argument lists it calls `handle_command` with, in order, and the
parser it leaves or the exception that escapes it.
-/

namespace DrutaDB

open Machine Decimal Feed

def cr : UInt8 := 13

def lf : UInt8 := 10

def crlf : Bytes := [cr, lf]

inductive ParserState
  | idle
  | readingArraySize
  | readingBulkSize
  | readingData
  deriving DecidableEq, Repr

structure RespParser where
  state : ParserState := .idle
  args : List Bytes := []
  arrayCount : ℤ := 0
  currentBulkLen : ℤ := 0
  currentBuffer : Bytes := []
  dataAccumulator : Bytes := []
  deriving DecidableEq, Repr

namespace RespParser

/-- Every field as in a fresh parser. -/
def reset (_ : RespParser) : RespParser := {}

/-- One round of the loop: the arguments `handle_command` is called with, if it is, and the
parser after it. -/
def step (p : RespParser) (c : UInt8) :
    Except StdException (Option (List Bytes) × RespParser) :=
  match p.state with
  | .idle =>
    if c = byte '*' then .ok (none, { p with state := .readingArraySize, currentBuffer := [] })
    else .ok (none, p)
  | .readingArraySize =>
    if c = lf then
      match stoi p.currentBuffer with
      | .ok n => .ok (none, { p with
          arrayCount := n, currentBuffer := [], state := .readingBulkSize })
      | .error e => .error e
    else if c ≠ cr then .ok (none, { p with currentBuffer := p.currentBuffer ++ [c] })
    else .ok (none, p)
  | .readingBulkSize =>
    if c = byte '$' then .ok (none, { p with currentBuffer := [] })
    else if c = lf then
      if p.currentBuffer ≠ [] then
        match stoi p.currentBuffer with
        | .ok n => .ok (none, { p with
            currentBulkLen := n, currentBuffer := [], dataAccumulator := [],
            state := .readingData })
        | .error _ => .ok (none, p.reset)
      else .ok (none, p)
    else if c ≠ cr then .ok (none, { p with currentBuffer := p.currentBuffer ++ [c] })
    else .ok (none, p)
  | .readingData =>
    if toInt p.dataAccumulator.length < p.currentBulkLen then
      .ok (none, { p with dataAccumulator := p.dataAccumulator ++ [c] })
    else if c = lf then
      let args := p.args ++ [p.dataAccumulator]
      if toInt args.length = p.arrayCount then .ok (some args, p.reset)
      else .ok (none, { p with args, currentBuffer := [], state := .readingBulkSize })
    else .ok (none, p)

/-- `parse_and_execute(buffer, length, fd)` -/
def parseAndExecute (p : RespParser) (buffer : Bytes) (length : ℤ) :
    List (List Bytes) × Except StdException RespParser :=
  feed step p (buffer.take length.toNat)

/-- Successive calls, one a chunk. -/
def parseChunks (p : RespParser) (chunks : List Bytes) :
    List (List Bytes) × Except StdException RespParser :=
  batches (fun p b => p.parseAndExecute b (toInt b.length)) p chunks

end RespParser

/-- `resp_bulk_string`: what is appended to the result. -/
def respBulkString (val : Bytes) : Bytes :=
  byte '$' :: toDecimal val.length ++ crlf ++ val ++ crlf

/-- The header of an array reply. -/
def respArray (n : ℤ) : Bytes := byte '*' :: toDecimalInt n ++ crlf

/-- The text `format_resp_command` builds. -/
def respCommand (args : List Bytes) : Bytes :=
  byte '*' :: toDecimal args.length ++ crlf ++ args.flatMap respBulkString

/-- `std::string::max_size()` -/
def maxSize : ℕ := 2 ^ 63 - 1

/-- `std::string::reserve`, allocation failures aside. -/
def reserve (n : ℕ) : Except StdException Unit :=
  if maxSize < n then .error .lengthError else .ok ()

/-- The `int` that `format_resp_command` accumulates. -/
def estimatedSize (args : List Bytes) : ℤ :=
  args.foldl (fun n arg => toInt (toSize (n + arg.length + 16))) 16

/-- `format_resp_command` -/
def formatRespCommand (args : List Bytes) : Except StdException Bytes := do
  reserve (toSize (toInt (estimatedSize args + 64)))
  return respCommand args

end DrutaDB
