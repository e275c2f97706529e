import DrutaDB.PubSub

/-!
# The server

`aof.cpp`, `handle_command`, and the events of `main`'s loop.  What the machine around the
program decides is an input: the clock, how long ago the size of the file was last checked, and
how far writing a temporary file succeeds.
-/

namespace DrutaDB

open Machine Decimal

/-! ## The append-only file -/

def rewriteThreshold : ℕ := 10 * 1024

/-- What happens to the temporary file of a rewrite. -/
structure Disk where
  opens : Bool := true
  /-- How many bytes can be written, if not all. -/
  room : Option ℕ := none
  renames : Bool := true
  deriving DecidableEq

structure Env where
  /-- `get_current_time_ms()` -/
  now : ℤ := 0
  /-- The seconds since the size of the file was last checked. -/
  sinceCheck : ℕ := 0
  disk : Disk := {}
  deriving DecidableEq

/-- `is_valid`; the array it searches is sorted. -/
def isValid (cmd : Bytes) : Bool :=
  ["DEL", "HDEL", "HSET", "LPOP", "LPUSH", "RPOP", "RPUSH", "SADD", "SDEL", "SET"].any
    fun c => ascii c = cmd

/-- The command `rewrite_aof` writes for a node, if it writes one. -/
def rewriteCommand (now : ℤ) (n : DrutaNode) : Option (List Bytes) :=
  if 0 < n.value.expiryTime ∧ n.value.expiryTime < now then none
  else
    match n.value.data with
    | .string s => some ([ascii "SET", n.key, s] ++
        if 0 < n.value.expiryTime then [ascii "PXAT", toDecimalInt n.value.expiryTime] else [])
    | .list l => if l = [] then none else some ([ascii "RPUSH", n.key] ++ l)
    | .hash h => if h.size = 0 then none
        else some ([ascii "HSET", n.key] ++ h.toList.flatMap fun p => [p.1, p.2])
    | .set s => if s.isEmpty then none else some ([ascii "SADD", n.key] ++ s.toList)

/-- The nodes from `cur` on, following `next`, if there are at most so many. -/
def Store.walk (s : Store) : ℕ → Option Bytes → Except Fault (List DrutaNode)
  | _, none => .ok []
  | 0, some _ => .error .endless
  | fuel + 1, some key =>
    match s.kvStore[key]? with
    | none => .error .useAfterFree
    | some n =>
      match walk s fuel n.next with
      | .ok ns => .ok (n :: ns)
      | .error f => .error f

/-- What `rewrite_aof` writes for the nodes. -/
def rewriteText (now : ℤ) : List DrutaNode → Except StdException Bytes
  | [] => .ok []
  | n :: ns =>
    match rewriteCommand now n with
    | none => rewriteText now ns
    | some cmd => do
      let text ← formatRespCommand cmd
      return text ++ (← rewriteText now ns)

def rewriteAof (env : Env) (s : Server) : Except Fault Server := do
  let s := { s with rewrites := s.rewrites + 1 }
  if env.disk.opens then
    let nodes ← s.store.walk s.store.kvStore.size s.store.tail
    let text ← uncaught (rewriteText env.now nodes)
    let written := match env.disk.room with
      | none => text
      | some k => text.take k
    if env.disk.renames then return { s with aof := written, lastRewriteSize := written.length }
    else return s
  else return s

def appendToAof (args : List Bytes) (s : Server) : Except Fault Server :=
  match args with
  | [] => .ok s
  | a :: _ =>
    if isValid (toUpper a) then do
      let resp ← uncaught (formatRespCommand args)
      return { s with aof := s.aof ++ resp }
    else .ok s

def checkAndRewriteAof (env : Env) (s : Server) : Except Fault Server :=
  if env.sinceCheck < 5 then .ok s
  else if rewriteThreshold < s.aof.length ∧ s.lastRewriteSize * 2 < s.aof.length then
    rewriteAof env s
  else .ok s

/-! ## Handling a command -/

/-- The branches of `handle_command`. -/
inductive Call
  | ping | echo | set | get | rpush | lpush | lrange | lpop | rpop | del | llen
  | hset | hget | hgetall | hdel | hlen
  | sadd | scard | sismember | smembers | smismember | sinter | sunion | sdiff | sdel
  | memstats | flushdb | subscribe | unsubscribe | publish | command | unknown
  deriving DecidableEq, Repr

/-- The branch `handle_command` takes for a command of so many arguments. -/
def route (cmd : Bytes) (size : ℕ) : Call :=
  if cmd = ascii "PING" then .ping
  else if cmd = ascii "ECHO" ∧ 1 < size then .echo
  else if cmd = ascii "SET" ∧ 3 ≤ size then .set
  else if cmd = ascii "GET" ∧ size = 2 then .get
  else if cmd = ascii "RPUSH" ∧ 3 ≤ size then .rpush
  else if cmd = ascii "LPUSH" ∧ 3 ≤ size then .lpush
  else if cmd = ascii "LRANGE" ∧ size = 4 then .lrange
  else if cmd = ascii "LPOP" ∧ 2 ≤ size then .lpop
  else if cmd = ascii "RPOP" ∧ 2 ≤ size then .rpop
  else if cmd = ascii "DEL" ∧ 2 ≤ size then .del
  else if cmd = ascii "LLEN" ∧ size = 2 then .llen
  else if cmd = ascii "HSET" ∧ 4 ≤ size then .hset
  else if cmd = ascii "HGET" ∧ size = 3 then .hget
  else if cmd = ascii "HGETALL" ∧ size = 2 then .hgetall
  else if cmd = ascii "HDEL" ∧ 3 ≤ size then .hdel
  else if cmd = ascii "HLEN" ∧ size = 2 then .hlen
  else if cmd = ascii "SADD" ∧ 3 ≤ size then .sadd
  else if cmd = ascii "SCARD" ∧ size = 2 then .scard
  else if cmd = ascii "SISMEMBER" ∧ size = 3 then .sismember
  else if cmd = ascii "SMEMBERS" ∧ size = 2 then .smembers
  else if cmd = ascii "SMISMEMBER" ∧ 3 ≤ size then .smismember
  else if cmd = ascii "SINTER" ∧ 2 ≤ size then .sinter
  else if cmd = ascii "SUNION" ∧ 2 ≤ size then .sunion
  else if cmd = ascii "SDIFF" ∧ 2 ≤ size then .sdiff
  else if cmd = ascii "SDEL" ∧ 3 ≤ size then .sdel
  else if cmd = ascii "MEMSTATS" then .memstats
  else if cmd = ascii "FLUSHDB" then .flushdb
  else if cmd = ascii "SUBSCRIBE" ∧ 2 ≤ size then .subscribe
  else if cmd = ascii "UNSUBSCRIBE" ∧ 1 ≤ size then .unsubscribe
  else if cmd = ascii "PUBLISH" ∧ size = 3 then .publish
  else if cmd = ascii "COMMAND" then .command
  else .unknown

/-- What `send` puts out; nothing goes to the descriptor of a replay. -/
def sendTo (fd : ℤ) (b : Bytes) : Sends := if fd = -1 then [] else [(fd, b)]

/-- A command on the store, run by the server. -/
def onStore (fd : ℤ) (m : StoreM (Bytes × Bool)) (s : Server) :
    Except Fault ((Sends × Bool) × Server) :=
  match m s.store with
  | .ok ((reply, success), store) => .ok ((sendTo fd reply, success), { s with store })
  | .error f => .error f

/-- `command_flushdb` with `flush_clear_aof` -/
def commandFlushdb (fd : ℤ) (args : List Bytes) (s : Server) : (Sends × Bool) × Server :=
  if args.length < 2 ∨ arg args 1 ≠ ascii "--sure" then
    ((sendTo fd (ascii "-ERR add --sure flag to flush db" ++ crlf), false), s)
  else
    ((sendTo fd (ascii "+SUCCESS Database flushed" ++ crlf), true),
      { s with store := s.store.clear, aof := [] })

/-- `command_publish` -/
def commandPublish (fd : ℤ) (args : List Bytes) (s : Server) : (Sends × Bool) × Server :=
  let (reached, messages, s') := pubsubPublish args s
  ((messages ++ sendTo fd (sendInteger reached), false), s')

def unknownCommand (cmd : Bytes) : Bytes :=
  ascii "-ERR unknown command or incorrect number of arguments for '" ++ cmd ++ ascii "'" ++ crlf

/-- The branch of `handle_command`: what it sends, its success flag, and the server after it. -/
def Call.run (now : ℤ) (fd : ℤ) (cmd : Bytes) (args : List Bytes) (s : Server) :
    Call → Except Fault ((Sends × Bool) × Server)
  | .ping => .ok ((sendTo fd (ascii "+PONG" ++ crlf), false), s)
  | .echo => .ok ((sendTo fd (respBulkString (arg args 1)), false), s)
  | .set => onStore fd (commandSet now args) s
  | .get => onStore fd (commandGet now args) s
  | .rpush => onStore fd (commandRpush args) s
  | .lpush => onStore fd (commandLpush args) s
  | .lrange => onStore fd (commandLrange args) s
  | .lpop => onStore fd (commandLpop args) s
  | .rpop => onStore fd (commandRpop args) s
  | .del => onStore fd (commandDel args) s
  | .llen => onStore fd (commandLlen args) s
  | .hset => onStore fd (commandHset args) s
  | .hget => onStore fd (commandHget args) s
  | .hgetall => onStore fd (commandHgetall args) s
  | .hdel => onStore fd (commandHdel args) s
  | .hlen => onStore fd (commandHlen args) s
  | .sadd => onStore fd (commandSadd args) s
  | .scard => onStore fd (commandScard args) s
  | .sismember => onStore fd (commandSismember args) s
  | .smembers => onStore fd (commandSmembers args) s
  | .smismember => onStore fd (commandSmismember args) s
  | .sinter => onStore fd (commandSinter args) s
  | .sunion => onStore fd (commandSunion args) s
  | .sdiff => onStore fd (commandSdiff args) s
  | .sdel => onStore fd (commandSdel args) s
  | .memstats => onStore fd commandMemstats s
  | .flushdb => .ok (commandFlushdb fd args s)
  | .subscribe =>
    let (sent, s') := pubsubSubscribe fd args s
    .ok ((sendTo fd sent, false), s')
  | .unsubscribe =>
    let (sent, s') := pubsubUnsubscribe fd args s
    .ok ((sendTo fd sent, false), s')
  | .publish => .ok (commandPublish fd args s)
  | .command => .ok ((sendTo fd (ascii "*0" ++ crlf), false), s)
  | .unknown => .ok ((sendTo fd (unknownCommand cmd), false), s)

def subscriberMode : Bytes :=
  ascii "-ERR clients in pub/sub mode can only subscribe/unsubscribe/ping"

/-- Whether `handle_command` turns the command of a subscribed client away. -/
def turnedAway (s : Server) (fd : ℤ) (cmd : Bytes) : Bool :=
  (s.client fd).isSubscriber && cmd ≠ ascii "PING" && cmd ≠ ascii "SUBSCRIBE" &&
    cmd ≠ ascii "UNSUBSCRIBE"

/-- `handle_command(fd, args)`: what it sends, and the server after it. -/
def handleCommand (env : Env) (fd : ℤ) (args : List Bytes) (s : Server) :
    Sends × Except Fault Server :=
  match args with
  | [] => ([], .error .noArguments)
  | a :: _ =>
    let cmd := toUpper a
    let s := s.ensureClient fd
    if turnedAway s fd cmd then (sendTo fd subscriberMode, .ok s)
    else
      match (route cmd args.length).run env.now fd cmd args s with
      | .error f => ([], .error f)
      | .ok ((sends, success), s') =>
        (sends, if fd ≠ -1 ∧ success then do
            checkAndRewriteAof env (← appendToAof args s')
          else .ok s')

/-- The commands a call of the parser hands on, one after the other. -/
def handleAll (env : Env) (fd : ℤ) : List (List Bytes) → Server → Except Fault Server
  | [], s => .ok s
  | args :: rest, s =>
    match (handleCommand env fd args s).2 with
    | .ok s' => handleAll env fd rest s'
    | .error f => .error f

/-- The commands `replay_aof` executes for a file, and the parser it leaves. -/
def replayCalls (data : Bytes) : List (List Bytes) × Except StdException RespParser :=
  ({} : RespParser).parseAndExecute data (toInt data.length)

/-- `replay_aof` up to the check of the file's size. -/
def replayCommands (env : Env) (s : Server) : Except Fault Server := do
  let s' ← handleAll env (-1) (replayCalls s.aof).1 s
  let _ ← uncaught (replayCalls s.aof).2
  return s'

def replayAof (env : Env) (s : Server) : Except Fault Server := do
  let s ← replayCommands env s
  let s := { s with lastRewriteSize := s.aof.length }
  if rewriteThreshold < s.lastRewriteSize then rewriteAof env s else return s

/-! ## Events -/

inductive Event
  /-- A connection is accepted. -/
  | connect (fd : ℤ)
  /-- A connection ends. -/
  | disconnect (fd : ℤ)
  /-- A command comes in. -/
  | command (env : Env) (fd : ℤ) (args : List Bytes)
  deriving DecidableEq

namespace Server

def step (s : Server) : Event → Except Fault Server
  | .connect fd => .ok (s.setClient fd {})
  | .disconnect fd =>
    let s := pubsubCleanupClient fd s
    .ok { s with clientsMap := s.clientsMap.erase fd }
  | .command env fd args => (handleCommand env fd args s).2

end Server

end DrutaDB
