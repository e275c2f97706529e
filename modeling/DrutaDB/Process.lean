import DrutaDB.Lib.Run
import DrutaDB.Network

/-!
# The process

`main`, `flush_aof`, and the stream `aof_file`, which holds back what it is given and writes it to
the file at a flush, when it is closed, or when its buffer is full.  What it still holds is lost
when the process ends without closing it.
-/

namespace DrutaDB

open Machine Decimal Feed Run

/-- What the machine decides while a command is handled. -/
structure Moment where
  /-- `get_current_time_ms()` -/
  now : ℤ := 0
  /-- The reading of `steady_clock` that initialises `last_size_check`, in nanoseconds; only the
  first call of `check_and_rewrite_aof` takes it. -/
  started : ℤ := 0
  /-- The other reading of `steady_clock` in `check_and_rewrite_aof`. -/
  steady : ℤ := 0
  /-- How many of the bytes it holds the stream writes of its own accord. -/
  spill : ℕ := 0
  disk : Disk := {}

/-- The file is `server.aof`; the stream holds back `pending`. -/
structure Process where
  server : Server := {}
  pending : Bytes := []
  /-- `last_flush`, once it is initialised. -/
  lastFlush : Option ℤ := none
  /-- `last_size_check`, once it is initialised. -/
  lastSizeCheck : Option ℤ := none
  /-- What went on so far, for the record.  Whether a command led to a rewrite stands for how long
  ago the size of the file was checked. -/
  record : List Event := []
  /-- What was sent so far. -/
  sent : Sends := []

namespace Process

/-! ## The append-only file -/

/-- `aof_file.flush()`, and what `aof_file.close()` does to the file. -/
def flush (p : Process) : Process :=
  { p with server := { p.server with aof := p.server.aof ++ p.pending }, pending := [] }

/-- `flush_aof`; the two readings of the clock are those of its first two lines. -/
def flushAof (started now : ℤ) (p : Process) : Process :=
  let lastFlush := p.lastFlush.getD started
  if 1000 ≤ (now - lastFlush).tdiv 1000000 then { p.flush with lastFlush := some now }
  else { p with lastFlush := some lastFlush }

/-- `aof_file << resp` -/
def write (spill : ℕ) (resp : Bytes) (p : Process) : Process :=
  let held := p.pending ++ resp
  { p with
    server := { p.server with aof := p.server.aof ++ held.take spill }
    pending := held.drop spill }

def appendToAof (m : Moment) (args : List Bytes) (p : Process) : Except Fault Process :=
  match args with
  | [] => .ok p
  | a :: _ =>
    if isValid (toUpper a) then do
      let resp ← uncaught (formatRespCommand args)
      return p.write m.spill resp
    else .ok p

/-- `rewrite_aof`; once the temporary file is written, the stream is closed. -/
def rewriteAof (m : Moment) (p : Process) : Except Fault Process := do
  let p := if m.disk.opens then p.flush else p
  return { p with server := ← DrutaDB.rewriteAof { now := m.now, disk := m.disk } p.server }

def checkAndRewriteAof (m : Moment) (p : Process) : Except Fault Process :=
  let lastSizeCheck := p.lastSizeCheck.getD m.started
  if (m.steady - lastSizeCheck).tdiv 1000000000 < 5 then
    .ok { p with lastSizeCheck := some lastSizeCheck }
  else
    let p := { p with lastSizeCheck := some m.steady }
    if rewriteThreshold < p.server.aof.length ∧
        p.server.lastRewriteSize * 2 < p.server.aof.length then
      p.rewriteAof m
    else .ok p

/-! ## The event loop -/

/-- `handle_command(fd, args)`.  `flush_clear_aof` closes the stream before it truncates the
file. -/
def handleCommand (m : Moment) (fd : ℤ) (args : List Bytes) (p : Process) :
    Sends × Except Fault Process :=
  match args with
  | [] => ([], .error .noArguments)
  | a :: _ =>
    let cmd := toUpper a
    let s := p.server.ensureClient fd
    if turnedAway s fd cmd then (sendTo fd subscriberMode, .ok { p with server := s })
    else
      match (route cmd args.length).run m.now fd cmd args s with
      | .error f => ([], .error f)
      | .ok ((sends, success), s') =>
        let p := { p with
          server := s'
          pending := if route cmd args.length = .flushdb ∧ success then [] else p.pending }
        (sends, if fd ≠ -1 ∧ success then do
            (← p.appendToAof m args).checkAndRewriteAof m
          else .ok p)

def setParser (fd : ℤ) (parser : RespParser) (p : Process) : Process :=
  { p with server := p.server.setClient fd { p.server.client fd with parser } }

/-- The command as it goes on record. -/
def recorded (m : Moment) (fd : ℤ) (args : List Bytes) (p p' : Process) : Event :=
  .command
    { now := m.now
      sinceCheck := if p.server.rewrites < p'.server.rewrites then 5 else 0
      disk := m.disk } fd args

/-- One round of the loop of `parse_and_execute`. -/
def receiveByte (fd : ℤ) (p : Process) (b : Moment × UInt8) :
    Except Fault (Option (List Bytes) × Process) :=
  match (p.server.client fd).parser.step b.2 with
  | .error e => .error (.uncaught e)
  | .ok (none, parser) => .ok (none, p.setParser fd parser)
  | .ok (some args, parser) =>
    match p.handleCommand b.1 fd args with
    | (_, .error f) => .error f
    | (sends, .ok p') => .ok (some args,
        { p'.setParser fd parser with
          record := p.record ++ [recorded b.1 fd args p p']
          sent := p.sent ++ sends })

end Process

/-- What `epoll_wait` reports. -/
inductive Report
  /-- A connection is accepted. -/
  | accept (fd : ℤ)
  /-- Bytes come in, each with what the machine decides for the command it may complete. -/
  | recv (fd : ℤ) (chunk : List (Moment × UInt8))
  /-- Nothing more comes in. -/
  | close (fd : ℤ)

/-- The reports of one `epoll_wait`, none when it timed out, and the clock readings of the
`flush_aof` after them. -/
structure Round where
  reports : List Report
  started : ℤ
  now : ℤ

namespace Process

def report (p : Process) : Report → Except Fault Process
  | .accept fd => .ok { p with
      server := p.server.setClient fd {}, record := p.record ++ [.connect fd] }
  | .recv fd chunk => (feed (receiveByte fd) { p with server := p.server.ensureClient fd } chunk).2
  | .close fd =>
    let s := pubsubCleanupClient fd p.server
    .ok { p with
      server := { s with clientsMap := s.clientsMap.erase fd }
      record := p.record ++ [.disconnect fd] }

/-- One round of the loop of `main`. -/
def round (p : Process) (r : Round) : Except Fault Process :=
  match run report p r.reports with
  | .ok p' => .ok (p'.flushAof r.started r.now)
  | .error f => .error f

/-- `main` up to its loop, with what is in the file. -/
def start (m : Moment) (file : Bytes) : Except Fault Process := do
  return { server := ← replayAof { now := m.now, disk := m.disk } { aof := file } }

end Process

end DrutaDB
