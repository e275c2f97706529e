import DrutaDB.Server

/-!
# The event loop

The branches of `main`'s loop, with the bytes that come in.  `handle_command` is called from the
middle of `parse_and_execute`, by the parser in the client's own entry of `clients_map`.
-/

namespace DrutaDB

open Machine Decimal Feed

/-- What `epoll_wait` reports. -/
inductive NetEvent
  /-- A connection is accepted. -/
  | accept (fd : ℤ)
  /-- Bytes come in, each with what the machine decides for the command it may complete. -/
  | recv (fd : ℤ) (chunk : List (Env × UInt8))
  /-- Nothing more comes in. -/
  | close (fd : ℤ)

/-- What the loop does, for the record. -/
inductive Did
  | accepted (fd : ℤ)
  | called (fd : ℤ) (args : List Bytes)
  | closed (fd : ℤ)

/-- One round of the loop of `parse_and_execute`, on the parser of the client: the call of
`handle_command` it makes, if it makes one, and the server after it. -/
def receiveByte (fd : ℤ) (s : Server) (b : Env × UInt8) :
    Except Fault (Option (List Bytes) × Server) :=
  match (s.client fd).parser.step b.2 with
  | .error e => .error (.uncaught e)
  | .ok (none, p) => .ok (none, s.setClient fd { s.client fd with parser := p })
  | .ok (some args, p) =>
    match (handleCommand b.1 fd args s).2 with
    | .error f => .error f
    | .ok s' => .ok (some args, s'.setClient fd { s'.client fd with parser := p })

/-- The server and the record. -/
structure Net where
  server : Server := {}
  record : List Did := []

def Net.step (n : Net) : NetEvent → Except Fault Net
  | .accept fd => .ok { server := n.server.setClient fd {}, record := n.record ++ [.accepted fd] }
  | .recv fd chunk =>
    match feed (receiveByte fd) (n.server.ensureClient fd) chunk with
    | (calls, .ok s) => .ok { server := s, record := n.record ++ calls.map (.called fd) }
    | (_, .error f) => .error f
  | .close fd =>
    let s := pubsubCleanupClient fd n.server
    .ok { server := { s with clientsMap := s.clientsMap.erase fd },
          record := n.record ++ [.closed fd] }

end DrutaDB
