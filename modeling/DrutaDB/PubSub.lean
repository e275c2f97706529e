import DrutaDB.Commands

/-!
# The server's state and the publish/subscribe commands

`client.hpp` and `pubsub.cpp`, over the whole of the program's state: the store, the two
publish/subscribe maps, and the append-only file.
-/

namespace DrutaDB

open Machine Decimal

structure Client where
  parser : RespParser := {}
  isSubscriber : Bool := false
  subscribedChannels : Std.ExtTreeSet Bytes := ∅

def maxSubscriptionsPerClient : ℕ := 128

/-- The state of the program.  `aof` is the main append-only file, and `rewrites` counts the
rewrites announced on the console. -/
structure Server where
  store : Store := {}
  clientsMap : Std.ExtTreeMap ℤ Client := ∅
  channelsSubscribers : Std.ExtTreeMap Bytes (Std.ExtTreeSet ℤ) := ∅
  aof : Bytes := []
  lastRewriteSize : ℕ := 0
  rewrites : ℕ := 0

/-- What is sent, to which descriptor, in order. -/
abbrev Sends := List (ℤ × Bytes)

namespace Server

/-- The value of `clients_map[fd]`. -/
def client (s : Server) (fd : ℤ) : Client := s.clientsMap[fd]?.getD {}

/-- `clients_map[fd] = c` -/
def setClient (s : Server) (fd : ℤ) (c : Client) : Server :=
  { s with clientsMap := s.clientsMap.insert fd c }

/-- The evaluation of `clients_map[fd]`, which makes an entry where there is none. -/
def ensureClient (s : Server) (fd : ℤ) : Server := s.setClient fd (s.client fd)

/-- `channels_subscribers[channel] = subscribers` -/
def setChannel (s : Server) (channel : Bytes) (subscribers : Std.ExtTreeSet ℤ) : Server :=
  { s with channelsSubscribers := s.channelsSubscribers.insert channel subscribers }

/-- The value of `channels_subscribers[channel]`. -/
def subscribers (s : Server) (channel : Bytes) : Std.ExtTreeSet ℤ :=
  s.channelsSubscribers[channel]?.getD ∅

end Server

/-- The reply to a subscription or its end, with the number of channels after it. -/
def subscriptionReply (kind : String) (channel : Bytes) (count : ℕ) : Bytes :=
  ascii "*3" ++ crlf ++ respBulkString (ascii kind) ++ respBulkString channel ++
    byte ':' :: toDecimal count ++ crlf

def subscriptionLimit : Bytes := ascii "-ERR maximum number of subscriptions reached" ++ crlf

/-- The loop of `pubsub_subscribe`: what it sends to the client, and the server after it. -/
def subscribeLoop (fd : ℤ) : List Bytes → Server → Bytes × Server
  | [], s => ([], s)
  | channel :: channels, s =>
    let c := s.client fd
    if !c.subscribedChannels.contains channel &&
        maxSubscriptionsPerClient ≤ c.subscribedChannels.size then
      (subscriptionLimit, s.ensureClient fd)
    else
      let c' := { c with
        isSubscriber := true, subscribedChannels := c.subscribedChannels.insert channel }
      let s' := (s.setChannel channel ((s.subscribers channel).insert fd)).setClient fd c'
      let (sent, s'') := subscribeLoop fd channels s'
      (subscriptionReply "subscribe" channel c'.subscribedChannels.size ++ sent, s'')

def pubsubSubscribe (fd : ℤ) (args : List Bytes) (s : Server) : Bytes × Server :=
  subscribeLoop fd (args.drop 1) s

/-- The loop of `pubsub_unsubscribe`. -/
def unsubscribeLoop (fd : ℤ) : List Bytes → Server → Bytes × Server
  | [], s => ([], s)
  | channel :: channels, s =>
    let c := s.client fd
    let left := c.subscribedChannels.erase channel
    let c' := { c with
      subscribedChannels := left, isSubscriber := if left.isEmpty then false else c.isSubscriber }
    let s' := (s.setChannel channel ((s.subscribers channel).erase fd)).setClient fd c'
    let (sent, s'') := unsubscribeLoop fd channels s'
    (subscriptionReply "unsubscribe" channel left.size ++ sent, s'')

def pubsubUnsubscribe (fd : ℤ) (args : List Bytes) (s : Server) : Bytes × Server :=
  let channels := if args.length = 1 then (s.client fd).subscribedChannels.toList else args.drop 1
  if channels = [] then
    (ascii "*3" ++ crlf ++ respBulkString (ascii "unsubscribe") ++ nilReply ++
      ascii ":0" ++ crlf, s.ensureClient fd)
  else unsubscribeLoop fd channels s

/-- `pubsub_publish`: how many clients it reaches, and the message to each of them. -/
def pubsubPublish (args : List Bytes) (s : Server) : ℕ × Sends × Server :=
  if args.length < 3 then (0, [], s)
  else
    let channel := arg args 1
    let res := ascii "*3" ++ crlf ++ respBulkString (ascii "message") ++
      respBulkString channel ++ respBulkString (arg args 2)
    match s.channelsSubscribers[channel]? with
    | none => (0, [], s)
    | some subscribers =>
      let reached := subscribers.toList.filter (s.clientsMap.contains ·)
      let dead := subscribers.toList.filter fun fd => !s.clientsMap.contains fd
      (reached.length, reached.map fun fd => (fd, res),
        s.setChannel channel (dead.foldl (·.erase ·) subscribers))

/-- `pubsub_cleanup_client` -/
def pubsubCleanupClient (fd : ℤ) (s : Server) : Server :=
  match s.clientsMap[fd]? with
  | none => s
  | some c => c.subscribedChannels.toList.foldl
      (fun s channel => s.setChannel channel ((s.subscribers channel).erase fd)) s

end DrutaDB
