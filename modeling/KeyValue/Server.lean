import KeyValue.Connection
import KeyValue.Reply.Reader
import KeyValue.Snapshot.File

namespace KeyValue

-- A client with the bytes that have been sent to it and that it has not yet read.
structure Client where
  id : Nat
  inbox : Bytes
deriving DecidableEq

-- A running server with the clients that are connected to it.
structure Server where
  path : Path
  store : Store
  counters : Counters
  clients : List Client
deriving DecidableEq

namespace Server

-- A server starts with the snapshot at its path. If there is none, or it cannot be read,
-- the server starts with nothing stored.
def start (path : Path) (files : FileSystem) : Server :=
  ⟨path, (Snapshot.load path .empty files).2, .zero, []⟩

def isConnected (server : Server) (id : Nat) : Bool := server.clients.any (·.id == id)

def connect (server : Server) (id : Nat) : Server :=
  { server with
    counters := server.counters.opened
    clients := server.clients ++ [⟨id, []⟩] }

def disconnect (server : Server) (id : Nat) : Server :=
  if server.isConnected id then
    { server with
      counters := server.counters.closed
      clients := server.clients.filter (·.id != id) }
  else server

-- One read of a connection: a request, its reply, and what both add to the counters.
def answer (now : Nat) (server : Server) (request : Bytes) : Bytes × Server :=
  let (reply, store) := server.store.execute now (Request.decode request)
  let bytes := reply.encode
  let counters := (server.counters.executed request.length).replied bytes.length
  (bytes, { server with store := store, counters := counters })

def answerAll (now : Nat) (server : Server) : List Bytes → Bytes × Server
  | [] => ([], server)
  | request :: rest =>
      let (reply, server) := server.answer now request
      let (replies, server) := server.answerAll now rest
      (reply ++ replies, server)

-- The client writes the request in one piece and then reads one reply.
def request (now : Nat) (id : Nat) (bytes : Bytes) (server : Server) :
    Except Reply.ReadError Reply × Server :=
  let (replies, server) := server.answerAll now (Connection.reads bytes)
  let inbox := ((server.clients.find? (·.id == id)).map (·.inbox)).getD []
  let (reply, rest) := Reply.read.run ⟨inbox ++ replies, .closed⟩
  let clients := server.clients.map fun client =>
    if client.id = id then { client with inbox := rest.bytes } else client
  (reply, { server with clients := clients })

-- Sends one command, connecting first if need be.
def command (now : Nat) (id : Nat) (tokens : List Bytes) (server : Server) :
    Except Reply.ReadError Reply × Server :=
  let server := if server.isConnected id then server else server.connect id
  server.request now id (Request.encode tokens)

-- All clients are gone, and what is stored goes to the snapshot. If that fails, the server
-- is down all the same.
def shutDown (now : Nat) (server : Server) (files : FileSystem) : Server × FileSystem :=
  let counters := server.clients.foldl (fun counters _ => counters.closed) server.counters
  let (_, store, files) := Snapshot.dump now server.path server.store files
  ({ server with store := store, counters := counters, clients := [] }, files)

end Server

end KeyValue
