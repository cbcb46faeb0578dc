import KeyValue.Proofs.Snapshot.File
import KeyValue.Proofs.Store.WellFormed
import KeyValue.Server

namespace KeyValue.Server

-- What happens to a running server and its files in the course of time.
inductive Event where
  | connect (id : Nat)
  | disconnect (id : Nat)
  | request (id : Nat) (bytes : Bytes)
  | command (id : Nat) (tokens : List Bytes)
  | sweep
  | save

def Event.isRequest : Event → Bool
  | .request _ _ => true
  | .command _ _ => true
  | _ => false

def Event.perform (now : Nat) (event : Event) (server : Server) (files : FileSystem) :
    Server × FileSystem :=
  match event with
  | .connect id => (server.connect id, files)
  | .disconnect id => (server.disconnect id, files)
  | .request id bytes => ((server.request now id bytes).2, files)
  | .command id tokens => ((server.command now id tokens).2, files)
  | .sweep => ({ server with store := (server.store.purge now).2 }, files)
  | .save =>
      let (_, store, files) := Snapshot.dump now server.path server.store files
      ({ server with store := store }, files)

def run (server : Server) (files : FileSystem) : List (Nat × Event) → Server × FileSystem
  | [] => (server, files)
  | (now, event) :: rest =>
      let (server, files) := event.perform now server files
      server.run files rest

variable {server : Server} {path : Path}

theorem disconnect_store_and_path (server : Server) (id : Nat) :
    (server.disconnect id).store = server.store ∧ (server.disconnect id).path = server.path := by
  unfold disconnect
  split <;> exact ⟨rfl, rfl⟩

-- The server keeps to its path, and what it stores is well-formed.
structure Sound (path : Path) (server : Server) : Prop where
  path_eq : server.path = path
  store : server.store.keyspace.WellFormed

theorem start_sound (path : Path) (files : FileSystem) : Sound path (start path files) := by
  refine ⟨rfl, ?_⟩
  simp only [start, Snapshot.load]
  split
  · exact Store.restore_wellFormed (Snapshot.decode_wellFormed _) .empty
  · exact Keyspace.wellFormed_empty
  · exact Keyspace.wellFormed_empty

namespace Sound

theorem answerAll (h : Sound path server) (now : Nat) (requests : List Bytes) :
    Sound path (server.answerAll now requests).2 := by
  induction requests generalizing server with
  | nil => exact h
  | cons request rest ih =>
      have hanswer : Sound path (server.answer now request).2 :=
        ⟨h.path_eq, Store.execute_wellFormed h.store now (Request.decode request)⟩
      exact ih hanswer

theorem request (h : Sound path server) (now id : Nat) (bytes : Bytes) :
    Sound path (server.request now id bytes).2 :=
  have hanswered := h.answerAll now (Connection.reads bytes)
  ⟨hanswered.path_eq, hanswered.store⟩

theorem perform (h : Sound path server) (now : Nat) (event : Event) (files : FileSystem) :
    Sound path (event.perform now server files).1 := by
  cases event with
  | connect id => exact ⟨h.path_eq, h.store⟩
  | disconnect id =>
      obtain ⟨hstore, hpath⟩ := server.disconnect_store_and_path id
      exact ⟨hpath.trans h.path_eq, hstore ▸ h.store⟩
  | request id bytes => exact h.request now id bytes
  | command id tokens =>
      simp only [Event.perform, command]
      split
      · exact h.request now id _
      · have hconnected : Sound path (server.connect id) := ⟨h.path_eq, h.store⟩
        exact hconnected.request now id _
  | sweep => exact ⟨h.path_eq, h.store.purge now⟩
  | save => exact ⟨h.path_eq, h.store.purge now⟩

theorem run (h : Sound path server) (files : FileSystem) (turns : List (Nat × Event)) :
    Sound path (server.run files turns).1 := by
  induction turns generalizing server files with
  | nil => exact h
  | cons turn rest ih => exact ih (h.perform turn.1 turn.2 files) _

end Sound

end KeyValue.Server
