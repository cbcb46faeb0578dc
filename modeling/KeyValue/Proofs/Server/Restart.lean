import KeyValue.Proofs.Server.Runs

namespace KeyValue.Server

open FileSystem (Place)
open Keyspace (live_of_no_deadlines purge_of_no_deadlines)
open Snapshot (Replaceable encode)

variable {server : Server} {files : FileSystem} {path : Path} {draft target : Place}
  {data : Namespaces}

-- A server that stores what its snapshot holds, and nothing that will ever be due.
structure Resting (path : Path) (draft target : Place) (data : Namespaces) (server : Server)
    (files : FileSystem) : Prop where
  path_eq : server.path = path
  keyspace : server.store.keyspace = ⟨data, .empty⟩
  replaceable : Replaceable files path draft target
  read : files.read path = .ok (some (encode data))

namespace Resting

-- The snapshot it writes is the one that is there.
theorem dump (h : Resting path draft target data server files) (now : Nat) :
    Snapshot.dump now server.path server.store files =
      (.ok ⟨data.size, (encode data).length⟩, (server.store.purge now).2,
        Snapshot.replaced files draft target (encode data)) := by
  rw [h.path_eq, h.replaceable.dump_eq, h.keyspace, live_of_no_deadlines]

theorem save (h : Resting path draft target data server files) (now : Nat) :
    Resting path draft target data { server with store := (server.store.purge now).2 }
      (Snapshot.replaced files draft target (encode data)) where
  path_eq := h.path_eq
  keyspace := by rw [Store.purge, h.keyspace, purge_of_no_deadlines]
  replaceable := h.replaceable.again (encode data)
  read := h.replaceable.read_replaced (encode data)

theorem perform (h : Resting path draft target data server files) (now : Nat) {event : Event}
    (hevent : event.isRequest = false) :
    Resting path draft target data (event.perform now server files).1
      (event.perform now server files).2 := by
  cases event with
  | connect id => exact ⟨h.path_eq, h.keyspace, h.replaceable, h.read⟩
  | disconnect id =>
      obtain ⟨hstore, hpath⟩ := server.disconnect_store_and_path id
      exact ⟨hpath.trans h.path_eq, hstore ▸ h.keyspace, h.replaceable, h.read⟩
  | request id bytes => cases hevent
  | command id tokens => cases hevent
  | sweep =>
      refine ⟨h.path_eq, ?_, h.replaceable, h.read⟩
      simp only [Event.perform, Store.purge, h.keyspace, purge_of_no_deadlines]
  | save =>
      simp only [Event.perform, h.dump]
      exact h.save now

theorem run (h : Resting path draft target data server files) {turns : List (Nat × Event)}
    (hidle : ∀ turn ∈ turns, turn.2.isRequest = false) :
    Resting path draft target data (server.run files turns).1 (server.run files turns).2 := by
  induction turns generalizing server files with
  | nil => exact h
  | cons turn rest ih =>
      obtain ⟨hturn, hrest⟩ := List.forall_mem_cons.mp hidle
      exact ih (h.perform turn.1 hturn) hrest

theorem shutDown (h : Resting path draft target data server files) (now : Nat) :
    (server.shutDown now files).2.read path = .ok (some (encode data)) := by
  simp only [Server.shutDown, h.dump]
  exact h.replaceable.read_replaced (encode data)

end Resting

theorem shutDown_files (h : Replaceable files server.path draft target) (now : Nat) :
    (server.shutDown now files).2 =
      Snapshot.replaced files draft target (encode (server.store.keyspace.live now)) := by
  simp only [shutDown, h.dump_eq]

-- From a snapshot of well-formed values a server starts with just these.
theorem start_resting (h : Replaceable files path draft target) (hdata : data.WellFormed)
    (hread : files.read path = .ok (some (encode data))) :
    Resting path draft target data (start path files) files where
  path_eq := rfl
  keyspace := by rw [start, Snapshot.load_encode hdata hread]; rfl
  replaceable := h
  read := hread

-- Whatever file there was at first and whatever was asked for, a restart gives back all that
-- was not due, without deadlines, and a server of which nothing is asked leaves its file alone.
theorem restart_transparent {first : FileSystem} {turns : List (Nat × Event)} {now : Nat}
    (hrun : (start path first).run first turns = (server, files))
    (hwritten : (Snapshot.dump now path server.store files).1.isOk = true) :
    let live := server.store.keyspace.live now
    let left := (server.shutDown now files).2
    left.read path = .ok (some (encode live)) ∧
    (start path left).store = ⟨⟨live, .empty⟩, 0⟩ ∧
    (∃ counts, (Snapshot.load path .empty left).1 = .ok (some counts) ∧ counts.skipped = 0) ∧
    ∀ (idle : List (Nat × Event)) (later : Nat), (∀ turn ∈ idle, turn.2.isRequest = false) →
      let again := (start path left).run left idle
      (again.1.shutDown later again.2).2.read path = left.read path := by
  intro live left
  have hsound : Sound path server := by
    simpa only [hrun] using (start_sound path first).run first turns
  have hlive : live.WellFormed := hsound.store.live now
  obtain ⟨draft, target, hreplaceable⟩ := Snapshot.exists_replaceable_of_dump hwritten
  have hleft : left = Snapshot.replaced files draft target (encode live) :=
    shutDown_files (hsound.path_eq ▸ hreplaceable) now
  have hread : left.read path = .ok (some (encode live)) :=
    hleft ▸ hreplaceable.read_replaced (encode live)
  have hload := Snapshot.load_encode hlive hread .empty
  have hresting : Resting path draft target live (start path left) left :=
    start_resting (hleft ▸ hreplaceable.again (encode live)) hlive hread
  refine ⟨hread, ?_, ⟨_, congrArg Prod.fst hload, ?_⟩, fun idle later hidle => ?_⟩
  · rw [start, hload]
    rfl
  · rw [Snapshot.counts_decode_encode]
  · rw [hread]
    exact (hresting.run hidle).shutDown later

-- A key of each kind is stored, and one of them is due when the server goes down.
def shopTurns : List (Nat × Event) := [
  (1, .connect 0),
  (2, .command 0 [Bytes.ofText "SET", [97], [49]]),
  (3, .command 1 [Bytes.ofText "RPUSH", [98], [50], [51]]),
  (4, .command 1 [Bytes.ofText "EXPIRE", [98], [49]]),
  (5, .save),
  (6, .command 0 [Bytes.ofText "HSET", [99], [], [37]]),
  (7, .disconnect 0)]

def shopServer : Server × FileSystem := (start (Bytes.ofText "db") .empty).run .empty shopTurns

theorem shop_restart_transparent :
    (Snapshot.dump (Clock.seconds 9) (Bytes.ofText "db") shopServer.1.store
      shopServer.2).1.isOk = true ∧
    (start (Bytes.ofText "db")
      (shopServer.1.shutDown (Clock.seconds 9) shopServer.2).2).store =
        ⟨⟨shopServer.1.store.keyspace.live (Clock.seconds 9), .empty⟩, 0⟩ := by
  have hwritten : (Snapshot.dump (Clock.seconds 9) (Bytes.ofText "db") shopServer.1.store
      shopServer.2).1.isOk = true := by
    decide +kernel
  exact ⟨hwritten, (restart_transparent rfl hwritten).2.1⟩

end KeyValue.Server
