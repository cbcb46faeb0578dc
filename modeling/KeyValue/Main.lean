import KeyValue.Autosave
import KeyValue.Config.Arguments
import KeyValue.Server

-- The program serves one client on standard input and output. It starts from the snapshot
-- file, sweeps and saves between requests, and writes the snapshot once more at the end.

namespace KeyValue.Main

def describe : Config.Stop → String
  | .unknownArgument argument => "unexpected argument '" ++ argument ++ "'"
  | .missingValue setting => "a value is required for '--" ++ setting.longName ++ "'"
  | .emptyValue setting => "a value is required for '--" ++ setting.longName ++ "'"
  | .invalidValue setting => "invalid value for '--" ++ setting.longName ++ "'"
  | .repeated setting => "'--" ++ setting.longName ++ "' cannot be used more than once"
  | .unexpectedValue flag => "'--" ++ flag ++ "' takes no value"
  | .help => String.intercalate " " (Config.Setting.all.map fun setting =>
      "[--" ++ setting.longName ++ " VALUE]")
  | .version => "0.1.0"

-- The variables that belong to the program start with its own name.
def readEnvironment : IO (List (String × String)) := do
  let program := ((← IO.appPath).fileStem.getD "").map Char.toUpper
  let mut found := []
  for setting in Config.Setting.all do
    if let some name := setting.variableName? then
      if let some value ← IO.getEnv (program ++ "_" ++ name) then
        found := (name, value) :: found
  return found

-- What the snapshot file gives. One that cannot be read is like none.
def readStore (path : String) : IO Store := do
  try
    let contents ← IO.FS.readBinFile path
    return Store.empty.restore (Snapshot.decode contents.data.toList).data
  catch _ => return .empty

def bytesOf (bytes : Bytes) : ByteArray := ⟨bytes.toArray⟩

def perform (action : FileSystem.Action) : IO Unit := do
  let name (path : Path) : String := (Bytes.toText? path).getD ""
  match action with
  | .create path => IO.FS.writeBinFile (name path) ByteArray.empty
  | .append path bytes =>
      let handle ← IO.FS.Handle.mk (name path) .append
      handle.write (bytesOf bytes)
  | .sync path => (← IO.FS.Handle.mk (name path) .append).flush
  | .rename source target => IO.FS.rename (name source) (name target)

-- A snapshot that cannot be written is reported and does not stop the program.
def performAll (actions : List FileSystem.Action) : IO (Except IO.Error Unit) := do
  try
    for action in actions do perform action
    return .ok ()
  catch cause =>
    IO.eprintln ("snapshot failed: " ++ toString cause)
    return .error cause

-- Sweeps and snapshots that fall due while the program waits are made when it goes on.
partial def loop (input output : IO.FS.Stream) (sweeper : Sweeper) (autosave : Autosave)
    (server : Server) : IO Server := do
  let request ← input.read Connection.chunkSize.toUSize
  let now ← IO.monoNanosNow
  let (sweeper, store) := sweeper.advance now server.store
  let (autosave, store) ← autosave.advanceWith performAll now store
  let server := { server with store := store }
  if request.isEmpty then return server
  let (reply, answered) := server.answer now request.data.toList
  output.write (bytesOf reply)
  output.flush
  loop input output sweeper autosave answered

def run (config : Config) : IO Unit := do
  let path := Bytes.ofText config.snapshotPath
  let now ← IO.monoNanosNow
  let store ← readStore config.snapshotPath
  let server := { Server.start path .empty with store := store }.connect 0
  let autosave := Autosave.start now path (config.snapshotEvery.getD 0)
  let sweeper := Sweeper.start now config.sweeperSettings
  let server ← loop (← IO.getStdin) (← IO.getStdout) sweeper autosave server
  let _ ← Snapshot.dumpWith performAll (← IO.monoNanosNow) path (server.disconnect 0).store

end KeyValue.Main

def main (arguments : List String) : IO UInt32 := do
  let environment ← KeyValue.Main.readEnvironment
  match KeyValue.Config.ofArguments arguments (environment.lookup ·) with
  | .ok config =>
      KeyValue.Main.run config
      return 0
  | .error .help =>
      IO.println (KeyValue.Main.describe .help)
      return 0
  | .error .version =>
      IO.println (KeyValue.Main.describe .version)
      return 0
  | .error stop =>
      IO.eprintln ("error: " ++ KeyValue.Main.describe stop)
      return 2
