import KeyValue.Path

namespace KeyValue

inductive FileError.Cause where
  | notFound
  | notADirectory
  | isADirectory
  -- One of the names in a path, or the path itself.
  | nameTooLong
  -- A zero byte, which no name can hold.
  | zeroByte
  -- A directory cannot be replaced by way of what it calls itself or the one around it.
  | busy
deriving DecidableEq

structure FileError where
  cause : FileError.Cause
  path : Path
deriving DecidableEq

inductive FileSystem.Entry where
  | file (contents : Bytes)
  | directory
deriving DecidableEq

-- Where a file or a directory stands: its own name and the names of the directories around
-- it, innermost first. Their number goes with them, because it tells most places apart at
-- once. Many paths lead to one place.
structure FileSystem.Place where
  depth : Nat
  names : List Bytes
deriving DecidableEq

-- What stands in the root, at any depth. The root itself is always there.
structure FileSystem where
  entries : List (FileSystem.Place × FileSystem.Entry)
deriving DecidableEq

namespace FileSystem

def empty : FileSystem := ⟨[]⟩

instance : Inhabited FileSystem := ⟨empty⟩

def root : Place := ⟨0, []⟩

def Place.inside (place : Place) (name : Bytes) : Place := ⟨place.depth + 1, name :: place.names⟩

-- Nothing is around the root but the root itself.
def Place.around (place : Place) : Place := ⟨place.depth - 1, place.names.tail⟩

def Place.step (place : Place) (name : Bytes) : Place :=
  if name = Path.here then place
  else if name = Path.up then place.around
  else place.inside name

def entry? (files : FileSystem) (place : Place) : Option Entry :=
  if place = root then some .directory else files.entries.lookup place

def remove (files : FileSystem) (place : Place) : FileSystem :=
  ⟨files.entries.filter (·.1 != place)⟩

def put (files : FileSystem) (place : Place) (entry : Entry) : FileSystem :=
  ⟨(place, entry) :: (files.remove place).entries⟩

-- The limits of the system are assumed to be these, in bytes: for a name that a directory
-- holds, and for a path as it is given.
def maxName : Nat := 255
def maxPath : Nat := 4095

-- A path that is empty, holds a zero byte or is too long is refused before anything is looked
-- up.
def refusal? (path : Path) : Option FileError.Cause :=
  if path = [] then some .notFound
  else if path.contains 0 then some .zeroByte
  else if maxPath < path.length then some .nameTooLong
  else none

-- Follows names from a place. Each of them is looked up in a directory, and only the last
-- one may lead to a place where nothing stands.
def walk (files : FileSystem) (place : Place) : List Bytes → Except FileError.Cause Place
  | [] => .ok place
  | name :: rest =>
      match files.entry? place with
      | none => .error .notFound
      | some (.file _) => .error .notADirectory
      | some .directory =>
          if maxName < name.length then .error .nameTooLong
          else files.walk (place.step name) rest

def locate (files : FileSystem) (path : Path) : Except FileError.Cause Place :=
  match refusal? path with
  | some cause => .error cause
  | none => files.walk root path.steps

-- What stands at a path, if its directories can be reached.
def find (files : FileSystem) (path : Path) : Except FileError.Cause (Option Entry) :=
  (files.locate path).map files.entry?

-- The contents of a file, or none if there is no such file.
def read (files : FileSystem) (path : Path) : Except FileError.Cause (Option Bytes) :=
  match files.find path with
  | .ok (some (.file contents)) => .ok (some contents)
  | .ok (some .directory) => .error .isADirectory
  | .ok none => .ok none
  | .error .notFound => .ok none
  | .error cause => .error cause

-- One request to the file system.
inductive Action where
  -- Makes an empty file, or empties the one that is there.
  | create (path : Path)
  | append (path : Path) (bytes : Bytes)
  | sync (path : Path)
  -- Moves a file over whatever file stands at the target, in one indivisible step.
  | rename (source target : Path)
deriving DecidableEq

-- The path that a failure of the action is about.
def Action.subject : Action → Path
  | .create path => path
  | .append path _ => path
  | .sync path => path
  | .rename _ target => target

-- Puts contents into a file that may be there already, given what it holds.
def overFile (files : FileSystem) (path : Path) (result : Option Bytes → Bytes) :
    Except FileError.Cause FileSystem :=
  match files.locate path with
  | .error cause => .error cause
  | .ok place =>
      match files.entry? place with
      | some .directory => .error .isADirectory
      | some (.file contents) => .ok (files.put place (.file (result (some contents))))
      | none => .ok (files.put place (.file (result none)))

-- The place that a file gets by being moved to a path. Its last name must be a plain one
-- with no slash after it, whatever stands there.
def destination (files : FileSystem) (path : Path) : Except FileError.Cause Place :=
  match refusal? path, files.walk root path.names with
  | some cause, _ => .error cause
  | none, .error cause => .error cause
  | none, .ok place =>
      if path.names.getLast? = some Path.here ∨ path.names.getLast? = some Path.up then
        .error .busy
      else if path.endsInSlash then .error .notADirectory
      else if files.entry? place = some .directory then .error .isADirectory
      else .ok place

-- It is assumed that there are no links, that everything may be done by everyone, and that
-- the device does not fail. An action can then only fail for where its paths lead.
def perform (files : FileSystem) : Action → Except FileError.Cause FileSystem
  | .create path => files.overFile path fun _ => []
  | .append path bytes => files.overFile path fun old => old.getD [] ++ bytes
  | .sync _ => .ok files
  | .rename source target =>
      match files.locate source with
      | .error cause => .error cause
      | .ok place =>
          match files.entry? place with
          | none => .error .notFound
          | some .directory => .error .isADirectory
          | some (.file contents) =>
              (files.destination target).map fun destination =>
                (files.remove place).put destination (.file contents)

-- Performs the actions in order, up to the first that fails. What was done before stays.
def performAll (files : FileSystem) : List Action → Except FileError Unit × FileSystem
  | [] => (.ok (), files)
  | action :: rest =>
      match files.perform action with
      | .ok files => files.performAll rest
      | .error cause => (.error ⟨cause, action.subject⟩, files)

-- The same for a program that has a file system to go with it.
def performing (actions : List Action) : StateM FileSystem (Except FileError Unit) :=
  fun files => files.performAll actions

-- Others use the same directories. What they attempt may fail, and then changes nothing.

-- Removes a file. A directory stays.
def removeFile (files : FileSystem) (path : Path) : FileSystem :=
  match files.locate path with
  | .ok place =>
      match files.entry? place with
      | some (.file _) => files.remove place
      | _ => files
  | .error _ => files

def makeAlong (files : FileSystem) (place : Place) : List Bytes → FileSystem
  | [] => files
  | name :: rest =>
      let next := place.step name
      match files.entry? next with
      | some .directory => files.makeAlong next rest
      | some (.file _) => files
      | none =>
          if maxName < name.length then files
          else (files.put next .directory).makeAlong next rest

-- Makes a directory, and before it those around it that are missing.
def makeDirectory (files : FileSystem) (path : Path) : FileSystem :=
  if (refusal? path).isSome then files else files.makeAlong root path.names

end FileSystem

end KeyValue
