import KeyValue.Bytes

namespace KeyValue

-- Names with slashes between them, followed from the root. A slash in front changes nothing,
-- because the directory that other paths are followed from is assumed to be the root as well.
abbrev Path := Bytes

namespace Path

def slash : UInt8 := 47

-- What a directory calls itself, and what it calls the directory around it.
def here : Bytes := [46]
def up : Bytes := [46, 46]

-- Several slashes in a row count as one.
def names (path : Path) : List Bytes := (path.splitOn slash).filter (· ≠ [])

-- Such a path can only lead to a directory.
def endsInSlash (path : Path) : Bool := path.getLast?.getD slash = slash

-- The names to look up, one in the other. A slash at the end asks for a directory, which is
-- the same as asking what that directory calls itself.
def steps (path : Path) : List Bytes :=
  if path.endsInSlash then path.names ++ [here] else path.names

-- Where the next version of a file is written before it takes the file's place.
def draft (path : Path) : Path := path ++ Bytes.ofText ".tmp"

end Path

end KeyValue
