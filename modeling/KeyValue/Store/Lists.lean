import KeyValue.Store

namespace KeyValue.Store

-- Lists have a head and a tail. Positions count from the head, and negative ones from the
-- tail: -1 is the last element.

inductive Side where
  | head
  | tail
deriving DecidableEq

-- At the head the values go in one by one, so the last of them comes to stand first.
def Side.push (side : Side) (values items : List Bytes) : List Bytes :=
  match side with
  | .head => values.reverse ++ items
  | .tail => items ++ values

def Side.pop (side : Side) (items : List Bytes) : Option Bytes × List Bytes :=
  match side with
  | .head => (items.head?, items.tail)
  | .tail => (items.getLast?, items.dropLast)

-- Gives the new length. Pushing nothing to an absent key makes an empty list.
def push (side : Side) (now : Nat) (key : Bytes) (values : List Bytes) (store : Store) :
    Except StoreError Nat × Store :=
  store.typed .list now key fun keyspace =>
    let items := side.push values (keyspace.listAt key)
    (.ok items.length, keyspace.setList key items)

def pop (side : Side) (now : Nat) (key : Bytes) (store : Store) :
    Except StoreError (Option Bytes) × Store :=
  store.typed .list now key fun keyspace =>
    match keyspace.data.lists.get? key with
    | none => (.ok none, keyspace)
    | some items =>
        let (value, rest) := side.pop items
        (.ok value, keyspace.keepList key rest)

def listLength (now : Nat) (key : Bytes) (store : Store) : Except StoreError Nat × Store :=
  store.typedRead .list now key fun keyspace => (keyspace.listAt key).length

def listItems (now : Nat) (key : Bytes) (store : Store) :
    Except StoreError (List Bytes) × Store :=
  store.typedRead .list now key fun keyspace => keyspace.listAt key

-- The position counted from the head that an index means in a list of the given length.
def fromHead (index : Int64) (length : Nat) : Int :=
  if index.toInt < 0 then length + index.toInt else index.toInt

def position? (index : Int64) (length : Nat) : Option Nat :=
  let position := fromHead index length
  if 0 ≤ position ∧ position < length then some position.toNat else none

def listIndex (now : Nat) (key : Bytes) (index : Int64) (store : Store) :
    Except StoreError (Option Bytes) × Store :=
  store.typedRead .list now key fun keyspace =>
    let items := keyspace.listAt key
    (position? index items.length).bind (items[·]?)

def listSet (now : Nat) (key : Bytes) (index : Int64) (value : Bytes) (store : Store) :
    Except StoreError Unit × Store :=
  store.typed .list now key fun keyspace =>
    match keyspace.data.lists.get? key with
    | none => (.error .noSuchKey, keyspace)
    | some items =>
        match position? index items.length with
        | none => (.error .indexOutOfRange, keyspace)
        | some position => (.ok (), keyspace.setList key (items.set position value))

-- A scan for elements to remove: a mark for every element that it has come to, and the number
-- of marks that say the element goes.
structure Scan where
  marks : List Bool
  marked : Nat

-- The next element goes if it equals the value, unless as many go already as may.
def Scan.visit (value : Bytes) (limit : Option Nat) (item : Bytes) (scan : Scan) : Scan :=
  if item = value ∧ limit.all fun limit => scan.marked < limit then
    ⟨true :: scan.marks, scan.marked + 1⟩
  else ⟨false :: scan.marks, scan.marked⟩

-- Comes to all elements, the one at the given side first. The marks stand in the order of the
-- elements whichever side that is.
def scan (side : Side) (value : Bytes) (limit : Option Nat) (items : List Bytes) : Scan :=
  match side with
  | .head =>
      let scan := items.foldl (fun scan item => Scan.visit value limit item scan) ⟨[], 0⟩
      { scan with marks := scan.marks.reverse }
  | .tail => items.foldr (Scan.visit value limit) ⟨[], 0⟩

-- The elements that stay.
def retain (marks : List Bool) (items : List Bytes) : List Bytes :=
  ((items.zip marks).filter fun entry => !entry.2).map Prod.fst

-- A positive count limits the removals from the head, a negative one from the tail, and
-- zero stands for no limit. Gives the number of elements removed, and those left.
def removeMatches (count : Int64) (value : Bytes) (items : List Bytes) : Nat × List Bytes :=
  let limit := if count.toInt = 0 then none else some count.toInt.natAbs
  let scan := scan (if count.toInt < 0 then .tail else .head) value limit items
  (scan.marked, retain scan.marks items)

def listRemove (now : Nat) (key : Bytes) (count : Int64) (value : Bytes) (store : Store) :
    Except StoreError Nat × Store :=
  store.typed .list now key fun keyspace =>
    match keyspace.data.lists.get? key with
    | none => (.ok 0, keyspace)
    | some items =>
        let (removed, rest) := removeMatches count value items
        (.ok removed, keyspace.keepList key rest)

end KeyValue.Store
