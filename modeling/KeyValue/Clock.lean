namespace KeyValue.Clock

-- Spans of time and instants are whole nanoseconds. Instants count from the start of a
-- clock that never goes back, and every operation is told what time it is.

def seconds (count : Nat) : Nat := count * 1000000000

def millis (count : Nat) : Nat := count * 1000000

def toSeconds (span : Nat) : Nat := span / 1000000000

-- A sleeper is woken on a whole millisecond, and never early.
def wake (instant : Nat) : Nat := millis ((instant + 999999) / 1000000)

theorem le_wake (instant : Nat) : instant ≤ wake instant := by
  simp only [wake, millis]
  omega

-- Instants hold a signed 64-bit number of whole seconds. A later one does not exist.
def after? (now count : Nat) : Option Nat :=
  if toSeconds now + count < 9223372036854775808 then some (now + seconds count) else none

end KeyValue.Clock
