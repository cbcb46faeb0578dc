import KeyValue.Store

namespace KeyValue

-- The sweeper evicts keys that are due even if nobody asks for them. It sweeps more often
-- while many of the keys with deadlines turn out to be due, and less often while none are.
namespace Sweeper

structure Settings where
  base : Nat
  shortest : Nat
  longest : Nat
  -- The share of keys that must have been due for the next sweep to come sooner.
  threshold : Float

namespace Settings

def default : Settings where
  base := Clock.millis 100
  shortest := Clock.millis 10
  longest := Clock.seconds 1
  threshold := 0.25

-- The default bounds, moved apart as far as needed to hold the given interval.
def around (base : Nat) : Settings :=
  { default with
    base := base
    shortest := min base default.shortest
    longest := max base default.longest }

-- `expiring` keys had a deadline before the sweep, and `evicted` of them were due.
def isBusy (settings : Settings) (expiring evicted : Nat) : Bool :=
  evicted.toFloat / (max expiring 1).toFloat > settings.threshold

def nextInterval (settings : Settings) (interval : Nat) (expiring evicted : Nat) :
    Nat :=
  if evicted = 0 then min (interval * 2) settings.longest
  else if settings.isBusy expiring evicted then max (interval / 2) settings.shortest
  else interval

end Settings

end Sweeper

structure Sweeper where
  settings : Sweeper.Settings
  interval : Nat
  next : Nat
  running : Bool

namespace Sweeper

def start (now : Nat) (settings : Settings) : Sweeper :=
  ⟨settings, settings.base, now + settings.base, true⟩

def stop (sweeper : Sweeper) : Sweeper := { sweeper with running := false }

-- The sweep that is due next, with the choice of the interval after it. Time always goes
-- on between two sweeps, if only by the smallest step.
def sweep (sweeper : Sweeper) (store : Store) : Sweeper × Store :=
  let (evicted, after) := store.purge sweeper.next
  let interval := sweeper.settings.nextInterval sweeper.interval store.stats.expiring evicted
  ({ sweeper with interval := interval, next := Clock.wake (sweeper.next + max interval 1) }, after)

-- Makes all sweeps that fall due before an instant. One that falls due just then is still to
-- come, and finds whatever else happens at that instant already done.
def advance (sweeper : Sweeper) (instant : Nat) (store : Store) : Sweeper × Store :=
  if sweeper.running ∧ sweeper.next < instant then
    let swept := sweeper.sweep store
    swept.1.advance instant swept.2
  else (sweeper, store)
termination_by instant - sweeper.next
decreasing_by
  have hwake := Clock.le_wake
    (sweeper.next + max (sweeper.sweep store).1.interval 1)
  simp only [sweep] at hwake ⊢
  omega

end Sweeper

end KeyValue
