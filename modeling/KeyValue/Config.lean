import KeyValue.Clock
import KeyValue.Decimal
import KeyValue.Sweeper

namespace KeyValue

structure Config where
  host : String
  port : UInt16
  snapshotPath : String
  -- Seconds. Zero turns periodic snapshots off.
  snapshotInterval : UInt64
  -- Milliseconds.
  sweepInterval : UInt64
  -- Seconds that open connections are given at shutdown.
  shutdownGrace : UInt64
  logLevel : String
deriving DecidableEq

namespace Config

def default : Config where
  host := "127.0.0.1"
  port := 6379
  snapshotPath := "dump.snap"
  snapshotInterval := 300
  sweepInterval := 100
  shutdownGrace := 5
  logLevel := "info"

instance : Inhabited Config := ⟨default⟩

def bindAddress (config : Config) : String :=
  config.host ++ ":" ++ Decimal.text config.port.toNat

def snapshotEvery (config : Config) : Option Nat :=
  if config.snapshotInterval = 0 then none
  else some (Clock.seconds config.snapshotInterval.toNat)

-- Never less than a millisecond.
def sweepEvery (config : Config) : Nat := Clock.millis (max config.sweepInterval.toNat 1)

def grace (config : Config) : Nat := Clock.seconds config.shutdownGrace.toNat

def sweeperSettings (config : Config) : Sweeper.Settings := .around config.sweepEvery

end Config

end KeyValue
