import KeyValue.Config

namespace KeyValue.Config

-- The settings that the command line can give. Each takes one value.
inductive Setting where
  | host
  | port
  | snapshotPath
  | snapshotInterval
  | sweepInterval
  | shutdownGrace
  | logLevel
deriving DecidableEq

namespace Setting

def all : List Setting := [
  .host, .port, .snapshotPath, .snapshotInterval, .sweepInterval, .shutdownGrace, .logLevel]

def longName : Setting → String
  | .host => "host"
  | .port => "port"
  | .snapshotPath => "snapshot-path"
  | .snapshotInterval => "snapshot-interval"
  | .sweepInterval => "sweep-interval-ms"
  | .shutdownGrace => "shutdown-grace"
  | .logLevel => "log-level"

-- The environment variable that gives the value if the command line does not. The program's
-- own name goes before it, in capitals and with an underscore.
def variableName? : Setting → Option String
  | .host => some "HOST"
  | .port => some "PORT"
  | .snapshotPath => some "SNAPSHOT"
  | .snapshotInterval => some "SNAPSHOT_INTERVAL"
  | .sweepInterval => some "SWEEP_INTERVAL_MS"
  | .shutdownGrace => none
  | .logLevel => none

end Setting

-- Why the arguments do not give a configuration. A request for the help text or the
-- version ends the reading of arguments in the same way.
inductive Stop where
  | unknownArgument (argument : String)
  | missingValue (setting : Setting)
  | emptyValue (setting : Setting)
  | invalidValue (setting : Setting)
  | repeated (setting : Setting)
  | unexpectedValue (flag : String)
  | help
  | version
deriving DecidableEq

-- The values given so far.
structure Given where
  host : Option String
  port : Option UInt16
  snapshotPath : Option String
  snapshotInterval : Option UInt64
  sweepInterval : Option UInt64
  shutdownGrace : Option UInt64
  logLevel : Option String
deriving DecidableEq

namespace Given

def empty : Given := ⟨none, none, none, none, none, none, none⟩

def has (given : Given) : Setting → Bool
  | .host => given.host.isSome
  | .port => given.port.isSome
  | .snapshotPath => given.snapshotPath.isSome
  | .snapshotInterval => given.snapshotInterval.isSome
  | .sweepInterval => given.sweepInterval.isSome
  | .shutdownGrace => given.shutdownGrace.isSome
  | .logLevel => given.logLevel.isSome

-- A plus sign is allowed. A minus sign is allowed only before zero.
def toUInt16? (text : String) : Option UInt16 :=
  match Decimal.toInt64? (Bytes.ofText text) with
  | some value =>
      if 0 ≤ value.toInt ∧ value.toInt < UInt16.size then some (UInt16.ofNat value.toInt.toNat)
      else none
  | none => none

-- A plus sign is allowed, and no minus sign.
def toUInt64? (text : String) : Option UInt64 :=
  match Bytes.ofText text with
  | 43 :: numeral => (Decimal.toSize? numeral).map UInt64.ofNat
  | numeral => (Decimal.toSize? numeral).map UInt64.ofNat

def orInvalid {α : Type} (setting : Setting) : Option α → Except Stop α
  | some value => .ok value
  | none => .error (.invalidValue setting)

def assign (given : Given) (setting : Setting) (text : String) : Except Stop Given :=
  match setting with
  | .host => .ok { given with host := some text }
  | .port => do
      let value ← orInvalid setting (toUInt16? text)
      return { given with port := some value }
  | .snapshotPath =>
      if text.isEmpty then .error (.emptyValue setting)
      else .ok { given with snapshotPath := some text }
  | .snapshotInterval => do
      let value ← orInvalid setting (toUInt64? text)
      return { given with snapshotInterval := some value }
  | .sweepInterval => do
      let value ← orInvalid setting (toUInt64? text)
      return { given with sweepInterval := some value }
  | .shutdownGrace => do
      let value ← orInvalid setting (toUInt64? text)
      return { given with shutdownGrace := some value }
  | .logLevel => .ok { given with logLevel := some text }

-- No setting may be given twice.
def give (given : Given) (setting : Setting) (text : String) : Except Stop Given :=
  if given.has setting then .error (.repeated setting) else given.assign setting text

-- A variable is looked at only if the command line did not give its setting.
def fromEnvironment (given : Given) (environment : String → Option String) (setting : Setting) :
    Except Stop Given :=
  if given.has setting then .ok given
  else
    match setting.variableName?.bind environment with
    | some text => given.assign setting text
    | none => .ok given

def config (given : Given) : Config where
  host := given.host.getD default.host
  port := given.port.getD default.port
  snapshotPath := given.snapshotPath.getD default.snapshotPath
  snapshotInterval := given.snapshotInterval.getD default.snapshotInterval
  sweepInterval := given.sweepInterval.getD default.sweepInterval
  shutdownGrace := given.shutdownGrace.getD default.shutdownGrace
  logLevel := given.logLevel.getD default.logLevel

end Given

-- An option whose value stands in the argument after it is read as a value only once the
-- next option comes, or the end.
structure Reading where
  given : Given
  pending : Option (Setting × Option String)
deriving DecidableEq

namespace Reading

def settle (reading : Reading) : Except Stop Given :=
  match reading.pending with
  | none => .ok reading.given
  | some (setting, none) => .error (.missingValue setting)
  | some (setting, some text) => reading.given.give setting text

def await (reading : Reading) (setting : Setting) : Except Stop Reading := do
  return ⟨← reading.settle, some (setting, none)⟩

def attach (reading : Reading) (setting : Setting) (text : String) : Except Stop Reading := do
  let given ← (← reading.settle).give setting text
  return ⟨given, none⟩

def stopAt (reading : Reading) (reason : Stop) : Except Stop Reading := do
  let _ ← reading.settle
  throw reason

-- `--name` or `--name=value`, without the dashes.
def long (reading : Reading) (argument : List Char) : Except Stop Reading :=
  let name := String.ofList (argument.takeWhile (· ≠ '='))
  let value? := (argument.dropWhile (· ≠ '=')).tail?.map String.ofList
  match Setting.all.find? (·.longName == name), value? with
  | some setting, none => reading.await setting
  | some setting, some value => reading.attach setting value
  | none, none =>
      if name = "help" then reading.stopAt .help
      else if name = "version" then reading.stopAt .version
      else .error (.unknownArgument name)
  | none, some _ =>
      if name = "help" ∨ name = "version" then .error (.unexpectedValue name)
      else .error (.unknownArgument name)

-- One dash and a letter, with the value after the letter or after an equals sign.
def short (reading : Reading) (letter : Char) (rest : List Char) : Except Stop Reading :=
  if letter = 'h' then reading.stopAt .help
  else if letter = 'V' then reading.stopAt .version
  else if letter = 'p' then
    match rest with
    | [] => reading.await .port
    | '=' :: value => reading.attach .port (String.ofList value)
    | value => reading.attach .port (String.ofList value)
  else .error (.unknownArgument (String.singleton letter))

-- An argument that is no option is the value of the option before it, if that waits for one.
def plain (reading : Reading) (argument : String) : Except Stop Reading :=
  match reading.pending with
  | some (setting, none) => .ok { reading with pending := some (setting, some argument) }
  | _ => .error (.unknownArgument argument)

-- After two dashes alone no options follow, and nothing else may.
def arguments (reading : Reading) : List String → Except Stop Given
  | [] => reading.settle
  | argument :: rest =>
      match argument.toList, rest with
      | ['-', '-'], [] => reading.settle
      | ['-', '-'], next :: _ => .error (.unknownArgument next)
      | '-' :: '-' :: name, rest => do (← reading.long name).arguments rest
      | '-' :: letter :: value, rest => do (← reading.short letter value).arguments rest
      | _, rest => do (← reading.plain argument).arguments rest

end Reading

-- The configuration from the arguments after the program's name, the environment and the
-- defaults, in this order of precedence.
def ofArguments (arguments : List String) (environment : String → Option String) :
    Except Stop Config := do
  let given ← Reading.arguments ⟨.empty, none⟩ arguments
  let given ← Setting.all.foldlM (fun given setting => given.fromEnvironment environment setting) given
  return given.config

end KeyValue.Config
