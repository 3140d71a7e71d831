/-
**Settings.**

The settings of the calculator come from a document in TOML.  Keys that are missing have a
default, and keys that are not known do not count.

Main definitions:

* `Reckoner.LogLevel` — how much is logged;
* `Reckoner.Settings` — the settings, with their defaults;
* `Reckoner.SettingsError` — why there are none, with its wording;
* `Reckoner.Settings.parse` — the settings of a document.
-/

import Reckoner.Toml.Document

set_option autoImplicit false

namespace Reckoner

/-! ### Levels -/

/-- How much is logged: records of a level and of those above it. -/
inductive LogLevel
  | debug | info | warn | error
deriving DecidableEq, Repr

namespace LogLevel

/-- The order of the levels. -/
def rank : LogLevel → Nat
  | .debug => 0
  | .info => 1
  | .warn => 2
  | .error => 3

/-- The name of a level in a log. -/
def label : LogLevel → String
  | .debug => "DEBUG"
  | .info => "INFO"
  | .warn => "WARN"
  | .error => "ERROR"

/-- The level of a name, if the name is that of a level.  Two names switch logging off. -/
def ofName? : String → Option (Option LogLevel)
  | "off" | "none" => some none
  | "debug" => some (some .debug)
  | "info" => some (some .info)
  | "warn" => some (some .warn)
  | "error" => some (some .error)
  | _ => none

end LogLevel

/-! ### Settings -/

/-- Why a file cannot be read. -/
inductive FileError
  | missing
  | directory
  | notInDirectory
  | denied
  | other (message : String)
deriving DecidableEq, Repr

/-- The wording of the system. -/
def FileError.message : FileError → String
  | .missing => "No such file or directory (os error 2)"
  | .directory => "Is a directory (os error 21)"
  | .notInDirectory => "Not a directory (os error 20)"
  | .denied => "Permission denied (os error 13)"
  | .other message => message

/-- Why there are no settings. -/
inductive SettingsError
  /-- The file cannot be read. -/
  | unreadable (reason : FileError)
  /-- The text is no document, or a key has a value of the wrong kind. -/
  | malformed
  /-- A level that is not known. -/
  | unknownLevel (name : String)
deriving DecidableEq, Repr

/-- The wording of the reason. -/
def SettingsError.message : SettingsError → String
  | .unreadable reason => "cannot read config file: " ++ reason.message
  | .malformed => "cannot parse config file"
  | .unknownLevel name =>
      "loglevel must be off, none, debug, info, warn or error, got \"" ++ name ++ "\""

/-- The settings of the calculator. -/
structure Settings where
  /-- The name of the level. -/
  levelName : String := "info"
  /-- How much is logged, if anything. -/
  level : Option LogLevel := some .info
  /-- The variable of a derivative that names none. -/
  variableName : String := "x"
  /-- The directory of log files, if there are to be any. -/
  logDirectory : Option String := none
deriving DecidableEq, Repr

namespace Settings

/-- The string of a key, if the key is there.  Another kind of value is a fault. -/
def string? (t : Toml.Table) (key : String) : Except SettingsError (Option String) :=
  match t.lookup key with
  | none => .ok none
  | some (.text s) => .ok (some s)
  | some _ => .error .malformed

/-- The settings of a table.  The kinds of values are checked before the level is. -/
def ofTable (t : Toml.Table) : Except SettingsError Settings := do
  let levelName := (← string? t "loglevel").getD "info"
  let variableName := (← string? t "default_derivative_variable").getD "x"
  let logDirectory ← string? t "log_file"
  match LogLevel.ofName? levelName with
  | some level =>
      return { levelName := levelName, level := level, variableName := variableName,
               logDirectory := logDirectory }
  | none => throw (.unknownLevel levelName)

/-- The settings of a document. -/
def parse (text : String) : Except SettingsError Settings :=
  match Toml.parse? text with
  | some t => ofTable t
  | none => .error .malformed

end Settings

end Reckoner
