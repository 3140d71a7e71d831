/-
**The program.**

The outermost layer: arguments, files, the clock and the streams.  What a command does with them
is decided by `Reckoner.CommandLine.run`.

Main definitions:

* `main` — runs a command, with the files of the system.
-/

import Reckoner.CommandLine
import Std.Time.Zoned

set_option autoImplicit false

namespace Reckoner

/-! ### Files -/

/-- The reason for which the system does not give the contents of a file. -/
def FileError.ofSystem : IO.Error → FileError
  | .noFileOrDirectory _ _ _ => .missing
  | .inappropriateType _ code _ => if code = 21 then .directory else .notInDirectory
  | .permissionDenied _ _ _ => .denied
  | error => .other (toString error)

/-- The contents of a file. -/
def readText (path : String) : IO (Except FileError String) := do
  try
    return .ok (← IO.FS.readFile path)
  catch error =>
    return .error (FileError.ofSystem error)

/-! ### The clock -/

/-- A number of the calendar or the clock with two digits at least. -/
def twoDigits (n : Int) : String := String.ofList (Decimal.padded 2 (Decimal.digits n.toNat))

/-- A day with hyphens between its parts. -/
def dayText (t : Std.Time.PlainDateTime) : String :=
  "-".intercalate
    [toString t.date.year.toInt, twoDigits t.date.month.val, twoDigits t.date.day.val]

/-- A time of day with `separator` between its parts. -/
def clockText (separator : String) (t : Std.Time.PlainDateTime) : String :=
  separator.intercalate
    [twoDigits t.time.hour.val, twoDigits t.time.minute.val, twoDigits t.time.second.val]

/-! ### Logging -/

/-- The lines of a log at a time of day. -/
def logLines (t : Std.Time.PlainDateTime) (records : List CommandLine.Record) : List String :=
  records.map fun r => clockText ":" t ++ " " ++ r.line

/-- Writes lines to a new log file in a directory, which is named for the time. -/
def writeLog (directory : String) (t : Std.Time.PlainDateTime) (lines : List String) :
    IO Unit := do
  let name := "log_" ++ dayText t ++ "_" ++ clockText "-" t ++ ".txt"
  let path := if directory.isEmpty then name else directory ++ "/" ++ name
  try
    let file ← IO.FS.Handle.mk path IO.FS.Mode.write
    for line in lines do
      file.putStrLn line
  catch error =>
    IO.eprintln ("cannot create log file " ++ path ++ ": " ++ toString error)

end Reckoner

/-- Runs a command. -/
def main (arguments : List String) : IO UInt32 := do
  let contents ← match arguments with
    | "--config" :: path :: _ => Reckoner.readText path
    | _ => pure (.error .missing)
  let report := Reckoner.CommandLine.run (fun _ => contents) arguments
  let now ← Std.Time.PlainDateTime.now
  let lines := Reckoner.logLines now report.records
  if let some directory := report.logDirectory then
    Reckoner.writeLog directory now lines
  for line in lines do
    IO.eprintln line
  IO.print report.output
  if let some complaint := report.complaint then
    IO.eprintln (complaint ++ "\n" ++ Reckoner.CommandLine.usage)
  return UInt32.ofNat report.exitCode
