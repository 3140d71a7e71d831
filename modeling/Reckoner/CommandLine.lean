/-
**The command line.**

A command evaluates a line of input or judges an answer, with settings from a file if one is
given.  What it does apart from its output is described by a report: the complaint when it is used
wrongly, and the records it logs.

Main definitions:

* `Reckoner.CommandLine.Record` — records of the log, and how they are written;
* `Reckoner.CommandLine.Report` — what a command does;
* `Reckoner.CommandLine.run` — the report of a command.
-/

import Reckoner.Judge.Compare
import Reckoner.Request.Run
import Reckoner.Settings
import Reckoner.Text.Quoted

set_option autoImplicit false

namespace Reckoner.CommandLine

/-! ### Records -/

/-- A record of the log. -/
inductive Record
  /-- A step of a request. -/
  | step (stage detail : String)
  /-- The numbers that two answers denote. -/
  | numbers (user correct : String)
  /-- A message on a level. -/
  | message (level : LogLevel) (text : String)
deriving DecidableEq, Repr

namespace Record

/-- The level of a record.  Steps and numbers are of interest only in finding faults. -/
def level : Record → LogLevel
  | .step _ _ | .numbers _ _ => .debug
  | .message level _ => level

/-- The part of the program that a record for finding faults comes from. -/
def origin : Record → String
  | .step _ _ => "latex_calc::calculator::trace"
  | .numbers _ _ => "latex_calc::calculator::answer_judge"
  | .message _ _ => "latex_calc"

/-- The text of a record. -/
def text : Record → String
  | .step stage detail => stage ++ ": " ++ detail
  | .numbers user correct => "numeric answers " ++ user ++ " and " ++ correct
  | .message _ text => text

/-- A record as it is written behind the time of day.  Records for finding faults name the thread
and their origin. -/
def line (r : Record) : String :=
  let head := "[" ++ r.level.label ++ "] "
  if r.level = .debug then head ++ "(1) " ++ r.origin ++ ": " ++ r.text else head ++ r.text

end Record

/-! ### Reports -/

/-- What a command does. -/
structure Report where
  /-- The text written to the output. -/
  output : String := ""
  /-- What is wrong with the command, if anything. -/
  complaint : Option String := none
  /-- The directory in which a log file is begun. -/
  logDirectory : Option String := none
  /-- The records of the log. -/
  records : List Record := []

/-- The exit code: two after a complaint. -/
def Report.exitCode (r : Report) : Nat := if r.complaint.isSome then 2 else 0

/-- The lines that follow a complaint. -/
def usage : String :=
  "usage:\n  latex_calc [--config <file.toml>] eval <latex>\n" ++
  "  latex_calc [--config <file.toml>] judge <user answer> <correct answer>"

/-! ### Commands -/

/-- The records of the level of the settings and above. -/
def kept (settings : Settings) (records : List Record) : List Record :=
  match settings.level with
  | some level => records.filter fun r => level.rank ≤ r.level.rank
  | none => []

/-- The message that ends a request: its result, or why there is none. -/
def closingMessage (a : Answer Float) : Record :=
  let subject := a.request.keyword ++ " of " ++ a.request.expression
  match a.result with
  | .ok text => .message .info (subject ++ " -> " ++ text)
  | .error failure => .message .warn (subject ++ " failed: " ++ failure.message)

/-- The output and the records of an evaluation. -/
def evaluate (settings : Settings) (latex : String) : String × List Record :=
  let a : Answer Float := answer settings.variableName latex
  (a.text, (a.steps.map fun s => .step s.stage s.detail) ++ [closingMessage a])

/-- The records of the numbers that two answers denote. -/
def numbersOf : Judge.Verdict → List Record
  | .numeric u c => [.numbers (Number.text u) (Number.text c)]
  | .textual _ => []

/-- The output and the records of a judgement. -/
def judge (user correct : String) : String × List Record :=
  let verdict := Judge.judge user correct
  let word := if verdict.holds then "true" else "false"
  let text := "judged " ++ Text.quoted user ++ " against " ++ Text.quoted correct ++ ": " ++ word
  (word, numbersOf verdict ++ [.message .info text])

/-- The report of a command with given settings. -/
def runWith (settings : Settings) (arguments : List String) : Report :=
  let directory := if settings.level.isSome then settings.logDirectory else none
  let report (r : String × List Record) : Report :=
    { output := r.1 ++ "\n", logDirectory := directory, records := kept settings r.2 }
  match arguments with
  | ["eval", latex] => report (evaluate settings latex)
  | ["judge", user, correct] => report (judge user correct)
  | _ => { complaint := some "unknown command", logDirectory := directory }

/-- The settings in a file. -/
def settingsIn (file : Except FileError String) : Except SettingsError Settings := do
  Settings.parse (← file.mapError .unreadable)

/-- The report of a command.  The files are given by their contents. -/
def run (read : String → Except FileError String) (arguments : List String) : Report :=
  match arguments with
  | ["--config"] => { complaint := some "--config needs a file" }
  | "--config" :: path :: rest =>
      match settingsIn (read path) with
      | .ok settings => runWith settings rest
      | .error reason => { complaint := some reason.message }
  | arguments => runWith {} arguments

end Reckoner.CommandLine
