import Workflow.Settings

/-! # Logging — how messages are logged

    The level is given by name, in any case; a name that is no level stands
    for the ordinary one. -/

namespace Workflow

/-- The least level of messages that are logged: a number, or a text, which
    is what one name outside the levels stands for. -/
inductive LogLevel where
  | number (n : Nat)
  | text (s : String)
deriving DecidableEq

/-- How messages are logged. -/
structure LoggingSettings where
  level      : LogLevel
  format     : String := "%(asctime)s - %(name)s - %(levelname)s - %(message)s"
  dateFormat : String := "%Y-%m-%d %H:%M:%S"
deriving DecidableEq

namespace LoggingSettings

/-- The levels by name. -/
def levels : List (String × LogLevel) :=
  [("NOTSET", .number 0), ("DEBUG", .number 10), ("INFO", .number 20),
   ("WARN", .number 30), ("WARNING", .number 30), ("ERROR", .number 40),
   ("CRITICAL", .number 50), ("FATAL", .number 50),
   ("BASIC_FORMAT", .text "%(levelname)s:%(name)s:%(message)s")]

/-- The level of messages that are worth knowing in ordinary work. -/
def ordinaryLevel : LogLevel := .number 20

/-- The upper case of a character, as far as ASCII letters come of it: two
    letters outside ASCII have capitals inside. -/
def upperChar (c : Char) : Char :=
  if c = '\u0131' then 'I' else if c = '\u017F' then 'S' else c.toUpper

/-- The level with a name. -/
def levelOf (name : String) : LogLevel :=
  let upper := String.ofList (name.toList.map upperChar)
  ((levels.find? fun l => l.1 == upper).map Prod.snd).getD ordinaryLevel

end LoggingSettings

/-- How messages are logged under given settings. -/
def Settings.logging (s : Settings) : LoggingSettings :=
  { level := LoggingSettings.levelOf s.logLevel }

end Workflow
