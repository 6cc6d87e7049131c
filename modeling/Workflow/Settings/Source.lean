import Workflow.Execution.Reader
import Workflow.Host
import Workflow.Settings.Reader
import Workflow.Yaml.Reader

/-! # Source — where settings come from

    Settings are read from a YAML file, if there is one; variables of the
    environment go before what the file says. -/

namespace Workflow

namespace Settings

/-- The settings that a value denotes; one that counts as nothing leaves all
    defaults. -/
def ofValue (v : Value) : Except Cause Settings :=
  if !v.truthy then .ok {}
  else match v with
    | .dict m =>
      if m.all fun e => e.1.isText then
        match Settings.read m with
        | .ok s   => .ok s
        | .bad fs => .error ⟨"ValidationError", some (Checked.sortedFaults fs)⟩
      else .error ⟨"TypeError", none⟩
    | _       => .error ⟨"TypeError", none⟩

/-- The error of a settings file that cannot be used. -/
def unusable (path : String) (cause : Cause) : Failure :=
  .workflow
    { kind    := .configuration
      message := s!"Invalid configuration in {path}"
      details := .record [("path", .str path)]
      cause   := some cause }

/-- The text of a file with a line feed for every line end. -/
def plainLines : List Char → List Char
  | '\r' :: '\n' :: cs => '\n' :: plainLines cs
  | '\r' :: cs         => '\n' :: plainLines cs
  | c :: cs            => c :: plainLines cs
  | []                 => []

/-- The failure of a text that denotes no value. -/
def unreadable (path : String) : Yaml.Fault → Failure
  | .malformed   => unusable path ⟨"YAMLError", none⟩
  | .noValue     => .wrongValue "invalid literal"
  | .tooLarge    => .overflow "too large to convert"
  | .noWord word => .missingKey word
  | .noTime      => .other "AttributeError" "not the form of a time"
  | .empty       => .other "IndexError" "index out of range"

/-- The settings that the YAML text of a file denotes. -/
def ofText (path text : String) : Except Failure Settings := do
  let v ← (Yaml.read (String.ofList (plainLines text.toList))).mapError (unreadable path)
  (ofValue v).mapError (unusable path)

/-- Settings with what the environment says put first. -/
def under (s : Settings) (h : Host) : Settings :=
  { s with
    databaseUrl := h.databaseUrl?.or s.databaseUrl
    logLevel    := h.logLevel?.getD s.logLevel }

/-- The settings of a process, read from the file at a given path or at the
    usual one; without a file they are the defaults. -/
def load (h : Host) (given : Option String) : Except Failure Settings := do
  let path := h.settingsPath given
  if h.isDirectory path then
    throw (.other "IsADirectoryError" s!"Is a directory: {quotedText path}")
  let s ← match h.files path with
    | none      => pure {}
    | some text => ofText path text
  pure (s.under h)

end Settings

end Workflow
