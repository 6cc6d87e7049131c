import Workflow.Value
import Workflow.Text.Quoted

/-! # Text — values as they are shown in messages

    `shown` is the form that tells kinds apart (texts in quotes), `display`
    the plain form (texts as they are).  A reference to an enclosing
    container shows as that container's empty brackets around dots. -/

namespace Workflow

/-- A zone offset as shown in messages: whole days, then seconds and
    microseconds that count up, without zero fields. -/
def Timestamp.shownZone (micros : Int) : String :=
  if micros = 0 then "datetime.timezone.utc"
  else
    let rest := micros % (86400 * microsPerSecond)
    let field (name : String) (n : Int) : List String :=
      if n = 0 then [] else [s!"{name}={n}"]
    let fields := field "days" (micros / (86400 * microsPerSecond)) ++
      field "seconds" (rest / microsPerSecond) ++
      field "microseconds" (rest % microsPerSecond)
    "datetime.timezone(datetime.timedelta(" ++ ", ".intercalate fields ++ "))"

/-- A timestamp as shown in messages, without trailing zero fields. -/
def Timestamp.shown (t : Timestamp) : String :=
  let tail := if t.micro.val ≠ 0 then [t.second.val, t.micro.val]
    else if t.second.val ≠ 0 then [t.second.val] else []
  let fields := [t.date.year, t.date.month, t.date.day, t.hour.val, t.minute.val]
  let zone := match t.offset with
    | none   => []
    | some o => ["tzinfo=" ++ shownZone o]
  "datetime.datetime(" ++
    ", ".intercalate ((fields ++ tail).map (fun n => toString n) ++ zone) ++ ")"

namespace Scalar

/-- A scalar as shown in messages. -/
def shown : Scalar → String
  | .null     => "None"
  | .bool b   => if b then "True" else "False"
  | .int i    => String.ofList (intText i)
  | .float x  => x.text
  | .str s    => quotedText s
  | .bytes b  => quotedBytes b
  | .time t   => t.shown
  | .status s => s!"<{s.displayName}: {quotedText s.text}>"
  | .ref r    =>
    s!"{r.className}(type={quotedText r.type}, id={quotedText r.id})"

/-- A scalar in plain form. -/
def display : Scalar → String
  | .str s    => s
  | .time t   => t.plainText
  | .status s => s.displayName
  | .ref r    => r.label
  | s         => s.shown

end Scalar

namespace Value

/-- What stands for each of the enclosing containers where it is met again,
    the innermost first. -/
abbrev Enclosing := List String

mutual

/-- A value as shown in messages, inside the given containers. -/
def shownIn (outer : Enclosing) : Value → String
  | .scalar s  => s.shown
  | .thing c _ => s!"<{c}>"
  | .list xs   => "[" ++ ", ".intercalate (shownItems ("[...]" :: outer) xs) ++ "]"
  | .tuple xs  =>
    match shownItems ("(...)" :: outer) xs with
    | [x] => s!"({x},)"
    | xs  => "(" ++ ", ".intercalate xs ++ ")"
  | .set xs    =>
    match shownItems outer xs with
    | [] => "set()"
    | xs => "\x7b" ++ ", ".intercalate xs ++ "\x7d"
  | .dict es   =>
    "\x7b" ++ ", ".intercalate (shownEntries ("\x7b...\x7d" :: outer) es) ++ "\x7d"
  | .up n      => outer.getD (n - 1) "\x7b...\x7d"

/-- Each item as shown in messages. -/
def shownItems (outer : Enclosing) : List Value → List String
  | []      => []
  | x :: xs => shownIn outer x :: shownItems outer xs

/-- Each entry as shown in messages. -/
def shownEntries (outer : Enclosing) : List (Value × Value) → List String
  | []           => []
  | (k, v) :: es =>
    (shownIn outer k ++ ": " ++ shownIn outer v) :: shownEntries outer es

end

/-- A value as shown in messages. -/
def shown (v : Value) : String := shownIn [] v

/-- A value in plain form. -/
def display : Value → String
  | .scalar s => s.display
  | v         => v.shown

end Value

end Workflow
