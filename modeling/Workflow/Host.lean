import Workflow.Failure

/-! # Host — what a process finds around it

    The variables of the environment, the texts of files and the
    directories that are there.  A variable that is set to the empty text
    counts as not set. -/

namespace Workflow

/-- Where a path leads: the names to follow from the root, or from the
    working directory after some steps up. -/
structure Route where
  absolute : Bool
  ups      : Nat := 0
  names    : List String := []
deriving DecidableEq

namespace Route

/-- The parts of a path between slashes. -/
def parts : List Char → List (List Char)
  | []      => [[]]
  | c :: cs =>
    match parts cs with
    | p :: ps => if c = '/' then [] :: p :: ps else (c :: p) :: ps
    | []      => [[c]]

/-- Follows one part of a path: an empty one and a dot stay, two dots lead
    up, but not beyond the root. -/
def follow (r : Route) (part : String) : Route :=
  if part = "" ∨ part = "." then r
  else if part = ".." then
    if r.names ≠ [] then { r with names := r.names.dropLast }
    else if r.absolute then r
    else { r with ups := r.ups + 1 }
  else { r with names := r.names ++ [part] }

/-- Where a path starts. -/
def start (path : String) : Route := { absolute := path.toList.head? = some '/' }

/-- Where a path leads. -/
def ofPath (path : String) : Route :=
  (parts path.toList).foldl (fun r p => r.follow (String.ofList p)) (start path)

/-- The directory that a route's last name is in. -/
def parent (r : Route) : Route := { r with names := r.names.dropLast }

end Route

/-- The usual directories below the root. -/
def usualDirectories : List (List String) :=
  [["bin"], ["boot"], ["dev"], ["etc"], ["home"], ["lib"], ["media"], ["mnt"],
   ["opt"], ["proc"], ["root"], ["run"], ["sbin"], ["srv"], ["sys"], ["tmp"],
   ["usr"], ["usr", "bin"], ["usr", "lib"], ["usr", "local"], ["usr", "share"],
   ["var"], ["var", "lib"], ["var", "log"], ["var", "tmp"]]

/-- Those of them that take no new files. -/
def sealedDirectories : List (List String) := [["proc"], ["sys"]]

/-- The surroundings of a process. -/
structure Host where
  environment : List (String × String) := []
  files       : String → Option String := fun _ => none
  directories : List (List String) := usualDirectories

namespace Host

/-- The text that a variable is set to. -/
def set? (h : Host) (name : String) : Option String :=
  (h.environment.find? fun v => v.1 == name).map Prod.snd

/-- The value of a variable. -/
def get? (h : Host) (name : String) : Option String :=
  (h.set? name).filter (· ≠ "")

/-- The database that the environment names. -/
def databaseUrl? (h : Host) : Option String :=
  (h.get? "STEPFLOW_DATABASE_URL").or (h.get? "DATABASE_URL")

/-- The level of logging that the environment names. -/
def logLevel? (h : Host) : Option String := h.get? "STEPFLOW_LOG_LEVEL"

/-- The path of the settings file: a given one, else the one that the
    environment names, else the usual one. -/
def settingsPath (h : Host) (given : Option String) : String :=
  (given.filter (· ≠ "")).getD ((h.set? "STEPFLOW_CONFIG").getD "stepflow.yaml")

/-- Does the route lead to a directory? -/
def leadsToDirectory (h : Host) (r : Route) : Bool :=
  r.names = [] || (r.absolute && h.directories.contains r.names)

/-- Do the parts of a path lead from directory to directory? -/
def areDirectories (h : Host) (start : Route) (parts : List (List Char)) : Bool :=
  (parts.foldl (fun (r : Option Route) p =>
    (r.map (·.follow (String.ofList p))).filter h.leadsToDirectory) (some start)).isSome

/-- Is the path that of a directory, with directories all the way? -/
def isDirectory (h : Host) (path : String) : Bool :=
  path ≠ "" && h.areDirectories (Route.start path) (Route.parts path.toList)

/-- Does the path lead through directories to the file of that name in the
    working directory? -/
def leadsToFile (h : Host) (path name : String) : Bool :=
  let parts := Route.parts path.toList
  parts.getLast? = some name.toList && h.areDirectories (Route.start path) parts.dropLast &&
    Route.ofPath path = Route.ofPath name

/-- The most bytes that the name of a file may have. -/
def nameLimit : Nat := 255

/-- The name of the journal that a database file has beside it while it is
    written. -/
def journalName (name : String) : String := name ++ "-journal"

/-- Are the names on a path, and that of the journal at its end, short enough
    to be names of files? -/
def hasFileNames (path : String) : Bool :=
  let fits (name : String) : Bool := decide (name.utf8ByteSize ≤ nameLimit)
  (Route.parts path.toList).all (fun p => fits (String.ofList p)) &&
    ((Route.ofPath path).names.getLast?.all fun n => fits (journalName n))

/-- Can a database file be opened or made at the path?  Its directory must be
    there and take new files, and it must not be a directory itself; an empty
    path, which stands for a file of no name, always can. -/
def canOpen (h : Host) (path : String) : Bool :=
  let r := Route.ofPath path
  path = "" || (hasFileNames path && h.leadsToDirectory r.parent &&
    !(r.absolute && sealedDirectories.contains r.parent.names) &&
    !h.leadsToDirectory r)

end Host

end Workflow
