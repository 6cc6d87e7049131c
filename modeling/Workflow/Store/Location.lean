import Workflow.Settings.Source

/-! # Location — which store an address names

    An address names the store in memory, a file with a table, or a remote
    server.  A process keeps the store it opened last and hands it out again
    until another one is asked for. -/

namespace Workflow

/-- Where executions are kept. -/
inductive StoreLocation where
  | memory
  | file (path : String)
  | remote (address : String)
deriving DecidableEq

namespace StoreLocation

/-- The text after what it starts with. -/
def after? (start text : String) : Option String :=
  if start.toList.isPrefixOf text.toList then
    some (String.ofList (text.toList.drop start.length))
  else none

/-- The store that an address names; no address names the one in memory. -/
def ofUrl (url : Option String) : Except Failure StoreLocation :=
  match url with
  | none     => .ok .memory
  | some url =>
    if url = "" ∨ url = "memory://" then .ok .memory
    else match after? "sqlite://" url with
      | some path => .ok (.file path)
      | none      =>
        if (after? "postgres://" url).isSome ∨ (after? "postgresql://" url).isSome then
          .ok (.remote url)
        else .error (.refused s!"Unsupported database backend: {url}")

/-- Opens the store, as far as opening can fail. -/
def opened (h : Host) (l : StoreLocation) : Except Failure StoreLocation :=
  match l with
  | .file path =>
    if path.toList.contains '\x00' then .error (.wrongValue "embedded null character")
    else if h.canOpen path then .ok l
    else .error (.other "OperationalError" "unable to open database file")
  | l => .ok l

/-- Opens the store that an address names, as far as that can fail. -/
def reach (h : Host) (url : Option String) : Except Failure StoreLocation := do
  let l ← ofUrl url
  l.opened h

/-- The class of the store's repository. -/
def className : StoreLocation → String
  | .memory   => "InMemoryExecutionRepository"
  | .file _   => "SQLiteExecutionRepository"
  | .remote _ => "PostgresExecutionRepository"

/-- The path or address of the store. -/
def target? : StoreLocation → Option String
  | .memory   => none
  | .file p   => some p
  | .remote a => some a

end StoreLocation

/-- A store that was opened, numbered in the order of opening. -/
structure OpenedStore where
  number   : Nat
  location : StoreLocation
deriving DecidableEq

/-- The stores of a process: how many were opened, and the one kept. -/
structure StoreCache where
  opened : Nat := 0
  kept   : Option OpenedStore := none
deriving DecidableEq

/-- A task in a process that keeps a store.  What it did to the cache stays
    done when it fails later on. -/
abbrev StoreTask := ExceptT Failure (StateM StoreCache)

/-- The settings that a call goes by: those given, or else those of the
    process. -/
def Settings.inForce (h : Host) (given : Option Settings) : Except Failure Settings :=
  match given with
  | some s => .ok s
  | none   => Settings.load h none

namespace StoreTask

/-- Opens the store at an address. -/
def openUrl (h : Host) (url : Option String) : StoreTask OpenedStore := do
  let l ← MonadExcept.ofExcept (StoreLocation.reach h url)
  modifyGet fun c => (⟨c.opened, l⟩, { c with opened := c.opened + 1 })

/-- Opens the store at the address given, or else at the one that the
    environment or the settings name, and keeps it. -/
def switch (h : Host) (url : Option String) (settings : Option Settings) :
    StoreTask OpenedStore := do
  let settings ← MonadExcept.ofExcept (Settings.inForce h settings)
  let s ← openUrl h (((url.filter (· ≠ "")).or h.databaseUrl?).or settings.databaseUrl)
  modify fun c => { c with kept := some s }
  pure s

/-- The store to use: the one kept, unless an address or settings ask for
    another. -/
def use (h : Host) (url : Option String) (settings : Option Settings) :
    StoreTask OpenedStore := do
  match (← get).kept, url, settings with
  | some s, none, none => pure s
  | _,      _,    _    => switch h url settings

/-- Forgets the store that is kept. -/
def reset : StoreTask Unit := modify fun c => { c with kept := none }

end StoreTask

namespace StoreCache

/-- What a call comes to, with the cache that it leaves. -/
def after {α : Type} (c : StoreCache) (call : StoreTask α) : Except Failure (α × StoreCache) :=
  let (r, c) := call.run c
  r.map (·, c)

/-- Opens the store at an address. -/
def openUrl (c : StoreCache) (h : Host) (url : Option String) :
    Except Failure (OpenedStore × StoreCache) := c.after (.openUrl h url)

/-- The store to use, and the cache that keeps it. -/
def get (c : StoreCache) (h : Host) (url : Option String)
    (settings : Option Settings) : Except Failure (OpenedStore × StoreCache) :=
  c.after (.use h url settings)

/-- The cache without the store that was kept. -/
def reset (c : StoreCache) : StoreCache := (StoreTask.reset.run c).2

end StoreCache

end Workflow
