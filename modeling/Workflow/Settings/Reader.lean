import Workflow.Checked
import Workflow.Settings

/-! # Reader — settings from structured data

    Every setting has a default, so that data may name a few only; names
    that are not known are ignored.  Numbers have to be in range: a retry
    count from one on, a time limit above zero, a delay from zero on. -/

namespace Workflow

namespace Lax

/-- An integer that is at least `least`. -/
def intFrom (least : Int) (path : String) (v : Value) : Checked Int :=
  match int path v with
  | .ok i   => if least ≤ i then .ok i else .bad [path]
  | .bad fs => .bad fs

/-- A double that is neither zero nor below it; one that is no number is in
    no such range and passes. -/
def positive (path : String) (v : Value) : Checked Binary64 :=
  match float path v with
  | .ok x   =>
    match x.compare? .zero with
    | some .lt | some .eq => .bad [path]
    | _                   => .ok x
  | .bad fs => .bad fs

/-- A double that is not below zero. -/
def nonNegative (path : String) (v : Value) : Checked Binary64 :=
  match float path v with
  | .ok x   => if x.compare? .zero = some .lt then .bad [path] else .ok x
  | .bad fs => .bad fs

end Lax

/-- Reads the settings of the engine. -/
def EngineSettings.read (path : String) : Value → Checked EngineSettings
  | .dict m =>
    let d : EngineSettings := {}
    EngineSettings.mk
      <$> Checked.field m path "max_conflict_retries" (some d.maxConflictRetries)
            (Lax.intFrom 1)
      <*> Checked.field m path "conflict_timeout" (some d.conflictTimeout)
            Lax.positive
      <*> Checked.field m path "retry_backoff_initial" (some d.retryBackoffInitial)
            Lax.nonNegative
      <*> Checked.field m path "retry_backoff_jitter" (some d.retryBackoffJitter)
            Lax.nonNegative
  | _ => .bad [path]

/-- Reads the settings of recovery. -/
def RecoverySettings.read (path : String) : Value → Checked RecoverySettings
  | .dict m =>
    let d : RecoverySettings := {}
    RecoverySettings.mk
      <$> Checked.field m path "checkpoint_max_age_days"
            (some d.checkpointMaxAgeDays) Lax.positive
      <*> Checked.field m path "max_checkpoints" (some d.maxCheckpoints)
            (Lax.intFrom 1)
      <*> Checked.field m path "stale_after_hours" (some d.staleAfterHours)
            Lax.positive
      <*> Checked.field m path "large_context_bytes" (some d.largeContextBytes)
            Lax.int
      <*> Checked.field m path "long_history_entries" (some d.longHistoryEntries)
            Lax.int
      <*> Checked.field m path "integrity_deduction_per_issue"
            (some d.integrityDeductionPerIssue) Lax.int
  | _ => .bad [path]

/-- Reads all settings. -/
def Settings.read (m : Mapping) : Checked Settings :=
  let d : Settings := {}
  Settings.mk
    <$> Checked.field m "" "database_url" (some d.databaseUrl) Lax.optionalText
    <*> Checked.field m "" "log_level" (some d.logLevel) Lax.text
    <*> Checked.field m "" "engine" (some d.engine) EngineSettings.read
    <*> Checked.field m "" "recovery" (some d.recovery) RecoverySettings.read

end Workflow
