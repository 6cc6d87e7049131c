import Workflow.Duration

/-! # Settings — what the engine and recovery are tuned with -/

namespace Workflow

/-- Settings of the transition engine. -/
structure EngineSettings where
  maxConflictRetries  : Int := 5
  conflictTimeout     : Binary64 := Binary64.ofRatio 5 1
  retryBackoffInitial : Binary64 := Binary64.ofRatio 1 100
  retryBackoffJitter  : Binary64 := Binary64.ofRatio 1 100
deriving DecidableEq, Inhabited

/-- Settings of checkpoints and recovery. -/
structure RecoverySettings where
  checkpointMaxAgeDays       : Binary64 := Binary64.ofRatio 7 1
  maxCheckpoints             : Int := 20
  staleAfterHours            : Binary64 := Binary64.ofRatio 24 1
  largeContextBytes          : Int := 1048576
  longHistoryEntries         : Int := 100
  integrityDeductionPerIssue : Int := 10
deriving DecidableEq, Inhabited

/-- All settings. -/
structure Settings where
  databaseUrl : Option String := none
  logLevel    : String := "INFO"
  engine      : EngineSettings := {}
  recovery    : RecoverySettings := {}
deriving DecidableEq, Inhabited

end Workflow
