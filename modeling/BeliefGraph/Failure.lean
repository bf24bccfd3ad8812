import BeliefGraph.Settings.Error
import BeliefGraph.Snapshot.Error

/-!
# Failures of any layer

Callers that use several layers can keep their errors in one type.
-/

namespace BeliefGraph

inductive Failure
  | store (error : StoreError)
  | snapshot (error : SnapshotError)
  | settings (error : SettingsError)
  | validation (error : ValidationError)
  | internal (reason : String)

namespace Failure

def message : Failure → String
  | .store e => "Storage error: " ++ e.message
  | .snapshot e => "Snapshot error: " ++ e.message
  | .settings e => "Configuration error: " ++ e.message
  | .validation e => "Validation error: " ++ e.message
  | .internal reason => "Internal error: " ++ reason

def isStore : Failure → Bool
  | .store _ => true
  | _ => false

def isSnapshot : Failure → Bool
  | .snapshot _ => true
  | _ => false

def isSettings : Failure → Bool
  | .settings _ => true
  | _ => false

def isValidation : Failure → Bool
  | .validation _ => true
  | _ => false

def isInternal : Failure → Bool
  | .internal _ => true
  | _ => false

/-- The error of the store, directly or met during an import. -/
def storeError? : Failure → Option StoreError
  | .store e => some e
  | .snapshot (.store e) => some e
  | _ => none

/-- Whether an atom was missing. -/
def isNotFound (f : Failure) : Bool :=
  match f.storeError? with
  | some (.notFound _) => true
  | _ => false

/-- Whether a store was full. -/
def isExhausted (f : Failure) : Bool :=
  match f.storeError? with
  | some (.exhausted _) => true
  | _ => false

end Failure

end BeliefGraph
