import Oneiron.Contracts.EntityId

/-!
# Contracts/Error — the errors the modelled operations return
-/

namespace Oneiron

/-- `OffRecordError`, the overlay's part of it. -/
inductive OffRecordError where
  /-- The candidate mutation is not published. -/
  | offRecordOverlayFull (budgetBytes attemptedBytes : ℕ)
  | offRecordOverlayLeaseClosed (generation : ℕ)
  | offRecordTurnNotInJournal (turn : EntityId)
  deriving DecidableEq

/-- `ArtifactError`, the large-file part of it. -/
inductive ArtifactError where
  | invalidLfsObject (why : String)
  deriving DecidableEq

inductive Error where
  | arithmeticOverflow (what : String)
  | invariantViolation (what : String)
  | corruptedIndex (what : String)
  | invalidKey
  /-- An error of the storage library underneath. -/
  | storage (what : String)
  | offRecord (inner : OffRecordError)
  | indexedTextTooLarge (bytes limit : ℕ)
  | artifact (inner : ArtifactError)
  deriving DecidableEq

end Oneiron
