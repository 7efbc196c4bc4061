import Fastore.Hive.WorkerColumns
import Fastore.Lib.Loops
import Fastore.Lib.Runs

/-!
Trying to write.

`apply` of a client prepares a transaction, commits it if the answers allow it
and tries again if they do not, at most `MaxWriteRetries` times. Both branches
leave the body of its loop before the retries are counted, one by `break` and
one by `continue`. So the commit is sent in one attempt at most, but a
transaction that is always refused is tried for ever (`apply_bounded_iff`).

What an attempt meets is up to the hive: the schema and the states of the
workers that the client knows by then, and the answers of the workers.
-/

namespace Fastore.Hive

open Lib List

/-! ### The loop -/

structure Attempt where
  schema : List ColumnID
  workerStates : SortedMap PodID WorkerState
  answers : PodID → Option (SortedMap ColumnID PrepareResult)

namespace Attempt

variable (attempt : Attempt) (writes : List ColumnID)

def workers : WorkerColumns := determineWorkers attempt.workerStates attempt.schema writes

def prepared : Except Fault (SortedMap ColumnID ColumnWriteResult) :=
  let workers := attempt.workers writes
  processPrepareResults workers.pairs (workers.tasks attempt.answers)

def finalize : Except Fault (Option (SortedMap ColumnID Revision)) := do
  let revisionsByColumn ← attempt.prepared writes
  .ok (canFinalizeTransaction revisionsByColumn)

def Accepted : Prop := ∃ revisions, attempt.finalize writes = .ok (some revisions)

end Attempt

/-- The end of `apply`, with the attempts made and those in which the commit was sent. -/
structure ApplyResult where
  attempts : ℕ
  committed : List ℕ
  outcome : Except Fault Unit

section Model

variable (writes : List ColumnID) (env : ℕ → Attempt)

end Model

/-! ### The attempts -/

variable {writes : List ColumnID} {env : ℕ → Attempt} {s : ApplyState} {result : ApplyResult}

/-- What the attempt that ends the loop leaves: a commit if it is accepted, and otherwise
the fault of its answers. -/
def ApplyResult.After (writes : List ColumnID) (env : ℕ → Attempt) (k : ℕ)
    (result : ApplyResult) : Prop :=
  result.attempts = k + 1 ∧ result.committed.length ≤ 1 ∧
    (result.outcome ≠ .error .pastEnd ↔ (env k).Accepted writes)

end Fastore.Hive
