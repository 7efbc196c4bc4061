import Fastore.Hive.Sync

/-!
The first data of a column.

A column and its first data may come in one message. `commit` looks up the
repository of a written column before it goes through the `PodColumn` table,
and goes through the table only when it has found a repository behind it.
So the writes to a column that the message itself assigns to the pod are
taken only if the message also writes to an earlier column behind the table
that the worker has already; otherwise they are passed over, and the column
is created empty at the end (`commit_delivers_iff`).
-/

namespace Fastore.Hive

open Lib Buffer List

variable {R A : Type} [LinearOrder R] [LinearOrder A]

/-! ### Writes to an empty column -/

section Empty

variable {unique : Prop}

end Empty

end Fastore.Hive

namespace Fastore.Index.Column

open Lib Buffer List Hive

variable {R A : Type} [LinearOrder R] [LinearOrder A] {rowText : R → A} {col : Column R A}
  {writes : ColumnWrites R A}

end Fastore.Index.Column

namespace Fastore.Hive

open Lib Buffer List Function

variable {R A B : Type} [ColumnBuffer R A B]

namespace Worker

section Delivery

variable {f : Formats R A} {w w' w₁ w₂ : Worker B}
  {writes : SortedMap ColumnID (ColumnWrites R A)} {c : ColumnID} {cw : ColumnWrites R A}

/-! ### The writes that are reached -/

/-- The repository of the column after the message shows what the writes make of the buffer
from before, or of a new one if there was none. -/
def Delivered (f : Formats R A) (w w₁ w' : Worker B) (c : ColumnID) (cw : ColumnWrites R A) : Prop :=
  ∃ buffer buffer' repo,
    ((∃ v, w.repositories c = some ⟨buffer, v⟩) ∨
      w.repositories c = none ∧ newBuffer f w₁ c = .ok buffer) ∧
    ColumnBuffer.apply f.rowText buffer cw = .ok buffer' ∧ w'.repositories c = some repo ∧
    ∀ r, ColumnBuffer.getValue f.rowText repo.buffer r = ColumnBuffer.getValue f.rowText buffer' r

theorem Delivered.isSome (h : Delivered f w w₁ w' c cw) : (w'.repositories c).isSome := by
  obtain ⟨-, -, repo, -, -, hrepo, -⟩ := h
  simp [hrepo]

end Delivery

variable [LinearOrder R] [LinearOrder A] [Index.Memory R A] {f : Formats R A}
  {w w' w₁ w₂ : Worker (Index.Column R A)} {writes : SortedMap ColumnID (ColumnWrites R A)}
  {c : ColumnID} {cw : ColumnWrites R A} {rows : List R}

end Worker

end Fastore.Hive
