import Fastore.Index.Trees

/-!
The row tree through whole runs.

From empty buffers on, and through every split, growth of the root and
callback, the row trees stay exact as long as every exclude is a good one
(`row_index_exact`). They do not otherwise: when an exclude leaves a leaf of
the value tree short, entries move to or from the sibling without a call of
the callback, and the row of such an entry is left with a leaf that does
not have it (`row_index_stale`).
-/

namespace Fastore.Index

open Fastore.Tree Buffer Lib List ScalarType

variable {R A : Type} [LinearOrder R] [LinearOrder A]

theorem Reverse.at_leaf {X : Type} {rows : BTree R NodeId} {values : BTree A X}
    {owns : X → R → Prop} {M : R → Option A} {n m : ℕ} {ρ : R → Option NodeId} {f : A → Option X}
    (h : Reverse rows values owns M n m ρ f) {r : R} {q : NodeId}
    (hq : (r, some q) ∈ rows.contents n) :
    ∃ a x, M r = some a ∧ (q, a, some x) ∈ spots values.cells m values.root ∧ owns x r ∧
      f a = some x := by
  obtain ⟨a, ha, x, hx, ho⟩ := h.located.of_place ((h.rowTree.get r q).mp hq)
  exact ⟨a, x, ha, hx, ho, mem_map_of_spot h.valueTree hx⟩

/-- **The row trees are exact**: after any part of the writes of any calls of
`Apply` on an empty buffer, all of them good, every row has a leaf of the
value tree that holds the entry of its value, and `GetValue` returns this
value. -/
theorem row_index_exact (rowType : ScalarType R) (valueType : ScalarType A)
    (rawRows : TreeId → NodeId → ℕ → R) (rawLeaves : NodeId → ℕ → NodeId)
    (rawTrees : NodeId → ℕ → TreeId) (rawNodes : TreeId → NodeId → ℕ → NodeId)
    (rawValues : NodeId → ℕ → A) (writes : List (ColumnWrites R A)) :
    (guarded UniqueBuffer.write UniqueBuffer.good
        (.new rowType valueType (rawRows 0) rawLeaves (rawNodes 0) rawValues)
        (writes.flatMap writesOf) = true →
      ∀ ws, ws <+: writes.flatMap writesOf →
        ∃ (b : UniqueBuffer R A) (n m : ℕ), ws.foldlM UniqueBuffer.write
            (.new rowType valueType (rawRows 0) rawLeaves (rawNodes 0) rawValues) = .ok b ∧
          b.rows.WellFormed n ∧ b.values.WellFormed m ∧
          (∀ r q, (r, some q) ∈ b.rows.contents n → ∃ a, cellsAfter True ws r = some a ∧
            (q, a, some r) ∈ spots b.values.cells m b.values.root) ∧
          ∀ r, b.getValue r = .ok (cellsAfter True ws r)) ∧
    (guarded TreeBuffer.write TreeBuffer.good
        (.new rowType valueType rawRows rawLeaves rawTrees rawNodes rawValues)
        (writes.flatMap writesOf) = true →
      ∀ ws, ws <+: writes.flatMap writesOf →
        ∃ (b : TreeBuffer R A) (n m : ℕ), ws.foldlM TreeBuffer.write
            (.new rowType valueType rawRows rawLeaves rawTrees rawNodes rawValues) = .ok b ∧
          b.rows.WellFormed n ∧ b.values.WellFormed m ∧
          (∀ r q, (r, some q) ∈ b.rows.contents n → ∃ a x t k, cellsAfter False ws r = some a ∧
            (q, a, some x) ∈ spots b.values.cells m b.values.root ∧ b.trees x = some t ∧
            t.WellFormed k ∧ r ∈ (t.contents k).map Prod.fst) ∧
          ∀ r, b.getValue r = .ok (cellsAfter False ws r)) := by
  constructor
  · rintro hgood ws ⟨rest, hws⟩
    rw [← hws] at hgood
    obtain ⟨b, hrun, hb⟩ := foldlM_of_guarded UniqueBuffer.write_exact ws
      (UniqueBuffer.new_exact ..) (guarded_append hgood)
    obtain ⟨n, m, ρ, f, h⟩ := id hb
    refine ⟨b, n, m, hrun, h.rowTree.wellFormed, h.valueTree.wellFormed, fun r q hq => ?_,
      hb.getValue⟩
    obtain ⟨a, x, ha, hx, rfl, -⟩ := h.at_leaf hq
    exact ⟨a, ha, hx⟩
  · rintro hgood ws ⟨rest, hws⟩
    rw [← hws] at hgood
    obtain ⟨b, hrun, hb⟩ := foldlM_of_guarded TreeBuffer.write_exact ws
      (TreeBuffer.new_exact ..) (guarded_append hgood)
    obtain ⟨n, m, ρ, f, S, h, hp⟩ := id hb
    refine ⟨b, n, m, hrun, h.rowTree.wellFormed, h.valueTree.wellFormed, fun r q hq => ?_,
      hb.getValue⟩
    obtain ⟨a, x, ha, hx, ho, hf⟩ := h.at_leaf hq
    obtain ⟨t, k, ht, hkey⟩ := hp.tree a x hf
    exact ⟨a, x, t, k, ha, hx, ht, hkey.wellFormed, (hkey.keys r).mpr ho⟩

def emptyUnique : UniqueBuffer ℕ ℕ :=
  .new (ofOrder ℕ) (ofOrder ℕ) (fun _ _ => 0) (fun _ _ => 0) (fun _ _ => 0)
    fun _ _ => 0

def emptyTree : TreeBuffer ℕ ℕ :=
  .new (ofOrder ℕ) (ofOrder ℕ) (fun _ _ _ => 0) (fun _ _ => 0) (fun _ _ => 0)
    (fun _ _ _ => 0) fun _ _ => 0

/-- Two rows, one of which goes again. -/
theorem row_index_exact_pair :
    (∃ (b : UniqueBuffer ℕ ℕ) (n : ℕ), [Write.put ⟨1, 10⟩, .put ⟨2, 20⟩, .exclude 1].foldlM
        UniqueBuffer.write emptyUnique = .ok b ∧ b.values.WellFormed n) ∧
      ∃ (b : TreeBuffer ℕ ℕ) (n : ℕ), [Write.put ⟨1, 10⟩, .put ⟨2, 20⟩, .exclude 1].foldlM
        TreeBuffer.write emptyTree = .ok b ∧ b.values.WellFormed n := by
  obtain ⟨hunique, htree⟩ := row_index_exact (ofOrder ℕ) (ofOrder ℕ)
    (fun _ _ _ => 0) (fun _ _ => 0) (fun _ _ => 0) (fun _ _ _ => 0) (fun _ _ => 0)
    [⟨[⟨1, 10⟩, ⟨2, 20⟩], []⟩, ⟨[], [1]⟩]
  obtain ⟨b, -, m, hrun, -, hm, -⟩ := hunique (by decide +kernel) _ (prefix_refl _)
  obtain ⟨b', -, m', hrun', -, hm', -⟩ := htree (by decide +kernel) _ (prefix_refl _)
  exact ⟨⟨b, m, hrun, hm⟩, b', m', hrun', hm'⟩

/-! ### A leaf that is left short -/

section Puts

variable {b : UniqueBuffer R A} {M : R → Option A}

theorem UniqueBuffer.Exact.foldlM_puts (cells : List (Cell R A)) (hb : b.Exact M)
    (hnew : ∀ c ∈ cells, M c.rowID = none ∧ ∀ r, M r ≠ some c.value)
    (hrows : (cells.map Cell.rowID).Nodup) (hvalues : (cells.map Cell.value).Nodup) :
    ∃ b', (cells.map Write.put).foldlM UniqueBuffer.write b = .ok b' ∧
      b'.Exact (cells.foldl (put True) M) ∧
      b.values.insertAll (cells.map fun c => (c.value, c.rowID)) = .ok b'.values := by
  induction cells generalizing b M with
  | nil => exact ⟨b, rfl, hb, rfl⟩
  | cons c cells ih =>
    obtain ⟨hrow, hvalue⟩ := hnew c (by simp)
    obtain ⟨b₁, added, hinc, hb₁, htree⟩ := hb.includeRow c.rowID c.value
    obtain ⟨path, moved, hpath, hins⟩ := htree hrow hvalue
    rw [map_cons, nodup_cons] at hrows hvalues
    obtain ⟨b', hrun, hb', hall⟩ := ih hb₁ (fun d hd => by
      have hput : ∀ r, put True M c r = if r = c.rowID then some c.value else M r :=
        put_new_apply hrow fun _ => hvalue
      obtain ⟨hdrow, hdvalue⟩ := hnew d (by simp [hd])
      refine ⟨?_, fun r => ?_⟩
      · rw [hput, if_neg, hdrow]
        rintro heq
        exact hrows.1 (heq ▸ mem_map_of_mem hd)
      · rw [hput]
        split
        · intro heq
          exact hvalues.1 (Option.some.inj heq ▸ mem_map_of_mem hd)
        · exact hdvalue r) hrows.2 hvalues.2
    refine ⟨b', ?_, hb', ?_⟩
    · rw [map_cons, foldlM_cons]
      simp only [UniqueBuffer.write, hinc, bind, Except.bind]
      exact hrun
    · simp only [map_cons, BTree.insertAll, hpath, hins, bind, Except.bind, hall]

end Puts

def ascending (n : ℕ) : List (Cell ℕ ℕ) := (List.range n).map fun i => ⟨i, i⟩

theorem foldl_put_ascending (n : ℕ) : (ascending n).foldl (put True) (fun _ => none) =
    fun r => if r < n then some r else none := by
  induction n with
  | zero => rfl
  | succ n ih =>
    rw [ascending, range_succ, map_append, foldl_append, ← ascending, ih]
    rw [map_singleton, foldl_cons, foldl_nil, put_new (by simp)]
    · funext r
      rw [Function.update_apply]
      by_cases hr : r = n
      · simp [hr]
      · simp only [hr, if_false, show r < n + 1 ↔ r < n by omega]
    · intro _ r hr
      simp only at hr
      split at hr
      · have := Option.some.inj hr
        omega
      · simp at hr

/-- **A stale row**: 65 includes in ascending order leave 32 entries in the
first leaf of the value tree and 33 in the second. Excluding row 0 makes
the first leaf borrow the entry of row 32 from the second, and the row keeps
the address of the second. -/
theorem row_index_stale : ∃ b, ((ascending 65).map Write.put ++ [Write.exclude 0]).foldlM
      UniqueBuffer.write emptyUnique = .ok b ∧
    b.getValue 32 = .error (.thrown "Value not found in Node!") := by
  obtain ⟨b, hrun, hb, hall⟩ := UniqueBuffer.Exact.foldlM_puts (ascending 65)
    (UniqueBuffer.new_exact (ofOrder ℕ) (ofOrder ℕ) (fun _ _ => 0)
      (fun _ _ => 0) (fun _ _ => 0) fun _ _ => 0) (by simp) (by decide +kernel) (by decide +kernel)
  rw [foldl_put_ascending] at hb
  -- the value tree can be computed, before and after the deletion
  have hstale : (do
      let t ← emptyUnique.values.insertAll ((ascending 65).map fun c => (c.value, c.rowID))
      let p ← t.getPath 0
      let t' ← t.delete p
      let q ← t.getPath 32
      let l ← t'.leafAt q.leaf
      .ok (decide (l.getKey (fun x => .ok (decide ((ofOrder ℕ).compare 32 x = 0))) =
        Except.error (Fault.thrown "Value not found in Node!")))) = Except.ok true := by
    decide +kernel
  obtain ⟨t, ht, hstale⟩ := eq_ok_of_bind hstale
  obtain ⟨p, hp, hstale⟩ := eq_ok_of_bind hstale
  obtain ⟨t', ht', hstale⟩ := eq_ok_of_bind hstale
  obtain ⟨q, hq, hstale⟩ := eq_ok_of_bind hstale
  obtain ⟨l, hl, hstale⟩ := eq_ok_of_bind hstale
  have hmiss := of_decide_eq_true (Except.ok.inj hstale)
  obtain rfl : t = b.values := ok_unique ht hall
  -- the row tree is known as a map only
  obtain ⟨n, m, ρ, f, h⟩ := id hb
  have h₀ : (fun r : ℕ => if r < 65 then some r else none) 0 = some 0 := rfl
  have h₃₂ : (fun r : ℕ => if r < 65 then some r else none) 32 = some 32 := rfl
  obtain ⟨rowpath, path, hrowpath, hpath, hop⟩ := hb.excludeRow_eq h₀
  obtain rfl := ok_unique hp hpath
  have hsmall : (b.rows.contents n).length < 2048 := by
    have hnd : ((b.rows.contents n).map Prod.fst).Nodup :=
      h.rowTree.wellFormed.sorted.imp fun h => ne_of_lt h
    have hsub : ((b.rows.contents n).map Prod.fst).toFinset ⊆ Finset.range 65 := by
      intro r hr
      rw [mem_toFinset, h.rowTree.mem_keys, h.located.same] at hr
      simpa using hr
    have hcard := Finset.card_le_card hsub
    rw [toFinset_card_of_nodup hnd, length_map, Finset.card_range] at hcard
    omega
  obtain ⟨rows', n', hdel, hrows'⟩ := h.rowTree.delete hrowpath (by rw [h.located.same]; rfl)
    (h.rowTree.wellFormed.deleteUsesLeft_small h.rowTree.sized hsmall 0)
  -- row 32 keeps the leaf its entry was in
  obtain ⟨q', hq', x, hx, rfl⟩ := h.located.of_label h₃₂
  obtain ⟨path', hpath', hland', -⟩ := h.valueTree.getPath 32
  obtain rfl := ok_unique hq hpath'
  obtain ⟨-, -, -, -, hspot⟩ := h.valueTree.at_match hland' (mem_map_of_spot h.valueTree hx)
  obtain rfl : q' = q.leaf := h.valueTree.wellFormed.spot_unique hx hspot
  obtain ⟨it, hfind, hget⟩ := hrows'.findNearest 32
  have hρ : Function.update ρ 0 none 32 = some q.leaf := by
    rw [Function.update_of_ne (by decide), hq']
  refine ⟨{ b with rows := rows', values := t', count := b.count - 1 }, ?_, ?_⟩
  · rw [foldlM_append, show emptyUnique = .new _ _ _ _ _ _ from rfl, hrun]
    simp only [bind, Except.bind, foldlM_cons, foldlM_nil, UniqueBuffer.write, hop, ht',
      hdel]
    rfl
  · have hpred : (fun x => Except.ok (decide (b.rowType.compare 32 x = 0)) : ℕ → Except Fault Bool) =
        fun x => .ok (decide ((ofOrder ℕ).compare 32 x = 0)) := by
      funext x
      simp only [compare_zero]
    rw [hρ] at hfind
    simp only [UniqueBuffer.getValue, Index.getValue, hfind, bind, Except.bind, Option.isSome_some,
      if_true, iteratorValue, hget _ hρ, hl, hpred, hmiss]

end Fastore.Index
