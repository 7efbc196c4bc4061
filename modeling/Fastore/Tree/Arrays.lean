import Fastore.Tree.Shape

/-!
The array work of the nodes, in terms of the lists the arrays show.

Keys and values of a leaf are two arrays moved in step; taken together
they are one array of entries, which is what `Leaf.copy_spec` says about
every block copy. The operations on one node then insert into a list,
take from a list, or cut a list in two.
-/

namespace Fastore.Tree

open Lib List Function

variable {K V : Type}

/-! ### Branches -/

namespace Branch

variable {index : ℕ}

theorem kids_internalInsertIndex (b : Branch K) (key : K) (child : NodeId)
    (hi : index ≤ b.count) : (b.internalInsertIndex index key child).kids =
      window b.children 0 (index + 1) ++ child ::
        window b.children (index + 1) (b.count - index) := by
  have h := window_insert b.children child (show index + 1 ≤ b.count + 1 by omega)
  rw [Nat.add_sub_add_right] at h
  rw [← h, kids]
  simp only [internalInsertIndex]
  split
  · rfl
  · rw [show b.count - index = 0 by omega, move_zero]

theorem kids_insert_perm (b : Branch K) (key : K) (child : NodeId) (hi : index ≤ b.count) :
    (b.internalInsertIndex index key child).kids.Perm (child :: b.kids) := by
  rw [b.kids_internalInsertIndex key child hi, b.kids_cut hi]
  exact perm_middle

theorem seps_internalInsertIndex (b : Branch K) (key : K) (child : NodeId)
    (hi : index ≤ b.count) : (b.internalInsertIndex index key child).seps =
      window b.keys 0 index ++ key :: window b.keys index (b.count - index) := by
  rw [← window_insert b.keys key hi, seps]
  simp only [internalInsertIndex]
  split
  · rfl
  · rw [show b.count - index = 0 by omega, move_zero]

/-- Both halves together, the new child in one of them, are the branch
with the new child; the separator between them is gone. -/
theorem halves_insert (b node : Branch K) {i mid : ℕ} (key : K) (child : NodeId) (hi : i ≤ b.count)
    (hmid : 1 ≤ mid) (hmid' : mid ≤ b.count) (hnode : node.count = b.count - mid) {l r : Branch K}
    (hlr : (if i ≤ (b.leftHalf mid).count then
        ((b.leftHalf mid).internalInsertIndex i key child, b.rightHalf node mid)
      else (b.leftHalf mid, (b.rightHalf node mid).internalInsertIndex
        (i - ((b.leftHalf mid).count + 1)) key child)) = (l, r)) :
    (l.kids ++ r.kids = (b.internalInsertIndex i key child).kids ∧
      l.seps ++ b.keys (mid - 1) :: r.seps = (b.internalInsertIndex i key child).seps) ∧
      mid ≤ l.count + 1 ∧ l.count ≤ mid ∧ b.count - mid ≤ r.count ∧
      r.count ≤ b.count - mid + 1 ∧ r.children 0 = b.children mid := by
  rw [b.kids_internalInsertIndex key child hi, b.seps_internalInsertIndex key child hi]
  have hright : ∀ a n, a + n ≤ b.count - mid + 1 →
      window (b.rightHalf node mid).children a n = window b.children (mid + a) n := by
    intro a n h
    rw [rightHalf, window_move_inside _ _ _ _ _ (by omega) (by omega), Nat.sub_zero]
  have hright' : ∀ a n, a + n ≤ b.count - mid →
      window (b.rightHalf node mid).keys a n = window b.keys (mid + a) n := by
    intro a n h
    rw [rightHalf, window_move_inside _ _ _ _ _ (by omega) (by omega), Nat.sub_zero]
  have hfirst : (b.rightHalf node mid).children 0 = b.children mid := by
    simp [rightHalf, move_apply]
  split at hlr <;> obtain ⟨rfl, rfl⟩ := Prod.mk.inj hlr
  · rename_i hle
    simp only [leftHalf] at hle
    refine ⟨⟨?_, ?_⟩, ?_, ?_, by simp [rightHalf, hnode], by simp [rightHalf, hnode],
      hfirst⟩
    · rw [(b.leftHalf mid).kids_internalInsertIndex key child hle, kids, hright _ _ (by
          simp only [rightHalf]; omega)]
      simp only [leftHalf, rightHalf, hnode, append_assoc, cons_append]
      rw [window_cut b.children (i + 1) (show mid - 1 - i ≤ b.count - i by omega)]
      congr 4 <;> omega
    · rw [(b.leftHalf mid).seps_internalInsertIndex key child hle, seps, hright' _ _ (by
          simp only [rightHalf]; omega)]
      simp only [leftHalf, rightHalf, hnode, append_assoc, cons_append]
      rw [window_cut b.keys i (show mid - 1 - i ≤ b.count - i by omega),
        show b.count - i - (mid - 1 - i) = b.count - mid + 1 by omega, window_succ,
        show i + (mid - 1 - i) = mid - 1 by omega, show mid - 1 + 1 = mid + 0 by omega]
    · simp only [internalInsertIndex, leftHalf]
      omega
    · simp only [internalInsertIndex, leftHalf]
      omega
  · rename_i hgt
    simp only [leftHalf, not_le] at hgt
    have hj : i - ((b.leftHalf mid).count + 1) = i - mid := by
      simp only [leftHalf]
      omega
    have hi' : i - mid ≤ (b.rightHalf node mid).count := by
      simp only [rightHalf]
      omega
    have hcount : (b.rightHalf node mid).count - (i - mid) = b.count - i := by
      simp only [rightHalf]
      omega
    rw [hj]
    refine ⟨⟨?_, ?_⟩, ?_, ?_, ?_, ?_, ?_⟩
    · rw [kids_internalInsertIndex _ key child hi', hcount, kids,
        hright _ _ (by omega), hright _ _ (by omega)]
      simp only [leftHalf]
      rw [window_cut b.children 0 (show mid ≤ i + 1 by omega), append_assoc,
        show mid - 1 + 1 = mid by omega, show i + 1 - mid = i - mid + 1 by omega,
        show mid + (i - mid + 1) = i + 1 by omega, Nat.add_zero, Nat.zero_add]
    · rw [seps_internalInsertIndex _ key child hi', hcount, seps,
        hright' _ _ (by omega), hright' _ _ (by omega)]
      simp only [leftHalf]
      rw [window_cut b.keys 0 (show mid - 1 ≤ i by omega), Nat.zero_add,
        show i - (mid - 1) = i - mid + 1 by omega, window_succ, append_assoc,
        cons_append, show mid - 1 + 1 = mid by omega, show mid + (i - mid) = i by omega,
        Nat.add_zero]
    · simp only [leftHalf]
      omega
    · simp only [leftHalf]
      omega
    · simp only [internalInsertIndex, rightHalf]
      omega
    · simp only [internalInsertIndex, rightHalf]
      omega
    · -- the new child is never the first of the right half
      simp only [internalInsertIndex]
      rw [update_of_ne (by omega), ← hfirst]
      split
      · rw [move_apply, if_neg (by omega)]
      · rfl

theorem kids_branchDelete (b : Branch K) (hi : index < b.count) :
    (b.branchDelete index).kids =
      window b.children 0 (index + 1) ++ window b.children (index + 2) (b.count - index - 1) := by
  have h := window_erase b.children (i := index + 1) (n := b.count + 1) (m := b.count - index)
    (by omega) (by omega)
  rw [kids]
  simp only [branchDelete]
  rw [show b.count - 1 + 1 = b.count + 1 - 1 by omega, h]
  congr 2
  omega

theorem seps_branchDelete (b : Branch K) (hi : index < b.count) :
    (b.branchDelete index).seps =
      window b.keys 0 index ++ window b.keys (index + 1) (b.count - index - 1) :=
  window_erase b.keys hi (by omega)

end Branch

/-! ### Leaves -/

theorem Leaf.copy_spec (keyOnly : Bool) {l r : Leaf K V} (hl : l.values.isSome = !keyOnly)
    (hr : r.values.isSome = !keyOnly) (d s n : ℕ) :
    ∃ values, (if keyOnly = false then moveValues l.values d r.values s n else .ok l.values) =
        .ok values ∧ values.isSome = !keyOnly ∧
      ∀ c, (Leaf.mk c (move l.keys d r.keys s n) values).entry = move l.entry d r.entry s n := by
  cases keyOnly with
  | true =>
    have hl : l.values = none := by simpa using hl
    have hr : r.values = none := by simpa using hr
    refine ⟨none, by simp [hl], rfl, fun c => ?_⟩
    funext i
    simp only [Leaf.entry, hl, hr, Option.map_none, move_apply]
    split <;> rfl
  | false =>
    obtain ⟨lv, hl⟩ := Option.isSome_iff_exists.mp hl
    obtain ⟨rv, hr⟩ := Option.isSome_iff_exists.mp hr
    refine ⟨some (move lv d rv s n), by simp [hl, hr, moveValues], rfl, fun c => ?_⟩
    funext i
    simp only [Leaf.entry, hl, hr, Option.map_some, move_apply]
    split <;> rfl

theorem Leaf.put_spec {keyOnly : Bool} {values : Option (ℕ → V)} (hl : values.isSome = !keyOnly)
    (i : ℕ) (key : K) (value : V) :
    ∃ values', (if keyOnly = false then putValue values i value else .ok values) = .ok values' ∧
      values'.isSome = !keyOnly ∧ ∀ c c' keys,
        (Leaf.mk c (update keys i key) values').entry =
          update (Leaf.mk c' keys values).entry i
            (key, if keyOnly then none else some value) := by
  cases keyOnly with
  | true =>
    have hl : values = none := by simpa using hl
    refine ⟨none, by simp [hl], rfl, fun c c' keys => ?_⟩
    funext j
    by_cases hj : j = i <;> simp [Leaf.entry, hl, hj]
  | false =>
    obtain ⟨v, rfl⟩ := Option.isSome_iff_exists.mp hl
    refine ⟨some (update v i value), by simp [putValue], rfl, fun c c' keys => ?_⟩
    funext j
    by_cases hj : j = i <;> simp [Leaf.entry, hj]

variable [LinearOrder K]

def BTree.stored (t : BTree K V) (value : V) : Option V := if t.keyOnly then none else some value

theorem BTree.newLeaf_layout (t : BTree K V) (count : ℕ) :
    (t.newLeaf count).values.isSome = !t.keyOnly := by
  cases h : t.keyOnly <;> simp [BTree.newLeaf, h]

/-- An entry is put in its place. -/
theorem Leaf.internalInsertIndex_spec (t : BTree K V) {l : Leaf K V} (index : ℕ) (key : K)
    (value : V) {A D : List (K × Option V)} (hl : l.values.isSome = !t.keyOnly)
    (hE : l.entries = A ++ D) (hi : index = A.length) :
    ∃ l', l.internalInsertIndex t index key value = .ok l' ∧
      l'.entries = A ++ (key, t.stored value) :: D ∧ l'.values.isSome = !t.keyOnly ∧
      l'.count = l.count + 1 := by
  have hle : index ≤ l.count := by
    rw [← l.length_entries, hE, length_append]
    omega
  -- a block of no items need not be moved
  have hkeys : (if l.count ≠ index then move l.keys (index + 1) l.keys index (l.count - index)
      else l.keys) = move l.keys (index + 1) l.keys index (l.count - index) := by
    split
    · rfl
    · rw [show l.count - index = 0 by omega, move_zero]
  have hvals : (if l.count ≠ index ∧ t.keyOnly = false then
      moveValues l.values (index + 1) l.values index (l.count - index) else .ok l.values) =
        if t.keyOnly = false then
          moveValues l.values (index + 1) l.values index (l.count - index) else .ok l.values := by
    by_cases hc : l.count = index
    · cases hv : l.values <;> cases hko : t.keyOnly <;>
        simp_all [moveValues]
    · simp [hc]
  obtain ⟨values, hv, hlay, hent⟩ := Leaf.copy_spec _ hl hl (index + 1) index (l.count - index)
  obtain ⟨values', hv', hlay', hent'⟩ := Leaf.put_spec hlay index key value
  refine ⟨⟨l.count + 1, update (move l.keys (index + 1) l.keys index
    (l.count - index)) index key, values'⟩, ?_, ?_, hlay', rfl⟩
  · simp only [Leaf.internalInsertIndex, hkeys, hvals, hv, bind, Except.bind, hv']
  · rw [Leaf.entries, hent' _ 0, hent, window_insert _ _ hle]
    rw [Leaf.entries, window_cut l.entry 0 hle, Nat.zero_add] at hE
    obtain ⟨h₁, h₂⟩ := append_inj hE (by simp [hi])
    rw [h₁, h₂, BTree.stored]

theorem Leaf.delete_spec (t : BTree K V) {l : Leaf K V} (index : ℕ) {A D : List (K × Option V)}
    {e : K × Option V} (hl : l.values.isSome = !t.keyOnly) (hE : l.entries = A ++ e :: D)
    (hi : index = A.length) :
    ∃ l', l.delete t index = .ok l' ∧ l'.entries = A ++ D ∧ l'.values.isSome = !t.keyOnly ∧
      l'.count = l.count - 1 := by
  have hlt : index < l.count := by
    rw [← l.length_entries, hE, length_append, length_cons]
    omega
  obtain ⟨values, hv, hlay, hent⟩ := Leaf.copy_spec _ hl hl index (index + 1) (l.count - index - 1)
  refine ⟨⟨l.count - 1, move l.keys index l.keys (index + 1) (l.count - index - 1), values⟩,
    ?_, ?_, hlay, rfl⟩
  · simp only [Leaf.delete, hv]
    rfl
  · rw [Leaf.entries, hent, window_erase _ hlt (le_refl _)]
    rw [Leaf.entries, window_split _ hlt] at hE
    obtain ⟨h₁, h₂⟩ := append_inj hE (by simp [hi])
    rw [h₁, (List.cons.inj h₂).2]

end Fastore.Tree
