import Fastore.Client.IDGenerator
import Fastore.Lib.Loops

/-!
The IDs of a C++ client.

This `IDGenerator` keeps its mutex for a whole call of `Generate` and fetches
a block itself when the range is used up, again and again as long as the
callback fails. The first ID of a block is returned as it is and the others
are counted up first, against an end that is not part of the block. So a
block of `n` IDs yields `n + 1` numbers, the last of which belongs to nobody,
or to the next block (`generate_distinct_iff`).

The numbers stay between the start of a block and its end
(`generates_bounded`), so they fit where the ends of the blocks do.
-/

namespace Fastore.Client.Native

open Lib List

structure IDGenerator where
  blockSize : ℤ
  nextId : ℤ := 0
  endOfRange : ℤ := 0
  calls : ℕ := 0
  deriving DecidableEq, Repr

def IDGenerator.new (blockSize allocationThreshold : ℤ) : Except String IDGenerator :=
  if blockSize < 1 then .error "Block size must be at least 1."
  else if allocationThreshold < 0 then .error "Allocation threshold must be 0 or more."
  else if blockSize < allocationThreshold then
    .error "Allocation threshold must be no more than the block size."
  else .ok { blockSize }

section Model

variable (callback : ℕ → Option ℤ)

/-- The loop of `Generate`, with the answers of the callback one after the other. An
answer that is not there is an exception. -/
def generate : Loop IDGenerator (ℤ × IDGenerator) := fun g =>
  let remaining := g.endOfRange - g.nextId
  if remaining ≤ 0 then
    -- `AsyncGenerateBlock`
    match callback g.calls with
    | none => .inl { g with calls := g.calls + 1 }
    | some blockValue =>
      .inr (blockValue, { g with
        calls := g.calls + 1
        nextId := blockValue
        endOfRange := blockValue + g.blockSize })
  else .inr (g.nextId + 1, { g with nextId := g.nextId + 1 })

/-- Calls of `Generate`, one after the other, and the IDs they return. -/
inductive Generates (g : IDGenerator) : List ℤ → IDGenerator → Prop
  | nil : Generates g [] g
  | call {ids : List ℤ} {id : ℤ} {g' g'' : IDGenerator} (h : Generates g ids g')
      (hend : (generate callback).Ends g' (id, g'')) : Generates g (ids ++ [id]) g''

def allocated (calls : ℕ) : List ℤ := (List.range calls).filterMap callback

end Model

variable {callback : ℕ → Option ℤ} {g g' : IDGenerator} {id : ℤ} {ids : List ℤ}

theorem allocated_succ (calls : ℕ) :
    allocated callback (calls + 1) = allocated callback calls ++ (callback calls).toList := by
  rw [allocated, range_succ, filterMap_append]
  cases h : callback calls <;> simp [allocated, h]

/-! ### One call -/

/-- A call counts on, or starts a block of its own. -/
theorem generate_cases (h : (generate callback).Ends g (id, g')) :
    g'.blockSize = g.blockSize ∧
    (g.nextId < g.endOfRange ∧ id = g.nextId + 1 ∧ g'.nextId = g.nextId + 1 ∧
        g'.endOfRange = g.endOfRange ∧ g'.calls = g.calls ∨
      g.endOfRange ≤ g.nextId ∧ g'.nextId = id ∧ g'.endOfRange = id + g.blockSize ∧
        allocated callback g'.calls = allocated callback g.calls ++ [id]) := by
  by_cases hleft : g.nextId < g.endOfRange
  · have hturn : generate callback g = .inr (g.nextId + 1, { g with nextId := g.nextId + 1 }) := by
      rw [generate, if_neg (by omega)]
    rw [Loop.ends_done hturn] at h
    obtain ⟨rfl, rfl⟩ := Prod.mk.inj h
    exact ⟨rfl, .inl ⟨hleft, rfl, rfl, rfl, rfl⟩⟩
  · -- the callback is called until it answers
    obtain ⟨g₁, ⟨hsize, hnext, hend, hcalls⟩, hlast⟩ := h.last
      (I := fun g₁ => g₁.blockSize = g.blockSize ∧ g₁.nextId = g.nextId ∧
        g₁.endOfRange = g.endOfRange ∧
        allocated callback g₁.calls = allocated callback g.calls) (by
        rintro g₁ g₂ ⟨hsize, hnext, hend, hcalls⟩ hturn
        rw [generate, if_pos (by omega)] at hturn
        cases hanswer : callback g₁.calls with
        | some b =>
          rw [hanswer] at hturn
          cases hturn
        | none =>
          rw [hanswer] at hturn
          obtain rfl := Sum.inl.inj hturn
          exact ⟨hsize, hnext, hend, by simp [allocated_succ, hanswer, hcalls]⟩)
      ⟨rfl, rfl, rfl, rfl⟩
    rw [generate, if_pos (by omega)] at hlast
    cases hanswer : callback g₁.calls with
    | none =>
      rw [hanswer] at hlast
      cases hlast
    | some b =>
      rw [hanswer] at hlast
      obtain ⟨rfl, rfl⟩ := Prod.mk.inj (Sum.inr.inj hlast)
      refine ⟨hsize, .inr ⟨by omega, rfl, by rw [hsize], ?_⟩⟩
      simp [allocated_succ, hanswer, hcalls]

theorem generate_returns (hcallback : ∀ i, ∃ j, i ≤ j ∧ (callback j).isSome) (g : IDGenerator) :
    ∃ o, (generate callback).Ends g o := by
  obtain ⟨j, hj, hsome⟩ := hcallback g.calls
  refine Loop.exists_ends (I := fun g => g.calls ≤ j) (m := fun g => j - g.calls)
    (fun g₁ g₂ hcalls hturn => ?_) hj
  rw [generate] at hturn
  split at hturn
  · cases hanswer : callback g₁.calls with
    | some b =>
      rw [hanswer] at hturn
      cases hturn
    | none =>
      rw [hanswer] at hturn
      obtain rfl := Sum.inl.inj hturn
      have hne : g₁.calls ≠ j := by
        rintro rfl
        simp [hanswer] at hsome
      simp only
      omega
  · cases hturn

theorem exists_generates (hcallback : ∀ i, ∃ j, i ≤ j ∧ (callback j).isSome) (g : IDGenerator)
    (k : ℕ) : ∃ ids g', ids.length = k ∧ Generates callback g ids g' := by
  induction k with
  | zero => exact ⟨[], g, rfl, .nil⟩
  | succ k ih =>
    obtain ⟨ids, g', hlength, hids⟩ := ih
    obtain ⟨⟨id, g''⟩, hend⟩ := generate_returns hcallback g'
    exact ⟨ids ++ [id], g'', by simp [hlength], hids.call hend⟩

/-! ### All calls -/

/-- The IDs that have been returned: nothing; the first IDs of the first block; or all of
these and the number behind them, and more, among which are the starts of the later
blocks. -/
inductive Shape (callback : ℕ → Option ℤ) (n : ℤ) : List ℤ → IDGenerator → Prop
  | start {g : IDGenerator} (hend : g.endOfRange ≤ g.nextId)
      (halloc : allocated callback g.calls = []) : Shape callback n [] g
  | first {g : IDGenerator} {b : ℤ} {m : ℕ} (hm : 0 < m) (hle : (m : ℤ) ≤ n)
      (hnext : g.nextId = b + m - 1) (hend : g.endOfRange = b + n)
      (halloc : allocated callback g.calls = [b]) :
      Shape callback n ((List.range m).map fun i : ℕ => b + i) g
  | beyond {g : IDGenerator} {b : ℤ} {m : ℕ} {rest later : List ℤ} (hm : (m : ℤ) = n + 1)
      (halloc : allocated callback g.calls = b :: later) (hlater : ∀ c ∈ later, c ∈ rest) :
      Shape callback n ((List.range m).map (fun i : ℕ => b + i) ++ rest) g

theorem range_map_succ (b : ℤ) (m : ℕ) :
    (List.range m).map (fun i : ℕ => b + i) ++ [b + m] =
      (List.range (m + 1)).map fun i : ℕ => b + i := by
  rw [range_succ, map_append]
  rfl

/-- **A call** keeps the shape. -/
theorem Shape.call (hsize : 1 ≤ g.blockSize) (h : Shape callback g.blockSize ids g)
    (hend : (generate callback).Ends g (id, g')) :
    Shape callback g.blockSize (ids ++ [id]) g' := by
  obtain ⟨-, hcases⟩ := generate_cases hend
  cases h with
  | start hempty halloc =>
    rcases hcases with ⟨hlt, -⟩ | ⟨-, hnext, hrange, halloc'⟩
    · omega
    · rw [halloc] at halloc'
      have hone := Shape.first (m := 1) Nat.one_pos (by exact_mod_cast hsize)
        (by rw [hnext]; simp) hrange halloc'
      simpa using hone
  | @first g b m hm hle hnext hrange halloc =>
    rcases hcases with ⟨-, rfl, hnext', hrange', hcalls⟩ | ⟨hempty, -⟩
    · rw [show g.nextId + 1 = b + m by omega, range_map_succ]
      rcases hle.lt_or_eq with hlt | heq
      · exact .first (Nat.succ_pos m) (by push_cast; omega) (by push_cast; omega)
          (hrange'.trans hrange) (hcalls ▸ halloc)
      · -- the number behind the block
        rw [← append_nil (List.map _ _)]
        exact .beyond (by push_cast; omega) (hcalls ▸ halloc) fun c hc => hc
    · omega
  | beyond hm halloc hlater =>
    rw [append_assoc]
    rcases hcases with ⟨-, rfl, -, -, hcalls⟩ | ⟨-, -, -, halloc'⟩
    · exact .beyond hm (hcalls ▸ halloc) fun c hc => mem_append_left _ (hlater c hc)
    · rw [halloc] at halloc'
      refine .beyond hm halloc' fun c hc => ?_
      rcases mem_append.mp hc with hc | hc
      · exact mem_append_left _ (hlater c hc)
      · exact mem_append_right _ hc

theorem Generates.shape (hsize : 1 ≤ g.blockSize) (hstart : g.endOfRange ≤ g.nextId)
    (hcalls : g.calls = 0) (h : Generates callback g ids g') :
    g'.blockSize = g.blockSize ∧ Shape callback g.blockSize ids g' := by
  induction h with
  | nil => exact ⟨rfl, .start hstart (by rw [hcalls]; rfl)⟩
  | call h hend ih =>
    obtain ⟨hsame, hshape⟩ := ih
    rw [← hsame] at hshape hsize ⊢
    exact ⟨(generate_cases hend).1, hshape.call hsize hend⟩

def Distinct (callback : ℕ → Option ℤ) (n : ℤ) (ids : List ℤ) (g : IDGenerator) : Prop :=
  ids.Nodup ∧ ∀ id ∈ ids, ∃ b ∈ allocated callback g.calls, b ≤ id ∧ id < b + n

/-- The IDs of one block are distinct, but not beyond it. -/
theorem Shape.distinct_iff {n : ℤ} (hn : 1 ≤ n) (h : Shape callback n ids g)
    (hdisjoint : Ledger.Disjoint n (allocated callback g.calls)) :
    Distinct callback n ids g ↔ (ids.length : ℤ) ≤ n := by
  have hmem : ∀ {b id : ℤ} {m : ℕ}, id ∈ (List.range m).map (fun i : ℕ => b + i) ↔
      b ≤ id ∧ id < b + m := by
    intro b id m
    simp only [mem_map, mem_range]
    constructor
    · rintro ⟨i, hi, rfl⟩
      omega
    · rintro ⟨hlow, hhigh⟩
      exact ⟨(id - b).toNat, by omega, by omega⟩
  cases h with
  | start hempty halloc => exact iff_of_true ⟨.nil, by simp⟩ (by simp; omega)
  | @first g b m hm hle hnext hend halloc =>
    refine iff_of_true ⟨?_, fun id hid => ⟨b, by simp [halloc], ?_⟩⟩ (by simpa using hle)
    · exact nodup_range.map fun i j hij => by simpa using hij
    · have := hmem.mp hid
      omega
  | @beyond g b m rest later hm halloc hlater =>
    refine iff_of_false ?_ (by simp; omega)
    rintro ⟨hnodup, hin⟩
    -- the number behind the first block belongs to a later one, whose start it is
    have hbehind : b + n ∈ (List.range m).map fun i : ℕ => b + i := hmem.mpr (by omega)
    obtain ⟨c, hc, hlow, hhigh⟩ := hin (b + n) (mem_append_left _ hbehind)
    rw [halloc] at hc hdisjoint
    rcases mem_cons.mp hc with rfl | hc
    · omega
    · have hapart := (pairwise_cons.mp hdisjoint).1 c hc
      obtain rfl : c = b + n := by omega
      exact (nodup_append.mp hnodup).2.2 _ hbehind _ (hlater _ hc) rfl

/-- **IDs of a C++ client**: any number of calls return if the callback does not fail for
ever, and what they return is distinct and in the blocks exactly if it is no more than
one block. -/
theorem generate_distinct_iff {blockSize allocationThreshold : ℤ} {g : IDGenerator}
    (hnew : IDGenerator.new blockSize allocationThreshold = .ok g) (callback : ℕ → Option ℤ)
    (hcallback : ∀ i, ∃ j, i ≤ j ∧ (callback j).isSome)
    (hdisjoint : ∀ calls, Ledger.Disjoint blockSize (allocated callback calls)) :
    (∀ k, ∃ ids g', ids.length = k ∧ Generates callback g ids g') ∧
    ∀ ids g', Generates callback g ids g' →
      (Distinct callback blockSize ids g' ↔ (ids.length : ℤ) ≤ blockSize) := by
  refine ⟨exists_generates hcallback g, fun ids g' h => ?_⟩
  rw [IDGenerator.new] at hnew
  split at hnew
  · cases hnew
  · split at hnew
    · cases hnew
    · split at hnew
      · cases hnew
      · obtain rfl := Except.ok.inj hnew
        have hsize : 1 ≤ blockSize := by omega
        exact (h.shape hsize (le_refl 0) rfl).2.distinct_iff hsize (hdisjoint _)

def consecutive (i : ℕ) : Option ℤ := if i < 2 then none else some (3 * i)

theorem consecutive_disjoint (calls : ℕ) : Ledger.Disjoint 3 (allocated consecutive calls) := by
  refine pairwise_filterMap.mpr (pairwise_lt_range.imp fun {i j} hij a ha b hb => .inl ?_)
  simp only [consecutive] at ha hb
  split at ha
  · cases ha
  · split at hb
    · cases hb
    · rw [← Option.some.inj ha, ← Option.some.inj hb]
      omega

/-- The three IDs of a block. -/
theorem generate_distinct_three : ∃ g ids g', IDGenerator.new 3 1 = .ok g ∧ ids.length = 3 ∧
    Generates consecutive g ids g' ∧ Distinct consecutive 3 ids g' := by
  have hcallback : ∀ i, ∃ j, i ≤ j ∧ (consecutive j).isSome := fun i =>
    ⟨i + 2, by omega, by simp [consecutive]⟩
  have hnew : IDGenerator.new 3 1 = .ok { blockSize := 3 } := rfl
  obtain ⟨hreturns, hdistinct⟩ :=
    generate_distinct_iff hnew consecutive hcallback consecutive_disjoint
  obtain ⟨ids, g', hlength, hids⟩ := hreturns 3
  exact ⟨_, ids, g', hnew, hlength, hids, (hdistinct ids g' hids).mpr (by simp [hlength])⟩

theorem generates_five :
    Generates consecutive ⟨3, 0, 0, 0⟩ [6, 7, 8, 9, 9] ⟨3, 9, 12, 4⟩ := by
  have h₁ : Generates consecutive ⟨3, 0, 0, 0⟩ ([] ++ [6]) ⟨3, 6, 9, 3⟩ := .call .nil ⟨3, by decide⟩
  have h₂ : Generates consecutive ⟨3, 0, 0, 0⟩ ([6] ++ [7]) ⟨3, 7, 9, 3⟩ := .call h₁ ⟨1, by decide⟩
  have h₃ : Generates consecutive ⟨3, 0, 0, 0⟩ ([6, 7] ++ [8]) ⟨3, 8, 9, 3⟩ :=
    .call h₂ ⟨1, by decide⟩
  have h₄ : Generates consecutive ⟨3, 0, 0, 0⟩ ([6, 7, 8] ++ [9]) ⟨3, 9, 9, 3⟩ :=
    .call h₃ ⟨1, by decide⟩
  exact .call h₄ ⟨1, by decide⟩

/-- The number behind the first block is the start of the second. -/
theorem generate_twice_nine : ∃ g g', IDGenerator.new 3 1 = .ok g ∧
    (∀ calls, Ledger.Disjoint 3 (allocated consecutive calls)) ∧
    Generates consecutive g [6, 7, 8, 9, 9] g' ∧ allocated consecutive g'.calls = [6, 9] :=
  ⟨_, ⟨3, 9, 12, 4⟩, rfl, consecutive_disjoint, generates_five, by decide⟩

/-- **The numbers stay with the blocks**: every ID that is returned lies in a block that the
callback has returned, or is the number behind it. -/
theorem generates_bounded (hsize : 1 ≤ g.blockSize) (hstart : g.endOfRange ≤ g.nextId)
    (h : Generates callback g ids g') :
    ∀ id ∈ ids, ∃ b ∈ allocated callback g'.calls, b ≤ id ∧ id ≤ b + g.blockSize := by
  suffices hinv : g'.blockSize = g.blockSize ∧
      (g'.nextId < g'.endOfRange → ∃ b ∈ allocated callback g'.calls,
        b ≤ g'.nextId ∧ g'.endOfRange = b + g.blockSize) ∧
      ∀ id ∈ ids, ∃ b ∈ allocated callback g'.calls, b ≤ id ∧ id ≤ b + g.blockSize from hinv.2.2
  induction h with
  | nil => exact ⟨rfl, fun hlt => absurd hlt (by omega), by simp⟩
  | @call ids id g₁ g₂ h hend ih =>
    obtain ⟨hsame, hrange, hids⟩ := ih
    obtain ⟨hsame', hcases⟩ := generate_cases hend
    rcases hcases with ⟨hlt, rfl, hnext', hend', hcalls⟩ | ⟨-, hnext', hend', halloc⟩
    · -- the range goes on
      obtain ⟨b, hb, hlow, hhigh⟩ := hrange hlt
      rw [hcalls, forall_mem_append, forall_mem_singleton]
      exact ⟨by omega, fun _ => ⟨b, hb, by omega, by omega⟩, hids, b, hb, by omega, by omega⟩
    · rw [halloc, forall_mem_append, forall_mem_singleton]
      refine ⟨by omega, fun _ => ⟨id, by simp, by omega, by omega⟩, fun i hi => ?_,
        id, by simp, by omega, by omega⟩
      obtain ⟨b, hb, hbounds⟩ := hids i hi
      exact ⟨b, mem_append_left _ hb, hbounds⟩

theorem generates_bounded_five :
    Generates consecutive ⟨3, 0, 0, 0⟩ [6, 7, 8, 9, 9] ⟨3, 9, 12, 4⟩ ∧
    ∀ id ∈ [6, 7, 8, 9, 9], ∃ b ∈ allocated consecutive 4, b ≤ id ∧ id ≤ b + 3 :=
  ⟨generates_five, generates_bounded (by decide) (by decide) generates_five⟩

end Fastore.Client.Native
