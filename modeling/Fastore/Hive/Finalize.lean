import Fastore.Hive.Prepare

/-!
The decision to commit.

`CanFinalizeTransaction` is meant to ask for a majority of the workers of
each column. What it asks for is less and something else: at least half of
all answers, rounded down, with the highest revision, where all workers
asked are counted, whether they host the column or not. So it accepts
without a majority (`finalize_majority_iff`), and it refuses a hive
without any fault if too many of the workers asked do not host a column
(`finalize_healthy_iff`).
-/

namespace Fastore.Hive

open Lib List

/-! ### One column -/

def topRevision (answers : List (Revision × PodID)) : Revision := (answers.map Prod.fst).foldr max 0

theorem le_topRevision {answers : List (Revision × PodID)} {a : Revision × PodID}
    (ha : a ∈ answers) : a.1 ≤ topRevision answers := by
  induction answers with
  | nil => simp at ha
  | cons b answers ih =>
    rw [topRevision, map_cons, foldr_cons]
    rcases mem_cons.mp ha with rfl | ha
    · exact le_max_left _ _
    · exact (ih ha).trans (le_max_right _ _)

theorem topRevision_le {answers : List (Revision × PodID)} {v : Revision}
    (hle : ∀ a ∈ answers, a.1 ≤ v) : topRevision answers ≤ v := by
  induction answers with
  | nil => exact Nat.zero_le _
  | cons b answers ih =>
    rw [topRevision, map_cons, foldr_cons]
    exact max_le (hle b mem_cons_self) (ih fun a ha => hle a (mem_cons_of_mem _ ha))

theorem topRevision_eq {answers : List (Revision × PodID)} {v : Revision}
    (hmem : ∃ a ∈ answers, a.1 = v) (hle : ∀ a ∈ answers, a.1 ≤ v) : topRevision answers = v := by
  refine le_antisymm (topRevision_le hle) ?_
  obtain ⟨a, ha, rfl⟩ := hmem
  exact le_topRevision ha

theorem exists_topRevision {answers : List (Revision × PodID)} (htop : topRevision answers ≠ 0) :
    ∃ a ∈ answers, a.1 = topRevision answers := by
  by_contra! hnone
  have hlt : ∀ a ∈ answers, a.1 ≤ topRevision answers - 1 := fun a ha =>
    Nat.le_sub_one_of_lt (lt_of_le_of_ne (le_topRevision ha) (hnone a ha))
  exact absurd (topRevision_le hlt) (Nat.not_le.mpr (Nat.sub_one_lt htop))

structure Quorum (answers : List (Revision × PodID)) (failed : List PodID) : Prop where
  answered : answers ≠ []
  /-- Less than half have failed, rounded down, or there is only one worker. -/
  few : failed.length < (failed.length + answers.length) / 2 ∨
    (failed.length + answers.length) / 2 = 0
  /-- At least half, rounded down, have the highest revision. -/
  highest : (failed.length + answers.length) / 2 ≤
    (answers.filter (·.1 = topRevision answers)).length

/-- A quorum gives the next revision. -/
theorem Tallies.newRevision {w : ColumnWriteResult} {answers : List (Revision × PodID)}
    {failed : List PodID} (h : Tallies w answers failed) :
    (Quorum answers failed ∧ w.newRevision = some (topRevision answers + 1)) ∨
      (¬ Quorum answers failed ∧ w.newRevision = none) := by
  have htotal : w.totalWorkers = failed.length + answers.length := by
    rw [ColumnWriteResult.totalWorkers, h.failed, h.groups.total]
  cases hlast : w.workersByRevision.entries.getLast? with
  | none =>
    refine .inr ⟨fun hq => hq.answered (h.groups.getLast?_eq_none.mp hlast), ?_⟩
    simp only [ColumnWriteResult.newRevision, hlast]
  | some group =>
    obtain ⟨v, pods⟩ := group
    obtain ⟨hpods, hne, hmax⟩ := h.groups.last hlast
    have hanswered : answers ≠ [] := fun hnil => by
      rw [h.groups.getLast?_eq_none.mpr hnil] at hlast
      cases hlast
    have htop : topRevision answers = v := by
      refine topRevision_eq ?_ hmax
      rw [hpods, ne_eq, map_eq_nil_iff, filter_eq_nil_iff] at hne
      push Not at hne
      obtain ⟨a, ha, hav⟩ := hne
      exact ⟨a, ha, by simpa using hav⟩
    have hlength : pods.length = (answers.filter (·.1 = topRevision answers)).length := by
      rw [hpods, htop, length_map]
    have hrev : w.newRevision = if (failed.length + answers.length) / 2 ≤ failed.length ∧
        0 < (failed.length + answers.length) / 2 ∨
        (answers.filter (·.1 = topRevision answers)).length < (failed.length + answers.length) / 2
        then none else some (topRevision answers + 1) := by
      simp only [ColumnWriteResult.newRevision, hlast, htotal, h.validate, h.failed, hlength, htop,
        Bool.false_eq_true, false_or]
    rw [hrev]
    split
    · rename_i hrefused
      refine .inr ⟨fun hq => ?_, rfl⟩
      have := hq.few
      have := hq.highest
      omega
    · exact .inl ⟨⟨hanswered, by omega, by omega⟩, rfl⟩

/-! ### All columns -/

theorem foldlM_newRevision {entries : List (ColumnID × ColumnWriteResult)}
    (hnodup : (entries.map Prod.fst).Nodup) (out : SortedMap ColumnID Revision) :
    ((∀ e ∈ entries, e.2.newRevision.isSome) → ∃ out',
      entries.foldlM (fun outRevisions result =>
        result.2.newRevision.map fun revision => outRevisions.insert result.1 revision) out =
          some out' ∧ (∀ e ∈ entries, out'.get? e.1 = e.2.newRevision) ∧
          ∀ c, c ∉ entries.map Prod.fst → out'.get? c = out.get? c) ∧
    ((∃ e ∈ entries, e.2.newRevision = none) →
      entries.foldlM (fun outRevisions result =>
        result.2.newRevision.map fun revision => outRevisions.insert result.1 revision) out =
          none) := by
  induction entries generalizing out with
  | nil => exact ⟨fun _ => ⟨out, rfl, by simp, by simp⟩, by simp⟩
  | cons e entries ih =>
    rw [map_cons, nodup_cons] at hnodup
    rw [foldlM_cons]
    cases hrev : e.2.newRevision with
    | none => exact ⟨fun hall => by simpa [hrev] using hall e mem_cons_self, fun _ => rfl⟩
    | some v =>
      obtain ⟨hok, hnone⟩ := ih hnodup.2 (out.insert e.1 v)
      refine ⟨fun hall => ?_, ?_⟩
      · obtain ⟨out', hout', hget, hother⟩ := hok fun e' he' => hall e' (mem_cons_of_mem _ he')
        refine ⟨out', hout', fun e' he' => ?_, fun c hc => ?_⟩
        · rcases mem_cons.mp he' with rfl | he'
          · rw [hother _ hnodup.1, SortedMap.get?_insert, if_pos rfl, hrev]
          · exact hget e' he'
        · rw [map_cons, mem_cons, not_or] at hc
          rw [hother c hc.2, SortedMap.get?_insert, if_neg hc.1]
      · rintro ⟨e', he', hnone'⟩
        rcases mem_cons.mp he' with rfl | he'
        · rw [hrev] at hnone'
          cases hnone'
        · exact hnone ⟨e', he', hnone'⟩

theorem canFinalizeTransaction_spec (results : SortedMap ColumnID ColumnWriteResult) :
    ((∀ c w, results.get? c = some w → w.newRevision.isSome) ∧ ∃ revisions,
      canFinalizeTransaction results = some revisions ∧
        ∀ c, revisions.get? c = (results.get? c).bind (·.newRevision)) ∨
    ((∃ c w, results.get? c = some w ∧ w.newRevision = none) ∧
      canFinalizeTransaction results = none) := by
  obtain ⟨hok, hnone⟩ := foldlM_newRevision results.keys_nodup .empty
  by_cases hall : ∀ e ∈ results.entries, e.2.newRevision.isSome
  · obtain ⟨revisions, hrev, hget, hother⟩ := hok hall
    refine .inl ⟨fun c w hw => hall (c, w) (SortedMap.get?_eq_some.mp hw), revisions, hrev, fun c => ?_⟩
    cases hw : results.get? c with
    | none => exact hother c (SortedMap.get?_eq_none.mp hw)
    | some w => exact hget (c, w) (SortedMap.get?_eq_some.mp hw)
  · push Not at hall
    obtain ⟨⟨c, w⟩, he, hrev⟩ := hall
    have hrev : w.newRevision = none := by simpa using hrev
    exact .inr ⟨⟨c, w, SortedMap.get?_eq_some.mpr he, hrev⟩, hnone ⟨(c, w), he, hrev⟩⟩

/-! ### A hive -/

namespace State

variable (h : State) (written : List ColumnID) (fails : PodID → Bool)

def answers (c : ColumnID) : List (Revision × PodID) :=
  h.answersOf written fails (h.contacted written) c

def failed (c : ColumnID) : List PodID := h.failedOf written fails (h.contacted written) c

/-- A column that does not keep the transaction from being committed: its counts
are a quorum, or nobody has said anything about it. -/
def Accepts (c : ColumnID) : Prop :=
  Quorum (h.answers written fails c) (h.failed written fails c) ∨
    h.answers written fails c = [] ∧ h.failed written fails c = []

def hosts (c : ColumnID) : List PodID := h.pods.filter fun p => h.hosted p c

def agreeing (c : ColumnID) : List PodID :=
  (h.hosts c).filter fun p => !fails p && h.reported p c = topRevision (h.answers written fails c)

/-- More than half of the workers of a column, and at least one, have answered
with its highest revision. -/
def Majority (c : ColumnID) : Prop :=
  h.hosts c ≠ [] ∧ (h.hosts c).length < 2 * (h.agreeing written fails c).length

def strangers (c : ColumnID) : List PodID :=
  (h.contacted written).filter fun p => !h.hosted p c

def outsiders (c : ColumnID) : List PodID := (h.strangers written c).filter fun p => !fails p

/-- The counts with which a column is let through without a majority. -/
inductive Gap (c : ColumnID) : Prop
  /-- No worker hosts it. -/
  | unhosted (hosts : h.hosts c = [])
  /-- Half of its workers, rounded down, have the highest revision, less have failed,
  and no stranger, or one beside an even number of workers, has answered. -/
  | half (revised : topRevision (h.answers written fails c) ≠ 0)
      (agreeing : (h.agreeing written fails c).length = (h.hosts c).length / 2)
      (failed : (h.failed written fails c).length < (h.hosts c).length / 2)
      (outsiders : (h.outsiders written fails c).length = 0 ∨
        (h.outsiders written fails c).length = 1 ∧ (h.hosts c).length % 2 = 0)
  /-- It has not been written yet, at least half of its workers have failed, and the
  strangers make up for them. -/
  | fresh (unrevised : topRevision (h.answers written fails c) = 0)
      (failed : (h.hosts c).length ≤ 2 * (h.failed written fails c).length)
      (outsiders : (h.failed written fails c).length <
        ((h.hosts c).length + (h.outsiders written fails c).length) / 2)

variable {h written fails} {c : ColumnID}

theorem answers_eq (hc : c ∈ written) : h.answers written fails c =
    ((h.contacted written).filter fun p => !fails p).map fun p => (h.reported p c, p) :=
  if_pos hc

/-- A transaction is finalized if every written column is accepted. -/
theorem canFinalizeTransaction_prepared
    {results : SortedMap ColumnID ColumnWriteResult}
    (hr : h.Counts written fails (h.contacted written) results) :
    ((∀ c ∈ written, h.Accepts written fails c) ∧ ∃ revisions,
      canFinalizeTransaction results = some revisions ∧
        ∀ c, Quorum (h.answers written fails c) (h.failed written fails c) →
          revisions.get? c = some (topRevision (h.answers written fails c) + 1)) ∨
    ((∃ c ∈ written, ¬ h.Accepts written fails c) ∧ canFinalizeTransaction results = none) := by
  rcases canFinalizeTransaction_spec results with ⟨hall, revisions, hrev, hget⟩ |
    ⟨⟨c, w, hw, hnone⟩, hrev⟩
  · refine .inl ⟨fun c _ => ?_, revisions, hrev, fun c hq => ?_⟩
    · obtain ⟨htally, habsent⟩ := hr c
      cases hw : results.get? c with
      | none => exact .inr (habsent.mp hw)
      | some w =>
        rw [hw, Option.getD_some] at htally
        rcases htally.newRevision with ⟨hq, -⟩ | ⟨-, hnone⟩
        · exact .inl hq
        · simpa [hnone] using hall c w hw
    · obtain ⟨htally, habsent⟩ := hr c
      cases hw : results.get? c with
      | none => exact absurd (habsent.mp hw).1 hq.answered
      | some w =>
        rw [hw, Option.getD_some] at htally
        rw [hget, hw, Option.bind_some]
        rcases htally.newRevision with ⟨-, hsome⟩ | ⟨hnq, -⟩
        · exact hsome
        · exact absurd hq hnq
  · obtain ⟨htally, habsent⟩ := hr c
    rw [hw, Option.getD_some] at htally
    have hnq : ¬ Quorum (h.answers written fails c) (h.failed written fails c) := by
      rcases htally.newRevision with ⟨-, hsome⟩ | ⟨hnq, -⟩
      · rw [hnone] at hsome
        cases hsome
      · exact hnq
    have hpresent : ¬ (h.answers written fails c = [] ∧ h.failed written fails c = []) :=
      fun hempty => by
      rw [habsent.mpr hempty] at hw
      cases hw
    refine .inr ⟨⟨c, ?_, fun ha => ha.elim hnq hpresent⟩, hrev⟩
    by_contra hc
    exact hpresent ⟨if_neg hc, if_neg hc⟩

/-! ### The counts of a column -/

theorem hosts_eq (hc : c ∈ written) :
    h.hosts c = (h.contacted written).filter fun p => h.hosted p c := by
  rw [hosts, contacted, filter_filter]
  refine filter_congr fun p _ => ?_
  cases hp : h.hosted p c with
  | false => rfl
  | true => simpa using ⟨c, hc, hp⟩

theorem failed_eq (hc : c ∈ written) :
    h.failed written fails c = (h.hosts c).filter fails := by
  rw [failed, failedOf, if_pos hc, hosts_eq hc, filter_filter]

theorem reported_of_stranger {p : PodID} (hp : h.hosted p c = false) :
    h.reported p c = 0 := by
  have hnone : h.revision p c = none := by simpa [hosted] using hp
  rw [reported, hnone, Option.getD_none]

variable (h fails) in
/-- Some of those that answer are hosts and the others strangers. -/
theorem length_filter_answers (hc : c ∈ written) (v : Revision → Bool) :
    ((h.answers written fails c).filter fun a => v a.1).length =
      ((h.hosts c).filter fun p => !fails p && v (h.reported p c)).length +
        if v 0 then (h.outsiders written fails c).length else 0 := by
  rw [answers_eq hc, filter_map, length_map, filter_filter,
    length_eq_length_filter_add (h.hosted · c), filter_filter, filter_filter, hosts_eq hc,
    filter_filter, outsiders, strangers, filter_filter]
  congr 2
  · refine filter_congr fun p _ => ?_
    simp only [Function.comp_apply]
    cases h.hosted p c <;> cases fails p <;> simp
  · split
    · rename_i hv
      congr 1
      refine filter_congr fun p _ => ?_
      cases hp : h.hosted p c with
      | true => simp
      | false => simp [reported_of_stranger hp, hv]
    · rename_i hv
      rw [length_eq_zero_iff, filter_eq_nil_iff]
      intro p _
      cases hp : h.hosted p c with
      | true => simp
      | false => simp [reported_of_stranger hp, hv]

variable (h fails) in
/-- Everybody who answers counts, but only hosts have a revision. -/
theorem counts_of_written (hc : c ∈ written) :
    (h.answers written fails c).length + (h.failed written fails c).length =
      (h.hosts c).length + (h.outsiders written fails c).length ∧
    ((h.answers written fails c).filter (·.1 = topRevision (h.answers written fails c))).length =
      (h.agreeing written fails c).length +
        (if topRevision (h.answers written fails c) = 0 then
          (h.outsiders written fails c).length else 0) ∧
    (h.agreeing written fails c).length + (h.failed written fails c).length ≤
      (h.hosts c).length := by
  have hall := length_filter_answers h fails hc fun _ => true
  have htop := length_filter_answers h fails hc fun v =>
    v = topRevision (h.answers written fails c)
  have hsplit := length_eq_length_filter_add (l := h.hosts c) fails
  have hsub : (h.agreeing written fails c).Sublist ((h.hosts c).filter fun p => !fails p) :=
    monotone_filter_right _ fun p hp => (Bool.and_eq_true_iff.mp hp).1
  have hle := hsub.length_le
  rw [failed_eq hc]
  simp only [filter_true, Bool.and_true, if_true] at hall
  refine ⟨by omega, ?_, by omega⟩
  rw [htop, agreeing]
  simp only [decide_eq_true_eq, eq_comm (a := 0)]

variable (h fails) in
/-- Where the highest revision is 0, all hosts that answer agree; otherwise some do. -/
theorem agreeing_of_top (hc : c ∈ written) :
    (topRevision (h.answers written fails c) = 0 →
      (h.agreeing written fails c).length + (h.failed written fails c).length =
        (h.hosts c).length) ∧
    (topRevision (h.answers written fails c) ≠ 0 → 0 < (h.agreeing written fails c).length) := by
  constructor
  · intro htop
    have hagree : h.agreeing written fails c = (h.hosts c).filter fun p => !fails p := by
      refine filter_congr fun p hp => ?_
      cases hf : fails p with
      | true => rfl
      | false =>
        rw [hosts_eq hc, mem_filter] at hp
        have hmem : (h.reported p c, p) ∈ h.answers written fails c := by
          rw [answers_eq hc]
          exact mem_map.mpr ⟨p, mem_filter.mpr ⟨hp.1, by simp [hf]⟩, rfl⟩
        have hzero : h.reported p c = 0 := by
          have := le_topRevision hmem
          rw [htop] at this
          exact Nat.le_zero.mp this
        simp [htop, hzero]
    have hsplit := length_eq_length_filter_add (l := h.hosts c) fails
    rw [hagree, failed_eq hc]
    omega
  · intro htop
    obtain ⟨a, ha, hv⟩ := exists_topRevision htop
    rw [answers_eq hc] at ha
    obtain ⟨p, hp, rfl⟩ := mem_map.mp ha
    obtain ⟨hasked, hf⟩ := mem_filter.mp hp
    refine length_pos_of_mem (a := p) (mem_filter.mpr ⟨?_, by simp [hf, ← hv]⟩)
    rw [hosts_eq hc]
    refine mem_filter.mpr ⟨hasked, ?_⟩
    by_contra hh
    exact htop (hv ▸ reported_of_stranger (by simpa using hh))

/-- The gap is what is let through without a majority. -/
theorem gap_iff (hc : c ∈ written) :
    h.Gap written fails c ↔ h.Accepts written fails c ∧ ¬ h.Majority written fails c := by
  obtain ⟨htotal, hhighest, hle⟩ := counts_of_written h fails hc
  obtain ⟨hfresh, htop⟩ := agreeing_of_top h fails hc
  have hquorum : Quorum (h.answers written fails c) (h.failed written fails c) ↔
      0 < (h.answers written fails c).length ∧
      ((h.failed written fails c).length <
        ((h.hosts c).length + (h.outsiders written fails c).length) / 2 ∨
        ((h.hosts c).length + (h.outsiders written fails c).length) / 2 = 0) ∧
      ((h.hosts c).length + (h.outsiders written fails c).length) / 2 ≤
        (h.agreeing written fails c).length +
          if topRevision (h.answers written fails c) = 0 then
            (h.outsiders written fails c).length else 0 := by
    rw [← hhighest, ← htotal, length_pos_iff, Nat.add_comm (h.answers written fails c).length]
    exact ⟨fun hq => ⟨hq.answered, hq.few, hq.highest⟩, fun hq => ⟨hq.1, hq.2.1, hq.2.2⟩⟩
  rw [Accepts, Majority, hquorum, ← length_eq_zero_iff, ← length_eq_zero_iff,
    ne_eq, ← length_eq_zero_iff]
  constructor
  · rintro (hhosts | ⟨hwritten, hagree, hfailed, hout⟩ | ⟨hunwritten, hfailed, hout⟩)
    · rw [← length_eq_zero_iff] at hhosts
      by_cases hzero : topRevision (h.answers written fails c) = 0
      · rw [if_pos hzero]
        omega
      · have := htop hzero
        omega
    · rw [if_neg hwritten]
      omega
    · have := hfresh hunwritten
      rw [if_pos hunwritten]
      omega
  · rintro ⟨haccepts, hmajority⟩
    by_cases hzero : topRevision (h.answers written fails c) = 0
    · have := hfresh hzero
      rw [if_pos hzero] at haccepts
      by_cases hhosts : (h.hosts c).length = 0
      · exact .unhosted (length_eq_zero_iff.mp hhosts)
      · exact .fresh hzero (by omega) (by omega)
    · have := htop hzero
      rw [if_neg hzero] at haccepts
      exact .half hzero (by omega) (by omega) (by omega)

end State

/-- **Acceptance**: the answers can be counted, and a transaction is only accepted if more than
half of the workers of every column to be written have its highest revision, exactly if the
last worker asked does not fail (which is not survived), and some column is refused by its
counts or no column has the counts of the gap. -/
theorem finalize_majority_iff {W : Type} (h : State) (writes : SortedMap ColumnID W)
    (fails : PodID → Bool) :
    (∃ results, h.prepared writes.keys fails = .ok results ∧
      ∀ revisions, canFinalizeTransaction results = some revisions →
        ∀ c ∈ writes.keys, h.Majority writes.keys fails c) ↔
      h.lastFails writes.keys fails = false ∧
      ((∃ c ∈ writes.keys, ¬ h.Accepts writes.keys fails c) ∨
        ∀ c ∈ writes.keys, ¬ h.Gap writes.keys fails c) := by
  rcases h.prepared_spec fails writes.keys_nodup with
    ⟨hlast, f, hf⟩ | ⟨hlast, results, hok, hr⟩
  · refine iff_of_false ?_ fun hcond => ?_
    · rintro ⟨results, hok, -⟩
      rw [hf] at hok
      cases hok
    · rw [hlast] at hcond
      exact Bool.noConfusion hcond.1
  rcases State.canFinalizeTransaction_prepared hr with
    ⟨hall, revisions, hrev, -⟩ | ⟨hsome, hnone⟩
  · constructor
    · rintro ⟨results', hok', hm⟩
      obtain rfl : results = results' := Except.ok.inj (hok.symm.trans hok')
      exact ⟨hlast, .inr fun c hc hgap => ((State.gap_iff hc).mp hgap).2 (hm revisions hrev c hc)⟩
    · rintro ⟨-, ⟨c, hc, hna⟩ | hgap⟩
      · exact absurd (hall c hc) hna
      · refine ⟨results, hok, fun _ _ c hc => ?_⟩
        by_contra hm
        exact hgap c hc ((State.gap_iff hc).mpr ⟨hall c hc, hm⟩)
  · refine iff_of_true ⟨results, hok, fun revisions hrev => ?_⟩ ⟨hlast, .inl hsome⟩
    rw [hnone] at hrev
    cases hrev
def twoRevisions : State where
  pods := [1, 2]
  sorted := by decide
  revision p c := if c = 10000 then some (p + 4) else none

/-- One of two workers is enough. -/
theorem finalize_without_majority :
    (∃ results revisions, twoRevisions.prepared [10000] (fun _ => false) = .ok results ∧
      canFinalizeTransaction results = some revisions ∧ revisions.get? 10000 = some 7) ∧
    ¬ twoRevisions.Majority [10000] (fun _ => false) 10000 := by
  refine ⟨⟨_, _, rfl, rfl, ?_⟩, fun hm => ?_⟩
  · decide +kernel
  · have hcount : ¬ ((twoRevisions.hosts 10000).length <
        2 * (twoRevisions.agreeing [10000] (fun _ => false) 10000).length) := by decide +kernel
    exact hcount hm.2

/-! ### A hive without faults -/

namespace State

variable {h : State} {written : List ColumnID} {c : ColumnID}

theorem length_contacted (hc : c ∈ written) :
    (h.contacted written).length = (h.hosts c).length + (h.strangers written c).length := by
  rw [hosts_eq hc, strangers]
  exact length_eq_length_filter_add _

/-- Hosts that are at one revision. -/
theorem answers_of_same (hc : c ∈ written) {v : Revision} (hhosted : h.hosts c ≠ [])
    (hsame : ∀ p ∈ h.hosts c, h.revision p c = some v) :
    h.answers written (fun _ => false) c ≠ [] ∧
    topRevision (h.answers written (fun _ => false) c) = v ∧
    ((h.answers written (fun _ => false) c).filter (·.1 = v)).length =
      if v = 0 then (h.contacted written).length else (h.hosts c).length := by
  have hanswers : h.answers written (fun _ => false) c =
      (h.contacted written).map fun p => (h.reported p c, p) := by
    rw [answers_eq hc, filter_eq_self.mpr (by simp)]
  have hhost : ∀ p ∈ h.hosts c, h.reported p c = v := fun p hp => by
    rw [reported, hsame p hp, Option.getD_some]
  obtain ⟨p, hp⟩ := exists_mem_of_ne_nil _ hhosted
  have hanswer : (v, p) ∈ h.answers written (fun _ => false) c := by
    rw [hanswers]
    refine mem_map.mpr ⟨p, ?_, by rw [hhost p hp]⟩
    rw [hosts_eq hc] at hp
    exact (mem_filter.mp hp).1
  refine ⟨ne_nil_of_mem hanswer, topRevision_eq ⟨_, hanswer, rfl⟩ ?_, ?_⟩
  · rw [hanswers]
    intro a ha
    obtain ⟨q, hq, rfl⟩ := mem_map.mp ha
    cases hh : h.hosted q c with
    | true => exact (hhost q (by rw [hosts_eq hc]; exact mem_filter.mpr ⟨hq, hh⟩)).le
    | false => simp [reported_of_stranger hh]
  · have hcount := length_filter_answers h (fun _ => false) hc fun w => w = v
    have hall : ((h.hosts c).filter fun q => !false && decide (h.reported q c = v)) = h.hosts c :=
      filter_eq_self.mpr fun q hq => by simp [hhost q hq]
    have houtsiders : h.outsiders written (fun _ => false) c = h.strangers written c :=
      filter_eq_self.mpr (by simp)
    rw [hcount, hall, houtsiders, length_contacted hc]
    simp only [decide_eq_true_eq, eq_comm (a := 0)]
    split <;> rfl

theorem failed_of_none (c : ColumnID) : h.failed written (fun _ => false) c = [] := by
  simp [failed, failedOf]

end State

/-- **A healthy hive**: without failures, and with one revision for each column,
every transaction is accepted with the next revisions exactly if for every
column that has been written before, the workers asked that do not host it are
at most one more than those that do. -/
theorem finalize_healthy_iff {W : Type} {h : State} {writes : SortedMap ColumnID W}
    {revision : ColumnID → Revision}
    (hhosted : ∀ c ∈ writes.keys, h.hosts c ≠ [])
    (hsame : ∀ c ∈ writes.keys, ∀ p ∈ h.hosts c, h.revision p c = some (revision c)) :
    (∃ results revisions, h.prepared writes.keys (fun _ => false) = .ok results ∧
      canFinalizeTransaction results = some revisions ∧
        ∀ c ∈ writes.keys, revisions.get? c = some (revision c + 1)) ↔
      ∀ c ∈ writes.keys, revision c = 0 ∨
        (h.strangers writes.keys c).length ≤ (h.hosts c).length + 1 := by
  have hquorum : ∀ c ∈ writes.keys, (h.Accepts writes.keys (fun _ => false) c ↔
      Quorum (h.answers writes.keys (fun _ => false) c) (h.failed writes.keys (fun _ => false) c)) ∧
      (h.Accepts writes.keys (fun _ => false) c ↔
        revision c = 0 ∨ (h.strangers writes.keys c).length ≤ (h.hosts c).length + 1) := by
    intro c hc
    obtain ⟨hanswered, htop, hcount⟩ := State.answers_of_same hc (hhosted c hc) (hsame c hc)
    have hlength : (h.answers writes.keys (fun _ => false) c).length =
        (h.hosts c).length + (h.strangers writes.keys c).length := by
      rw [State.answers_eq hc, filter_eq_self.mpr (by simp), length_map,
        State.length_contacted hc]
    have haccepts : h.Accepts writes.keys (fun _ => false) c ↔ Quorum
        (h.answers writes.keys (fun _ => false) c) (h.failed writes.keys (fun _ => false) c) :=
      or_iff_left fun hempty => hanswered hempty.1
    have hcontacted : (h.contacted writes.keys).length =
        (h.hosts c).length + (h.strangers writes.keys c).length := State.length_contacted hc
    refine ⟨haccepts, haccepts.trans ?_⟩
    rw [State.failed_of_none]
    constructor
    · intro hq
      have hhighest := hq.highest
      rw [htop, hcount, hlength, length_nil] at hhighest
      split at hhighest
      · rename_i hv
        exact .inl hv
      · exact .inr (by omega)
    · intro hcond
      refine ⟨hanswered, ?_, ?_⟩
      · rw [hlength, length_nil]
        omega
      · rw [htop, hcount, hlength, length_nil]
        split
        · omega
        · rename_i hv
          have := hcond.resolve_left hv
          omega
  rcases h.prepared_spec (fun _ => false) writes.keys_nodup with ⟨hlast, -⟩ | ⟨-, results, hok, hr⟩
  · simp [State.lastFails] at hlast
  rcases State.canFinalizeTransaction_prepared hr with
    ⟨hall, revisions, hrev, hget⟩ | ⟨⟨c, hc, hna⟩, hnone⟩
  · refine iff_of_true ⟨results, revisions, hok, hrev, fun c hc => ?_⟩
      fun c hc => (hquorum c hc).2.mp (hall c hc)
    rw [hget c ((hquorum c hc).1.mp (hall c hc)),
      (State.answers_of_same hc (hhosted c hc) (hsame c hc)).2.1]
  · refine iff_of_false ?_ fun hcond => hna ((hquorum c hc).2.mpr (hcond c hc))
    rintro ⟨results', revisions, hok', hrev, -⟩
    obtain rfl : results = results' := Except.ok.inj (hok.symm.trans hok')
    rw [hnone] at hrev
    cases hrev

def twoColumns : State where
  pods := [1, 2]
  sorted := by decide
  revision p c := if c = 10000 + p then some 5 else none

def twoWrites : SortedMap ColumnID Unit := ⟨[(10001, ()), (10002, ())], by decide⟩

theorem finalize_healthy_twoColumns : ∃ results revisions,
    twoColumns.prepared twoWrites.keys (fun _ => false) = .ok results ∧
      canFinalizeTransaction results = some revisions ∧
        ∀ c ∈ twoWrites.keys, revisions.get? c = some 6 := by
  have hsame : ∀ c ∈ twoWrites.keys, ∀ p ∈ twoColumns.hosts c,
      twoColumns.revision p c = some ((fun _ => 5 : ColumnID → Revision) c) := by decide
  exact (finalize_healthy_iff (by decide) hsame).mpr (by decide)

def fourColumns : State where
  pods := [0, 1, 2, 3]
  sorted := by decide
  revision p c := if c = 10000 + p then some 5 else none

/-- A transaction over four columns that live on one worker each is refused. -/
theorem finalize_refuses_healthy : ∃ results,
    fourColumns.prepared [10000, 10001, 10002, 10003] (fun _ => false) = .ok results ∧
      canFinalizeTransaction results = none := by
  refine ⟨_, rfl, ?_⟩
  decide +kernel

end Fastore.Hive
