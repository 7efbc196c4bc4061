import Fastore.Buffer.Ends
import Fastore.Index.Trees
import Fastore.Tree.Positions

/-!
`GetRows` in memory.

The loops of `GetRows` walk a tree from one iterator to another. Under the
contract the tree is a sorted map (`Shows`) and an iterator a position in it,
and the walks are the same as those of `Buffer` (`Shows.scanRows`,
`TreeBuffer.agree_valuesRows`), as long as no bound strays. An iterator that has strayed
is never met by a walk to it (`walk_to_astray`); from one that has strayed the
walk cannot start upwards, and downwards reads at least one entry
(`walk_from_astray`).
-/

namespace Fastore.Index

open Fastore.Tree Buffer Lib List

variable {R A X Y σ : Type} [LinearOrder A]

/-! ### Walks -/

def moveBefore (t : BTree A X) (ascending : Bool) (it : Iterator) : Except Fault Iterator :=
  if ascending then .ok it else it.movePrior t

def moveIf (t : BTree A X) (condition : Bool) (it : Iterator) : Except Fault Iterator :=
  if condition then it.moveNext t else .ok it

/-- `while (begin != end && !done)`, with an entry read in each turn, at most once for every
entry and once more. -/
def walk (t : BTree A X) (ascending : Bool) (stop : Iterator) (done : σ → Bool)
    (body : A × Option X → σ → Except Fault σ) : ℕ → Iterator → σ → Except Fault σ
  | 0, _, _ => .error .stackOverflow
  | fuel + 1, begin, s =>
    if begin.same stop || done s then .ok s
    else do
      let begin ← moveBefore t ascending begin
      let e ← begin.get t
      let s ← body e s
      let begin ← moveIf t ascending begin
      walk t ascending stop done body fuel begin s

def placeOf (t : BTree A X) (key : Option A) (marker : Iterator) :
    Except Fault (Iterator × Bool) :=
  match key with
  | some key => t.findNearest key
  | none => .ok (marker, false)

structure SetUp (A R : Type) where
  begin : Iterator
  stop : Iterator
  result : RangeResult A R

def firstKey (range : RangeRequest A R) (startKey : Option A) : Option A :=
  match startKey with
  | some key => some key
  | none => range.first.map (·.value)

def lastKey (range : RangeRequest A R) : Option A := range.last.map (·.value)

def setUp (t : BTree A X) (range : RangeRequest A R) (startKey : Option A) :
    Except Fault (SetUp A R) := do
  let result : RangeResult A R := {}
  let result := if range.disjoint then
    { result with valueRowsList := [], bof := true, eof := true, limited := false } else result
  let first ← t.beginIter
  let last ← t.endIter
  let firstMarker := if range.ascending then first else last
  let lastMarker := if range.ascending then last else first
  let (begin, beginMatch) ← placeOf t (firstKey range startKey) firstMarker
  let (stop, endMatch) ← placeOf t (lastKey range) lastMarker
  let result := { result with bof := begin.same firstMarker, eof := stop.same lastMarker }
  let skipBegin := (if range.ascending then !range.bInclusive else range.bInclusive) && beginMatch
  let skipEnd := (if range.ascending then range.eInclusive else !range.eInclusive) && endMatch
  let begin ← moveIf t skipBegin begin
  let result := if skipBegin then { result with bof := false } else result
  let stop ← moveIf t skipEnd stop
  let result := if skipEnd then { result with eof := stop.same lastMarker } else result
  .ok ⟨begin, stop, result⟩

section Rows

variable [DecidableEq R]

/-- The loop body of `GetRows` over a tree with one row to an entry, with the start row as
long as it is looked for. -/
def scanBody (row : A × Option X → Except Fault R) (range : RangeRequest A R) (e : A × Option X)
    (s : Option R × RangeResult A R) :
    Except Fault (Option R × RangeResult A R) := do
  let rowId ← row e
  if s.1 = some rowId then .ok (none, { s.2 with bof := false })
  else
    let vrl := s.2.valueRowsList ++ [⟨e.1, [rowId]⟩]
    .ok (s.1,
      { s.2 with valueRowsList := vrl, limited := decide ((vrl.length : ℤ) = range.limit) })

def scanRows (t : BTree A X) (row : A × Option X → Except Fault R) (range : RangeRequest A R)
    (startKey : Option A) : Except Fault (RangeResult A R) := do
  let s ← setUp t range startKey
  let (_, result) ← walk t range.ascending s.stop (fun s => s.2.limited) (scanBody row range)
    (t.count.toNat + 1) s.begin (range.rowID, s.result)
  .ok result.resetEof

def valueOf (e : A × Option X) : Except Fault X :=
  match e.2 with
  | some value => .ok value
  | none => .error .nullValues

end Rows

namespace TreeBuffer

variable [LinearOrder R]

/-- The inner loop body of `GetRows`, with the rows of one value, the number of rows so far
and whether the limit is reached. -/
def rowsBody (range : RangeRequest A R) (e : R × Option R) (s : List R × ℕ × Bool) :
    Except Fault (List R × ℕ × Bool) :=
  .ok (s.1 ++ [e.1], s.2.1 + 1, decide (((s.2.1 + 1 : ℕ) : ℤ) = range.limit))

def idStartAt (t : BTree R R) (range : RangeRequest A R) (startId : Option R)
    (first last : Iterator) : Except Fault Iterator :=
  match startId with
  | some startId => do
    let idStart ← t.find startId
    if !idStart.same last then moveIf t range.ascending idStart
    else .error (.thrown "Start id not found in given value")
  | none => .ok (if range.ascending then first else last)

/-- The loop body of `GetRows`, with the start row as long as it is looked for and the number
of rows so far. -/
def valuesBody (trees : TreeId → Option (BTree R R)) (range : RangeRequest A R)
    (e : A × Option TreeId) (s : Option R × ℕ × RangeResult A R) :
    Except Fault (Option R × ℕ × RangeResult A R) := do
  let x ← valueOf e
  let rowIdTree ← treeAt trees x
  let first ← rowIdTree.beginIter
  let last ← rowIdTree.endIter
  let idStart ← idStartAt rowIdTree range s.1 first last
  let (rowIds, num, limited) ← walk rowIdTree range.ascending
    (if range.ascending then last else first) (fun s => s.2.2) (rowsBody range)
    (rowIdTree.count.toNat + 1) idStart ([], s.2.1, s.2.2.limited)
  let vrl :=
    if 0 < rowIds.length then s.2.2.valueRowsList ++ [⟨e.1, rowIds⟩] else s.2.2.valueRowsList
  .ok (none, num, { s.2.2 with
    valueRowsList := vrl
    bof := if s.1.isSome then false else s.2.2.bof
    limited := limited })

def valuesRows (values : BTree A TreeId) (trees : TreeId → Option (BTree R R))
    (range : RangeRequest A R) (startKey : Option A) : Except Fault (RangeResult A R) := do
  let s ← setUp values range startKey
  let (_, _, result) ← walk values range.ascending s.stop (fun s => s.2.2.limited)
    (valuesBody trees range) (values.count.toNat + 1) s.begin (range.rowID, 0, s.result)
  .ok result.resetEof

end TreeBuffer

/-! ### What a walk does to its state -/

section Walk

variable {t : BTree A X} {n i : ℕ} {ascending : Bool} {begin stop it it' : Iterator} {done : σ → Bool}
  {body : A × Option X → σ → Except Fault σ} {fuel : ℕ} {s s' : σ}

theorem walk_succ_eq_ok (h : walk t ascending stop done body (fuel + 1) begin s = .ok s')
    (hgo : (begin.same stop || done s) = false) :
    ∃ it e s₁ it', moveBefore t ascending begin = .ok it ∧ it.get t = .ok e ∧
      body e s = .ok s₁ ∧ moveIf t ascending it = .ok it' ∧
      walk t ascending stop done body fuel it' s₁ = .ok s' := by
  rw [walk, if_neg (by simp [hgo])] at h
  obtain ⟨it, hit, h⟩ := eq_ok_of_bind h
  obtain ⟨e, he, h⟩ := eq_ok_of_bind h
  obtain ⟨s₁, hs₁, h⟩ := eq_ok_of_bind h
  obtain ⟨it', hit', h⟩ := eq_ok_of_bind h
  exact ⟨it, e, s₁, it', hit, he, hs₁, hit', h⟩

theorem walk_invariant {P : σ → Prop} (hbody : ∀ e s s', P s → body e s = .ok s' → P s')
    (h : walk t ascending stop done body fuel begin s = .ok s') (hs : P s) : P s' := by
  induction fuel generalizing begin s with
  | zero => cases h
  | succ fuel ih =>
    cases hgo : begin.same stop || done s with
    | true =>
      rw [walk, if_pos hgo] at h
      rwa [← Except.ok.inj h]
    | false =>
      obtain ⟨it, e, s₁, it', -, -, hs₁, -, h⟩ := walk_succ_eq_ok h hgo
      exact ih h (hbody e s s₁ hs hs₁)

theorem stands_moveIf {condition : Bool} (h : it.Stands t n i) (ht : t.WellFormed n)
    (hmove : moveIf t condition it = .ok it') : ∃ j, it'.Stands t n j := by
  cases condition with
  | true => exact ⟨_, h.next_of_ok ht hmove⟩
  | false =>
    obtain rfl := Except.ok.inj hmove
    exact ⟨i, h⟩

theorem stands_moveBefore (h : it.Stands t n i) (ht : t.WellFormed n)
    (hmove : moveBefore t ascending it = .ok it') : ∃ j, it'.Stands t n j := by
  cases ascending with
  | true =>
    obtain rfl := Except.ok.inj hmove
    exact ⟨i, h⟩
  | false =>
    obtain ⟨k, -, hk⟩ := h.prior_of_ok ht hmove
    exact ⟨k, hk⟩

/-- A walk to an iterator that has strayed does not meet it. -/
theorem walk_to_astray {j : ℕ} (ht : t.WellFormed n) (hstop : stop.Astray t n j)
    (h : walk t ascending stop done body fuel begin s = .ok s') (hbegin : begin.Stands t n i) :
    done s' = true := by
  induction fuel generalizing begin s i with
  | zero => cases h
  | succ fuel ih =>
    have hnot := (hstop.same_stands hbegin ht).2
    cases hdone : done s with
    | true =>
      rw [walk, if_pos (by simp [hdone])] at h
      rwa [← Except.ok.inj h]
    | false =>
      obtain ⟨it, e, s₁, it', hit, -, -, hit', h⟩ := walk_succ_eq_ok h (by simp [hnot, hdone])
      obtain ⟨k, hk⟩ := stands_moveBefore hbegin ht hit
      obtain ⟨l, hl⟩ := stands_moveIf hk ht hit'
      exact ih h hl

/-- A walk from an iterator that has strayed reads an entry. -/
theorem walk_from_astray (ht : t.WellFormed n) (hbegin : begin.Astray t n i)
    (h : walk t ascending stop done body fuel begin s = .ok s')
    (hgo : (begin.same stop || done s) = false) :
    ∃ e ∈ t.contents n, ∃ s₁ fuel it, body e s = .ok s₁ ∧
      walk t ascending stop done body fuel it s₁ = .ok s' := by
  cases fuel with
  | zero => cases h
  | succ fuel =>
    obtain ⟨it, e, s₁, it', hit, he, hs₁, -, h⟩ := walk_succ_eq_ok h hgo
    cases ascending with
    | true =>
      obtain rfl := Except.ok.inj hit
      rw [hbegin.get ht] at he
      cases he
    | false =>
      obtain ⟨k, rfl⟩ : ∃ k, i = k + 1 := ⟨i - 1, by have := (hbegin.inside ht).1; omega⟩
      obtain ⟨it₁, hmove, hk⟩ := hbegin.movePrior ht
      obtain rfl := ok_unique hit hmove
      rw [hk.get ht] at he
      refine ⟨e, ?_, s₁, fuel, it', hs₁, h⟩
      split at he
      · rename_i hget
        exact Except.ok.inj he ▸ mem_of_getElem? hget
      · cases he

end Walk

/-! ### Trees that show sorted maps -/

/-- The entries of the tree are those of the map, with values that correspond. -/
structure Shows (t : BTree A X) (n : ℕ) (m : SortedMap A Y) (same : Option X → Y → Prop) :
    Prop where
  wellFormed : t.WellFormed n
  entries : Forall₂ (fun e e' => e.1 = e'.1 ∧ same e.2 e'.2) (t.contents n) m.entries

/-- The place of an iterator, if it has strayed the one it should be at. -/
def At (t : BTree A X) (n : ℕ) (it : Iterator) (i : ℕ) (astray : Prop) : Prop :=
  ¬ astray ∧ it.Stands t n i ∨ astray ∧ it.Astray t n i

def StraysAt (t : BTree A X) (key : Option A) : Prop := ∃ k ∈ key, t.Strays k

section Shows

variable {t : BTree A X} {n i j : ℕ} {m : SortedMap A Y} {same : Option X → Y → Prop}
  {it : Iterator} {astray : Prop} {range : RangeRequest A R} {startKey : Option A}

variable (same) in
theorem exists_shows (ht : t.WellFormed n) (h : ∀ e ∈ t.contents n, ∃ y, same e.2 y) :
    ∃ m : SortedMap A Y, Shows t n m same := by
  have hlist : ∀ l : List (A × Option X), (∀ e ∈ l, ∃ y, same e.2 y) →
      ∃ l' : List (A × Y), Forall₂ (fun e e' => e.1 = e'.1 ∧ same e.2 e'.2) l l' ∧
        l'.map Prod.fst = l.map Prod.fst := by
    intro l
    induction l with
    | nil => exact fun _ => ⟨[], .nil, rfl⟩
    | cons e l ih =>
      intro hall
      obtain ⟨y, hy⟩ := hall e mem_cons_self
      obtain ⟨l', hl', hkeys⟩ := ih fun e he => hall e (mem_cons_of_mem _ he)
      exact ⟨(e.1, y) :: l', .cons ⟨rfl, hy⟩ hl', by rw [map_cons, map_cons, hkeys]⟩
  obtain ⟨l', hl', hkeys⟩ := hlist _ h
  refine ⟨⟨l', ?_⟩, ht, hl'⟩
  have hsorted := ht.sorted
  rwa [← hkeys, pairwise_map] at hsorted

namespace Shows

def placeIn (m : SortedMap A Y) (key : Option A) (marker : ℕ) : ℕ × Bool :=
  match key with
  | some key => Buffer.findNearest m key
  | none => (marker, false)

theorem beginAt_eq (m : SortedMap A Y) (range : RangeRequest A R) (startKey : Option A) :
    beginAt m range startKey =
      placeIn m (firstKey range startKey) (if range.ascending then 0 else m.size) := by
  cases startKey with
  | some key => rfl
  | none => cases hfirst : range.first <;> simp [beginAt, firstKey, placeIn, hfirst]

theorem stopAt_eq (m : SortedMap A Y) (range : RangeRequest A R) :
    stopAt m range = placeIn m (lastKey range) (if range.ascending then m.size else 0) := by
  cases hlast : range.last <;> simp [stopAt, lastKey, placeIn, hlast]

variable (h : Shows t n m same)

include h

theorem keys : m.keys = (t.contents n).map Prod.fst := by
  rw [SortedMap.keys]
  have hentries := h.entries
  generalize t.contents n = l, m.entries = l' at hentries
  induction hentries with
  | nil => rfl
  | cons he _ ih => rw [map_cons, map_cons, ih, he.1]

theorem size : (t.contents n).length = m.size := h.entries.length_eq

theorem count : t.count.toNat = m.size := by
  rw [h.wellFormed.count, h.size, Int.toNat_natCast]

theorem deref (hit : it.Stands t n i) :
    Agree (fun e e' => e.1 = e'.1 ∧ same e.2 e'.2) (it.get t) (deref m i) := by
  rw [hit.get h.wellFormed, Buffer.deref]
  rcases Nat.lt_or_ge i m.size with hlt | hge
  · have hlt' : i < (t.contents n).length := h.size ▸ hlt
    rw [getElem?_eq_getElem hlt', getElem?_eq_getElem hlt]
    exact .ok (h.entries.get hlt' hlt)
  · rw [getElem?_eq_none (h.size ▸ hge), getElem?_eq_none hge]
    exact .error _

theorem moveIf (condition : Bool) (hit : it.Stands t n i) :
    Agree (fun it i => it.Stands t n i) (moveIf t condition it)
      (Buffer.moveIf m condition i) := by
  cases condition with
  | false => exact .ok hit
  | true =>
    simp only [Index.moveIf, Buffer.moveIf, if_true, moveNext]
    cases heof : it.eof with
    | true =>
      have hi := (hit.eof_iff h.wellFormed).mp heof
      rw [Iterator.moveNext_eof heof, if_neg (by rw [hi, h.size]; exact lt_irrefl _)]
      exact .error _
    | false =>
      have hlt : i < m.size := by
        have hle := hit.le h.wellFormed
        have hne : i ≠ (t.contents n).length := fun hi => by
          rw [(hit.eof_iff h.wellFormed).mpr hi] at heof
          cases heof
        rw [← h.size]
        omega
      obtain ⟨it', hmove, hit'⟩ := hit.moveNext h.wellFormed heof
      rw [hmove, if_pos hlt]
      exact .ok hit'

theorem moveBefore (ascending : Bool) (hit : it.Stands t n i) :
    Agree (fun it i => it.Stands t n i) (moveBefore t ascending it)
      (Buffer.moveBefore ascending i) := by
  cases ascending with
  | true => exact .ok hit
  | false =>
    simp only [Index.moveBefore, Buffer.moveBefore, Bool.false_eq_true, if_false]
    cases i with
    | zero =>
      rw [hit.movePrior_first h.wellFormed]
      exact .error _
    | succ i =>
      obtain ⟨it', hmove, hit'⟩ := hit.movePrior h.wellFormed
      rw [hmove]
      exact .ok hit'

theorem rank_eq {key : A} (hi : i ≤ (t.contents n).length)
    (hlo : ∀ e ∈ (t.contents n).take i, e.1 < key) (hhi : ∀ e ∈ (t.contents n).drop i, key ≤ e.1) :
    m.rank key = i := by
  have hcount : m.entries.countP (·.1 < key) = (t.contents n).countP (·.1 < key) := by
    have hkeys := congrArg (List.countP (· < key)) h.keys
    rwa [SortedMap.keys, countP_map, countP_map] at hkeys
  rw [← m.countP_lt, hcount, ← take_append_drop i (t.contents n), countP_append,
    countP_eq_length.mpr fun e he => decide_eq_true (hlo e he),
    countP_eq_zero.mpr fun e he => by simpa using hhi e he, length_take_of_le hi, Nat.add_zero]

theorem findNearest (key : A) :
    ∃ it isMatch, t.findNearest key = .ok (it, isMatch) ∧ isMatch = (m.get? key).isSome ∧
      At t n it (m.rank key) (t.Strays key) ∧ (t.Strays key → isMatch = false) := by
  obtain ⟨it, isMatch, i, hfind, hmatch, ⟨hlo, hhi⟩, hplace⟩ := h.wellFormed.findNearest_place key
  have hle : i ≤ (t.contents n).length := by
    rcases hplace with ⟨-, hit⟩ | ⟨-, -, hit⟩
    · exact hit.le h.wellFormed
    · exact (hit.inside h.wellFormed).2.le
  have hsome : isMatch = (m.get? key).isSome := by
    rw [Bool.eq_iff_iff, hmatch, ← h.keys, SortedMap.mem_keys, Option.isSome_iff_exists]
  refine ⟨it, isMatch, hfind, hsome, ?_, ?_⟩
  · rw [h.rank_eq hle hlo hhi]
    rcases hplace with ⟨hstays, hit⟩ | ⟨hstrays, -, hit⟩
    · exact .inl ⟨hstays, hit⟩
    · exact .inr ⟨hstrays, hit⟩
  · intro hstrays
    rcases hplace with ⟨hstays, -⟩ | ⟨-, hfalse, -⟩
    · exact absurd hstrays hstays
    · exact hfalse

theorem find (key : A) :
    ∃ it, t.find key = .ok it ∧ it.Stands t n (find m key) := by
  obtain ⟨it, isMatch, hfind, hsome, hplace, hstrays⟩ := h.findNearest key
  obtain ⟨p, hp, hit⟩ := eq_ok_of_bind hfind
  obtain ⟨it', hit', hpair⟩ := eq_ok_of_bind hit
  obtain ⟨rfl, rfl⟩ := Prod.mk.inj (Except.ok.inj hpair)
  simp only [BTree.find, hp, bind, Except.bind, Buffer.find, ← hsome]
  cases hmatch : p.isMatch with
  | true =>
    rcases hplace with ⟨-, hstands⟩ | ⟨hs, -⟩
    · exact ⟨it', hit', hstands⟩
    · rw [hstrays hs] at hmatch
      cases hmatch
  | false =>
    obtain ⟨stop, hstop, hstands⟩ := h.wellFormed.endIter_stands
    exact ⟨stop, hstop, h.size ▸ hstands⟩

theorem same_marker {marker : Iterator} (hat : At t n it i astray)
    (hmarker : marker.Stands t n j) (hj : j = 0 ∨ j = m.size) : it.same marker = (i == j) := by
  rw [Bool.eq_iff_iff, beq_iff_eq]
  rcases hat with ⟨-, hit⟩ | ⟨-, hit⟩
  · exact hit.same_iff hmarker h.wellFormed
  · rw [(hit.same_stands hmarker h.wellFormed).1]
    have hinside := hit.inside h.wellFormed
    rw [h.size] at hinside
    simp only [Bool.false_eq_true, false_iff]
    omega

theorem moveIf_at (skip : Bool) (hat : At t n it i astray)
    (hskip : skip = true → ¬ astray ∧ i < m.size) :
    ∃ it' i', Index.moveIf t skip it = .ok it' ∧ Buffer.moveIf m skip i = .ok i' ∧
      At t n it' i' astray := by
  cases skip with
  | false => exact ⟨it, i, rfl, rfl, hat⟩
  | true =>
    obtain ⟨hnot, hlt⟩ := hskip rfl
    rcases hat with ⟨-, hit⟩ | ⟨hastray, -⟩
    · have hok : Buffer.moveIf m true i = .ok (i + 1) := by
        rw [Buffer.moveIf, if_pos rfl, moveNext, if_pos hlt]
      have hagree := h.moveIf true hit
      rw [hok] at hagree
      generalize hmove : Index.moveIf t true it = x at hagree
      cases hagree with
      | ok hit' => exact ⟨_, i + 1, rfl, hok, .inl ⟨hnot, hit'⟩⟩
    · exact absurd hastray hnot

theorem placeOf (key : Option A) {marker : Iterator} (hmarker : marker.Stands t n j) :
    ∃ it, Index.placeOf t key marker = .ok (it, (placeIn m key j).2) ∧
      At t n it (placeIn m key j).1 (StraysAt t key) ∧
      ((placeIn m key j).2 = true → ¬ StraysAt t key ∧ (placeIn m key j).1 < m.size) := by
  cases key with
  | none => exact ⟨marker, rfl, .inl ⟨by simp [StraysAt], hmarker⟩, fun hfalse => by cases hfalse⟩
  | some key =>
    obtain ⟨it, isMatch, hfind, rfl, hat, hstrays⟩ := h.findNearest key
    have hone : StraysAt t (some key) ↔ t.Strays key := by simp [StraysAt]
    refine ⟨it, hfind, by rwa [hone], fun hmatch => ⟨fun hs => ?_, ?_⟩⟩
    · rw [hone] at hs
      exact Bool.noConfusion ((hstrays hs).symm.trans hmatch)
    · obtain ⟨y, hy⟩ := Option.isSome_iff_exists.mp hmatch
      exact SortedMap.rank_lt hy

/-- **The two ends** are found at the same places, but where a bound strays. -/
theorem setUp (range : RangeRequest A R) (startKey : Option A) :
    ∃ s S, Index.setUp t range startKey = .ok s ∧ Buffer.setUp m range startKey = .ok S ∧
      s.result = S.result ∧ At t n s.begin S.begin (StraysAt t (firstKey range startKey)) ∧
      At t n s.stop S.stop (StraysAt t (lastKey range)) := by
  obtain ⟨first, hfirst, hbegins⟩ := h.wellFormed.beginIter_stands
  obtain ⟨last, hlast, hends⟩ := h.wellFormed.endIter_stands
  rw [h.size] at hends
  have hfirstMarker : Iterator.Stands t n (if range.ascending then first else last)
      (if range.ascending then 0 else m.size) := by
    split
    · exact hbegins
    · exact hends
  have hlastMarker : Iterator.Stands t n (if range.ascending then last else first)
      (if range.ascending then m.size else 0) := by
    split
    · exact hends
    · exact hbegins
  have hfirstEnd : (if range.ascending then 0 else m.size) = 0 ∨
      (if range.ascending then 0 else m.size) = m.size := by
    split <;> simp
  have hlastEnd : (if range.ascending then m.size else 0) = 0 ∨
      (if range.ascending then m.size else 0) = m.size := by
    split <;> simp
  obtain ⟨begin, hbegin, hbeginAt, hbeginSkip⟩ := h.placeOf (firstKey range startKey) hfirstMarker
  obtain ⟨stop, hstop, hstopAt, hstopSkip⟩ := h.placeOf (lastKey range) hlastMarker
  rw [← beginAt_eq] at hbegin hbeginAt hbeginSkip
  rw [← stopAt_eq] at hstop hstopAt hstopSkip
  obtain ⟨begin', i, hmove, hmove', hat⟩ := h.moveIf_at
    ((if range.ascending then !range.bInclusive else range.bInclusive) &&
      (beginAt m range startKey).2) hbeginAt
    fun hskip => hbeginSkip (Bool.and_eq_true_iff.mp hskip).2
  obtain ⟨stop', j, hmoveStop, hmoveStop', hatStop⟩ := h.moveIf_at
    ((if range.ascending then range.eInclusive else !range.eInclusive) &&
      (stopAt m range).2) hstopAt
    fun hskip => hstopSkip (Bool.and_eq_true_iff.mp hskip).2
  have hbof := h.same_marker hbeginAt hfirstMarker hfirstEnd
  have heof := h.same_marker hstopAt hlastMarker hlastEnd
  have heof' := h.same_marker hatStop hlastMarker hlastEnd
  simp only [Index.setUp, Buffer.setUp, hfirst, hlast, hbegin, hstop, hmove, hmove', hmoveStop,
    hmoveStop', hbof, heof, heof', bind, Except.bind]
  exact ⟨_, _, rfl, rfl, rfl, hat, hatStop⟩

variable [LinearOrder R] {row : A × Option X → Except Fault R} {row' : A × Y → R}
  {begin stop : Iterator}

variable (range) in
/-- The loop over a tree is the loop over the map it shows. -/
theorem scanLoop (hrow : ∀ e e', e.1 = e'.1 → same e.2 e'.2 → row e = .ok (row' e'))
    (hstop : stop.Stands t n j) (fuel : ℕ) (hbegin : begin.Stands t n i) (startId : Option R)
    (result : RangeResult A R) :
    Agree (fun s result => s.2 = result)
      (walk t range.ascending stop (fun s => s.2.limited) (scanBody row range) fuel begin
        (startId, result))
      (Buffer.scanLoop m row' range j fuel i startId result) := by
  induction fuel generalizing begin i startId result with
  | zero => exact .error _
  | succ fuel ih =>
    rw [walk, Buffer.scanLoop]
    by_cases hend : i = j ∨ result.limited = true
    · rw [if_pos (by simpa [hbegin.same_iff hstop h.wellFormed] using hend), if_pos hend]
      exact .ok rfl
    · rw [if_neg (by simpa [hbegin.same_iff hstop h.wellFormed] using hend), if_neg hend]
      refine (h.moveBefore range.ascending hbegin).bind fun it k hit => (h.deref hit).bind ?_
      rintro e e' ⟨hkey, hvalue⟩
      by_cases hstart : startId = some (row' e')
      · have hbody : scanBody row range e (startId, result) =
            .ok (none, { result with bof := false }) := by
          simp [scanBody, hrow e e' hkey hvalue, hstart, bind, Except.bind]
        rw [hbody, if_pos hstart]
        exact (h.moveIf range.ascending hit).bind fun it' l hit' => ih hit' none _
      · have hbody : scanBody row range e (startId, result) = .ok (startId, { result with
            valueRowsList := result.valueRowsList ++ [⟨e'.1, [row' e']⟩]
            limited := decide (((result.valueRowsList ++
              [(⟨e'.1, [row' e']⟩ : ValueRows A R)]).length : ℤ) = range.limit) }) := by
          simp [scanBody, hrow e e' hkey hvalue, hstart, hkey, bind, Except.bind]
        rw [hbody, if_neg hstart]
        exact (h.moveIf range.ascending hit).bind fun it' l hit' => ih hit' startId _

/-- **`GetRows`** over a tree with one row to an entry, if no bound strays. -/
theorem scanRows (hrow : ∀ e e', e.1 = e'.1 → same e.2 e'.2 → row e = .ok (row' e'))
    (hfirst : ¬ StraysAt t (firstKey range startKey)) (hlast : ¬ StraysAt t (lastKey range)) :
    Index.scanRows t row range startKey = Buffer.scanRows m row' range startKey := by
  obtain ⟨s, S, hs, hS, hresult, hbegin, hstop⟩ := h.setUp range startKey
  have hbegin := (hbegin.resolve_right fun hs => hfirst hs.1).2
  have hstop := (hstop.resolve_right fun hs => hlast hs.1).2
  have hloop := h.scanLoop range hrow hstop (m.size + 1) hbegin range.rowID S.result
  simp only [Index.scanRows, hs, Buffer.scanRows, hS, h.count, hresult, bind, Except.bind] at hloop ⊢
  generalize walk t range.ascending s.stop (fun s => s.2.limited) (scanBody row range) (m.size + 1)
    s.begin (range.rowID, S.result) = x, Buffer.scanLoop m row' range S.stop (m.size + 1) S.begin
    range.rowID S.result = y at hloop
  cases hloop with
  | ok heq => exact congrArg (fun r : RangeResult A R => Except.ok r.resetEof) heq
  | error e => rfl

end Shows

end Shows

/-! ### Trees of rows -/

namespace TreeBuffer

variable [LinearOrder R] {range : RangeRequest A R} {startKey : Option A}

def RowsAt (trees : TreeId → Option (BTree R R)) (x : Option TreeId) (rows : SortedMap R Unit) :
    Prop :=
  ∃ id t n, x = some id ∧ trees id = some t ∧ Shows t n rows fun _ _ => True

section RowTree

variable {t : BTree R R} {n i j : ℕ} {rows : SortedMap R Unit} {begin stop first last : Iterator}

omit [LinearOrder A] in
theorem agree_rowsLoop (h : Shows t n rows fun _ _ => True) (hstop : stop.Stands t n j) (fuel : ℕ)
    (hbegin : begin.Stands t n i) (rowIds : List R) (num : ℕ) (limited : Bool) :
    Agree Eq (walk t range.ascending stop (fun s => s.2.2) (rowsBody range) fuel begin
        (rowIds, num, limited))
      (Buffer.TreeBuffer.rowsLoop rows range j fuel i rowIds num limited) := by
  induction fuel generalizing begin i rowIds num limited with
  | zero => exact .error _
  | succ fuel ih =>
    rw [walk, Buffer.TreeBuffer.rowsLoop]
    by_cases hend : i = j ∨ limited = true
    · rw [if_pos (by simpa [hbegin.same_iff hstop h.wellFormed] using hend), if_pos hend]
      exact .ok rfl
    · rw [if_neg (by simpa [hbegin.same_iff hstop h.wellFormed] using hend), if_neg hend]
      refine (h.moveBefore range.ascending hbegin).bind fun it k hit => (h.deref hit).bind ?_
      rintro e e' ⟨hkey, -⟩
      simp only [rowsBody, hkey]
      exact (h.moveIf range.ascending hit).bind fun it' l hit' => ih hit' _ _ _

omit [LinearOrder A] in
theorem agree_idStartAt (h : Shows t n rows fun _ _ => True) (hfirst : first.Stands t n 0)
    (hlast : last.Stands t n rows.size) (startId : Option R) :
    Agree (fun it i => it.Stands t n i) (idStartAt t range startId first last)
      (Buffer.TreeBuffer.idStartAt rows range startId) := by
  cases startId with
  | none =>
    refine .ok ?_
    split
    · exact hfirst
    · exact hlast
  | some startId =>
    obtain ⟨it, hfind, hit⟩ := h.find startId
    simp only [idStartAt, hfind, bind, Except.bind, Buffer.TreeBuffer.idStartAt]
    by_cases hend : find rows startId = rows.size
    · rw [if_neg (by simpa using (hit.same_iff hlast h.wellFormed).mpr hend),
        if_neg (by simpa using hend)]
      exact .error _
    · have hsame : it.same last = false :=
        Bool.eq_false_iff.mpr fun hs => hend ((hit.same_iff hlast h.wellFormed).mp hs)
      rw [if_pos (by simp [hsame]), if_pos hend]
      exact h.moveIf range.ascending hit

end RowTree

variable {values : BTree A TreeId} {trees : TreeId → Option (BTree R R)} {n i j : ℕ}
  {m : SortedMap A (SortedMap R Unit)} {begin stop : Iterator}

omit [LinearOrder A] in
theorem valuesBody_eq {e : A × Option TreeId} {e' : A × SortedMap R Unit} (hkey : e.1 = e'.1)
    (h : RowsAt trees e.2 e'.2) (range : RangeRequest A R) :
    ∃ t n first last, (Shows t n e'.2 fun _ _ => True) ∧ first.Stands t n 0 ∧
      last.Stands t n e'.2.size ∧ ∀ startId num result,
        valuesBody trees range e (startId, num, result) = (do
          let idStart ← idStartAt t range startId first last
          let ids ← walk t range.ascending (if range.ascending then last else first)
            (fun s => s.2.2) (rowsBody range) (e'.2.size + 1) idStart ([], num, result.limited)
          .ok (none, ids.2.1, { result with
            valueRowsList := if 0 < ids.1.length then result.valueRowsList ++ [⟨e'.1, ids.1⟩]
              else result.valueRowsList
            bof := if startId.isSome then false else result.bof
            limited := ids.2.2 })) := by
  obtain ⟨x, t, n, hx, ht, hrows⟩ := h
  obtain ⟨first, hfirst, hbegins⟩ := hrows.wellFormed.beginIter_stands
  obtain ⟨last, hlast, hends⟩ := hrows.wellFormed.endIter_stands
  rw [hrows.size] at hends
  refine ⟨t, n, first, last, hrows, hbegins, hends, fun startId num result => ?_⟩
  simp only [valuesBody, valueOf, hx, treeAt, ht, hfirst, hlast, hrows.count, hkey, bind, Except.bind]

variable (range) in
/-- The loop over a tree of trees is the loop over the maps. -/
theorem agree_valuesLoop (h : Shows values n m (RowsAt trees)) (hstop : stop.Stands values n j)
    (fuel : ℕ) (hbegin : begin.Stands values n i) (startId : Option R) (num : ℕ)
    (result : RangeResult A R) :
    Agree (fun s result => s.2.2 = result)
      (walk values range.ascending stop (fun s => s.2.2.limited) (valuesBody trees range) fuel begin
        (startId, num, result))
      (Buffer.TreeBuffer.valuesLoop m range j fuel i startId num result) := by
  induction fuel generalizing begin i startId num result with
  | zero => exact .error _
  | succ fuel ih =>
    rw [walk, Buffer.TreeBuffer.valuesLoop]
    by_cases hend : i = j ∨ result.limited = true
    · rw [if_pos (by simpa [hbegin.same_iff hstop h.wellFormed] using hend), if_pos hend]
      exact .ok rfl
    · rw [if_neg (by simpa [hbegin.same_iff hstop h.wellFormed] using hend), if_neg hend]
      refine (h.moveBefore range.ascending hbegin).bind fun it k hit => (h.deref hit).bind ?_
      rintro e e' ⟨hkey, hvalue⟩
      obtain ⟨t, k', first, last, hrows, hbegins, hends, hbody⟩ := valuesBody_eq hkey hvalue range
      have hidEnd : Iterator.Stands t k' (if range.ascending then last else first)
          (if range.ascending then e'.2.size else 0) := by
        split
        · exact hends
        · exact hbegins
      simp only [hbody, bind_assoc]
      refine (agree_idStartAt hrows hbegins hends startId).bind fun idStart l hid =>
        (agree_rowsLoop hrows hidEnd _ hid [] num result.limited).bind ?_
      rintro ⟨rowIds, num', limited⟩ _ rfl
      exact (h.moveIf range.ascending hit).bind fun it' l hit' => ih hit' none num' _

/-- **`GetRows`** of a tree of trees, if no bound strays. -/
theorem agree_valuesRows (h : Shows values n m (RowsAt trees))
    (hfirst : ¬ StraysAt values (firstKey range startKey))
    (hlast : ¬ StraysAt values (lastKey range)) :
    valuesRows values trees range startKey = Buffer.TreeBuffer.valuesRows m range startKey := by
  obtain ⟨s, S, hs, hS, hresult, hbegin, hstop⟩ := h.setUp range startKey
  have hbegin := (hbegin.resolve_right fun hs => hfirst hs.1).2
  have hstop := (hstop.resolve_right fun hs => hlast hs.1).2
  have hloop := agree_valuesLoop range h hstop (m.size + 1) hbegin range.rowID 0 S.result
  simp only [valuesRows, hs, Buffer.TreeBuffer.valuesRows, hS, h.count, hresult, bind, Except.bind]
    at hloop ⊢
  generalize walk values range.ascending s.stop (fun s => s.2.2.limited) (valuesBody trees range)
    (m.size + 1) s.begin (range.rowID, 0, S.result) = x, Buffer.TreeBuffer.valuesLoop m range S.stop
    (m.size + 1) S.begin range.rowID 0 S.result = y at hloop
  cases hloop with
  | ok heq => exact congrArg (fun r : RangeResult A R => Except.ok r.resetEof) heq
  | error e => rfl

end TreeBuffer

end Fastore.Index
