import Fastore.Index.Exact
import Fastore.Index.Walks

/-!
The range requests of the buffers in memory.

Where the value tree is as it should be, a buffer lists its cells (`Lists`), and
`GetRows` does to them what the two ends let it do. What it sets before its
loop is right but for requests that go downwards from the greatest value
(`flags_iff`). An empty interval is answered by an empty list only if the two
ends are the same iterator from the start (`getRows_empty_iff`); so no value may
lie outside of both bounds, and if the search for one of them strays, the search
for the other has to stray as well.
-/

namespace Fastore.Index

open Fastore.Tree Buffer Lib List Function SortedMap

variable {R A X Y : Type} [LinearOrder R] [LinearOrder A]

def IdentityBuffer.getRows (b : IdentityBuffer R) (range : RangeRequest R R) :
    Except Fault (RangeResult R R) :=
  scanRows b.rows (fun e => .ok e.1) range range.rowID

def UniqueInlineBuffer.getRows (b : UniqueInlineBuffer R A) (range : RangeRequest A R) :
    Except Fault (RangeResult A R) := do
  let startKey ← startKeyOf (b.values.count = 0) b.getValue range
  scanRows b.values valueOf range startKey

def UniqueBuffer.getRows (b : UniqueBuffer R A) (range : RangeRequest A R) :
    Except Fault (RangeResult A R) := do
  let startKey ← startKeyOf (b.values.count = 0) b.getValue range
  scanRows b.values valueOf range startKey

def TreeBuffer.getRows (b : TreeBuffer R A) (range : RangeRequest A R) :
    Except Fault (RangeResult A R) := do
  let startKey ← startKeyOf (b.values.count = 0) b.getValue range
  valuesRows b.values b.trees range startKey

/-! ### Flags -/

section Scans

variable {t : BTree A X} {n : ℕ} {m : SortedMap A Y} {same : Option X → Y → Prop}
  {range : RangeRequest A R} {startKey : Option A} {row : A × Option X → Except Fault R}
  {row' : A × Y → R}

/-- What is to be said about the flags of the results of a request. -/
structure FlagsFit (range : RangeRequest A R) (values : Set A)
    (result : RangeResult A R) : Prop where
  limited : result.limited = true → result.eof = false
  right_iff : result.limited = false →
    (result.FlagsRight range values ↔ ¬ range.FromGreatest values)

theorem Shows.scanRows_flags (h : Shows t n m same) (hid : range.rowID = none)
    {result : RangeResult A R} (hok : Index.scanRows t row range none = .ok result) :
    FlagsFit range {a | a ∈ m.keys} result := by
  obtain ⟨s, S, hs, hS, hresult, -, -⟩ := h.setUp range none
  obtain ⟨s', hs', hok⟩ := eq_ok_of_bind hok
  obtain rfl := ok_unique hs hs'
  obtain ⟨⟨startId, result'⟩, hwalk, hok⟩ := eq_ok_of_bind hok
  obtain rfl := Except.ok.inj hok
  -- without a start row the loop leaves the flags alone
  obtain ⟨-, hbof, heof⟩ := walk_invariant (P := fun s => s.1 = none ∧
      s.2.bof = S.result.bof ∧ s.2.eof = S.result.eof) (fun e s s' hP hbody => by
    obtain ⟨rowId, -, hbody⟩ := eq_ok_of_bind hbody
    rw [hP.1, if_neg (by simp)] at hbody
    rw [← Except.ok.inj hbody]
    exact ⟨rfl, hP.2⟩) hwalk ⟨hid, by rw [hresult], by rw [hresult]⟩
  obtain ⟨hlimited, hright⟩ := flagsRight_resetEof hS hbof heof
  exact ⟨hlimited, hright⟩

theorem Shows.exists_entry (h : Shows t n m same) {e : A × Option X} (he : e ∈ t.contents n) :
    ∃ e' ∈ m.entries, e.1 = e'.1 ∧ same e.2 e'.2 := by
  obtain ⟨i, hi, rfl⟩ := getElem_of_mem he
  have hi' : i < m.size := h.size ▸ hi
  exact ⟨_, getElem_mem hi', h.entries.get hi hi'⟩

/-- A walk between two ends one of which has strayed comes to its end without the property
`N` only if it is there from the start. -/
theorem Shows.walk_astray_iff {σ : Type} {begin stop : Iterator} {i j : ℕ} {first last : Prop}
    (h : Shows t n m same) (ascending : Bool) (fuel : ℕ) (N : σ → Prop) (done : σ → Bool)
    (body : A × Option X → σ → Except Fault σ) (s : σ)
    (hbegin : At t n begin i first) (hstop : At t n stop j last) (hsome : first ∨ last) (hs : ¬ N s)
    (hdone : done s = false) (hgrow : ∀ e s s', N s → body e s = .ok s' → N s')
    (hlimit : ∀ e s s', (done s = true → N s) → body e s = .ok s' → done s' = true → N s')
    (hread : first → ∀ e ∈ t.contents n, ∀ s', body e s = .ok s' → N s') :
    (∃ s', walk t ascending stop done body (fuel + 1) begin s = .ok s' ∧ ¬ N s') ↔
      i = j ∧ (first ↔ last) := by
  have hfrom : begin.Astray t n i → first → begin.same stop = false →
      ¬ ∃ s', walk t ascending stop done body (fuel + 1) begin s = .ok s' ∧ ¬ N s' := by
    rintro hastray hfirst hsame ⟨s', hwalk, hnot⟩
    obtain ⟨e, he, s₁, fuel', it, hbody, hrest⟩ := walk_from_astray h.wellFormed hastray hwalk
      (by rw [hsame, hdone]; rfl)
    exact hnot (walk_invariant hgrow hrest (hread hfirst e he s₁ hbody))
  rcases hbegin with ⟨hfirst, hbegin⟩ | ⟨hfirst, hbegin⟩
  · obtain ⟨hlast, hstop⟩ := hstop.resolve_left fun hno => hno.1 (hsome.resolve_left hfirst)
    refine iff_of_false ?_ fun hboth => hfirst (hboth.2.mpr hlast)
    rintro ⟨s', hwalk, hnot⟩
    exact hnot (walk_invariant hlimit hwalk (by simp [hdone])
      (walk_to_astray h.wellFormed hstop hwalk hbegin))
  · rcases hstop with ⟨hlast, hstop⟩ | ⟨hlast, hstop⟩
    · exact iff_of_false (hfrom hbegin hfirst (hbegin.same_stands hstop h.wellFormed).1)
        fun hboth => hlast (hboth.2.mp hfirst)
    · rw [and_iff_left (iff_of_true hfirst hlast), ← hbegin.same_iff hstop h.wellFormed]
      cases hsame : begin.same stop with
      | true => exact iff_of_true ⟨s, by rw [walk, hsame, Bool.true_or, if_pos rfl], hs⟩ rfl
      | false => exact iff_of_false (hfrom hbegin hfirst hsame) (by simp)

end Scans

namespace TreeBuffer

variable {values : BTree A TreeId} {trees : TreeId → Option (BTree R R)} {n : ℕ}
  {m : SortedMap A (SortedMap R Unit)} {range : RangeRequest A R} {startKey : Option A}

omit [LinearOrder A] in
theorem valuesBody_grows {e : A × Option TreeId} {s s' : Option R × ℕ × RangeResult A R}
    (hbody : valuesBody trees range e s = .ok s') :
    (s.2.2.valueRowsList ≠ [] → s'.2.2.valueRowsList ≠ []) ∧
    ((s.2.2.limited = true → s.2.2.valueRowsList ≠ []) →
      s'.2.2.limited = true → s'.2.2.valueRowsList ≠ []) := by
  obtain ⟨x, -, hbody⟩ := eq_ok_of_bind hbody
  obtain ⟨rowIdTree, -, hbody⟩ := eq_ok_of_bind hbody
  obtain ⟨first, -, hbody⟩ := eq_ok_of_bind hbody
  obtain ⟨last, -, hbody⟩ := eq_ok_of_bind hbody
  obtain ⟨idStart, -, hbody⟩ := eq_ok_of_bind hbody
  obtain ⟨⟨rowIds, num, limited⟩, hwalk, hbody⟩ := eq_ok_of_bind hbody
  -- the limit is reached by a row that is read
  have hlimit := walk_invariant (P := fun ids => ids.2.2 = true → s.2.2.limited = true ∨ ids.1 ≠ [])
    (fun e ids ids' _ hids _ => by
      rw [← Except.ok.inj hids]
      exact .inr (by simp)) hwalk .inl
  rw [← Except.ok.inj hbody]
  cases rowIds with
  | nil => exact ⟨by simp, fun hs hlimited => by
    simpa using hs ((hlimit hlimited).resolve_right (by simp))⟩
  | cons r rowIds => simp

omit [LinearOrder A] in
theorem valuesBody_reads {e : A × Option TreeId} {e' : A × SortedMap R Unit} (hkey : e.1 = e'.1)
    (h : RowsAt trees e.2 e'.2) (hsize : e'.2.size ≠ 0) {num : ℕ} {result : RangeResult A R}
    (hlimited : result.limited = false) {s' : Option R × ℕ × RangeResult A R}
    (hbody : valuesBody trees range e (none, num, result) = .ok s') :
    s'.2.2.valueRowsList ≠ [] := by
  obtain ⟨t, n, first, last, hrows, hbegins, hends, hbody'⟩ := valuesBody_eq hkey h range
  rw [hbody'] at hbody
  obtain ⟨idStart, hstart, hbody⟩ := eq_ok_of_bind hbody
  obtain ⟨⟨rowIds, num', limited⟩, hwalk, hbody⟩ := eq_ok_of_bind hbody
  have hidEnd : Iterator.Stands t n (if range.ascending then last else first)
      (if range.ascending then e'.2.size else 0) := by
    split
    · exact hends
    · exact hbegins
  obtain ⟨i, hi, hstands⟩ := (agree_idStartAt hrows hbegins hends none).eq_ok hstart
  obtain ⟨_, hloop, rfl⟩ := (agree_rowsLoop hrows hidEnd _ hstands [] num result.limited).eq_ok hwalk
  rw [← Except.ok.inj hbody]
  cases rowIds with
  | cons r rowIds => simp
  | nil =>
    rw [hlimited] at hloop
    have hend := (Buffer.TreeBuffer.rowsLoop_eq_nil hloop).1
    rw [← Except.ok.inj hi] at hend
    cases hasc : range.ascending <;> simp [hasc] at hend <;> omega

/-- An empty list is returned iff it is under the contract and the two ends stray both or
neither of them. -/
theorem valuesRows_empties_iff (h : Shows values n m (RowsAt trees))
    (hnonempty : ∀ a T, m.get? a = some T → T.size ≠ 0)
    (hstart : StraysAt values (firstKey range startKey) → range.rowID = none) :
    Empties (valuesRows values trees range startKey) ↔
      Empties (Buffer.TreeBuffer.valuesRows m range startKey) ∧
        (StraysAt values (firstKey range startKey) ↔ StraysAt values (lastKey range)) := by
  by_cases hsome : StraysAt values (firstKey range startKey) ∨ StraysAt values (lastKey range)
  · obtain ⟨s, S, hs, hS, hresult, hbegin, hstop⟩ := h.setUp range startKey
    obtain ⟨S', hS', hnil, hlimited, -⟩ := setUp_ends m range startKey
    obtain rfl := ok_unique hS hS'
    have hwalk := h.walk_astray_iff range.ascending values.count.toNat
      (fun s => s.2.2.valueRowsList ≠ []) (fun s => s.2.2.limited)
      (valuesBody trees range) (range.rowID, 0, s.result) hbegin hstop hsome
      (by simp [hresult, hnil]) (by rw [hresult, hlimited])
      (fun e s s' hN hbody => (valuesBody_grows hbody).1 hN)
      (fun e s s' hN hbody => (valuesBody_grows hbody).2 hN) fun hfirst e he s' hbody => by
        obtain ⟨e', he', hkey, hvalue⟩ := h.exists_entry he
        rw [hstart hfirst] at hbody
        exact valuesBody_reads hkey hvalue (hnonempty e'.1 e'.2 (get?_eq_some.mpr he'))
          (by rw [hresult, hlimited]) hbody
    have hheap : valuesRows values trees range startKey = (do
        let s' ← walk values range.ascending s.stop (fun s => s.2.2.limited)
          (valuesBody trees range) (values.count.toNat + 1) s.begin (range.rowID, 0, s.result)
        .ok s'.2.2.resetEof) := by
      simp only [valuesRows, hs, bind, Except.bind]
    have hmap : Buffer.TreeBuffer.valuesRows m range startKey = (do
        let result ←
          Buffer.TreeBuffer.valuesLoop m range S.stop (m.size + 1) S.begin range.rowID 0 S.result
        .ok result.resetEof) := by
      simp only [Buffer.TreeBuffer.valuesRows, hS, bind, Except.bind]
    have hempties : Empties (valuesRows values trees range startKey) ↔ S.begin = S.stop ∧
        (StraysAt values (firstKey range startKey) ↔ StraysAt values (lastKey range)) := by
      rw [← hwalk, hheap]
      constructor
      · rintro ⟨result, hok, hempty⟩
        obtain ⟨s', hs', rfl⟩ := eq_ok_of_map hok
        exact ⟨s', hs', by simpa using hempty⟩
      · rintro ⟨s', hs', hempty⟩
        exact ⟨s'.2.2.resetEof, by rw [hs']; rfl, by simpa using hempty⟩
    rw [hempties, hmap, empties_resetEof]
    refine and_congr_left fun hboth => ?_
    rw [hstart (hsome.elim id hboth.mpr),
      Buffer.TreeBuffer.valuesLoop_none_empties_iff hnonempty hlimited hnil]
  · push Not at hsome
    rw [agree_valuesRows h hsome.1 hsome.2, and_iff_left (iff_of_false hsome.1 hsome.2)]

end TreeBuffer

/-! ### The cells of the value tree -/

def valuesOf (M : R → Option A) : Set A := {a | ∃ r, M r = some a}

/-- The tree has the rows of the cells `M`, each with itself. -/
def IdentityBuffer.Lists (b : IdentityBuffer R) (M : R → Option R) : Prop :=
  ∃ n, b.rows.WellFormed n ∧ ∀ r a, M r = some a ↔ a = r ∧ r ∈ (b.rows.contents n).map Prod.fst

/-- The tree has the values of the cells `M`, each with its row. -/
def ListsRows (values : BTree A R) (M : R → Option A) : Prop :=
  ∃ n, values.WellFormed n ∧ values.keyOnly = false ∧
    ∀ a r, (a, some r) ∈ values.contents n ↔ M r = some a

/-- The value tree has the values of the cells `M`, each with a tree of its rows. -/
def TreeBuffer.Lists (b : TreeBuffer R A) (M : R → Option A) : Prop :=
  ∃ n, ∃ S : TreeId → Set R, b.values.WellFormed n ∧ b.values.keyOnly = false ∧
    (∀ a x, (a, some x) ∈ b.values.contents n → a ∈ valuesOf M ∧ (∀ r, r ∈ S x ↔ M r = some a) ∧
      ∃ t k, b.trees x = some t ∧ t.WellFormed k ∧
        ∀ r, r ∈ (t.contents k).map Prod.fst ↔ r ∈ S x) ∧
    ∀ a ∈ valuesOf M, ∃ x, (a, some x) ∈ b.values.contents n

theorem UniqueBuffer.Exact.lists {b : UniqueBuffer R A} {M : R → Option A} (h : b.Exact M) :
    ListsRows b.values M := by
  obtain ⟨n, m, ρ, f, h⟩ := h
  refine ⟨m, h.valueTree.wellFormed, h.valueTree.keyOnly, fun a r => ?_⟩
  rw [h.valueTree.get]
  constructor
  · exact fun ha => h.label ha rfl
  · intro hr
    obtain ⟨x, hx, rfl⟩ := h.owned hr
    exact hx

theorem TreeBuffer.Exact.lists {b : TreeBuffer R A} {M : R → Option A} (h : b.Exact M) :
    b.Lists M := by
  obtain ⟨n, m, ρ, f, S, h, hp⟩ := h
  refine ⟨m, fun x => {r | r ∈ S x}, h.valueTree.wellFormed, h.valueTree.keyOnly,
    fun a x hx => ?_, ?_⟩
  · have hx := (h.valueTree.get a x).mp hx
    obtain ⟨t, k, ht, hkey⟩ := hp.tree a x hx
    obtain ⟨r, hr⟩ := hp.nonempty a x hx
    refine ⟨⟨r, h.label hx hr⟩, fun r' => ⟨fun hr' => h.label hx hr', fun hr' => ?_⟩,
      t, k, ht, hkey.wellFormed, hkey.keys⟩
    obtain ⟨y, hy, ho⟩ := h.owned hr'
    obtain rfl := some_unique hx hy
    exact ho
  · rintro a ⟨r, hr⟩
    obtain ⟨x, hx, -⟩ := h.owned hr
    exact ⟨x, (h.valueTree.get a x).mpr hx⟩

section Cells

variable {t : BTree A X} {n : ℕ} {m : SortedMap A Y} {same : Option X → Y → Prop}
  {M : R → Option A} {range : RangeRequest A R} {getValue : R → Except Fault (Option A)}

theorem Shows.of_mem_entries (h : Shows t n m same) {e' : A × Y} (he : e' ∈ m.entries) :
    ∃ e ∈ t.contents n, e.1 = e'.1 ∧ same e.2 e'.2 := by
  obtain ⟨i, hi, rfl⟩ := getElem_of_mem he
  have hi' : i < (t.contents n).length := h.size.symm ▸ hi
  exact ⟨_, getElem_mem hi', h.entries.get hi' hi⟩

theorem Shows.count_eq_zero (h : Shows t n m same) : (t.count = 0) = (m.size = 0) := by
  rw [h.wellFormed.count, h.size, Int.natCast_eq_zero]

theorem Shows.not_strays (h : Shows t n m same) {key : A} (hkey : key ∈ m.keys) :
    ¬ StraysAt t (some key) := by
  rintro ⟨k, hk, hstrays⟩
  obtain rfl := Option.some.inj hk
  obtain ⟨it, isMatch, -, rfl, -, hnot⟩ := h.findNearest key
  obtain ⟨y, hy⟩ := SortedMap.mem_keys.mp hkey
  rw [hy] at hnot
  exact Bool.noConfusion (hnot hstrays)

variable {values : BTree A R}

omit [LinearOrder R] in
theorem ListsRows.shows (h : ListsRows values M) :
    ∃ n m, Shows values n m (fun x r => x = some r) ∧
      (∀ e : A × R, e ∈ m.entries ↔ M e.2 = some e.1) ∧ {a | a ∈ m.keys} = valuesOf M := by
  obtain ⟨n, hwf, hko, hcells⟩ := h
  obtain ⟨m, hm⟩ := exists_shows (fun x (r : R) => x = some r) hwf fun e he =>
    Option.isSome_iff_exists.mp (hwf.value_isSome hko he)
  have hentries : ∀ e : A × R, e ∈ m.entries ↔ M e.2 = some e.1 := by
    refine fun e => ⟨fun he => ?_, fun he => ?_⟩
    · obtain ⟨⟨a, x⟩, hmem, rfl, rfl⟩ := hm.of_mem_entries he
      exact (hcells e.1 e.2).mp hmem
    · obtain ⟨e', he', hkey, hvalue⟩ := hm.exists_entry ((hcells e.1 e.2).mpr he)
      rwa [show e = e' from Prod.ext hkey (Option.some.inj hvalue)]
  refine ⟨n, m, hm, hentries, ?_⟩
  ext a
  simp [valuesOf, SortedMap.keys, hentries]

theorem IdentityBuffer.Lists.shows {b : IdentityBuffer R} {M : R → Option R} (h : b.Lists M) :
    ∃ n m, Shows b.rows n m (fun _ (_ : Unit) => True) ∧ {a | a ∈ m.keys} = valuesOf M := by
  obtain ⟨n, hwf, hcells⟩ := h
  obtain ⟨m, hm⟩ := exists_shows (fun _ (_ : Unit) => True) hwf
    fun e he => ⟨(), trivial⟩
  refine ⟨n, m, hm, Set.ext fun a => ?_⟩
  simp only [valuesOf, Set.mem_ofPred_eq, hcells, ← hm.keys]
  exact ⟨fun ha => ⟨a, rfl, ha⟩, fun ⟨r, hr, ha⟩ => hr ▸ ha⟩

theorem TreeBuffer.Lists.shows {b : TreeBuffer R A} (h : b.Lists M) :
    ∃ n m, Shows b.values n m (TreeBuffer.RowsAt b.trees) ∧
      (∀ a T, m.get? a = some T → T.size ≠ 0 ∧ ∀ r, r ∈ T.keys ↔ M r = some a) ∧
      {a | a ∈ m.keys} = valuesOf M := by
  obtain ⟨n, S, hwf, hko, htrees, hcells⟩ := h
  obtain ⟨m, hm⟩ := exists_shows
    (fun x (T : SortedMap R Unit) =>
      TreeBuffer.RowsAt b.trees x T ∧ ∀ id ∈ x, ∀ r, r ∈ T.keys ↔ r ∈ S id)
    hwf fun e he => by
      obtain ⟨x, hx⟩ := Option.isSome_iff_exists.mp (hwf.value_isSome hko he)
      obtain ⟨-, -, t, k, ht, htwf, hkeys⟩ := htrees e.1 x (hx ▸ he)
      obtain ⟨T, hT⟩ := exists_shows (fun _ (_ : Unit) => True) htwf
        fun _ _ => ⟨(), trivial⟩
      refine ⟨T, ⟨x, t, k, hx, ht, hT⟩, fun id hid r => ?_⟩
      obtain rfl := some_unique hx hid
      rw [← hkeys, hT.keys]
  refine ⟨n, m, ⟨hm.wellFormed, hm.entries.imp fun _ _ h => ⟨h.1, h.2.1⟩⟩, fun a T hT => ?_,
    Set.ext fun a => ⟨fun ha => ?_, fun ha => ?_⟩⟩
  · obtain ⟨⟨a', x⟩, he, rfl, ⟨id, t, k, rfl, -⟩, hrows⟩ :=
      hm.of_mem_entries (get?_eq_some.mp hT)
    obtain ⟨⟨r, hr⟩, hS, -⟩ := htrees _ id he
    have hkeys : ∀ r, r ∈ T.keys ↔ M r = some a' := fun r => (hrows id rfl r).trans (hS r)
    refine ⟨fun hsize => ?_, hkeys⟩
    exact get?_eq_none.mp (size_eq_zero.mp hsize r) ((hkeys r).mpr hr)
  · obtain ⟨T, hT⟩ := SortedMap.mem_keys.mp ha
    obtain ⟨⟨a', x⟩, he, rfl, ⟨id, t, k, rfl, -⟩, -⟩ :=
      hm.of_mem_entries (get?_eq_some.mp hT)
    exact (htrees _ id he).1
  · obtain ⟨x, hx⟩ := hcells a ha
    obtain ⟨e', he', rfl, -⟩ := hm.exists_entry hx
    exact mem_map_of_mem he'

/-- Without a start row, what a buffer answers: its flags fit the values of the cells, and there
is an answer if the bounds are in order and neither search strays. -/
structure Answers (t : BTree A X) (range : RangeRequest A R) (values : Set A)
    (answer : Except Fault (RangeResult A R)) : Prop where
  fits : ∀ result, answer = .ok result → FlagsFit range values result
  returns : range.Proper → ¬ StraysAt t (firstKey range none) → ¬ StraysAt t (lastKey range) →
    ∃ result, answer = .ok result

theorem ListsRows.answers (h : ListsRows values M)
    (hid : range.rowID = none) : Answers values range (valuesOf M) (do
      let startKey ← startKeyOf (values.count = 0) getValue range
      scanRows values valueOf range startKey) := by
  obtain ⟨n, m, hm, -, hvalues⟩ := h.shows
  simp only [startKeyOf_none hid, bind, Except.bind]
  refine ⟨fun result hok => hvalues ▸ hm.scanRows_flags hid hok, fun hproper hfirst hlast => ?_⟩
  rw [hm.scanRows (fun e e' _ hvalue => by rw [valueOf, hvalue]) hfirst hlast]
  exact scanRows_ok m _ hid hproper

end Cells

end Fastore.Index
