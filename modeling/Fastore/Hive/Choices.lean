import Fastore.Hive.AttemptRead

/-!
Workers that come and go.

Between two choices of a worker the state of the hive may be refreshed. The
indexes are then made anew, with the places of the user columns, but the place of
the next worker for system columns stays, and may lie behind the last worker.

For user columns every choice is right, since a column has an entry only if
there is a worker for it (`Cache.Reflects`). For system columns a choice is right
if and only if the place is one of the current workers; which one it is depends on
the number of workers at each choice only (`inTurn`).
-/

namespace Fastore.Hive

open Lib List

inductive CacheEvent
  | update (workers : List WorkerState)
  | choose (columnID : ColumnID)

/-- A worker of the state, and one that has the column unless that is a system column. -/
def Serves (current : List WorkerState) (columnID : ColumnID) (podID : PodID) : Prop :=
  ∃ worker ∈ current, worker.podID = podID ∧
    (maxSystemColumnID < columnID → columnID ∈ worker.repositoryStatus.keys)

def noWorker (columnID : ColumnID) : Fault :=
  .thrown s!"No worker is currently available for column ID ({columnID})."

/-- Every choice comes to a worker of the current state or reports that there is none. -/
def Chooses : List WorkerState → Cache → List CacheEvent → Prop
  | _, _, [] => True
  | _, cache, .update workers :: events =>
    Chooses workers (cache.updateHiveStateCache workers) events
  | current, cache, .choose columnID :: events =>
    (∃ podID cache', cache.getWorker columnID = .ok (podID, cache') ∧
      Serves current columnID podID ∧ Chooses current cache' events) ∨
    cache.getWorker columnID = .error (noWorker columnID) ∧ Chooses current cache events

def inTurn : ℕ → ℕ → List CacheEvent → Bool
  | _, _, [] => true
  | next, _, .update workers :: events => inTurn next (workers.map (·.podID)).dedup.length events
  | next, count, .choose columnID :: events =>
    if columnID ≤ maxSystemColumnID then
      next < count && inTurn ((next + 1) % count) count events
    else inTurn next count events

namespace Cache

variable {cache : Cache} {current : List WorkerState}

structure Reflects (cache : Cache) (current : List WorkerState) : Prop where
  known : ∀ p, p ∈ cache.workerStates.keys ↔ p ∈ current.map (·.podID)
  listed : ∀ c map, cache.columnWorkers.get? c = some map → map.pods ≠ []
  serves : ∀ c map, cache.columnWorkers.get? c = some map → ∀ p ∈ map.pods,
    ∃ worker ∈ current, worker.podID = p ∧ c ∈ worker.repositoryStatus.keys

theorem reflects_new (next : ℕ) : Reflects { nextSystemWorker := next } [] :=
  ⟨fun p => by simp [SortedMap.keys, SortedMap.empty], fun c map h => by simp at h,
    fun c map h => by simp at h⟩

/-- A worker that joins is known. -/
theorem Reflects.addWorker (h : cache.Reflects current) (worker : WorkerState) :
    (cache.addWorker worker).Reflects (current ++ [worker]) := by
  have hcolumns : ∀ c map, (cache.addWorker worker).columnWorkers.get? c = some map →
      (c ∈ worker.repositoryStatus.keys ∧
        map.pods = ((cache.columnWorkers.get? c).getD {}).pods ++ [worker.podID]) ∨
      cache.columnWorkers.get? c = some map := by
    intro c map hmap
    rw [Cache.addWorker, SortedMap.get?_foldl_update _ _ worker.repositoryStatus.keys_nodup] at hmap
    split at hmap
    · rename_i hc
      obtain rfl := Option.some.inj hmap
      exact .inl ⟨hc, rfl⟩
    · exact .inr hmap
  refine ⟨fun p => ?_, fun c map hmap => ?_, fun c map hmap p hp => ?_⟩
  · rw [SortedMap.mem_keys, Cache.addWorker, get?_insertNew, map_append, mem_append,
      ← h.known p, SortedMap.mem_keys]
    by_cases hp : p = worker.podID <;> simp [hp]
  · rcases hcolumns c map hmap with ⟨-, hpods⟩ | hold
    · simp [hpods]
    · exact h.listed c map hold
  · rcases hcolumns c map hmap with ⟨hc, hpods⟩ | hold
    · rw [hpods, mem_append] at hp
      rcases hp with hp | hp
      · cases hold : cache.columnWorkers.get? c with
        | none => simp [hold] at hp
        | some old =>
          rw [hold] at hp
          obtain ⟨w, hw, hserves⟩ := h.serves c old hold p hp
          exact ⟨w, mem_append_left _ hw, hserves⟩
      · exact ⟨worker, by simp, (mem_singleton.mp hp).symm, hc⟩
    · obtain ⟨w, hw, hserves⟩ := h.serves c map hold p hp
      exact ⟨w, mem_append_left _ hw, hserves⟩

theorem reflects_update (cache : Cache) (workers : List WorkerState) :
    (cache.updateHiveStateCache workers).Reflects workers := by
  have hfold : ∀ (workers : List WorkerState) {cache : Cache} {current : List WorkerState},
      cache.Reflects current → (workers.foldl Cache.addWorker cache).Reflects (current ++ workers) := by
    intro workers
    induction workers with
    | nil =>
      intro cache current h
      rwa [append_nil]
    | cons worker workers ih =>
      intro cache current h
      have hrest := ih (h.addWorker worker)
      rwa [append_assoc, singleton_append] at hrest
  exact hfold workers (reflects_new cache.nextSystemWorker)

theorem update_nextSystemWorker (cache : Cache) (workers : List WorkerState) :
    (cache.updateHiveStateCache workers).nextSystemWorker = cache.nextSystemWorker :=
  foldl_addWorker_nextSystemWorker workers

theorem Reflects.count (h : cache.Reflects current) :
    cache.workerStates.keys.length = (current.map (·.podID)).dedup.length := by
  refine ((perm_ext_iff_of_nodup cache.workerStates.keys_nodup (nodup_dedup _)).mpr
    fun p => ?_).length_eq
  rw [h.known, mem_dedup]

theorem Reflects.getWorkerIDForColumn (h : cache.Reflects current) (columnID : ColumnID) :
    cache.getWorkerIDForColumn columnID = .error (noWorker columnID) ∨
    ∃ podID cache', cache.getWorkerIDForColumn columnID = .ok (podID, cache') ∧
      (∃ worker ∈ current, worker.podID = podID ∧ columnID ∈ worker.repositoryStatus.keys) ∧
      cache'.Reflects current ∧ cache'.nextSystemWorker = cache.nextSystemWorker := by
  cases hmap : cache.columnWorkers.get? columnID with
  | none =>
    refine .inl ?_
    simp only [Cache.getWorkerIDForColumn, hmap]
    rfl
  | some map =>
    have hlt : (map.next + 1) % map.pods.length < map.pods.length :=
      Nat.mod_lt _ (length_pos_of_ne_nil (h.listed columnID map hmap))
    obtain ⟨podID, hpod⟩ : ∃ podID, map.pods[(map.next + 1) % map.pods.length]? = some podID :=
      ⟨_, getElem?_eq_getElem hlt⟩
    refine .inr ⟨podID, { cache with
        columnWorkers := cache.columnWorkers.insert columnID
          { map with next := (map.next + 1) % map.pods.length } },
      by simp only [Cache.getWorkerIDForColumn, hmap, hpod],
      h.serves columnID map hmap podID (mem_of_getElem? hpod), ⟨h.known, ?_, ?_⟩, rfl⟩
    · exact pods_kept (Q := fun _ pods => pods ≠ []) hmap h.listed
    · exact pods_kept (Q := fun c pods => ∀ p ∈ pods, ∃ worker ∈ current,
        worker.podID = p ∧ c ∈ worker.repositoryStatus.keys) hmap h.serves

theorem Reflects.getWorkerForSystemColumn (h : cache.Reflects current) :
    (cache.nextSystemWorker < (current.map (·.podID)).dedup.length →
      ∃ podID cache', cache.getWorkerForSystemColumn = .ok (podID, cache') ∧
        podID ∈ current.map (·.podID) ∧ cache'.Reflects current ∧
        cache'.nextSystemWorker =
          (cache.nextSystemWorker + 1) % (current.map (·.podID)).dedup.length) ∧
    (¬ cache.nextSystemWorker < (current.map (·.podID)).dedup.length →
      cache.getWorkerForSystemColumn = .error .pastEnd) := by
  rw [← h.count]
  constructor
  · intro hlt
    obtain ⟨podID, hpod⟩ : ∃ podID, cache.workerStates.keys[cache.nextSystemWorker]? = some podID :=
      ⟨_, getElem?_eq_getElem hlt⟩
    refine ⟨podID, { cache with nextSystemWorker := (cache.nextSystemWorker + 1) %
      cache.workerStates.keys.length }, by simp only [Cache.getWorkerForSystemColumn, hpod],
      (h.known podID).mp (mem_of_getElem? hpod), ⟨h.known, h.listed, h.serves⟩, rfl⟩
  · intro hnot
    simp only [Cache.getWorkerForSystemColumn, getElem?_eq_none (not_lt.mp hnot)]

/-- Choices are right while the pointer is below the number of workers. -/
theorem Reflects.chooses_iff_inTurn (h : cache.Reflects current) (events : List CacheEvent) :
    Chooses current cache events ↔
      inTurn cache.nextSystemWorker (current.map (·.podID)).dedup.length events = true := by
  induction events generalizing cache current with
  | nil => simp [Chooses, inTurn]
  | cons event events ih =>
    cases event with
    | update workers =>
      rw [Chooses, inTurn, ih (reflects_update cache workers), update_nextSystemWorker]
    | choose columnID =>
      rw [Chooses, inTurn, Cache.getWorker]
      by_cases hsystem : columnID ≤ maxSystemColumnID
      · rw [if_pos hsystem, if_pos hsystem]
        obtain ⟨hok, herror⟩ := h.getWorkerForSystemColumn
        by_cases hlt : cache.nextSystemWorker < (current.map (·.podID)).dedup.length
        · obtain ⟨podID, cache', hget, hmem, hreflects, hnext⟩ := hok hlt
          obtain ⟨worker, hworker, hpod⟩ := mem_map.mp hmem
          have hserves : Serves current columnID podID :=
            ⟨worker, hworker, hpod, fun hlt => absurd hsystem (not_le.mpr hlt)⟩
          simp [hget, hserves, ih hreflects, hnext, hlt]
        · simp [herror hlt, hlt, noWorker]
      · rw [if_neg hsystem, if_neg hsystem]
        rcases h.getWorkerIDForColumn columnID with hnone |
          ⟨podID, cache', hget, ⟨worker, hworker, hpod, hcolumn⟩, hreflects, hnext⟩
        · simp [hnone, ih h]
        · have hserves : Serves current columnID podID :=
            ⟨worker, hworker, hpod, fun _ => hcolumn⟩
          simp [hget, hserves, ih hreflects, hnext]

end Cache

/-- **The choice of workers** is right in every run if and only if the place of the next
worker is one of the current ones whenever a system column is read. -/
theorem chooses_iff (events : List CacheEvent) : Chooses [] {} events ↔ inTurn 0 0 events = true :=
  (Cache.reflects_new 0).chooses_iff_inTurn events

/-- Two workers serve two reads of system columns; when one of them is gone, the place is
that of the second one. -/
theorem second_worker_gone : ¬ Chooses [] {} [.update [⟨1, .empty⟩, ⟨2, .empty⟩], .choose 0,
    .update [⟨1, .empty⟩], .choose 0] := by
  rw [(Cache.reflects_new 0).chooses_iff_inTurn]
  decide

end Fastore.Hive
