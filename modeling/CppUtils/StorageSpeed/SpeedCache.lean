import CppUtils.Lib.TransitionSystem
import Mathlib

/-!
# The cache of `storageSpeedForPath`

Any number of threads ask for the speed of paths while the system changes. The volume is looked up before
the mutex is taken, and queried under it, at most once for as long as the process lives.
-/

namespace CppUtils

inductive StorageSpeed
  | fastRandomAccess
  | slowOrUnknown
  deriving DecidableEq, Repr

namespace StorageSpeed

/-- What a platform brings. An `Observation` is what one function sees of the system while it runs. -/
structure VolumePlatform where
  Path : Type
  VolumeKey : Type
  Observation : Type
  /-- `VolumeKey::operator==`. -/
  same : VolumeKey → VolumeKey → Bool
  volumeKeyForPath : Observation → Path → Option VolumeKey
  queryVolumeSpeed : Observation → VolumeKey → StorageSpeed
  same_equivalence : Equivalence fun key key' => same key key' = true

variable {P : VolumePlatform} {ι : Type}

inductive SpeedCall (P : VolumePlatform)
  | idle
  | volumeKeyForPath (path : P.Path)
  | lock (seen : P.Observation) (path : P.Path) (key : P.VolumeKey)

/-- A volume was queried, with what the query saw; or a call returned, with what its lookup saw. It had no
key if none was found for its path. -/
inductive SpeedEvent (P : VolumePlatform)
  | queried (seen : P.Observation) (key : P.VolumeKey) (speed : StorageSpeed)
  | returned (seen : P.Observation) (path : P.Path) (key : Option P.VolumeKey) (speed : StorageSpeed)

/-- The cache, the threads, and what happened so far. -/
structure SpeedState (P : VolumePlatform) (ι : Type) where
  cachedVolumeSpeeds : List (P.VolumeKey × StorageSpeed)
  calls : ι → SpeedCall P
  events : List (SpeedEvent P)

namespace SpeedState

def initial (P : VolumePlatform) (ι : Type) : SpeedState P ι := ⟨[], fun _ => .idle, []⟩

/-- `std::find_if` over the cache. -/
def findCached (cached : List (P.VolumeKey × StorageSpeed)) (key : P.VolumeKey) :
    Option (P.VolumeKey × StorageSpeed) :=
  cached.find? fun entry => P.same entry.1 key

/-- The block under `cacheMutex`; a query sees the system as it is `now`. -/
def lookUp [DecidableEq ι] (s : SpeedState P ι) (t : ι) (now seen : P.Observation) (path : P.Path)
    (key : P.VolumeKey) : SpeedState P ι :=
  match findCached s.cachedVolumeSpeeds key with
  | some entry =>
    { s with
      calls := Function.update s.calls t .idle
      events := s.events ++ [.returned seen path (some key) entry.2] }
  | none =>
    let speed := P.queryVolumeSpeed now key
    { cachedVolumeSpeeds := s.cachedVolumeSpeeds ++ [(key, speed)]
      calls := Function.update s.calls t .idle
      events := s.events ++ [.queried now key speed] ++ [.returned seen path (some key) speed] }

end SpeedState

open SpeedState

inductive SpeedStep (P : VolumePlatform) (ι : Type) [DecidableEq ι] : SpeedState P ι → SpeedState P ι → Prop
  | call {s : SpeedState P ι} {t : ι} (path : P.Path) (hidle : s.calls t = .idle) :
      SpeedStep P ι s { s with calls := Function.update s.calls t (.volumeKeyForPath path) }
  | keyFound {s : SpeedState P ι} {t : ι} {path : P.Path} {key : P.VolumeKey} (seen : P.Observation)
      (hcall : s.calls t = .volumeKeyForPath path) (hkey : P.volumeKeyForPath seen path = some key) :
      SpeedStep P ι s { s with calls := Function.update s.calls t (.lock seen path key) }
  | noKey {s : SpeedState P ι} {t : ι} {path : P.Path} (seen : P.Observation)
      (hcall : s.calls t = .volumeKeyForPath path) (hkey : P.volumeKeyForPath seen path = none) :
      SpeedStep P ι s { s with
        calls := Function.update s.calls t .idle
        events := s.events ++ [.returned seen path none .slowOrUnknown] }
  | lookUp {s : SpeedState P ι} {t : ι} {seen : P.Observation} {path : P.Path} {key : P.VolumeKey}
      (now : P.Observation) (hcall : s.calls t = .lock seen path key) :
      SpeedStep P ι s (s.lookUp t now seen path key)

def speedSystem (P : VolumePlatform) (ι : Type) [DecidableEq ι] : TransitionSystem (SpeedState P ι) where
  Init s := s = SpeedState.initial P ι
  Step := SpeedStep P ι

/-! ### What the cache records -/

/-- The query that an event is, with its answer. -/
def SpeedEvent.query? : SpeedEvent P → Option (P.VolumeKey × StorageSpeed)
  | .queried _ key speed => some (key, speed)
  | .returned _ _ _ _ => none

/-- What an event records is what its observation shows. -/
def SpeedEvent.Observed : SpeedEvent P → Prop
  | .queried seen key speed => P.queryVolumeSpeed seen key = speed
  | .returned seen path key _ => P.volumeKeyForPath seen path = key

namespace SpeedState

def queries (s : SpeedState P ι) : List (P.VolumeKey × StorageSpeed) := s.events.filterMap SpeedEvent.query?

/-- An answer comes from the query of its volume, or is the one for paths without a volume. -/
def Justifies (P : VolumePlatform) (queries : List (P.VolumeKey × StorageSpeed)) : SpeedEvent P → Prop
  | .queried _ _ _ => True
  | .returned _ _ none speed => speed = .slowOrUnknown
  | .returned _ _ (some key) speed => ∃ query ∈ queries, P.same query.1 key = true ∧ query.2 = speed

/-- A thread that waits for the mutex has the key that it saw for its path. -/
def CallKnown (P : VolumePlatform) : SpeedCall P → Prop
  | .lock seen path key => P.volumeKeyForPath seen path = some key
  | _ => True

structure Recorded (s : SpeedState P ι) : Prop where
  cached_eq : s.cachedVolumeSpeeds = s.queries
  once : s.queries.Pairwise fun a b => P.same a.1 b.1 = false
  observed : ∀ event ∈ s.events, event.Observed
  justified : ∀ event ∈ s.events, Justifies P s.queries event
  calls : ∀ t, CallKnown P (s.calls t)

variable {s s' : SpeedState P ι}

theorem Justifies.mono {queries queries' : List (P.VolumeKey × StorageSpeed)} (hle : queries ⊆ queries')
    {event : SpeedEvent P} (h : Justifies P queries event) : Justifies P queries' event := by
  cases event with
  | queried => trivial
  | returned seen path key speed =>
    cases key with
    | none => exact h
    | some key =>
      obtain ⟨query, hmem, hquery⟩ := h
      exact ⟨query, hle hmem, hquery⟩

theorem callKnown_update [DecidableEq ι] {calls : ι → SpeedCall P} (h : ∀ t, CallKnown P (calls t)) {call : SpeedCall P}
    (hcall : CallKnown P call) (t u : ι) : CallKnown P (Function.update calls t call u) := by
  rw [Function.update_apply]
  split
  · exact hcall
  · exact h u

theorem Recorded.calling [DecidableEq ι] (h : s.Recorded) (call : SpeedCall P) (hcall : CallKnown P call) (t : ι) :
    Recorded { s with calls := Function.update s.calls t call } :=
  { h with calls := callKnown_update h.calls hcall t }

theorem Recorded.returned (h : s.Recorded) {seen : P.Observation} {path : P.Path}
    {key : Option P.VolumeKey} {speed : StorageSpeed} (hseen : P.volumeKeyForPath seen path = key)
    (hanswer : Justifies P s.queries (.returned seen path key speed)) :
    Recorded { s with events := s.events ++ [.returned seen path key speed] } := by
  have hqueries : (s.events ++ [SpeedEvent.returned seen path key speed]).filterMap SpeedEvent.query? =
      s.queries := by
    rw [List.filterMap_append]
    exact List.append_nil _
  refine ⟨h.cached_eq.trans hqueries.symm, ?_, ?_, ?_, h.calls⟩
  · rw [queries, hqueries]
    exact h.once
  · intro event hevent
    rcases List.mem_append.mp hevent with hevent | hevent
    · exact h.observed event hevent
    · rw [List.mem_singleton.mp hevent]
      exact hseen
  · intro event hevent
    rw [queries, hqueries]
    rcases List.mem_append.mp hevent with hevent | hevent
    · exact h.justified event hevent
    · rw [List.mem_singleton.mp hevent]
      exact hanswer

theorem Recorded.queried (h : s.Recorded) {key : P.VolumeKey} (now : P.Observation)
    (hnew : ∀ query ∈ s.queries, P.same query.1 key = false) :
    Recorded { s with
      cachedVolumeSpeeds := s.cachedVolumeSpeeds ++ [(key, P.queryVolumeSpeed now key)]
      events := s.events ++ [.queried now key (P.queryVolumeSpeed now key)] } := by
  have hqueries : (s.events ++ [SpeedEvent.queried now key (P.queryVolumeSpeed now key)]).filterMap
      SpeedEvent.query? = s.queries ++ [(key, P.queryVolumeSpeed now key)] := by
    rw [List.filterMap_append]
    rfl
  refine ⟨?_, ?_, ?_, ?_, h.calls⟩
  · rw [queries, hqueries, h.cached_eq]
  · rw [queries, hqueries]
    refine List.pairwise_append.mpr ⟨h.once, List.pairwise_singleton _ _, fun query hquery last hlast => ?_⟩
    rw [List.mem_singleton.mp hlast]
    exact hnew query hquery
  · intro event hevent
    rcases List.mem_append.mp hevent with hevent | hevent
    · exact h.observed event hevent
    · rw [List.mem_singleton.mp hevent]
      exact rfl
  · intro event hevent
    rw [queries, hqueries]
    rcases List.mem_append.mp hevent with hevent | hevent
    · exact (h.justified event hevent).mono (List.subset_append_left _ _)
    · rw [List.mem_singleton.mp hevent]
      trivial

theorem Recorded.exists_queried (h : s.Recorded) {seen : P.Observation} {path : P.Path}
    {key : P.VolumeKey} {speed : StorageSpeed} (hevent : .returned seen path (some key) speed ∈ s.events) :
    ∃ now key', .queried now key' speed ∈ s.events ∧ P.same key' key = true ∧
      P.queryVolumeSpeed now key' = speed := by
  obtain ⟨query, hquery, hsame, rfl⟩ := h.justified _ hevent
  obtain ⟨event, hmem, hevent'⟩ := List.mem_filterMap.mp hquery
  cases event with
  | returned => cases hevent'
  | queried now key' speed' =>
    cases hevent'
    exact ⟨now, key', hmem, hsame, h.observed _ hmem⟩

variable [DecidableEq ι]

theorem Recorded.lookUp (h : s.Recorded) {t : ι} {seen : P.Observation} {path : P.Path} {key : P.VolumeKey}
    (now : P.Observation) (hcall : s.calls t = .lock seen path key) :
    (s.lookUp t now seen path key).Recorded := by
  have hseen : P.volumeKeyForPath seen path = some key := by
    have hcalls := h.calls t
    rwa [hcall] at hcalls
  unfold SpeedState.lookUp
  split
  · rename_i entry hfound
    have hsame : P.same entry.1 key = true := by
      rw [findCached] at hfound
      simpa using List.find?_some hfound
    have hanswer : Justifies P s.queries (.returned seen path (some key) entry.2) :=
      ⟨entry, h.cached_eq ▸ List.mem_of_find?_eq_some hfound, hsame, rfl⟩
    exact (h.calling .idle trivial t).returned hseen hanswer
  · rename_i hnone
    have hnew : ∀ query ∈ s.queries, P.same query.1 key = false := fun query hquery => by
      have hmiss := List.find?_eq_none.mp hnone query (h.cached_eq ▸ hquery)
      simpa using hmiss
    refine ((h.calling .idle trivial t).queried now hnew).returned hseen ?_
    refine ⟨(key, P.queryVolumeSpeed now key), ?_, P.same_equivalence.refl key, rfl⟩
    exact List.mem_filterMap.mpr ⟨_, List.mem_append_right _ (List.mem_singleton_self _), rfl⟩

theorem Recorded.step (h : s.Recorded) (hstep : (speedSystem P ι).Step s s') : s'.Recorded := by
  cases hstep with
  | call path => exact h.calling (.volumeKeyForPath path) trivial _
  | @keyFound t path key seen hcall hkey => exact h.calling (.lock seen path key) hkey t
  | noKey seen hcall hkey => exact (h.calling .idle trivial _).returned hkey rfl
  | lookUp now hcall => exact h.lookUp now hcall

theorem recorded (hreach : (speedSystem P ι).Reachable s) : s.Recorded := by
  refine TransitionSystem.Reachable.invariant Recorded ?_ (fun _ _ _ hI hstep => hI.step hstep) hreach
  rintro s rfl
  exact ⟨rfl, .nil, by simp [initial], by simp [initial], fun _ => trivial⟩

end SpeedState

/-- A call that no other comes between, when its volume has not been queried yet. -/
theorem exists_firstAnswer [DecidableEq ι] {s : SpeedState P ι} {t : ι} (hidle : s.calls t = .idle)
    (seen : P.Observation) (path : P.Path) {key : P.VolumeKey}
    (hkey : P.volumeKeyForPath seen path = some key) (hnew : findCached s.cachedVolumeSpeeds key = none) :
    ∃ s', (speedSystem P ι).Steps s s' ∧ s'.calls t = .idle ∧
      s'.cachedVolumeSpeeds = s.cachedVolumeSpeeds ++ [(key, P.queryVolumeSpeed seen key)] ∧
      s'.events = s.events ++ [.queried seen key (P.queryVolumeSpeed seen key)] ++
        [.returned seen path (some key) (P.queryVolumeSpeed seen key)] := by
  have hsteps := Relation.ReflTransGen.head (SpeedStep.call path hidle) <| .head
    (.keyFound seen (Function.update_self ..) hkey) <| .single (.lookUp seen (Function.update_self ..))
  refine ⟨_, hsteps, ?_⟩
  rw [SpeedState.lookUp]
  simp [hnew]

theorem exists_laterAnswer [DecidableEq ι] {s : SpeedState P ι} {t : ι} (hidle : s.calls t = .idle)
    (seen : P.Observation) (path : P.Path) {key : P.VolumeKey}
    (hkey : P.volumeKeyForPath seen path = some key) {entry : P.VolumeKey × StorageSpeed}
    (hfound : findCached s.cachedVolumeSpeeds key = some entry) :
    ∃ s', (speedSystem P ι).Steps s s' ∧ s'.calls t = .idle ∧
      s'.events = s.events ++ [.returned seen path (some key) entry.2] := by
  have hsteps := Relation.ReflTransGen.head (SpeedStep.call path hidle) <| .head
    (.keyFound seen (Function.update_self ..) hkey) <| .single (.lookUp seen (Function.update_self ..))
  refine ⟨_, hsteps, ?_⟩
  rw [SpeedState.lookUp]
  simp [hfound]

/-- However the calls interleave and the system changes, a volume is queried at most once, and all answers
for its paths are that query's; a path without a volume counts as slow. So the speed of a volume never
changes while the process lives. -/
theorem storageSpeedForPath_isStable [DecidableEq ι] {s : SpeedState P ι} (hreach : (speedSystem P ι).Reachable s) :
    (s.queries.Pairwise fun a b => P.same a.1 b.1 = false) ∧
      (∀ seen path speed, .returned seen path none speed ∈ s.events →
        P.volumeKeyForPath seen path = none ∧ speed = .slowOrUnknown) ∧
      (∀ seen path key speed, .returned seen path (some key) speed ∈ s.events →
        P.volumeKeyForPath seen path = some key ∧
          ∃ now key', .queried now key' speed ∈ s.events ∧ P.same key' key = true ∧
            P.queryVolumeSpeed now key' = speed) ∧
      ∀ seen path key speed seen' path' key' speed', .returned seen path (some key) speed ∈ s.events →
        .returned seen' path' (some key') speed' ∈ s.events → P.same key key' = true → speed = speed' := by
  have h := SpeedState.recorded hreach
  refine ⟨h.once, fun seen path speed hevent => ⟨h.observed _ hevent, h.justified _ hevent⟩,
    fun seen path key speed hevent => ⟨h.observed _ hevent, h.exists_queried hevent⟩, ?_⟩
  intro seen path key speed seen' path' key' speed' hevent hevent' hsame
  obtain ⟨query, hquery, hkey, rfl⟩ := h.justified _ hevent
  obtain ⟨query', hquery', hkey', rfl⟩ := h.justified _ hevent'
  -- Both queries are of the one volume, so they are one query.
  have hvolume : P.same query.1 query'.1 = true :=
    P.same_equivalence.trans (P.same_equivalence.trans hkey hsame) (P.same_equivalence.symm hkey')
  by_contra hne
  have hdistinct : query ≠ query' := fun heq => hne (heq ▸ rfl)
  have hsymm : Std.Symm fun a b : P.VolumeKey × StorageSpeed => P.same a.1 b.1 = false := ⟨fun a b hab => by
    rw [Bool.eq_false_iff] at hab ⊢
    exact fun hba => hab (P.same_equivalence.symm hba)⟩
  rw [h.once.forall hquery hquery' hdistinct] at hvolume
  cases hvolume

theorem decide_eq_equivalence : Equivalence fun key key' : ℕ => decide (key = key') = true := by
  simpa using eq_equivalence

/-- Paths are the numbers of their volumes; the system shows whether the disk rotates. -/
def numberedPlatform : VolumePlatform where
  Path := ℕ
  VolumeKey := ℕ
  Observation := Bool
  same key key' := decide (key = key')
  volumeKeyForPath _ path := some path
  queryVolumeSpeed rotates _ := if rotates = true then .slowOrUnknown else .fastRandomAccess
  same_equivalence := decide_eq_equivalence

/-- The disk is asked for again when it has been replaced by one that rotates. -/
theorem storageSpeedForPath_isStable_askedTwice : ∃ s : SpeedState numberedPlatform Unit,
    s.events = [.queried false (7 : ℕ) .fastRandomAccess,
        .returned false (7 : ℕ) (some (7 : ℕ)) .fastRandomAccess,
        .returned true (7 : ℕ) (some (7 : ℕ)) .fastRandomAccess] ∧
      ∀ seen speed, .returned seen (7 : ℕ) (some (7 : ℕ)) speed ∈ s.events → speed = .fastRandomAccess := by
  obtain ⟨s, hsteps, hidle, hcached, hevents⟩ := exists_firstAnswer (t := ())
    (s := SpeedState.initial numberedPlatform Unit) rfl false (7 : ℕ) rfl rfl
  obtain ⟨s', hsteps', -, hevents'⟩ := exists_laterAnswer hidle true (7 : ℕ) rfl
    (by rw [hcached]; rfl)
  have hreach : (speedSystem numberedPlatform Unit).Reachable s' :=
    .steps (.init rfl trivial) (hsteps.trans hsteps')
  have hall : s'.events = [.queried false (7 : ℕ) .fastRandomAccess,
      .returned false (7 : ℕ) (some (7 : ℕ)) .fastRandomAccess,
      .returned true (7 : ℕ) (some (7 : ℕ)) .fastRandomAccess] := by
    rw [hevents', hevents]
    rfl
  refine ⟨s', hall, fun seen speed hevent => ?_⟩
  have hfirst : .returned false (7 : ℕ) (some (7 : ℕ)) .fastRandomAccess ∈ s'.events := by
    rw [hall]
    exact List.mem_cons_of_mem _ List.mem_cons_self
  exact (storageSpeedForPath_isStable hreach).2.2.2 _ _ _ _ _ _ _ _ hevent hfirst rfl

end StorageSpeed

end CppUtils
