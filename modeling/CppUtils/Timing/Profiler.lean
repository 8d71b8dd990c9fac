import Mathlib

/-!
# The marks of the profiler

`Profiler::start` and `Profiler::mark` of `timing/profiler.cpp`, over the `CTimeElapsed` that is their
timeline. `mark` keeps its previous reading in a static of its own, which `start` does not reset: the
difference it logs is the time since the previous mark only as long as the timeline is not restarted.
-/

namespace CppUtils.Timing

/-- `std::chrono::steady_clock`: what it returns, call after call. A time point counts nanoseconds in a
signed 64-bit integer. -/
structure SteadyClock where
  now : ℕ → ℤ
  monotone : Monotone now
  lower : ∀ n, -2 ^ 63 ≤ now n
  upper : ∀ n, now n < 2 ^ 63

structure CTimeElapsed where
  startTimeStamp : ℤ
  previouslyAccumulatedTime : ℤ
  paused : Bool

namespace CTimeElapsed

/-- `start` at a reading of the clock, whatever the timer was before. -/
def start (now : ℤ) : CTimeElapsed := ⟨now, 0, false⟩

def nsElapsed (timer : CTimeElapsed) (now : ℤ) : BitVec 64 :=
  BitVec.ofInt 64
    ((if timer.paused then 0 else now - timer.startTimeStamp) + timer.previouslyAccumulatedTime)

theorem nsElapsed_start (r now : ℤ) : (start r).nsElapsed now = BitVec.ofInt 64 (now - r) := by
  simp [nsElapsed, start]

end CTimeElapsed

/-- The statics of `profiler.cpp`: the timeline, none before its first use, and the `previousNs` of
`mark`; and how often the clock has been read. -/
structure Profiler where
  timeline : Option CTimeElapsed
  previousNs : BitVec 64
  readings : ℕ

structure Mark where
  nowNs : BitVec 64
  previousNs : BitVec 64

/-- The time that `mark` logs behind the `+`. -/
def Mark.delta (m : Mark) : BitVec 64 := m.nowNs - m.previousNs

inductive ProfilerCall
  | start
  | mark

namespace Profiler

def initial : Profiler := ⟨none, 0, 0⟩

variable (clock : SteadyClock)

/-- `timeline()`, which creates a started timer at its first use. -/
def useTimeline (p : Profiler) : CTimeElapsed × Profiler :=
  match p.timeline with
  | some timer => (timer, p)
  | none =>
    (.start (clock.now p.readings),
      ⟨some (.start (clock.now p.readings)), p.previousNs, p.readings + 1⟩)

def start (p : Profiler) : Profiler :=
  let (_, p) := p.useTimeline clock
  ⟨some (.start (clock.now p.readings)), p.previousNs, p.readings + 1⟩

def mark (p : Profiler) : Mark × Profiler :=
  let (timer, p) := p.useTimeline clock
  let nowNs := timer.nsElapsed (clock.now p.readings)
  (⟨nowNs, p.previousNs⟩, ⟨p.timeline, nowNs, p.readings + 1⟩)

def call (p : Profiler) : ProfilerCall → Profiler
  | .start => p.start clock
  | .mark => (p.mark clock).2

def run (calls : List ProfilerCall) : Profiler := calls.foldl (call clock) initial

theorem run_append (calls : List ProfilerCall) (c : ProfilerCall) :
    run clock (calls ++ [c]) = (run clock calls).call clock c := by
  rw [run, List.foldl_append]
  rfl

end Profiler

/-! ### What has happened to the timeline -/

inductive TimelineEvent
  | started (reading : ℤ)
  | marked (reading : ℤ)

def ProfilerCall.event (reading : ℤ) : ProfilerCall → TimelineEvent
  | .start => .started reading
  | .mark => .marked reading

/-- The starts of the timeline and the marks, the latest first, when a call comes after these: the timeline
starts at the first reading, and each call has one more. -/
def history (clock : SteadyClock) (calls : List ProfilerCall) : List TimelineEvent :=
  (calls.zipIdx.map fun c => c.1.event (clock.now (c.2 + 1))).reverse ++ [.started (clock.now 0)]

/-- The reading at the last mark, or at the last start of the timeline if no mark came after it. -/
def lastReading : List TimelineEvent → ℤ
  | .started r :: _ => r
  | .marked r :: _ => r
  | [] => 0

def startReading : List TimelineEvent → ℤ
  | .started r :: _ => r
  | .marked _ :: earlier => startReading earlier
  | [] => 0

/-- How long after the start of its timeline the last mark was made; zero if there is none. -/
def markedAfter : List TimelineEvent → ℤ
  | .marked r :: earlier => r - startReading earlier
  | .started _ :: earlier => markedAfter earlier
  | [] => 0

/-- No restart came after the last mark, or that mark was made at the reading its timeline started at, or
there is none. -/
def Undisturbed (events : List TimelineEvent) : Prop :=
  (∃ r earlier, events = .marked r :: earlier) ∨ markedAfter events = 0

variable (clock : SteadyClock) (calls : List ProfilerCall)

@[simp] theorem history_nil : history clock [] = [.started (clock.now 0)] := rfl

@[simp] theorem history_append (c : ProfilerCall) :
    history clock (calls ++ [c]) = c.event (clock.now (calls.length + 1)) :: history clock calls := by
  simp [history, List.zipIdx_append]

theorem lastReading_history : lastReading (history clock calls) = clock.now calls.length := by
  induction calls using List.reverseRecOn with
  | nil => rfl
  | append_singleton calls c ih =>
    rw [history_append, List.length_append, List.length_singleton]
    cases c with
    | start => rfl
    | mark => rfl

theorem startReading_bounds : -2 ^ 63 ≤ startReading (history clock calls) ∧
    startReading (history clock calls) ≤ clock.now calls.length := by
  induction calls using List.reverseRecOn with
  | nil => exact ⟨clock.lower 0, le_rfl⟩
  | append_singleton calls c ih =>
    rw [history_append, List.length_append, List.length_singleton]
    cases c with
    | start => exact ⟨clock.lower _, le_rfl⟩
    | mark => exact ⟨ih.1, ih.2.trans (clock.monotone (Nat.le_succ _))⟩

theorem markedAfter_bounds : 0 ≤ markedAfter (history clock calls) ∧
    markedAfter (history clock calls) < 2 ^ 64 := by
  induction calls using List.reverseRecOn with
  | nil => exact ⟨le_rfl, by norm_num [markedAfter]⟩
  | append_singleton calls c ih =>
    rw [history_append]
    cases c with
    | start => exact ih
    | mark =>
      obtain ⟨hlower, hle⟩ := startReading_bounds clock calls
      have hupper := clock.upper (calls.length + 1)
      have hmono := clock.monotone (Nat.le_add_right calls.length 1)
      change 0 ≤ clock.now (calls.length + 1) - _ ∧ clock.now (calls.length + 1) - _ < 2 ^ 64
      omega

theorem useTimeline_run : (Profiler.run clock calls).useTimeline clock =
    (.start (startReading (history clock calls)),
      ⟨some (.start (startReading (history clock calls))),
        BitVec.ofInt 64 (markedAfter (history clock calls)), calls.length + 1⟩) := by
  induction calls using List.reverseRecOn with
  | nil => rfl
  | append_singleton calls c ih =>
    rw [Profiler.run_append, history_append, List.length_append, List.length_singleton]
    cases c with
    | start =>
      simp only [Profiler.call, Profiler.start, ih]
      rfl
    | mark =>
      simp only [Profiler.call, Profiler.mark, ih, CTimeElapsed.nsElapsed_start]
      rfl

/-- The mark that comes after these calls. -/
def markAfter : Mark := ((Profiler.run clock calls).mark clock).1

theorem markAfter_eq : markAfter clock calls =
    ⟨BitVec.ofInt 64 (clock.now (calls.length + 1) - startReading (history clock calls)),
      BitVec.ofInt 64 (markedAfter (history clock calls))⟩ := by
  simp only [markAfter, Profiler.mark, useTimeline_run, CTimeElapsed.nsElapsed_start]

/-- The mark after these calls subtracts no larger reading from a smaller one, and what it logs is the time
since the previous mark, or since the last start of the timeline if no mark came after it. -/
def MarkIsTrue : Prop :=
  (markAfter clock calls).previousNs ≤ (markAfter clock calls).nowNs ∧
    ((markAfter clock calls).delta.toNat : ℤ) =
      lastReading (history clock (calls ++ [.mark])) - lastReading (history clock calls)

theorem toNat_ofInt_of_bounds {x : ℤ} (hlower : 0 ≤ x) (hupper : x < 2 ^ 64) :
    ((BitVec.ofInt 64 x).toNat : ℤ) = x := by
  rw [BitVec.toNat_ofInt, Int.toNat_of_nonneg (Int.emod_nonneg _ (by decide))]
  exact Int.emod_eq_of_lt hlower hupper

/-- In terms of the readings, nothing wraps: the previous reading is `markedAfter` whatever timeline it was
taken on. -/
theorem markIsTrue_iff_readings : MarkIsTrue clock calls ↔
    markedAfter (history clock calls) ≤
        clock.now (calls.length + 1) - startReading (history clock calls) ∧
      startReading (history clock calls) + markedAfter (history clock calls) =
        lastReading (history clock calls) := by
  obtain ⟨hlower, hle⟩ := startReading_bounds clock calls
  obtain ⟨hnonneg, hlt⟩ := markedAfter_bounds clock calls
  have hupper := clock.upper (calls.length + 1)
  have hmono := clock.monotone (Nat.le_add_right calls.length 1)
  have hnow := toNat_ofInt_of_bounds (x := clock.now (calls.length + 1) - startReading (history clock calls))
    (by omega) (by omega)
  have hprevious := toNat_ofInt_of_bounds hnonneg hlt
  have hreading : lastReading (history clock (calls ++ [.mark])) = clock.now (calls.length + 1) := by
    rw [lastReading_history, List.length_append, List.length_singleton]
  rw [MarkIsTrue, markAfter_eq, Mark.delta, hreading, BitVec.le_def, ← Nat.cast_le (α := ℤ), hnow, hprevious]
  refine and_congr_right ?_
  intro hsub
  have hdelta : ((BitVec.ofInt 64 (clock.now (calls.length + 1) - startReading (history clock calls))
      - BitVec.ofInt 64 (markedAfter (history clock calls))).toNat : ℤ)
      = clock.now (calls.length + 1) - startReading (history clock calls)
        - markedAfter (history clock calls) := by
    have hle' : BitVec.ofInt 64 (markedAfter (history clock calls))
        ≤ BitVec.ofInt 64 (clock.now (calls.length + 1) - startReading (history clock calls)) := by
      rw [BitVec.le_def, ← Nat.cast_le (α := ℤ), hnow, hprevious]
      exact hsub
    rw [BitVec.toNat_sub_of_le hle', Nat.cast_sub (BitVec.le_def.mp hle'), hnow, hprevious]
  rw [hdelta]
  omega

/-- One mark: it is true unless it comes first after a restart and an earlier mark left a reading. -/
theorem markIsTrue_iff : MarkIsTrue clock calls ↔ Undisturbed (history clock calls) := by
  obtain ⟨_, hle⟩ := startReading_bounds clock calls
  have hmono := clock.monotone (Nat.le_add_right calls.length 1)
  have hlast := lastReading_history clock calls
  rw [markIsTrue_iff_readings, Undisturbed]
  match h : history clock calls with
  | [] => simp [history] at h
  | .marked r :: earlier =>
    rw [h] at hlast
    change r = clock.now calls.length at hlast
    change r - startReading earlier ≤ clock.now (calls.length + 1) - startReading earlier ∧
      startReading earlier + (r - startReading earlier) = r ↔ _
    constructor
    · intro _
      exact .inl ⟨r, earlier, rfl⟩
    · intro _
      omega
  | .started r :: earlier =>
    rw [h] at hle
    change r ≤ clock.now calls.length at hle
    change markedAfter earlier ≤ clock.now (calls.length + 1) - r ∧ r + markedAfter earlier = r ↔ _
    constructor
    · intro htrue
      refine .inr ?_
      change markedAfter earlier = 0
      omega
    · rintro (⟨_, _, hmarked⟩ | hzero)
      · cases hmarked
      · change markedAfter earlier = 0 at hzero
        omega

/-- Every mark of a sequence of calls. -/
theorem marks_areTrue_iff :
    (∀ front, front ++ [.mark] <+: calls → MarkIsTrue clock front) ↔
      ∀ front, front ++ [.mark] <+: calls → Undisturbed (history clock front) :=
  forall₂_congr fun front _ => markIsTrue_iff clock front

/-- A clock that is read at 0, 10, 20 and, from then on, 25. -/
def restartClock : SteadyClock where
  now n := min (10 * (n : ℤ)) 25
  monotone a b h := by
    have hcast : (a : ℤ) ≤ b := Nat.cast_le.mpr h
    change min (10 * (a : ℤ)) 25 ≤ min (10 * (b : ℤ)) 25
    omega
  lower n := by omega
  upper n := by omega

/-- A mark 10 ns into the timeline, a restart, and a mark 5 ns later: it subtracts 10 from 5. -/
theorem marks_areTrue_restart :
    markAfter restartClock [.mark, .start] = ⟨5, 10⟩ ∧
      (markAfter restartClock [.mark, .start]).delta.toNat = 2 ^ 64 - 5 ∧
      ¬ ∀ front, front ++ [.mark] <+: [.mark, .start, .mark] → MarkIsTrue restartClock front := by
  have hmark : markAfter restartClock [.mark, .start] = ⟨5, 10⟩ := rfl
  have hdelta : (markAfter restartClock [.mark, .start]).delta.toNat = 2 ^ 64 - 5 := by
    rw [hmark]
    decide
  refine ⟨hmark, hdelta, ?_⟩
  intro h
  obtain ⟨hle, -⟩ := h [.mark, .start] List.prefix_rfl
  rw [hmark] at hle
  exact absurd hle (by decide)

end CppUtils.Timing
