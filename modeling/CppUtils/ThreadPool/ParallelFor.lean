import CppUtils.ThreadPool.Frames

/-!
# `ParallelBatchState`, `parallelFor` and `parallelForAsync`

A batch hands out its indices from `nextIndex` and counts the ones that are over in
`completedCount`; both are `size_t`. `drainStep` is the part of `drainIndices` that touches the
batch alone, so that it can be studied for any threads that run it; what it asks of its caller is
its `DrainEffect`.
-/

namespace CppUtils

variable {clients : ℕ} {Code Input : Type} {cfg : PoolConfig}

/-- The local `WaitSync` of `parallelFor`. -/
structure WaitSync (workers clients : ℕ) where
  done : Bool
  allDone : Finset (ThreadId workers clients)

/-- `onAllCompleted`: the lambda of `parallelFor` that sets `done`, or the caller's own. -/
inductive OnAllCompleted (workers clients : ℕ) (Code : Type)
  | signal (sync : WaitSync workers clients)
  | user (code : Code)

/-- The atomic words of a `ParallelBatchState`, its size, and a record of the calls of `fn` that
began, of those that returned or threw, and of the runs of `onAllCompleted`. -/
structure BatchCounters where
  count : ℕ
  nextIndex : ℕ
  completedCount : ℕ
  fnBegun : List ℕ
  fnOver : List ℕ
  completions : ℕ

/-- What `drainIndices` does next, apart from its own words. -/
inductive DrainEffect
  | exit
  | goto (pc : DrainPc)
  | callFn (index : ℕ)
  | complete

namespace BatchCounters

def initial (count : ℕ) : BatchCounters := ⟨count, 0, 0, [], [], 0⟩

/-- `drainIndices` up to its next call or shared access. The frame is at `inFn` while `fn` runs and
at `inCompletion` while a caller's own `onAllCompleted` runs. -/
def drainStep (b : BatchCounters) (pc : DrainPc) : BatchCounters × DrainEffect :=
  match pc with
  | .fetch =>
    let index := b.nextIndex
    let b' := { b with nextIndex := (b.nextIndex + 1) % 2 ^ 64 }
    if index ≥ b.count then (b', .exit)
    else ({ b' with fnBegun := index :: b.fnBegun }, .callFn index)
  | .inFn index => ({ b with fnOver := index :: b.fnOver }, .goto (.complete index))
  | .complete _ =>
    let b' := { b with completedCount := (b.completedCount + 1) % 2 ^ 64 }
    if (b.completedCount + 1) % 2 ^ 64 = b.count then (b', .goto .allCompleted)
    else (b', .goto .fetch)
  | .allCompleted => ({ b with completions := b.completions + 1 }, .complete)
  | .inCompletion => (b, .goto .fetch)

end BatchCounters

/-- `thread_pool_detail::ParallelBatchState`. -/
structure ParallelBatchState (workers clients : ℕ) (Code : Type) where
  counters : BatchCounters
  fn : ℕ → Code
  onAllCompleted : OnAllCompleted workers clients Code

/-- The state of the pool and the batches in use, by the number `makeParallelBatchState` gave. -/
structure Shared (workers clients : ℕ) (Code : Type) where
  pool : PoolState workers clients Code
  batches : ℕ → Option (ParallelBatchState workers clients Code)
  nextBatch : ℕ

namespace Shared

variable {workers : ℕ} (s : Shared workers clients Code)

@[simps] def setPool (pool : PoolState workers clients Code) : Shared workers clients Code :=
  { s with pool := pool }

@[simps] def setBatch (batch : ℕ) (b : ParallelBatchState workers clients Code) :
    Shared workers clients Code :=
  { s with batches := Function.update s.batches batch (some b) }

/-- `makeParallelBatchState`. -/
@[simps] def makeBatch (count : ℕ) (fn : ℕ → Code)
    (onAllCompleted : OnAllCompleted workers clients Code) : Shared workers clients Code :=
  { s with
    batches := Function.update s.batches s.nextBatch
      (some ⟨.initial count, fn, onAllCompleted⟩)
    nextBatch := s.nextBatch + 1 }

theorem setBatch_cases {s : Shared workers clients Code} {batch batch' : ℕ}
    {b b' : ParallelBatchState workers clients Code} (h : (s.setBatch batch b).batches batch' = some b') :
    b' = b ∨ s.batches batch' = some b' := by
  by_cases heq : batch' = batch
  · subst heq
    rw [setBatch_batches, Function.update_self, Option.some.injEq] at h
    exact .inl h.symm
  · rw [setBatch_batches, Function.update_of_ne heq] at h
    exact .inr h

theorem makeBatch_cases {s : Shared workers clients Code} {count batch : ℕ} {fn : ℕ → Code}
    {onAllCompleted : OnAllCompleted workers clients Code} {b : ParallelBatchState workers clients Code}
    (h : (s.makeBatch count fn onAllCompleted).batches batch = some b) :
    b = ⟨.initial count, fn, onAllCompleted⟩ ∨ s.batches batch = some b := by
  by_cases heq : batch = s.nextBatch
  · subst heq
    rw [makeBatch_batches, Function.update_self, Option.some.injEq] at h
    exact .inl h.symm
  · rw [makeBatch_batches, Function.update_of_ne heq] at h
    exact .inr h

end Shared

def drainIndicesStep (c : Choice cfg.maxNumThreads clients Input)
    (s : Shared cfg.maxNumThreads clients Code) (batch : ℕ) (pc : DrainPc) :
    Option (Shared cfg.maxNumThreads clients Code × List (Frame cfg.maxNumThreads Code)) :=
  match s.batches batch with
  | none => none
  | some b =>
    let s' := s.setBatch batch { b with counters := (b.counters.drainStep pc).1 }
    match (b.counters.drainStep pc).2 with
    | .exit => some (s', [])
    | .goto pc' => some (s', [.drainIndices batch pc'])
    | .callFn index => some (s', [.body (b.fn index), .drainIndices batch (.inFn index)])
    | .complete =>
      match b.onAllCompleted with
      | .user code => some (s', [.body code, .drainIndices batch .inCompletion])
      | .signal sync =>
        match c with
        | .notify t =>
          if t ∈ sync.allDone ∨ sync.allDone = ∅ then
            some (s.setBatch batch ⟨(b.counters.drainStep pc).1, b.fn,
              .signal ⟨true, sync.allDone.erase t⟩⟩, [.drainIndices batch .fetch])
          else none
        | _ => none

/-- The predicate of the wait of `parallelFor`, evaluated under `sync->mutex`. -/
def allDoneWait (t : ThreadId cfg.maxNumThreads clients)
    (s : Shared cfg.maxNumThreads clients Code) (batch : ℕ) :
    Option (Shared cfg.maxNumThreads clients Code × List (Frame cfg.maxNumThreads Code)) :=
  match s.batches batch with
  | some ⟨counters, fn, .signal sync⟩ =>
    if sync.done = true then some (s, [])
    else some (s.setBatch batch ⟨counters, fn, .signal ⟨sync.done, insert t sync.allDone⟩⟩,
      [.parallelFor (.wait batch)])
  | _ => none

def parallelForStep (cfg : PoolConfig) (t : ThreadId cfg.maxNumThreads clients)
    (c : Choice cfg.maxNumThreads clients Input) (s : Shared cfg.maxNumThreads clients Code)
    (pc : ParallelForPc Code) :
    Option (Shared cfg.maxNumThreads clients Code × List (Frame cfg.maxNumThreads Code)) :=
  match pc with
  | .start count fn =>
    if count = 0 then some (s, [])
    else if count = 1 then some (s, [.body (fn 0), .parallelFor .single])
    else
      some (s.makeBatch count fn (.signal ⟨false, ∅⟩),
        [.parallelFor (.helpers s.nextBatch 0 (min (count - 1) cfg.maxNumThreads % 2 ^ 32))])
  | .single => some (s, [])
  | .helpers batch i helperCount =>
    if i < helperCount then
      some (s, [.enqueue (.start (.drainIndices batch) 0),
        .parallelFor (.helpers batch (i + 1) helperCount)])
    else some (s, [.drainIndices batch .fetch, .parallelFor (.lock batch)])
  | .lock batch => allDoneWait t s batch
  | .wait batch =>
    match s.batches batch with
    | some ⟨counters, fn, .signal sync⟩ =>
      match c with
      | .go => if t ∈ sync.allDone then none else allDoneWait t s batch
      | .spurious =>
        if t ∈ sync.allDone then
          some (s.setBatch batch ⟨counters, fn, .signal ⟨sync.done, sync.allDone.erase t⟩⟩,
            [.parallelFor (.wait batch)])
        else none
      | _ => none
    | _ => none

def parallelForAsyncStep (cfg : PoolConfig) (s : Shared cfg.maxNumThreads clients Code)
    (pc : ParallelForAsyncPc Code) :
    Option (Shared cfg.maxNumThreads clients Code × List (Frame cfg.maxNumThreads Code)) :=
  match pc with
  | .start count fn onAllCompleted =>
    if count = 0 then
      some (s, [.enqueue (.start (.user onAllCompleted) 0), .parallelForAsync .empty])
    else
      some (s.makeBatch count fn (.user onAllCompleted),
        [.parallelForAsync (.helpers s.nextBatch 0 (min count cfg.maxNumThreads % 2 ^ 32))])
  | .empty => some (s, [])
  | .helpers batch i helperCount =>
    if i < helperCount then
      some (s, [.enqueue (.start (.drainIndices batch) 0),
        .parallelForAsync (.helpers batch (i + 1) helperCount)])
    else some (s, [])

inductive DrainIndicesMove (s : Shared cfg.maxNumThreads clients Code) (batch : ℕ) :
    DrainPc → Shared cfg.maxNumThreads clients Code →
      List (Frame cfg.maxNumThreads Code) → Prop
  | exit {b pc} (hbatch : s.batches batch = some b) (heffect : (b.counters.drainStep pc).2 = .exit) :
      DrainIndicesMove s batch pc
        (s.setBatch batch { b with counters := (b.counters.drainStep pc).1 }) []
  | goto {b pc pc'} (hbatch : s.batches batch = some b)
      (heffect : (b.counters.drainStep pc).2 = .goto pc') :
      DrainIndicesMove s batch pc
        (s.setBatch batch { b with counters := (b.counters.drainStep pc).1 })
        [.drainIndices batch pc']
  | callFn {b pc index} (hbatch : s.batches batch = some b)
      (heffect : (b.counters.drainStep pc).2 = .callFn index) :
      DrainIndicesMove s batch pc
        (s.setBatch batch { b with counters := (b.counters.drainStep pc).1 })
        [.body (b.fn index), .drainIndices batch (.inFn index)]
  | callUser {b pc code} (hbatch : s.batches batch = some b)
      (heffect : (b.counters.drainStep pc).2 = .complete)
      (hcompleted : b.onAllCompleted = .user code) :
      DrainIndicesMove s batch pc
        (s.setBatch batch { b with counters := (b.counters.drainStep pc).1 })
        [.body code, .drainIndices batch .inCompletion]
  | signal {b pc sync u} (hbatch : s.batches batch = some b)
      (heffect : (b.counters.drainStep pc).2 = .complete)
      (hcompleted : b.onAllCompleted = .signal sync)
      (hwaiter : u ∈ sync.allDone ∨ sync.allDone = ∅) :
      DrainIndicesMove s batch pc
        (s.setBatch batch
          ⟨(b.counters.drainStep pc).1, b.fn, .signal ⟨true, sync.allDone.erase u⟩⟩)
        [.drainIndices batch .fetch]

theorem drainIndicesStep_move {c : Choice cfg.maxNumThreads clients Input}
    {s s' : Shared cfg.maxNumThreads clients Code} {batch : ℕ} {pc : DrainPc}
    {after : List (Frame cfg.maxNumThreads Code)}
    (h : drainIndicesStep c s batch pc = some (s', after)) :
    DrainIndicesMove s batch pc s' after := by
  revert h
  fun_cases drainIndicesStep c s batch pc
  all_goals intro h
  all_goals simp only [reduceCtorEq, Option.some.injEq, Prod.mk.injEq] at h
  all_goals obtain ⟨rfl, rfl⟩ := h
  all_goals constructor <;> assumption

inductive ParallelForMove (cfg : PoolConfig) (t : ThreadId cfg.maxNumThreads clients)
    (s : Shared cfg.maxNumThreads clients Code) :
    ParallelForPc Code → Shared cfg.maxNumThreads clients Code →
      List (Frame cfg.maxNumThreads Code) → Prop
  | empty {count fn} (hcount : count = 0) : ParallelForMove cfg t s (.start count fn) s []
  | single {count fn} (hcount : count = 1) :
      ParallelForMove cfg t s (.start count fn) s [.body (fn 0), .parallelFor .single]
  | make {count fn} (hzero : ¬ count = 0) (hone : ¬ count = 1) :
      ParallelForMove cfg t s (.start count fn) (s.makeBatch count fn (.signal ⟨false, ∅⟩))
        [.parallelFor (.helpers s.nextBatch 0 (min (count - 1) cfg.maxNumThreads % 2 ^ 32))]
  | singleDone : ParallelForMove cfg t s .single s []
  | helper {batch i helperCount} (hi : i < helperCount) :
      ParallelForMove cfg t s (.helpers batch i helperCount) s
        [.enqueue (.start (.drainIndices batch) 0), .parallelFor (.helpers batch (i + 1) helperCount)]
  | drain {batch i helperCount} (hi : ¬ i < helperCount) :
      ParallelForMove cfg t s (.helpers batch i helperCount) s
        [.drainIndices batch .fetch, .parallelFor (.lock batch)]
  | done {batch counters fn sync pc} (hbatch : s.batches batch = some ⟨counters, fn, .signal sync⟩)
      (hpc : pc = .lock batch ∨ pc = .wait batch ∧ t ∉ sync.allDone) (hdone : sync.done = true) :
      ParallelForMove cfg t s pc s []
  | block {batch counters fn sync pc} (hbatch : s.batches batch = some ⟨counters, fn, .signal sync⟩)
      (hpc : pc = .lock batch ∨ pc = .wait batch ∧ t ∉ sync.allDone) (hdone : ¬ sync.done = true) :
      ParallelForMove cfg t s pc
        (s.setBatch batch ⟨counters, fn, .signal ⟨sync.done, insert t sync.allDone⟩⟩)
        [.parallelFor (.wait batch)]
  | spurious {batch counters fn sync}
      (hbatch : s.batches batch = some ⟨counters, fn, .signal sync⟩) (hblocked : t ∈ sync.allDone) :
      ParallelForMove cfg t s (.wait batch)
        (s.setBatch batch ⟨counters, fn, .signal ⟨sync.done, sync.allDone.erase t⟩⟩)
        [.parallelFor (.wait batch)]

private theorem allDoneWait_move {t : ThreadId cfg.maxNumThreads clients}
    {s s' : Shared cfg.maxNumThreads clients Code} {batch : ℕ} {pc : ParallelForPc Code}
    {after : List (Frame cfg.maxNumThreads Code)} (h : allDoneWait t s batch = some (s', after))
    (hpc : ∀ counters fn sync, s.batches batch = some ⟨counters, fn, .signal sync⟩ →
      pc = .lock batch ∨ pc = .wait batch ∧ t ∉ sync.allDone) :
    ParallelForMove cfg t s pc s' after := by
  revert h
  fun_cases allDoneWait t s batch
  all_goals intro h
  all_goals simp only [reduceCtorEq, Option.some.injEq, Prod.mk.injEq] at h
  all_goals obtain ⟨rfl, rfl⟩ := h
  case case1 hbatch hdone => exact .done hbatch (hpc _ _ _ hbatch) hdone
  case case2 hbatch hdone => exact .block hbatch (hpc _ _ _ hbatch) hdone

theorem parallelForStep_move {t : ThreadId cfg.maxNumThreads clients}
    {c : Choice cfg.maxNumThreads clients Input} {s s' : Shared cfg.maxNumThreads clients Code}
    {pc : ParallelForPc Code} {after : List (Frame cfg.maxNumThreads Code)}
    (h : parallelForStep cfg t c s pc = some (s', after)) : ParallelForMove cfg t s pc s' after := by
  revert h
  fun_cases parallelForStep cfg t c s pc
  all_goals intro h
  all_goals try simp only [reduceCtorEq, Option.some.injEq, Prod.mk.injEq] at h
  case case7 => exact allDoneWait_move h fun _ _ _ _ => .inl rfl
  case case9 sync hbatch hawake =>
    refine allDoneWait_move h fun counters fn sync' hbatch' => .inr ⟨rfl, ?_⟩
    rw [hbatch] at hbatch'
    cases hbatch'
    exact hawake
  all_goals obtain ⟨rfl, rfl⟩ := h
  all_goals first
    | exact .spurious ‹_› ‹_›
    | (constructor <;> first | assumption | rfl)

inductive ParallelForAsyncMove (cfg : PoolConfig) (s : Shared cfg.maxNumThreads clients Code) :
    ParallelForAsyncPc Code → Shared cfg.maxNumThreads clients Code →
      List (Frame cfg.maxNumThreads Code) → Prop
  | empty {count fn onAllCompleted} (hcount : count = 0) :
      ParallelForAsyncMove cfg s (.start count fn onAllCompleted) s
        [.enqueue (.start (.user onAllCompleted) 0), .parallelForAsync .empty]
  | make {count fn onAllCompleted} (hcount : ¬ count = 0) :
      ParallelForAsyncMove cfg s (.start count fn onAllCompleted)
        (s.makeBatch count fn (.user onAllCompleted))
        [.parallelForAsync (.helpers s.nextBatch 0 (min count cfg.maxNumThreads % 2 ^ 32))]
  | emptyDone : ParallelForAsyncMove cfg s .empty s []
  | helper {batch i helperCount} (hi : i < helperCount) :
      ParallelForAsyncMove cfg s (.helpers batch i helperCount) s
        [.enqueue (.start (.drainIndices batch) 0),
          .parallelForAsync (.helpers batch (i + 1) helperCount)]
  | done {batch i helperCount} (hi : ¬ i < helperCount) :
      ParallelForAsyncMove cfg s (.helpers batch i helperCount) s []

theorem parallelForAsyncStep_move {s s' : Shared cfg.maxNumThreads clients Code}
    {pc : ParallelForAsyncPc Code} {after : List (Frame cfg.maxNumThreads Code)}
    (h : parallelForAsyncStep cfg s pc = some (s', after)) :
    ParallelForAsyncMove cfg s pc s' after := by
  revert h
  fun_cases parallelForAsyncStep cfg s pc
  all_goals intro h
  all_goals simp only [Option.some.injEq, Prod.mk.injEq] at h
  all_goals obtain ⟨rfl, rfl⟩ := h
  all_goals constructor <;> first | assumption | rfl

end CppUtils
