import CppUtils.ThreadPool.System

/-!
# Straight-line user code

Code that makes its calls of the pool one after another, whatever they return, and then returns or
throws. Concrete runs are stated over it.
-/

namespace CppUtils

inductive Script
  | ret
  | throw
  | call (request : UserCall Script) (rest : Script)

def Script.next : Script → Unit → UserStep Script
  | .ret, _ => .ret
  | .throw, _ => .throw
  | .call request rest, _ => .call request fun _ => rest

abbrev scriptCode : UserCode := ⟨Script, Unit, Script.next⟩

def PoolConfig.ofWorkers (workers : ℕ) (hpos : 0 < workers) (hlt : workers < 2 ^ 32) : PoolConfig :=
  ⟨workers, hpos, hlt, ⟨(· % workers), fun _ _ => rfl⟩⟩

def oneWorker : PoolConfig := .ofWorkers 1 (by decide) (by decide)

def threeWorkers : PoolConfig := .ofWorkers 3 (by decide) (by decide)

def soleWorker {clients : ℕ} : ThreadId 1 clients := .worker (Fin.last 0)

/-- A run of scripts: the code of the threads outside the pool, and the steps taken. -/
def scriptRun (cfg : PoolConfig) (clients : ℕ) (main : ThreadId cfg.maxNumThreads clients → Script)
    (moves : List (ThreadId cfg.maxNumThreads clients × Choice cfg.maxNumThreads clients Unit)) :
    Option (PoolSystem cfg scriptCode clients) :=
  exec cfg scriptCode (initialSystem cfg scriptCode clients main) moves

theorem scriptRun_reachable {cfg : PoolConfig} {clients : ℕ}
    {main : ThreadId cfg.maxNumThreads clients → Script}
    {moves : List (ThreadId cfg.maxNumThreads clients × Choice cfg.maxNumThreads clients Unit)}
    {s : PoolSystem cfg scriptCode clients} (h : scriptRun cfg clients main moves = some s) :
    (poolSystem cfg scriptCode clients).Reachable s :=
  exec_reachable h

/-- A run of scripts all of whose states pass a check. -/
def scriptRunUnder (cfg : PoolConfig) (clients : ℕ) (check : PoolSystem cfg scriptCode clients → Bool)
    (main : ThreadId cfg.maxNumThreads clients → Script)
    (moves : List (ThreadId cfg.maxNumThreads clients × Choice cfg.maxNumThreads clients Unit)) :
    Option (PoolSystem cfg scriptCode clients) :=
  execUnder cfg scriptCode check (initialSystem cfg scriptCode clients main) moves

theorem scriptRunUnder_reachable {cfg : PoolConfig} {clients : ℕ}
    {Keeps : PoolSystem cfg scriptCode clients → Prop}
    {check : PoolSystem cfg scriptCode clients → Bool} (hcheck : ∀ s, check s = true → Keeps s)
    {main : ThreadId cfg.maxNumThreads clients → Script}
    {moves : List (ThreadId cfg.maxNumThreads clients × Choice cfg.maxNumThreads clients Unit)}
    {s : PoolSystem cfg scriptCode clients} (h : scriptRunUnder cfg clients check main moves = some s) :
    (poolSystem cfg scriptCode clients).ReachableUnder Keeps s :=
  execUnder_reachable hcheck (.init ⟨main, rfl⟩ (hcheck _ (execUnder_check h))) h

end CppUtils
