import CppUtils.Lib.EntryMap

/-!
# Counting cores

`CpuCount::get` for Linux, of `threading/thread_helpers.cpp`. The CPUs are grouped into cores by the text
of their sibling list, and the cores into classes by their capacity. What a file under `/sys` answers is
up to the system.
-/

namespace CppUtils.Threading

def uint32 (n : ℕ) : ℕ := n % 2 ^ 32

theorem uint32_of_lt {n : ℕ} (h : n < 2 ^ 32) : uint32 n = n := Nat.mod_eq_of_lt h

structure CpuPerformanceClass where
  relativePerformance : ℤ
  physicalCoreCount : ℕ
  logicalProcessorCount : ℕ
  deriving DecidableEq

structure CpuCount where
  logicalProcessorCount : ℕ
  physicalCoreCount : ℕ
  performanceClasses : List CpuPerformanceClass
  deriving DecidableEq

namespace CpuCount

def new (logicalProcessorCount physicalCoreCount : ℕ) (performanceClasses : List CpuPerformanceClass) :
    CpuCount :=
  ⟨max 1 logicalProcessorCount, max 1 (min physicalCoreCount (max 1 logicalProcessorCount)),
    performanceClasses⟩

def performanceCoreCount (count : CpuCount) : ℕ :=
  match count.performanceClasses.getLast? with
  | none => count.physicalCoreCount
  | some performanceClass => performanceClass.physicalCoreCount

def efficiencyCoreCount (count : CpuCount) : ℕ :=
  uint32 (count.physicalCoreCount + (2 ^ 32 - count.performanceCoreCount))

end CpuCount

structure CpuCore where
  logicalProcessorCount : ℕ
  relativePerformance : ℤ
  deriving DecidableEq

/-- What the system answers: the CPUs of `sched_getaffinity`, what `readValue` reads from the files of a
CPU, with the value that a failed read leaves, and the order in which an unordered map is iterated. -/
structure CpuSystem where
  allowedLinuxCpus : List ℕ
  hardwareConcurrency : ℕ
  coreCpusList : ℕ → Option String
  threadSiblingsList : ℕ → Option String
  cpuCapacity : ℕ → Bool × ℤ
  iteration : List (String × CpuCore) → List (String × CpuCore)
  iteration_perm : ∀ cores, (iteration cores).Perm cores

/-- `++core.logicalProcessorCount` on a core that may be new, which gets its relative performance. -/
def countCpu (relativePerformance : ℤ) : Option CpuCore → CpuCore
  | none => ⟨uint32 (0 + 1), relativePerformance⟩
  | some core => ⟨uint32 (core.logicalProcessorCount + 1), core.relativePerformance⟩

/-- A core is added to a class that may be new. -/
def countCore (core : CpuCore) : Option CpuPerformanceClass → CpuPerformanceClass
  | none => ⟨core.relativePerformance, uint32 (0 + 1), uint32 (0 + core.logicalProcessorCount)⟩
  | some performanceClass =>
    ⟨core.relativePerformance, uint32 (performanceClass.physicalCoreCount + 1),
      uint32 (performanceClass.logicalProcessorCount + core.logicalProcessorCount)⟩

/-- One iteration of the loop over the cores. -/
def addCore (classes : SortedMap ℤ CpuPerformanceClass) (core : CpuCore) :
    SortedMap ℤ CpuPerformanceClass :=
  classes.upsert core.relativePerformance (countCore core)

def distinguishablePerformanceClasses (cores : List (String × CpuCore)) : List CpuPerformanceClass :=
  let classes := (cores.map Prod.snd).foldl addCore .empty
  if classes.entries.length < 2 then [] else classes.entries.map Prod.snd

namespace CpuSystem

variable (system : CpuSystem)

def fallbackLogicalProcessorCount : ℕ := max 1 system.hardwareConcurrency

/-- The sibling list that names the core of a CPU, none if neither file can be read. -/
def coreCpus (cpu : ℕ) : Option String :=
  match system.coreCpusList cpu with
  | some text => some text
  | none => system.threadSiblingsList cpu

/-- One iteration of the loop over the CPUs, on `cores` and `allCoresHaveRelativePerformance`; none
where it returns. -/
def addCpu (state : List (String × CpuCore) × Bool) (cpu : ℕ) : Option (List (String × CpuCore) × Bool) :=
  match system.coreCpus cpu with
  | none => none
  | some coreCpus =>
    let inserted := !(state.1.map Prod.fst).contains coreCpus
    let cores := upsert coreCpus (countCpu (system.cpuCapacity cpu).2) state.1
    some (cores, if inserted then state.2 && (system.cpuCapacity cpu).1 else state.2)

def get : CpuCount :=
  if system.allowedLinuxCpus = [] then
    .new (uint32 system.fallbackLogicalProcessorCount) (uint32 system.fallbackLogicalProcessorCount) []
  else
    match system.allowedLinuxCpus.foldlM system.addCpu ([], true) with
    | none =>
      .new (uint32 system.allowedLinuxCpus.length) (uint32 system.allowedLinuxCpus.length) []
    | some (cores, allCoresHaveRelativePerformance) =>
      .new (uint32 system.allowedLinuxCpus.length) (uint32 cores.length)
        (if allCoresHaveRelativePerformance then
          distinguishablePerformanceClasses (system.iteration cores) else [])

end CpuSystem

/-! ### The cores -/

/-- The cores make up this many CPUs. -/
structure CoresFor (cores : List (String × CpuCore)) (cpus : ℕ) : Prop where
  total : (cores.map fun e => e.2.logicalProcessorCount).sum = cpus
  pos : ∀ e ∈ cores, 1 ≤ e.2.logicalProcessorCount

namespace CoresFor

variable {cores : List (String × CpuCore)} {cpus : ℕ}

theorem length_le (h : CoresFor cores cpus) : cores.length ≤ cpus := by
  have hle := List.length_le_sum_of_one_le (cores.map fun e => e.2.logicalProcessorCount)
    (List.forall_mem_map.mpr h.pos)
  rwa [List.length_map, h.total] at hle

theorem ne_nil (h : CoresFor cores cpus) (hpos : 0 < cpus) : cores ≠ [] := by
  rintro rfl
  have htotal := h.total
  exact hpos.ne htotal

theorem perm {cores' : List (String × CpuCore)} (h : CoresFor cores cpus) (hperm : cores'.Perm cores) :
    CoresFor cores' cpus where
  total := ((hperm.map _).sum_eq).trans h.total
  pos e he := h.pos e (hperm.mem_iff.mp he)

theorem le_of_mem (h : CoresFor cores cpus) {e : String × CpuCore} (he : e ∈ cores) :
    e.2.logicalProcessorCount ≤ cpus := by
  rw [← h.total]
  exact List.single_le_sum (fun _ _ => Nat.zero_le _) _
    (List.mem_map_of_mem (f := fun e => e.2.logicalProcessorCount) he)

theorem upsert (h : CoresFor cores cpus) (hlt : cpus + 1 < 2 ^ 32) (coreCpus : String)
    (relativePerformance : ℤ) :
    CoresFor (CppUtils.upsert coreCpus (countCpu relativePerformance) cores) (cpus + 1) := by
  have hupserted := upserted_upsert coreCpus (countCpu relativePerformance) cores
  have hchanged : ∀ core, (coreCpus, core) ∈ cores →
      (countCpu relativePerformance (some core)).logicalProcessorCount = core.logicalProcessorCount + 1 := by
    intro core hcore
    exact uint32_of_lt (Nat.lt_of_le_of_lt (Nat.succ_le_succ (h.le_of_mem hcore)) hlt)
  constructor
  · rw [hupserted.sum_map (fun e => e.2.logicalProcessorCount) (d := 1) rfl hchanged, h.total]
  · refine hupserted.forall_mem h.pos le_rfl ?_
    intro core hcore
    rw [hchanged core hcore]
    exact Nat.le_add_left _ _

end CoresFor

theorem CpuSystem.coresFor_foldlM {system : CpuSystem} {cpus : List ℕ} :
    ∀ {state state' : List (String × CpuCore) × Bool} {n : ℕ}, CoresFor state.1 n →
      n + cpus.length < 2 ^ 32 → cpus.foldlM system.addCpu state = some state' →
        CoresFor state'.1 (n + cpus.length) := by
  induction cpus with
  | nil =>
    intro state state' n h _ hfold
    cases hfold
    exact h
  | cons cpu cpus ih =>
    intro state state' n h hlt hfold
    rw [List.length_cons] at hlt
    rw [List.foldlM_cons] at hfold
    obtain ⟨next, hnext, hfold⟩ := Option.bind_eq_some_iff.mp hfold
    have hcores : CoresFor next.1 (n + 1) := by
      unfold addCpu at hnext
      split at hnext
      · cases hnext
      · cases hnext
        exact h.upsert (by omega) _ _
    have hrest := ih hcores (by omega) hfold
    rwa [List.length_cons, Nat.add_comm cpus.length, ← Nat.add_assoc]

/-! ### The classes -/

/-- The classes make up these cores. -/
structure ClassesFor (entries : List (ℤ × CpuPerformanceClass)) (cores : List CpuCore) : Prop where
  physical : (entries.map fun e => e.2.physicalCoreCount).sum = cores.length
  logical : (entries.map fun e => e.2.logicalProcessorCount).sum =
    (cores.map CpuCore.logicalProcessorCount).sum
  key : ∀ e ∈ entries, e.2.relativePerformance = e.1
  pos : ∀ e ∈ entries, 1 ≤ e.2.physicalCoreCount
  le : ∀ e ∈ entries, e.2.physicalCoreCount ≤ e.2.logicalProcessorCount

namespace ClassesFor

theorem empty : ClassesFor (SortedMap.empty : SortedMap ℤ CpuPerformanceClass).entries [] where
  physical := rfl
  logical := rfl
  key _ he := absurd he List.not_mem_nil
  pos _ he := absurd he List.not_mem_nil
  le _ he := absurd he List.not_mem_nil

variable {classes : SortedMap ℤ CpuPerformanceClass} {cores : List CpuCore} {core : CpuCore}

theorem counts_of_mem (h : ClassesFor classes.entries cores) {e : ℤ × CpuPerformanceClass}
    (he : e ∈ classes.entries) : e.2.physicalCoreCount ≤ cores.length ∧
      e.2.logicalProcessorCount ≤ (cores.map CpuCore.logicalProcessorCount).sum := by
  constructor
  · rw [← h.physical]
    exact List.single_le_sum (fun _ _ => Nat.zero_le _) _
      (List.mem_map_of_mem (f := fun e => e.2.physicalCoreCount) he)
  · rw [← h.logical]
    exact List.single_le_sum (fun _ _ => Nat.zero_le _) _
      (List.mem_map_of_mem (f := fun e => e.2.logicalProcessorCount) he)

theorem addCore (h : ClassesFor classes.entries cores) (hpos : 1 ≤ core.logicalProcessorCount)
    (hlength : cores.length + 1 < 2 ^ 32)
    (htotal : (cores.map CpuCore.logicalProcessorCount).sum + core.logicalProcessorCount < 2 ^ 32) :
    ClassesFor (Threading.addCore classes core).entries (cores ++ [core]) := by
  have hupserted := classes.upserted core.relativePerformance (countCore core)
  have hmade : countCore core none = ⟨core.relativePerformance, 1, core.logicalProcessorCount⟩ := by
    rw [countCore, Nat.zero_add, Nat.zero_add, uint32_of_lt (by omega), uint32_of_lt (by omega)]
  have hchanged : ∀ c, (core.relativePerformance, c) ∈ classes.entries →
      countCore core (some c) = ⟨core.relativePerformance, c.physicalCoreCount + 1,
        c.logicalProcessorCount + core.logicalProcessorCount⟩ := by
    intro c hc
    obtain ⟨hphysical, hlogical⟩ := h.counts_of_mem hc
    change c.physicalCoreCount ≤ _ at hphysical
    change c.logicalProcessorCount ≤ _ at hlogical
    rw [countCore, uint32_of_lt (by omega), uint32_of_lt (by omega)]
  constructor
  · have hsum := hupserted.sum_map (fun e => e.2.physicalCoreCount) (d := 1) (by rw [hmade])
      (fun c hc => by rw [hchanged c hc])
    rw [List.length_append, List.length_singleton, ← h.physical]
    exact hsum
  · have hsum := hupserted.sum_map (fun e => e.2.logicalProcessorCount) (d := core.logicalProcessorCount)
      (by rw [hmade]) (fun c hc => by rw [hchanged c hc])
    rw [List.map_append, List.sum_append, List.map_singleton, List.sum_singleton, ← h.logical]
    exact hsum
  · exact hupserted.forall_mem h.key (by rw [hmade]) (fun c hc => by rw [hchanged c hc])
  · refine hupserted.forall_mem h.pos (by rw [hmade]) ?_
    intro c hc
    rw [hchanged c hc]
    exact Nat.le_add_left _ _
  · refine hupserted.forall_mem h.le (by rw [hmade]; exact hpos) ?_
    intro c hc
    have hle : c.physicalCoreCount ≤ c.logicalProcessorCount := h.le _ hc
    rw [hchanged c hc]
    change c.physicalCoreCount + 1 ≤ c.logicalProcessorCount + core.logicalProcessorCount
    omega

end ClassesFor

theorem classesFor_foldl (cores : List CpuCore) (hpos : ∀ core ∈ cores, 1 ≤ core.logicalProcessorCount)
    (hlength : cores.length < 2 ^ 32) (htotal : (cores.map CpuCore.logicalProcessorCount).sum < 2 ^ 32) :
    ClassesFor (cores.foldl addCore .empty).entries cores := by
  induction cores using List.reverseRecOn with
  | nil => exact ClassesFor.empty
  | append_singleton cores core ih =>
    rw [List.length_append, List.length_singleton] at hlength
    rw [List.map_append, List.sum_append, List.map_singleton, List.sum_singleton] at htotal
    rw [List.foldl_append]
    have hcores := ih (fun core hcore => hpos core (List.mem_append_left _ hcore)) (by omega) (by omega)
    exact hcores.addCore (hpos core (List.mem_append_right _ (List.mem_singleton_self core))) hlength htotal

/-! ### The counts -/

namespace CpuCount

/-- The classes, if any are told apart, make up the whole. -/
structure ClassesMakeUp (count : CpuCount) : Prop where
  two : 2 ≤ count.performanceClasses.length
  ascending : count.performanceClasses.Pairwise fun a b => a.relativePerformance < b.relativePerformance
  pos : ∀ c ∈ count.performanceClasses, 1 ≤ c.physicalCoreCount
  le : ∀ c ∈ count.performanceClasses, c.physicalCoreCount ≤ c.logicalProcessorCount
  physical : (count.performanceClasses.map CpuPerformanceClass.physicalCoreCount).sum =
    count.physicalCoreCount
  logical : (count.performanceClasses.map CpuPerformanceClass.logicalProcessorCount).sum =
    count.logicalProcessorCount

/-- What the test of `CpuCount` requires, and the classes. -/
structure Consistent (count : CpuCount) : Prop where
  physical_pos : 1 ≤ count.physicalCoreCount
  physical_le : count.physicalCoreCount ≤ count.logicalProcessorCount
  classes : count.performanceClasses = [] ∨ count.ClassesMakeUp
  performance_pos : 1 ≤ count.performanceCoreCount
  performance_le : count.performanceCoreCount ≤ count.physicalCoreCount
  efficiency : count.efficiencyCoreCount + count.performanceCoreCount = count.physicalCoreCount

variable {count : CpuCount}

theorem ClassesMakeUp.performance (h : count.ClassesMakeUp) :
    1 ≤ count.performanceCoreCount ∧ count.performanceCoreCount ≤ count.physicalCoreCount := by
  have hne : count.performanceClasses ≠ [] := by
    intro hnil
    have htwo := h.two
    rw [hnil] at htwo
    exact absurd htwo (by decide)
  have hlast : count.performanceCoreCount =
      (count.performanceClasses.getLast hne).physicalCoreCount := by
    rw [performanceCoreCount, List.getLast?_eq_some_getLast hne]
  have hmem := List.getLast_mem hne
  rw [hlast]
  refine ⟨h.pos _ hmem, ?_⟩
  rw [← h.physical]
  exact List.single_le_sum (fun _ _ => Nat.zero_le _) _ (List.mem_map_of_mem hmem)

theorem consistent_of (hpos : 1 ≤ count.physicalCoreCount)
    (hle : count.physicalCoreCount ≤ count.logicalProcessorCount)
    (hlt : count.logicalProcessorCount < 2 ^ 32)
    (hclasses : count.performanceClasses = [] ∨ count.ClassesMakeUp) : count.Consistent := by
  have hperformance : 1 ≤ count.performanceCoreCount ∧
      count.performanceCoreCount ≤ count.physicalCoreCount := by
    rcases hclasses with hnil | hmakeUp
    · have hall : count.performanceCoreCount = count.physicalCoreCount := by
        rw [performanceCoreCount, hnil]
        rfl
      rw [hall]
      exact ⟨hpos, le_rfl⟩
    · exact hmakeUp.performance
  refine ⟨hpos, hle, hclasses, hperformance.1, hperformance.2, ?_⟩
  unfold efficiencyCoreCount uint32
  omega

end CpuCount

theorem ClassesFor.makeUp {classes : SortedMap ℤ CpuPerformanceClass} {cores : List CpuCore}
    (h : ClassesFor classes.entries cores) (htwo : 2 ≤ classes.entries.length) :
    CpuCount.ClassesMakeUp ⟨(cores.map CpuCore.logicalProcessorCount).sum, cores.length,
      classes.entries.map Prod.snd⟩ := by
  refine ⟨?_, ?_, ?_, ?_, ?_, ?_⟩
  · rw [List.length_map]
    exact htwo
  · refine List.pairwise_map.mpr (classes.sorted.imp_of_mem ?_)
    intro a b ha hb hkeys
    rwa [h.key a ha, h.key b hb]
  · exact List.forall_mem_map.mpr h.pos
  · exact List.forall_mem_map.mpr h.le
  · rw [List.map_map]
    exact h.physical
  · rw [List.map_map]
    exact h.logical

theorem distinguishablePerformanceClasses_makeUp {cores : List (String × CpuCore)} {cpus : ℕ}
    (hcores : CoresFor cores cpus) (hlt : cpus < 2 ^ 32) :
    distinguishablePerformanceClasses cores = [] ∨
      CpuCount.ClassesMakeUp ⟨cpus, cores.length, distinguishablePerformanceClasses cores⟩ := by
  have hlength : (cores.map Prod.snd).length = cores.length := List.length_map _
  have hsum : ((cores.map Prod.snd).map CpuCore.logicalProcessorCount).sum = cpus := by
    rw [List.map_map]
    exact hcores.total
  have hfor := classesFor_foldl (cores.map Prod.snd) (List.forall_mem_map.mpr hcores.pos)
    (by rw [hlength]; exact hcores.length_le.trans_lt hlt) (by rw [hsum]; exact hlt)
  by_cases hfew : ((cores.map Prod.snd).foldl addCore .empty).entries.length < 2
  · exact .inl (if_pos hfew)
  · have hmakeUp := hfor.makeUp (Nat.le_of_not_lt hfew)
    rw [hsum, hlength] at hmakeUp
    have hclasses : distinguishablePerformanceClasses cores =
        ((cores.map Prod.snd).foldl addCore .empty).entries.map Prod.snd := if_neg hfew
    rw [hclasses]
    exact .inr hmakeUp

theorem CpuCount.new_of_le {logical physical : ℕ} (hpos : 1 ≤ physical) (hle : physical ≤ logical)
    (classes : List CpuPerformanceClass) : CpuCount.new logical physical classes =
      ⟨logical, physical, classes⟩ := by
  rw [CpuCount.new, Nat.max_eq_right (hpos.trans hle), Nat.min_eq_left hle, Nat.max_eq_right hpos]

/-- The counts of `CpuCount::get` are consistent for every non-empty list of allowed CPUs and whatever the
system answers for each of them. -/
theorem CpuSystem.get_isConsistent (system : CpuSystem) (hne : system.allowedLinuxCpus ≠ [])
    (hlt : system.allowedLinuxCpus.length < 2 ^ 32) :
    system.get.Consistent ∧ system.get.logicalProcessorCount = system.allowedLinuxCpus.length := by
  have hpos : 1 ≤ system.allowedLinuxCpus.length := List.length_pos_of_ne_nil hne
  unfold get
  rw [if_neg hne, uint32_of_lt hlt]
  split
  · rw [CpuCount.new_of_le hpos le_rfl]
    exact ⟨CpuCount.consistent_of hpos le_rfl hlt (.inl rfl), rfl⟩
  · rename_i cores allCoresHaveRelativePerformance hfold
    have hcores : CoresFor cores system.allowedLinuxCpus.length := by
      have hnone : CoresFor ([] : List (String × CpuCore)) 0 :=
        ⟨rfl, fun e he => absurd he List.not_mem_nil⟩
      have hfor := coresFor_foldlM hnone (by rwa [Nat.zero_add]) hfold
      rwa [Nat.zero_add] at hfor
    have hsome : 1 ≤ cores.length := List.length_pos_of_ne_nil (hcores.ne_nil hpos)
    have hiterated := hcores.perm (system.iteration_perm cores)
    rw [uint32_of_lt (hcores.length_le.trans_lt hlt), CpuCount.new_of_le hsome hcores.length_le]
    refine ⟨CpuCount.consistent_of hsome hcores.length_le hlt ?_, rfl⟩
    split_ifs
    · have hclasses := distinguishablePerformanceClasses_makeUp hiterated hlt
      rwa [(system.iteration_perm cores).length_eq] at hclasses
    · exact .inl rfl

/-- Two fast CPUs that share a core and a slow one on its own. -/
def threeCpus : CpuSystem where
  allowedLinuxCpus := [0, 1, 4]
  hardwareConcurrency := 8
  coreCpusList cpu := if cpu = 4 then none else some "0-1"
  threadSiblingsList _ := some "4"
  cpuCapacity cpu := (true, if cpu = 4 then 446 else 1024)
  iteration cores := cores.reverse
  iteration_perm cores := cores.reverse_perm

theorem CpuSystem.get_isConsistent_threeCpus :
    threeCpus.get = ⟨3, 2, [⟨446, 1, 1⟩, ⟨1024, 1, 2⟩]⟩ ∧ threeCpus.get.Consistent :=
  ⟨by decide, (threeCpus.get_isConsistent (List.cons_ne_nil _ _) (by decide)).1⟩

end CppUtils.Threading
