import CppUtils.Lib.TransitionSystem
import CppUtils.Lib.Threads
import CppUtils.ThreadPool.ParallelFor

/-!
# One batch and the threads that drain it

`nextIndex` hands out the indices and `completedCount` takes them back. Which indices are between
the two is known from where the drainers stand, and this alone decides how often `fn` and
`onAllCompleted` run, whatever the order of the steps and whichever calls of `fn` throw.
-/

namespace CppUtils

namespace DrainPc

/-- The index whose call of `fn` has not returned or thrown. -/
def running : DrainPc → Multiset ℕ
  | .inFn index => {index}
  | _ => 0

/-- The drainer holds an index that is not counted as completed. -/
def holdsIndex : DrainPc → Bool
  | .inFn _ => true
  | .complete _ => true
  | _ => false

section

variable (index : ℕ)

@[simp] theorem running_fetch : fetch.running = 0 := rfl

@[simp] theorem running_inFn : (inFn index).running = {index} := rfl

@[simp] theorem running_complete : (complete index).running = 0 := rfl

@[simp] theorem running_allCompleted : allCompleted.running = 0 := rfl

@[simp] theorem running_inCompletion : inCompletion.running = 0 := rfl

@[simp] theorem holdsIndex_fetch : fetch.holdsIndex = false := rfl

@[simp] theorem holdsIndex_inFn : (inFn index).holdsIndex = true := rfl

@[simp] theorem holdsIndex_complete : (complete index).holdsIndex = true := rfl

@[simp] theorem holdsIndex_allCompleted : allCompleted.holdsIndex = false := rfl

@[simp] theorem holdsIndex_inCompletion : inCompletion.holdsIndex = false := rfl

end

end DrainPc

/-- Where a drainer stands after a step with this effect, nowhere if it is outside. -/
inductive DrainEffect.LeadsTo : DrainEffect → Multiset DrainPc → Prop
  | exit : LeadsTo .exit 0
  | goto (pc : DrainPc) : LeadsTo (.goto pc) {pc}
  | callFn (index : ℕ) : LeadsTo (.callFn index) {.inFn index}
  | signal : LeadsTo .complete {.fetch}
  | callUser : LeadsTo .complete {.inCompletion}

namespace BatchCounters

/-- What one drainer does: where it stands, none when it is outside, and the words of the batch. A
call of `fn` that throws goes on like one that returns; a completion action that throws leaves. -/
inductive DrainMove (b : BatchCounters) : Multiset DrainPc → BatchCounters → Multiset DrainPc → Prop
  | enter : DrainMove b 0 b {.fetch}
  | exhausted (hindex : b.count ≤ b.nextIndex) :
      DrainMove b {.fetch} { b with nextIndex := (b.nextIndex + 1) % 2 ^ 64 } 0
  | dispense (hindex : b.nextIndex < b.count) :
      DrainMove b {.fetch}
        { b with nextIndex := (b.nextIndex + 1) % 2 ^ 64, fnBegun := b.nextIndex :: b.fnBegun }
        {.inFn b.nextIndex}
  | fnOver (index : ℕ) :
      DrainMove b {.inFn index} { b with fnOver := index :: b.fnOver } {.complete index}
  | completeLast (index : ℕ) (hlast : (b.completedCount + 1) % 2 ^ 64 = b.count) :
      DrainMove b {.complete index} { b with completedCount := (b.completedCount + 1) % 2 ^ 64 }
        {.allCompleted}
  | complete (index : ℕ) (hlast : (b.completedCount + 1) % 2 ^ 64 ≠ b.count) :
      DrainMove b {.complete index} { b with completedCount := (b.completedCount + 1) % 2 ^ 64 }
        {.fetch}
  | signal : DrainMove b {.allCompleted} { b with completions := b.completions + 1 } {.fetch}
  | callUser : DrainMove b {.allCompleted} { b with completions := b.completions + 1 } {.inCompletion}
  | completionOver : DrainMove b {.inCompletion} b {.fetch}
  | completionThrew : DrainMove b {.inCompletion} b 0

variable {b b' : BatchCounters} {pc : DrainPc} {before after rest inside : Multiset DrainPc}

theorem drainStep_move (hafter : (b.drainStep pc).2.LeadsTo after) :
    DrainMove b {pc} (b.drainStep pc).1 after := by
  revert hafter
  fun_cases drainStep b pc
  all_goals intro hafter
  all_goals cases hafter
  case case1 hindex => exact .exhausted hindex
  case case2 hindex => exact .dispense (Nat.lt_of_not_le hindex)
  case case3 index => exact .fnOver index
  case case4 index _ hlast => exact .completeLast index hlast
  case case5 index _ hlast => exact .complete index hlast
  case case6.signal => exact .signal
  case case6.callUser => exact .callUser
  case case7 => exact .completionOver

def dispensed (b : BatchCounters) : ℕ := min b.nextIndex b.count

/-- How the words and the records of a batch follow from where its drainers stand. -/
structure Consistent (b : BatchCounters) (inside : Multiset DrainPc) : Prop where
  begun : b.fnBegun = (List.range b.dispensed).reverse
  returned : (b.fnOver : Multiset ℕ) + inside.bind DrainPc.running = Multiset.range b.dispensed
  completed : b.completedCount + inside.countP (fun pc => pc.holdsIndex = true) = b.dispensed
  completions : b.completions + inside.count .allCompleted
    = if b.completedCount = b.count then 1 else 0
  inCompletion : .inCompletion ∈ inside → 0 < b.completions
  entered : b.nextIndex = 0 ∨ inside ≠ 0 ∨ b.count ≤ b.nextIndex

private theorem Consistent.of_dispensed {d : ℕ} (hd : b.dispensed = d)
    (hbegun : b.fnBegun = (List.range d).reverse)
    (hreturned : (b.fnOver : Multiset ℕ) + inside.bind DrainPc.running = Multiset.range d)
    (hcompleted : b.completedCount + inside.countP (fun pc => pc.holdsIndex = true) = d)
    (hcompletions : b.completions + inside.count .allCompleted
      = if b.completedCount = b.count then 1 else 0)
    (hin : .inCompletion ∈ inside → 0 < b.completions)
    (hentered : b.nextIndex = 0 ∨ inside ≠ 0 ∨ b.count ≤ b.nextIndex) : Consistent b inside := by
  subst hd
  exact ⟨hbegun, hreturned, hcompleted, hcompletions, hin, hentered⟩

theorem Consistent.initial {count : ℕ} (hcount : 0 < count) : Consistent (initial count) 0 where
  begun := by simp [BatchCounters.initial, dispensed]
  returned := by simp [BatchCounters.initial, dispensed]
  completed := by simp [BatchCounters.initial, dispensed]
  completions := by simp [BatchCounters.initial, hcount.ne]
  inCompletion h := absurd h (Multiset.notMem_zero _)
  entered := .inl rfl

theorem dispensed_le (b : BatchCounters) : b.dispensed ≤ b.count := Nat.min_le_right _ _

theorem Consistent.completedCount_le (hI : Consistent b inside) : b.completedCount ≤ b.count := by
  have hcompleted := hI.completed
  have hle := b.dispensed_le
  omega

/-- The move of a drainer changes no words but these, as long as `nextIndex` does not wrap. -/
theorem DrainMove.nextIndex (hmove : DrainMove b before b' after) (hroom : b.nextIndex + 1 < 2 ^ 64) :
    b'.count = b.count ∧ b.nextIndex ≤ b'.nextIndex := by
  cases hmove with
  | exhausted | dispense => exact ⟨rfl, by rw [Nat.mod_eq_of_lt hroom]; exact Nat.le_succ _⟩
  | _ => exact ⟨rfl, le_rfl⟩

/-- What the drainers have fetched beyond the last index is paid by the drainers that left. -/
theorem DrainMove.credits (hmove : DrainMove b before b' after) (hne : before ≠ 0) :
    b'.nextIndex - b'.count + after.card ≤ b.nextIndex - b.count + before.card := by
  cases hmove with
  | enter => exact absurd rfl hne
  | exhausted | dispense =>
    have hle := Nat.mod_le (b.nextIndex + 1) (2 ^ 64)
    simp only [Multiset.card_singleton, Multiset.card_zero]
    omega
  | _ => simp

theorem Consistent.step (hI : Consistent b (before + rest)) (hmove : DrainMove b before b' after)
    (hcount : b.count < 2 ^ 64) (hroom : b.nextIndex + 1 < 2 ^ 64) : Consistent b' (after + rest) := by
  have hnext : (b.nextIndex + 1) % 2 ^ 64 = b.nextIndex + 1 := Nat.mod_eq_of_lt hroom
  have hle := hI.completedCount_le
  obtain ⟨hbegun, hreturned, hcompleted, hcompletions, hin, hentered⟩ := hI
  cases hmove
  all_goals simp only [zero_add, Multiset.singleton_add, Multiset.cons_bind, Multiset.countP_cons,
    Multiset.count_cons, Multiset.mem_cons] at hreturned hcompleted hcompletions hin hentered ⊢
  case enter =>
    exact ⟨hbegun, by simpa using hreturned, by simpa using hcompleted, by simpa using hcompletions,
      by simpa using hin, by simp⟩
  case exhausted hindex =>
    have hall : b.dispensed = b.count := Nat.min_eq_right hindex
    rw [hall] at hbegun hreturned hcompleted
    apply Consistent.of_dispensed (d := b.count)
    · simp only [dispensed, hnext, Nat.min_eq_right (Nat.le_succ_of_le hindex)]
    · exact hbegun
    · simpa using hreturned
    · simpa using hcompleted
    · simpa using hcompletions
    · exact fun h => hin (.inr h)
    · rw [hnext]
      exact .inr (.inr (Nat.le_succ_of_le hindex))
  case dispense hindex =>
    have hall : b.dispensed = b.nextIndex := Nat.min_eq_left hindex.le
    rw [hall] at hbegun hreturned hcompleted
    apply Consistent.of_dispensed (d := b.nextIndex + 1)
    · simp only [dispensed, hnext, Nat.min_eq_left (Nat.succ_le_of_lt hindex)]
    · rw [hbegun, List.range_succ, List.reverse_append]
      rfl
    · rw [Multiset.range_succ, ← hreturned]
      simp
    · rw [Multiset.countP_cons, ← hcompleted]
      simp [add_assoc]
    · simpa using hcompletions
    · simpa using hin
    · exact .inr (.inl (by simp))
  case fnOver index =>
    refine .of_dispensed (d := b.dispensed) rfl hbegun ?_ ?_ ?_ ?_ ?_
    · rw [← hreturned, ← Multiset.cons_coe, Multiset.cons_bind, DrainPc.running_complete,
        DrainPc.running_inFn, zero_add, Multiset.singleton_add, Multiset.cons_add, Multiset.add_cons]
    · simpa [Multiset.countP_cons] using hcompleted
    · simpa using hcompletions
    · simpa using hin
    · exact .inr (.inl (by simp))
  case completeLast index hlast =>
    simp only [DrainPc.holdsIndex_complete, if_true] at hcompleted
    have hdispensed := b.dispensed_le
    have hmod : (b.completedCount + 1) % 2 ^ 64 = b.completedCount + 1 := Nat.mod_eq_of_lt (by omega)
    have hone : b.completedCount ≠ b.count := by omega
    simp only [hone, if_false, reduceCtorEq, add_zero] at hcompletions
    refine .of_dispensed (d := b.dispensed) rfl hbegun ?_ ?_ ?_ ?_ ?_
    · simpa using hreturned
    · rw [hmod, Multiset.countP_cons, DrainPc.holdsIndex_allCompleted, if_neg Bool.false_ne_true]
      change b.completedCount + 1 + _ = b.dispensed
      omega
    · rw [if_pos hlast, Multiset.count_cons_self, ← add_assoc, hcompletions]
    · simpa using hin
    · exact .inr (.inl (by simp))
  case complete index hlast =>
    simp only [DrainPc.holdsIndex_complete, if_true] at hcompleted
    have hdispensed := b.dispensed_le
    have hmod : (b.completedCount + 1) % 2 ^ 64 = b.completedCount + 1 := Nat.mod_eq_of_lt (by omega)
    have hone : b.completedCount ≠ b.count := by omega
    simp only [hone, if_false, reduceCtorEq, add_zero] at hcompletions
    refine .of_dispensed (d := b.dispensed) rfl hbegun ?_ ?_ ?_ ?_ ?_
    · simpa using hreturned
    · rw [hmod, Multiset.countP_cons, DrainPc.holdsIndex_fetch, if_neg Bool.false_ne_true]
      change b.completedCount + 1 + _ = b.dispensed
      omega
    · rw [if_neg hlast, Multiset.count_cons_of_ne (by simp)]
      exact hcompletions
    · simpa using hin
    · exact .inr (.inl (by simp))
  case signal | callUser =>
    refine .of_dispensed (d := b.dispensed) rfl hbegun ?_ ?_ ?_ ?_ ?_
    · simpa using hreturned
    · simpa [Multiset.countP_cons] using hcompleted
    · rw [Multiset.count_cons_of_ne (by simp), ← hcompletions, if_pos trivial]
      exact Nat.add_right_comm _ _ _
    · exact fun _ => Nat.succ_pos _
    · exact .inr (.inl (by simp))
  case completionOver =>
    exact ⟨hbegun, by simpa using hreturned, by simpa [Multiset.countP_cons] using hcompleted,
      by simpa using hcompletions, fun _ => hin (.inl trivial), .inr (.inl (by simp))⟩
  case completionThrew =>
    have hpos := hin (.inl trivial)
    refine ⟨hbegun, by simpa using hreturned, by simpa using hcompleted, by simpa using hcompletions,
      fun _ => hpos, .inr (.inr ?_)⟩
    have hall : b.completedCount = b.count := by
      by_contra hne
      simp only [hne, if_false] at hcompletions
      omega
    have hdispensed : b.dispensed ≤ b.nextIndex := Nat.min_le_left _ _
    omega

/-! ### What follows for the calls -/

def Untouched (b : BatchCounters) : Prop := b.fnBegun = [] ∧ b.fnOver = [] ∧ b.completions = 0

/-- `fn` has been called once on every index, all calls are over, `onAllCompleted` has run once. -/
def RunToEnd (b : BatchCounters) : Prop :=
  b.fnBegun.Perm (List.range b.count) ∧ b.fnOver.Perm (List.range b.count) ∧ b.completions = 1

theorem Consistent.begun_once (hI : Consistent b inside) :
    b.fnBegun.Nodup ∧ ∀ index ∈ b.fnBegun, index < b.count := by
  rw [hI.begun]
  refine ⟨List.nodup_reverse.mpr List.nodup_range, fun index hindex => ?_⟩
  rw [List.mem_reverse, List.mem_range] at hindex
  exact hindex.trans_le b.dispensed_le

theorem Consistent.completions_le (hI : Consistent b inside) : b.completions ≤ 1 := by
  have hcompletions := hI.completions
  split at hcompletions <;> omega

theorem Consistent.completedCount_eq (hI : Consistent b inside) (hpos : 0 < b.completions) :
    b.completedCount = b.count := by
  have hcompletions := hI.completions
  split at hcompletions <;> omega

theorem Consistent.returned_all (hI : Consistent b inside) (hall : b.completedCount = b.count) :
    b.fnBegun.Perm (List.range b.count) ∧ b.fnOver.Perm (List.range b.count) := by
  have hcompleted := hI.completed
  have hle := b.dispensed_le
  have hdispensed : b.dispensed = b.count := by omega
  have hnone : inside.countP (fun pc => pc.holdsIndex = true) = 0 := by omega
  have hrunning : inside.bind DrainPc.running = 0 := by
    rw [Multiset.eq_zero_iff_forall_notMem]
    intro index hindex
    obtain ⟨pc, hpc, hmem⟩ := Multiset.mem_bind.mp hindex
    have hholds := Multiset.countP_eq_zero.mp hnone pc hpc
    cases pc <;> simp at hmem hholds
  constructor
  · rw [hI.begun, hdispensed]
    exact List.reverse_perm _
  · have hreturned := hI.returned
    rw [hrunning, add_zero, hdispensed] at hreturned
    exact Multiset.coe_eq_coe.mp hreturned

/-- With no thread inside, the batch has not begun or is over. -/
theorem Consistent.all_or_nothing (hI : Consistent b 0) (hcount : 0 < b.count) :
    b.Untouched ∨ b.RunToEnd := by
  rcases hI.entered with hzero | hne | hall
  · left
    have hdispensed : b.dispensed = 0 := by simp [dispensed, hzero]
    have hcompleted : b.completedCount = 0 := by simpa [hdispensed] using hI.completed
    refine ⟨by simpa [hdispensed] using hI.begun, by simpa [hdispensed] using hI.returned, ?_⟩
    simpa [hcompleted, hcount.ne] using hI.completions
  · exact absurd rfl hne
  · right
    have hdispensed : b.dispensed = b.count := Nat.min_eq_right hall
    have hcompleted : b.completedCount = b.count := by simpa [hdispensed] using hI.completed
    obtain ⟨hbegun, hover⟩ := hI.returned_all hcompleted
    exact ⟨hbegun, hover, by simpa [hcompleted] using hI.completions⟩

end BatchCounters

/-! ### Any number of drainers -/

inductive Drainer
  | waiting
  | inside (pc : DrainPc)
  | left

namespace Drainer

def pcs : Drainer → Multiset DrainPc
  | .inside pc => {pc}
  | _ => 0

def active : Drainer → ℕ
  | .left => 0
  | _ => 1

/-- One step of one thread: it calls `drainIndices`, takes a step in it, or leaves it with the
exception of a completion action. -/
inductive Move (b : BatchCounters) : Drainer → BatchCounters → Drainer → Prop
  | start : Move b .waiting b (.inside .fetch)
  | drain {pc pc' : DrainPc} (heffect : (b.drainStep pc).2.LeadsTo {pc'}) :
      Move b (.inside pc) (b.drainStep pc).1 (.inside pc')
  | exit {pc : DrainPc} (heffect : (b.drainStep pc).2.LeadsTo 0) :
      Move b (.inside pc) (b.drainStep pc).1 .left
  | threw : Move b (.inside .inCompletion) b .left

variable {b b' : BatchCounters} {d d' : Drainer}

theorem Move.drainMove (hmove : Move b d b' d') : b.DrainMove d.pcs b' d'.pcs := by
  cases hmove with
  | start => exact .enter
  | drain heffect => exact BatchCounters.drainStep_move heffect
  | exit heffect => exact BatchCounters.drainStep_move heffect
  | threw => exact .completionThrew

theorem Move.active_eq_one (hmove : Move b d b' d') : d.active = 1 := by
  cases hmove <;> rfl

theorem Move.credits (hmove : Move b d b' d') :
    b'.nextIndex - b'.count + d'.active ≤ b.nextIndex - b.count + d.active := by
  cases hmove with
  | start => exact le_rfl
  | drain heffect => exact (BatchCounters.drainStep_move heffect).credits (Multiset.singleton_ne_zero _)
  | exit heffect => exact (BatchCounters.drainStep_move heffect).credits (Multiset.singleton_ne_zero _)
  | threw => exact Nat.le_succ _

end Drainer

structure Drainers (k : ℕ) where
  counters : BatchCounters
  drainers : Fin k → Drainer

def drainersSystem (count k : ℕ) : TransitionSystem (Drainers k) where
  Init s := s = ⟨.initial count, fun _ => .waiting⟩
  Step s s' := ∃ i d', (s.drainers i).Move s.counters s'.counters d' ∧
    s'.drainers = Function.update s.drainers i d'

namespace Drainers

variable {count k : ℕ} {s s' : Drainers k}

def inside (s : Drainers k) : Multiset DrainPc := ∑ i, (s.drainers i).pcs

def active (s : Drainers k) : ℕ := ∑ i, (s.drainers i).active

structure Invariant (count : ℕ) (s : Drainers k) : Prop where
  count_eq : s.counters.count = count
  consistent : s.counters.Consistent s.inside
  credits : s.counters.nextIndex - count + s.active ≤ k

theorem Invariant.step (hroom : count + k < 2 ^ 64) (hI : Invariant count s)
    (hstep : (drainersSystem count k).Step s s') :
    Invariant count s' ∧ s.counters.nextIndex ≤ s'.counters.nextIndex := by
  obtain ⟨i, d', hmove, hdrainers⟩ := hstep
  obtain ⟨r, hpcs, hpcs'⟩ := sum_split Drainer.pcs s.drainers i
  obtain ⟨a, hactive, hactive'⟩ := sum_split Drainer.active s.drainers i
  have hcredits := hI.credits
  have hone := hmove.active_eq_one
  have hpaid := hmove.credits
  have hcount := hI.count_eq
  have hactive : s.active = (s.drainers i).active + a := hactive
  have hactive' : s'.active = d'.active + a := by rw [active, hdrainers]; exact hactive' d'
  have hnext : s.counters.nextIndex + 1 < 2 ^ 64 := by omega
  obtain ⟨hcount', hmono⟩ := hmove.drainMove.nextIndex hnext
  refine ⟨⟨hcount'.trans hcount, ?_, ?_⟩, hmono⟩
  · have hinside : s'.inside = d'.pcs + r := by rw [inside, hdrainers]; exact hpcs' d'
    have hconsistent := hI.consistent
    rw [show s.inside = (s.drainers i).pcs + r from hpcs] at hconsistent
    rw [hinside]
    exact hconsistent.step hmove.drainMove (by omega) hnext
  · omega

theorem invariant (hcount : 0 < count) (hroom : count + k < 2 ^ 64)
    (hreach : (drainersSystem count k).Reachable s) : Invariant count s := by
  refine TransitionSystem.Reachable.invariant (Invariant count) ?_
    (fun s s' _ hI hstep => (hI.step hroom hstep).1) hreach
  rintro s rfl
  refine ⟨rfl, ?_, ?_⟩
  · have hinside : inside ⟨.initial count, fun _ : Fin k => .waiting⟩ = 0 :=
      Finset.sum_eq_zero fun _ _ => rfl
    rw [hinside]
    exact .initial hcount
  · simp [active, BatchCounters.initial, Drainer.active]

end Drainers

end CppUtils
