import CppUtils.ThreadPool.NestedWaits
import CppUtils.ThreadPool.WorkerTurns

/-!
# The turns of the drainers of a batch

How much is left to do for a batch: the indices not fetched yet, and the turns that each drainer needs
until it fetches again. No step of any thread makes this more, and a drainer's own turn makes it less.
-/

namespace CppUtils

open Threaded

variable {clients : ℕ} {U : UserCode} {cfg : PoolConfig}

/-- How many turns a drainer takes until it fetches, not counting what `fn` takes. -/
def DrainPc.turnsLeft : DrainPc → ℕ
  | .inFn _ => 3
  | .complete _ => 2
  | .allCompleted => 1
  | _ => 0

def drainTurns (inside : Multiset DrainPc) : ℕ := (inside.map DrainPc.turnsLeft).sum

@[simp] theorem drainTurns_zero : drainTurns 0 = 0 := rfl

@[simp] theorem drainTurns_cons (pc : DrainPc) (m : Multiset DrainPc) :
    drainTurns (pc ::ₘ m) = pc.turnsLeft + drainTurns m := by
  simp [drainTurns]

@[simp] theorem drainTurns_singleton (pc : DrainPc) : drainTurns {pc} = pc.turnsLeft := by
  simp [drainTurns]

@[simp] theorem drainTurns_add (m m' : Multiset DrainPc) :
    drainTurns (m + m') = drainTurns m + drainTurns m' := by
  simp [drainTurns]

/-- What is left of a batch: indices first, then turns. -/
def BatchCounters.workLeft (b : BatchCounters) (inside : Multiset DrainPc) : ℕ ×ₗ ℕ :=
  toLex (b.count - b.nextIndex, drainTurns inside)

structure BatchCounters.Later (b b' : BatchCounters) : Prop where
  count : b'.count = b.count
  nextIndex : b.nextIndex ≤ b'.nextIndex
  completions : b.completions ≤ b'.completions

namespace BatchCounters

variable {b b' : BatchCounters} {before after rest : Multiset DrainPc}

theorem Later.refl (b : BatchCounters) : b.Later b := ⟨rfl, le_rfl, le_rfl⟩

theorem Later.trans {b'' : BatchCounters} (h : b.Later b') (h' : b'.Later b'') : b.Later b'' :=
  ⟨h'.count.trans h.count, h.nextIndex.trans h'.nextIndex, h.completions.trans h'.completions⟩

theorem DrainMove.later (hmove : DrainMove b before b' after) (hroom : b.nextIndex + 1 < 2 ^ 64) :
    b.Later b' := by
  obtain ⟨hcount, hnext⟩ := hmove.nextIndex hroom
  refine ⟨hcount, hnext, ?_⟩
  cases hmove <;> simp

theorem DrainMove.workLeft_le (hmove : DrainMove b before b' after) (hroom : b.nextIndex + 1 < 2 ^ 64) :
    b'.workLeft (after + rest) ≤ b.workLeft (before + rest) := by
  have hmod : (b.nextIndex + 1) % 2 ^ 64 = b.nextIndex + 1 := Nat.mod_eq_of_lt hroom
  cases hmove with
  | dispense hindex =>
    refine Prod.Lex.toLex_le_toLex.mpr (.inl ?_)
    simp only [hmod]
    omega
  | exhausted hindex =>
    refine Prod.Lex.toLex_le_toLex.mpr (.inr ⟨?_, by simp [DrainPc.turnsLeft]⟩)
    simp only [hmod]
    omega
  | _ => exact Prod.Lex.toLex_le_toLex.mpr (.inr ⟨rfl, by simp [DrainPc.turnsLeft]⟩)

theorem DrainMove.workLeft_lt {pc : DrainPc} (hmove : DrainMove b {pc} b' after)
    (hroom : b.nextIndex + 1 < 2 ^ 64) (hmore : 0 < pc.turnsLeft ∨ pc = .fetch ∧ b.nextIndex < b.count) :
    b'.workLeft (after + rest) < b.workLeft ({pc} + rest) := by
  have hmod : (b.nextIndex + 1) % 2 ^ 64 = b.nextIndex + 1 := Nat.mod_eq_of_lt hroom
  generalize hbefore : ({pc} : Multiset DrainPc) = before at hmove
  cases hmove with
  | enter => exact absurd hbefore (Multiset.singleton_ne_zero pc)
  | exhausted hindex =>
    rw [Multiset.singleton_inj.mp hbefore] at hmore
    rcases hmore with hturns | ⟨-, hlt⟩
    · cases hturns
    · omega
  | dispense hindex =>
    refine Prod.Lex.toLex_lt_toLex.mpr (.inl ?_)
    simp only [hmod]
    omega
  | completionOver | completionThrew =>
    rw [Multiset.singleton_inj.mp hbefore] at hmore
    rcases hmore with hturns | ⟨hfetch, -⟩
    · cases hturns
    · cases hfetch
  | _ => exact Prod.Lex.toLex_lt_toLex.mpr (.inr ⟨rfl, by simp [DrainPc.turnsLeft]⟩)

end BatchCounters

theorem BatchStep.progress {n h h' k : ℕ} {c c' : Option BatchCounters} {m m' r : Multiset DrainPc}
    {b : BatchCounters} (hI : BatchInvariant n c (m + r) (h + k)) (hcard : (m + r).card ≤ h + k)
    (hstep : BatchStep n c m h c' m' h') (hb : c = some b) (hroom : b.count + (n + 1) < 2 ^ 64) :
    ∃ b', c' = some b' ∧ b.Later b' ∧ b'.workLeft (m' + r) ≤ b.workLeft (m + r) := by
  cases hstep with
  | quiet => exact ⟨b, hb, .refl b, le_rfl⟩
  | enter hm =>
    subst hm
    exact ⟨b, hb, .refl b, Prod.Lex.toLex_le_toLex.mpr (.inr ⟨rfl, by simp [DrainPc.turnsLeft]⟩)⟩
  | @drain b₁ b' _ _ hc hmove hne hle =>
    rw [hb] at hc
    cases hc
    have hnext : b.nextIndex + 1 < 2 ^ 64 := by
      have hcredits := (hI.made b hb).2.1
      have hpos := Multiset.card_pos.mpr hne
      rw [Multiset.card_add] at hcard
      omega
    exact ⟨b', rfl, hmove.later hnext, hmove.workLeft_le hnext⟩
  | make hc =>
    rw [hb] at hc
    cases hc

theorem DrainIndicesMove.drainMove {Code : Type} {s s' : Shared cfg.maxNumThreads clients Code} {batch : ℕ}
    {pc : DrainPc} {after : List (Frame cfg.maxNumThreads Code)} {b : BatchCounters}
    (hmove : DrainIndicesMove s batch pc s' after) (hb : s.counters batch = some b) :
    ∃ b', s'.counters batch = some b' ∧ b.DrainMove {pc} b' (stackWeight (Frame.drainPcs batch) after) := by
  have hleads : ∀ {b₁ : ParallelBatchState cfg.maxNumThreads clients Code} {m : Multiset DrainPc}
      {effect : DrainEffect}, s.batches batch = some b₁ → (b₁.counters.drainStep pc).2 = effect →
      effect.LeadsTo m → b.DrainMove {pc} (b₁.counters.drainStep pc).1 m := by
    intro b₁ m effect hbatch heffect hleads
    rw [Shared.counters, hbatch] at hb
    cases hb
    exact BatchCounters.drainStep_move (heffect ▸ hleads)
  cases hmove with
  | exit hbatch heffect => exact ⟨_, by simp [Shared.counters_setBatch], hleads hbatch heffect .exit⟩
  | @goto _ _ pc' hbatch heffect =>
    refine ⟨_, by simp [Shared.counters_setBatch]; rfl, ?_⟩
    simpa [Frame.drainPcs] using hleads hbatch heffect (.goto pc')
  | @callFn _ _ index hbatch heffect =>
    refine ⟨_, by simp [Shared.counters_setBatch]; rfl, ?_⟩
    simpa [Frame.drainPcs] using hleads hbatch heffect (.callFn index)
  | callUser hbatch heffect =>
    refine ⟨_, by simp [Shared.counters_setBatch]; rfl, ?_⟩
    simpa [Frame.drainPcs] using hleads hbatch heffect .callUser
  | signal hbatch heffect =>
    refine ⟨_, by simp [Shared.counters_setBatch]; rfl, ?_⟩
    simpa [Frame.drainPcs] using hleads hbatch heffect .signal

namespace PoolSystem

variable {s s' : PoolSystem cfg U clients} {batch : ℕ} {b : BatchCounters}

/-- What any step does to a batch. -/
theorem batch_progress (hreach : (poolSystem cfg U clients).Reachable s)
    (hstep : (poolSystem cfg U clients).Step s s') (hb : s.shared.counters batch = some b)
    (hroom : b.count + (cfg.maxNumThreads + 1) < 2 ^ 64) :
    ∃ b', s'.shared.counters batch = some b' ∧ b.Later b' ∧
      b'.workLeft (s'.insideBatch batch) ≤ b.workLeft (s.insideBatch batch) := by
  have hI := batchInvariant hreach batch
  have hcard := s.card_insideBatch_le batch
  cases step_move hstep with
  | @mk shared' before after rest t hstack hrule =>
    obtain ⟨r, hpcs, hpcs'⟩ := weight_split (Frame.drainPcs batch) hstack after
    obtain ⟨k, hhelpers, hhelpers'⟩ := weight_split (Frame.helpers batch) hstack after
    simp only [insideBatch, helpersOf, hpcs, hpcs', hhelpers, ← add_assoc] at hI hcard ⊢
    cases hrule with
    | frame hmove =>
      simp only [stackWeight_cons, stackWeight_nil, add_zero] at hI hcard ⊢
      exact (hmove.batchStep (batchesMade hreach _ le_rfl)).progress hI hcard hb hroom
    | @unwind _ _ f _ hunwind =>
      simp only [stackWeight_cons, stackWeight_nil, add_zero, Frame.drainPcs_unwinding,
        Frame.helpers_unwinding, zero_add] at hI hcard ⊢
      refine BatchStep.progress hI hcard (unwind_batchStep hunwind fun hnone => ?_) hb hroom
      have hzero := hI.notMade hnone
      omega

/-- A drainer that takes a turn does something, unless it leaves. -/
theorem batch_turn (hreach : (poolSystem cfg U clients).Reachable s)
    {t : ThreadId cfg.maxNumThreads clients} {c : Choice cfg.maxNumThreads clients U.Input}
    (h : step cfg U t c s = some s') {pc : DrainPc} {rest : List (Frame cfg.maxNumThreads U.Code)}
    (hstack : s.threads t = .drainIndices batch pc :: rest) (hb : s.shared.counters batch = some b)
    (hroom : b.count + (cfg.maxNumThreads + 1) < 2 ^ 64)
    (hmore : 0 < pc.turnsLeft ∨ pc = .fetch ∧ b.nextIndex < b.count) :
    ∃ b', s'.shared.counters batch = some b' ∧ b'.workLeft (s'.insideBatch batch) <
      b.workLeft (s.insideBatch batch) := by
  obtain ⟨shared', after, hmove, rfl⟩ := step_eq_some_of_frame hstack nofun h
  have hcard := s.card_insideBatch_le batch
  have hI := batchInvariant hreach batch
  have hstack' : s.threads t = [.drainIndices batch pc] ++ rest := hstack
  obtain ⟨r, hpcs, hpcs'⟩ := weight_split (Frame.drainPcs batch) hstack' after
  have hone : stackWeight (Frame.drainPcs batch)
      ([.drainIndices batch pc] : List (Frame cfg.maxNumThreads U.Code)) = {pc} := by
    simp [Frame.drainPcs]
  rw [hone] at hpcs
  cases hmove with
  | drainIndices hmove =>
    obtain ⟨b', hb', hdrain⟩ := hmove.drainMove hb
    have hnext : b.nextIndex + 1 < 2 ^ 64 := by
      have hcredits := (hI.made b hb).2.1
      rw [insideBatch, hpcs, Multiset.card_add, Multiset.card_singleton] at hcard
      omega
    refine ⟨b', hb', ?_⟩
    rw [insideBatch, insideBatch, hpcs, hpcs']
    exact hdrain.workLeft_lt hnext hmore

end PoolSystem

end CppUtils
