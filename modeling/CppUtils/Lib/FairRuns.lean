import Mathlib.Order.WellFounded
import Mathlib.Data.Nat.Find

/-!
# Fair runs

An infinite run of several parties that take turns. What a party may wait for is up to the system: it
is *ready* in a state in which it need not wait. The run is fair to a party if that party takes a step
whenever it is ready from some time on.

The rules conclude that something happens at last. Progress is a rank that no step raises and that a
turn of one party lowers, as long as that party is at a place where its turns count; elsewhere it is
an assumption on the run that the party comes back.
-/

namespace CppUtils

variable {ι State : Type*}

/-- An infinite run, with the party that takes each step, fair to some of the parties. -/
structure FairRun (Step Ready : ι → State → State → Prop) (Fair : ι → Prop) where
  state : ℕ → State
  party : ℕ → ι
  step (n : ℕ) : Step (party n) (state n) (state (n + 1))
  fair (t : ι) (ht : Fair t) (n : ℕ) (hready : ∀ m, n ≤ m → ∃ s', Ready t (state m) s') :
    ∃ m, n ≤ m ∧ party m = t

/-- From some time on, at the latest, this holds at some time. -/
def Eventually (Q : ℕ → Prop) (n : ℕ) : Prop := ∃ m, n ≤ m ∧ Q m

namespace Eventually

variable {A Q : ℕ → Prop} {n m : ℕ}

theorem now (h : Q n) : Eventually Q n := ⟨n, le_rfl, h⟩

theorem later (hle : n ≤ m) (h : Eventually Q m) : Eventually Q n :=
  let ⟨k, hk, hQ⟩ := h
  ⟨k, hle.trans hk, hQ⟩

theorem mono {Q' : ℕ → Prop} (hQ : ∀ m, n ≤ m → Q m → Q' m) (h : Eventually Q n) : Eventually Q' n :=
  let ⟨k, hk, h⟩ := h
  ⟨k, hk, hQ k hk h⟩

theorem trans (h : Eventually A n) (hA : ∀ m, n ≤ m → A m → Eventually Q m) : Eventually Q n :=
  let ⟨k, hk, h⟩ := h
  (hA k hk h).later hk

/-- A rank that gets smaller at some later time, for as long as the goal is not met. -/
theorem of_descent {β : Type*} [Preorder β] [WellFoundedLT β] (rank : ℕ → β)
    (hdescent : ∀ n, A n → Eventually (fun m => Q m ∨ A m ∧ rank m < rank n) n) :
    ∀ n, A n → Eventually Q n := by
  intro n
  induction hr : rank n using WellFoundedLT.induction generalizing n with
  | ind r ih =>
    intro hA
    refine (hdescent n hA).trans fun m _ h => ?_
    rcases h with hQ | ⟨hA', hlt⟩
    · exact now hQ
    · exact ih (rank m) (hr ▸ hlt) m rfl hA'

/-- What every step keeps until the goal is met is kept until then. -/
theorem or_kept (hkept : ∀ n, A n → Q (n + 1) ∨ A (n + 1)) (hle : n ≤ m) (hA : A n) :
    Eventually Q n ∨ A m := by
  induction m, hle using Nat.le_induction with
  | base => exact .inr hA
  | succ k hk ih =>
    rcases ih with hQ | hA'
    · exact .inl hQ
    · rcases hkept k hA' with hQ | hA'
      · exact .inl ⟨k + 1, by omega, hQ⟩
      · exact .inr hA'

theorem all {α : Type*} {P : α → ℕ → Prop} {l : List α}
    (hkept : ∀ a m, P a m → P a (m + 1)) (h : ∀ a ∈ l, Eventually (P a) n) :
    Eventually (fun m => ∀ a ∈ l, P a m) n := by
  induction l with
  | nil => exact .now fun a ha => absurd ha List.not_mem_nil
  | cons a l ih =>
    obtain ⟨m, hm, hall⟩ := ih fun b hb => h b (List.mem_cons_of_mem a hb)
    obtain ⟨k, hk, ha⟩ := h a List.mem_cons_self
    have hlater : ∀ b i j, P b i → i ≤ j → P b j := fun b i j hb hij => by
      induction j, hij using Nat.le_induction with
      | base => exact hb
      | succ j _ ih => exact hkept b j ih
    refine ⟨max m k, hm.trans (Nat.le_max_left m k), fun b hb => ?_⟩
    rcases List.mem_cons.mp hb with rfl | hb
    · exact hlater b k _ ha (Nat.le_max_right m k)
    · exact hlater b m _ (hall b hb) (Nat.le_max_left m k)

end Eventually

namespace FairRun

variable {Step Ready : ι → State → State → Prop} {Fair : ι → Prop} (r : FairRun Step Ready Fair)
  {t : ι} {A Q : ℕ → Prop}

/-- A party that stays ready until its next turn takes one, or the goal is met before. -/
theorem exists_turn (ht : Fair t) (hready : ∀ n, A n → ∃ s', Ready t (r.state n) s')
    (hkept : ∀ n, A n → r.party n ≠ t → Q (n + 1) ∨ A (n + 1)) {n : ℕ} (hA : A n) :
    Eventually (fun m => Q m ∨ A m ∧ r.party m = t) n := by
  by_contra hnever
  have hall : ∀ m, n ≤ m → A m := by
    intro m hm
    induction m, hm using Nat.le_induction with
    | base => exact hA
    | succ k hk ih =>
      have hother : r.party k ≠ t := fun h => hnever ⟨k, hk, .inr ⟨ih, h⟩⟩
      rcases hkept k ih hother with hQ | hA'
      · exact absurd ⟨k + 1, by omega, .inl hQ⟩ hnever
      · exact hA'
  obtain ⟨m, hm, hturn⟩ := r.fair t ht n fun m hm => hready m (hall m hm)
  exact hnever ⟨m, hm, .inr ⟨hall m hm, hturn⟩⟩

/-- A party that brings the goal nearer with each turn it takes at home. -/
structure Helps {β : Type*} [LT β] (A Q : ℕ → Prop) (rank : ℕ → β) (t : ι) (Home : ℕ → Prop) : Prop where
  ready (n : ℕ) (hA : A n) (hhome : Home n) : ∃ s', Ready t (r.state n) s'
  stay (n : ℕ) (hA : A n) (hhome : Home n) (hother : r.party n ≠ t) : Q (n + 1) ∨ Home (n + 1)
  turn (n : ℕ) (hA : A n) (hhome : Home n) (hturn : r.party n = t) : Q (n + 1) ∨ rank (n + 1) < rank n

/-- The goal is met at last if no step raises the rank before, and at any time before some party helps that
comes home at last. -/
theorem eventually_of_helpers {β : Type*} [PartialOrder β] [WellFoundedLT β] (rank : ℕ → β)
    (hstep : ∀ n, A n → Q (n + 1) ∨ A (n + 1) ∧ rank (n + 1) ≤ rank n)
    (hhelper : ∀ n, A n → ∃ t Home, Fair t ∧ r.Helps A Q rank t Home ∧ Eventually (fun m => Q m ∨ Home m) n) :
    ∀ n, A n → Eventually Q n := by
  refine Eventually.of_descent rank fun n hA => ?_
  -- What holds at the time `m`, seen from `n`.
  let Since := fun m => A m ∧ rank m ≤ rank n
  have hsince : ∀ m, Since m → Q (m + 1) ∨ Since (m + 1) := fun m h =>
    (hstep m h.1).imp_right fun h' => ⟨h'.1, h'.2.trans h.2⟩
  obtain ⟨t, Home, ht, hhelps, m, hm, hQ | hhome⟩ := hhelper n hA
  · exact ⟨m, hm, .inl hQ⟩
  rcases Eventually.or_kept hsince hm ⟨hA, le_rfl⟩ with hQ | hAm
  · exact hQ.mono fun _ _ => .inl
  have hgoal : Eventually (fun k => Q k ∨ (Since k ∧ Home k) ∧ r.party k = t) m := by
    refine r.exists_turn (A := fun k => Since k ∧ Home k) ht (fun k h => hhelps.ready k h.1.1 h.2)
      (fun k h hother => ?_) ⟨hAm, hhome⟩
    rcases hsince k h.1 with hQ | hA'
    · exact .inl hQ
    · exact (hhelps.stay k h.1.1 h.2 hother).imp_right fun hhome' => ⟨hA', hhome'⟩
  obtain ⟨k, hk, hQ | ⟨⟨hAk, hhomek⟩, hturnk⟩⟩ := hgoal
  · exact ⟨k, hm.trans hk, .inl hQ⟩
  refine ⟨k + 1, by omega, ?_⟩
  rcases hhelps.turn k hAk.1 hhomek hturnk with hQ | hlt
  · exact .inl hQ
  · exact (hsince k hAk).imp_right fun h => ⟨h.1, hlt.trans_le hAk.2⟩

/-- The goal is met at last if no step raises the rank before, a turn of the party lowers it while the
party is at home, and the party is at home again and again. -/
theorem eventually_of_rank {β : Type*} [PartialOrder β] [WellFoundedLT β] (rank : ℕ → β)
    (Home : ℕ → Prop) (ht : Fair t) (hready : ∀ n, A n → Home n → ∃ s', Ready t (r.state n) s')
    (hhome : ∀ n, A n → Eventually (fun m => Q m ∨ Home m) n)
    (hstay : ∀ n, A n → Home n → r.party n ≠ t → Q (n + 1) ∨ Home (n + 1))
    (hstep : ∀ n, A n → Q (n + 1) ∨ A (n + 1) ∧ rank (n + 1) ≤ rank n)
    (hturn : ∀ n, A n → Home n → r.party n = t → Q (n + 1) ∨ rank (n + 1) < rank n) :
    ∀ n, A n → Eventually Q n :=
  r.eventually_of_helpers rank hstep fun n hA => ⟨t, Home, ht, ⟨hready, hstay, hturn⟩, hhome n hA⟩

/-! ### Making runs -/

def cons {t : ι} {s : State} (h : Step t s (r.state 0)) : FairRun Step Ready Fair where
  state
    | 0 => s
    | n + 1 => r.state n
  party
    | 0 => t
    | n + 1 => r.party n
  step
    | 0 => h
    | n + 1 => r.step n
  fair u hu n hready := by
    obtain ⟨m, hm, hturn⟩ := r.fair u hu n fun m hm => hready (m + 1) (hm.trans (Nat.le_succ m))
    exact ⟨m + 1, hm.trans (Nat.le_succ m), hturn⟩

@[simp] theorem cons_state_zero {t : ι} {s : State} (h : Step t s (r.state 0)) :
    (r.cons h).state 0 = s := rfl

@[simp] theorem cons_state_succ {t : ι} {s : State} (h : Step t s (r.state 0)) (n : ℕ) :
    (r.cons h).state (n + 1) = r.state n := rfl

/-- A run with the steps of a straight-line execution in front. What holds wherever the execution goes on,
and in the run, holds throughout. -/
theorem exists_prepend_of {α : Type*} {turn : α → ι} {next : State → α → Option State} {P : State → Prop}
    (hnext : ∀ s x s', next s x = some s' → P s ∧ Step (turn x) s s') (hP : ∀ n, P (r.state n)) {moves : List α}
    {s : State} (h : moves.foldlM next s = some (r.state 0)) :
    ∃ r' : FairRun Step Ready Fair, r'.state 0 = s ∧ (∀ n, r'.state (n + moves.length) = r.state n) ∧
      ∀ n, P (r'.state n) := by
  induction moves generalizing s with
  | nil =>
    cases h
    exact ⟨r, rfl, fun n => rfl, hP⟩
  | cons x moves ih =>
    obtain ⟨s₁, hstep, hrest⟩ := Option.bind_eq_some_iff.mp h
    obtain ⟨r', hstart, hlater, hP'⟩ := ih hrest
    obtain ⟨hPs, hturn⟩ := hnext s x _ (hstart ▸ hstep)
    refine ⟨r'.cons hturn, rfl, fun n => hlater n, fun n => ?_⟩
    cases n with
    | zero => exact hPs
    | succ n => exact hP' n

theorem exists_prepend {α : Type*} {turn : α → ι} {next : State → α → Option State}
    (hnext : ∀ s x s', next s x = some s' → Step (turn x) s s') {moves : List α} {s : State}
    (h : moves.foldlM next s = some (r.state 0)) :
    ∃ r' : FairRun Step Ready Fair, r'.state 0 = s ∧ ∀ n, r'.state (n + moves.length) = r.state n := by
  obtain ⟨r', hstart, hlater, -⟩ := r.exists_prepend_of (P := fun _ => True)
    (fun s x s' hstep => ⟨trivial, hnext s x s' hstep⟩) (fun _ => trivial) h
  exact ⟨r', hstart, hlater⟩

/-- One party can go on for ever if what it needs for a step is there again after it, and the others are
not ready meanwhile. All its steps are of the kind `P`. -/
theorem exists_forever_of {I : State → Prop} {P : State → State → Prop}
    (hfair : ∀ u, Fair u → u = t ∨ ∀ s, I s → ∀ s', ¬ Ready u s s')
    (hnext : ∀ s, I s → ∃ s', Step t s s' ∧ I s' ∧ P s s') {s : State} (hs : I s) :
    ∃ r : FairRun Step Ready Fair, r.state 0 = s ∧ ∀ n, I (r.state n) ∧ P (r.state n) (r.state (n + 1)) := by
  choose! next hstep hkept using hnext
  have hall : ∀ n, I (next^[n] s) := fun n => by
    induction n with
    | zero => exact hs
    | succ n ih =>
      rw [Function.iterate_succ_apply']
      exact (hkept _ ih).1
  have hturn : ∀ n, Step t (next^[n] s) (next^[n + 1] s) ∧ P (next^[n] s) (next^[n + 1] s) := fun n => by
    rw [Function.iterate_succ_apply']
    exact ⟨hstep _ (hall n), (hkept _ (hall n)).2⟩
  refine ⟨⟨fun n => next^[n] s, fun _ => t, fun n => (hturn n).1, fun u hu n hready => ?_⟩, rfl,
    fun n => ⟨hall n, (hturn n).2⟩⟩
  rcases hfair u hu with rfl | hnever
  · exact ⟨n, le_rfl, rfl⟩
  · obtain ⟨s', hready⟩ := hready n le_rfl
    exact absurd hready (hnever _ (hall n) s')

theorem exists_forever {I : State → Prop} (hfair : ∀ u, Fair u → u = t ∨ ∀ s, I s → ∀ s', ¬ Ready u s s')
    (hnext : ∀ s, I s → ∃ s', Step t s s' ∧ I s') {s : State} (hs : I s) :
    ∃ r : FairRun Step Ready Fair, r.state 0 = s ∧ ∀ n, I (r.state n) := by
  obtain ⟨r, hstart, hall⟩ := exists_forever_of (P := fun _ _ => True) hfair
    (fun s h => (hnext s h).imp fun s' h => ⟨h.1, h.2, trivial⟩) hs
  exact ⟨r, hstart, fun n => (hall n).1⟩

end FairRun

end CppUtils
