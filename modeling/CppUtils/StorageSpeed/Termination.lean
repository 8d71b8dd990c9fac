import CppUtils.StorageSpeed.Resolve

/-!
# How long resolving takes

A run of the loop is cut where it rewrites the path. It has at most one part more than rewrites; within
a part the reads go forward over the components of one path.
-/

namespace CppUtils.StorageSpeed

section Parts

/-- The parts of a run: each with its path, and with the arguments of its reads. `calls` are those of the
current part so far. -/
def callsByPath (mounts : List Mount) (firmlinks : List Firmlink)
    (readLinkTarget : List Text → Text → Text) (w : Walk) (calls : List Text) :
    List (Text × List Text) :=
  if _hmore : w.componentStart < w.path.length then
    match _hstep : iteration mounts firmlinks readLinkTarget w with
    | .done w' => [(w.path, calls ++ w'.asked.drop w.asked.length)]
    | .yield w' =>
      if w'.hopsLeft < w.hopsLeft then
        (w.path, calls ++ w'.asked.drop w.asked.length) ::
          callsByPath mounts firmlinks readLinkTarget w' []
      else
        callsByPath mounts firmlinks readLinkTarget w' (calls ++ w'.asked.drop w.asked.length)
  else [(w.path, calls)]
termination_by (w.hopsLeft, w.path.length - w.componentStart)
decreasing_by
  · exact Prod.Lex.left _ _ ‹_›
  · have hend := w.componentStart_le_end _hmore.le
    obtain ⟨_, ⟨_, rfl⟩ | ⟨_, hhops, rfl⟩⟩ := iteration_yield _hstep
    · exact Prod.Lex.right _ (by dsimp only; omega)
    · exact Prod.Lex.left _ _ (by dsimp only; omega)

variable {mounts : List Mount} {firmlinks : List Firmlink}
  {readLinkTarget : List Text → Text → Text} {w w' : Walk} {path : Text} {calls : List Text} {start : ℕ}

theorem callsByPath_exit (hexit : w.path.length ≤ w.componentStart) (calls : List Text) :
    callsByPath mounts firmlinks readLinkTarget w calls = [(w.path, calls)] := by
  rw [callsByPath, dif_neg (not_lt.mpr hexit)]

theorem callsByPath_done (hmore : w.componentStart < w.path.length)
    (hstep : iteration mounts firmlinks readLinkTarget w = .done w') (calls : List Text) :
    callsByPath mounts firmlinks readLinkTarget w calls =
      [(w.path, calls ++ w'.asked.drop w.asked.length)] := by
  rw [callsByPath, dif_pos hmore]
  split
  · rename_i w₁ hstep₁
    rw [hstep] at hstep₁
    rw [ForInStep.done.inj hstep₁]
  · rename_i w₁ hstep₁
    rw [hstep] at hstep₁
    cases hstep₁

theorem callsByPath_yield (hmore : w.componentStart < w.path.length)
    (hstep : iteration mounts firmlinks readLinkTarget w = .yield w') (calls : List Text) :
    callsByPath mounts firmlinks readLinkTarget w calls =
      if w'.hopsLeft < w.hopsLeft then
        (w.path, calls ++ w'.asked.drop w.asked.length) ::
          callsByPath mounts firmlinks readLinkTarget w' []
      else
        callsByPath mounts firmlinks readLinkTarget w' (calls ++ w'.asked.drop w.asked.length) := by
  rw [callsByPath, dif_pos hmore]
  split
  · rename_i w₁ hstep₁
    rw [hstep] at hstep₁
    cases hstep₁
  · rename_i w₁ hstep₁
    rw [hstep] at hstep₁
    rw [ForInStep.yield.inj hstep₁]

end Parts

section Bounds

variable {mounts : List Mount} {firmlinks : List Firmlink}
  {readLinkTarget : List Text → Text → Text} {w w' : Walk} {path : Text} {calls before : List Text}
  {start : ℕ}

theorem Walk.getElem?_componentEnd (h : w.componentStart ≤ w.path.length)
    (hlt : w.componentEnd < w.path.length) : w.path[w.componentEnd]? = some '/' := by
  have hidx : (w.path.drop w.componentStart).findIdx (· == '/') < (w.path.drop w.componentStart).length := by
    rw [List.length_drop]
    rw [w.componentEnd_eq h] at hlt
    omega
  have hslash := List.findIdx_getElem (w := hidx)
  rw [w.componentEnd_eq h, ← List.getElem?_drop, List.getElem?_eq_getElem hidx]
  exact congrArg some (beq_iff_eq.mp hslash)

/-- The arguments of the reads in one part: prefixes of its path that end with a component, each longer
than the one before, so at most one for each component. -/
structure OneScan (path : Text) (calls : List Text) : Prop where
  ends : ∀ call ∈ calls, ∃ k, call = path.take k ∧ (k = path.length ∨ path[k]? = some '/')
  longer : calls.Pairwise fun call next => call.length < next.length
  length_le : calls.length ≤ (path.drop 1).count '/' + 1

/-- The reads of a part before the component that begins at `start`. -/
structure Scanned (path : Text) (start : ℕ) (calls : List Text) : Prop where
  start_pos : 1 ≤ start
  ends : ∀ call ∈ calls, ∃ k < start, k ≤ path.length ∧ call = path.take k ∧
    (k = path.length ∨ path[k]? = some '/')
  longer : calls.Pairwise fun call next => call.length < next.length
  length_le : calls.length ≤
    ((path.take start).drop 1).count '/' + if path.length < start then 1 else 0

theorem scanned_nil (path : Text) : Scanned path 1 [] := by
  constructor
  · exact le_rfl
  · intro call hcall
    cases hcall
  · exact .nil
  · exact Nat.zero_le _

theorem Scanned.oneScan (h : Scanned path start calls) : OneScan path calls := by
  constructor
  · intro call hcall
    obtain ⟨k, _, _, heq, hend⟩ := h.ends call hcall
    exact ⟨k, heq, hend⟩
  · exact h.longer
  · have hcount : ((path.take start).drop 1).count '/' ≤ (path.drop 1).count '/' :=
      ((List.take_sublist start path).drop 1).count_le '/'
    have hlength := h.length_le
    split at hlength <;> omega

theorem Scanned.call (h : Scanned w.path w.componentStart calls)
    (hmore : w.componentStart < w.path.length) :
    Scanned w.path (w.componentEnd + 1) (calls ++ [w.reached]) := by
  have hstart := w.componentStart_le_end hmore.le
  have hend := w.componentEnd_le hmore.le
  have hpos := h.start_pos
  have hcomponent : w.componentEnd = w.path.length ∨ w.path[w.componentEnd]? = some '/' := by
    obtain hlt | heq := hend.lt_or_eq
    · exact .inr (w.getElem?_componentEnd hmore.le hlt)
    · exact .inl heq
  constructor
  · omega
  · intro call hcall
    obtain hcall | hcall := List.mem_append.mp hcall
    · obtain ⟨k, hk, hle, heq, hends⟩ := h.ends call hcall
      exact ⟨k, by omega, hle, heq, hends⟩
    · rw [List.mem_singleton.mp hcall]
      exact ⟨w.componentEnd, Nat.lt_succ_self _, hend, rfl, hcomponent⟩
  · rw [List.pairwise_append]
    refine ⟨h.longer, List.pairwise_singleton _ _, ?_⟩
    intro call hcall next hnext
    obtain ⟨k, hk, hle, rfl, _⟩ := h.ends call hcall
    rw [List.mem_singleton.mp hnext, Walk.reached, List.length_take, List.length_take]
    omega
  · have hlength := h.length_le
    rw [if_neg (by omega), Nat.add_zero] at hlength
    have hcount : ((w.path.take w.componentStart).drop 1).count '/' ≤
        ((w.path.take w.componentEnd).drop 1).count '/' :=
      ((List.take_prefix_take_left hstart).sublist.drop 1).count_le '/'
    have htake : (w.path.take (w.componentEnd + 1)).drop 1 =
        (w.path.take w.componentEnd).drop 1 ++ w.path[w.componentEnd]?.toList := by
      rw [List.take_add_one, List.drop_append_of_le_length]
      rw [List.length_take]
      omega
    rw [htake, List.count_append, List.length_append, List.length_singleton]
    obtain heq | hslash := hcomponent
    · rw [if_pos (by omega)]
      omega
    · rw [hslash]
      change calls.length + 1 ≤ _ + 1 + _
      omega

/-- What the parts of a run are, when `before` was read in the parts before it. -/
structure IsRun (before : List Text) (w result : Walk) (parts : List (Text × List Text)) : Prop where
  asked : result.asked = before ++ parts.flatMap Prod.snd
  path : parts.getLast?.map Prod.fst = some result.path
  length_le : parts.length ≤ max 1 w.hopsLeft
  scans : ∀ part ∈ parts, OneScan part.1 part.2

theorem isRun_singleton {result : Walk} (hasked : result.asked = before ++ calls)
    (hpath : result.path = w.path) (hscan : OneScan w.path calls) :
    IsRun before w result [(w.path, calls)] := by
  constructor
  · rw [hasked, List.flatMap_singleton]
  · rw [hpath]
    rfl
  · exact Nat.le_max_left _ _
  · intro part hpart
    rw [List.mem_singleton.mp hpart]
    exact hscan

/-- The rule for a read: the next part of the run, or the same one with the read in it. -/
theorem callsByPath_isRun (w : Walk) (calls before : List Text) (hasked : w.asked = before ++ calls)
    (hscanned : Scanned w.path w.componentStart calls) :
    IsRun before w (resolveLoop mounts firmlinks readLinkTarget w)
      (callsByPath mounts firmlinks readLinkTarget w calls) := by
  induction w, calls using callsByPath.induct mounts firmlinks readLinkTarget generalizing before with
  | case1 w calls hmore w' hstep =>
    rw [callsByPath_done hmore hstep, resolveLoop_done hmore hstep]
    obtain ⟨_, rfl⟩ | ⟨_, _, _, rfl⟩ := iteration_done hstep
    · rw [List.drop_length, List.append_nil]
      exact isRun_singleton hasked rfl hscanned.oneScan
    · rw [List.drop_left]
      exact isRun_singleton (by rw [hasked, List.append_assoc]) rfl (hscanned.call hmore).oneScan
  | case2 w calls hmore w' hstep hhops ih =>
    rw [callsByPath_yield hmore hstep, if_pos hhops, resolveLoop_yield hmore hstep]
    obtain ⟨_, ⟨_, rfl⟩ | ⟨_, hleft, rfl⟩⟩ := iteration_yield hstep
    · exact absurd hhops (lt_irrefl _)
    · rw [List.drop_left]
      have hnext := ih (before ++ (calls ++ [w.reached]))
        (by rw [hasked, List.append_nil, List.append_assoc]) (scanned_nil _)
      constructor
      · rw [hnext.asked, List.flatMap_cons, List.append_assoc before]
      · rw [List.getLast?_cons, Option.map_some, ← hnext.path]
        cases hlast : (callsByPath mounts firmlinks readLinkTarget _ []).getLast? with
        | none =>
          have hpath := hnext.path
          rw [hlast] at hpath
          cases hpath
        | some last => rfl
      · have hlength := hnext.length_le
        rw [List.length_cons]
        dsimp only at hlength
        omega
      · intro part hpart
        obtain rfl | hpart := List.mem_cons.mp hpart
        · exact (hscanned.call hmore).oneScan
        · exact hnext.scans part hpart
  | case3 w calls hmore w' hstep hhops ih =>
    rw [callsByPath_yield hmore hstep, if_neg hhops, resolveLoop_yield hmore hstep]
    obtain ⟨_, ⟨_, rfl⟩ | ⟨_, hleft, rfl⟩⟩ := iteration_yield hstep
    · rw [List.drop_left]
      rw [List.drop_left] at ih
      have hnext := ih before (by rw [hasked, List.append_assoc]) (hscanned.call hmore)
      exact ⟨hnext.asked, hnext.path, hnext.length_le, hnext.scans⟩
    · exact absurd (Nat.sub_lt (Nat.zero_lt_of_lt hleft) Nat.one_pos) hhops
  | case4 w calls hmore =>
    rw [callsByPath_exit (not_lt.mp hmore), resolveLoop_exit (not_lt.mp hmore)]
    exact isRun_singleton hasked rfl hscanned.oneScan

/-- Whatever the links answer, the run ends; it rewrites the path 39 times at most, and between two
rewrites it reads each component of the path at most once, going forward. -/
theorem resolveLocalSymlinks_terminates (path : Text) (mounts : List Mount) (firmlinks : List Firmlink)
    (readLinkTarget : List Text → Text → Text) :
    (resolveLocalSymlinks path mounts firmlinks readLinkTarget).asked =
        (callsByPath mounts firmlinks readLinkTarget ⟨path, 1, 40, []⟩ []).flatMap Prod.snd ∧
      (callsByPath mounts firmlinks readLinkTarget ⟨path, 1, 40, []⟩ []).getLast?.map Prod.fst =
        some (resolveLocalSymlinks path mounts firmlinks readLinkTarget).path ∧
      (callsByPath mounts firmlinks readLinkTarget ⟨path, 1, 40, []⟩ []).length ≤ 39 + 1 ∧
      ∀ part ∈ callsByPath mounts firmlinks readLinkTarget ⟨path, 1, 40, []⟩ [],
        OneScan part.1 part.2 := by
  have hrun : IsRun [] ⟨path, 1, 40, []⟩ (resolveLocalSymlinks path mounts firmlinks readLinkTarget)
      (callsByPath mounts firmlinks readLinkTarget ⟨path, 1, 40, []⟩ []) :=
    callsByPath_isRun _ [] [] rfl (scanned_nil path)
  exact ⟨hrun.asked, hrun.path, hrun.length_le, hrun.scans⟩

end Bounds

end CppUtils.StorageSpeed
