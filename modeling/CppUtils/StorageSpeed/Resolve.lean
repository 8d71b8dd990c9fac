import CppUtils.StorageSpeed.Paths

/-!
# Resolving symlinks on local mounts

`resolveLocalSymlinks` as its loop: one iteration reads one component, and either goes on to the next
one, starts over on a rewritten path, or breaks.
-/

namespace CppUtils.StorageSpeed

section Loop

/-- The variables of `resolveLocalSymlinks`, and the arguments of the `readLinkTarget` calls so far. -/
structure Walk where
  path : Text
  componentStart : ℕ
  hopsLeft : ℕ
  asked : List Text

/-- `slash`, or the end of the path. -/
def Walk.componentEnd (w : Walk) : ℕ := (find w.path '/' w.componentStart).getD w.path.length

/-- The local `prefix`. -/
def Walk.reached (w : Walk) : Text := w.path.take w.componentEnd

/-- `mount && mount->local`. -/
def onLocalMount (mounts : List Mount) (path : Text) : Bool :=
  match mountForPath mounts path with
  | some (mount, _) => mount.isLocal
  | none => false

/-- The path after the link at the current component is replaced by `target`. -/
def Walk.rewritten (w : Walk) (firmlinks : List Firmlink) (target : Text) : Text :=
  let linkedPath :=
    if target.head? = some '/' then target else w.path.take w.componentStart ++ target
  canonicalPath (lexicallyNormal (linkedPath ++ w.path.drop w.componentEnd)) firmlinks

/-- The body of the loop; `.done` is `break`. What `readLinkTarget` answers may depend on the calls
before. -/
def iteration (mounts : List Mount) (firmlinks : List Firmlink)
    (readLinkTarget : List Text → Text → Text) (w : Walk) : ForInStep Walk :=
  if !onLocalMount mounts w.reached then .done w
  else
    let target := readLinkTarget w.asked w.reached
    let asked := w.asked ++ [w.reached]
    if target = [] then
      .yield { w with componentStart := w.componentEnd + 1, asked := asked }
    else if w.hopsLeft - 1 = 0 then
      .done { w with hopsLeft := w.hopsLeft - 1, asked := asked }
    else
      .yield ⟨w.rewritten firmlinks target, 1, w.hopsLeft - 1, asked⟩

variable {mounts : List Mount} {firmlinks : List Firmlink}
  {readLinkTarget : List Text → Text → Text} {w w' : Walk}

/-- What an iteration that does not break has done: passed a component that is no link, or followed
a link. -/
theorem iteration_yield (h : iteration mounts firmlinks readLinkTarget w = .yield w') :
    onLocalMount mounts w.reached = true ∧
      ((readLinkTarget w.asked w.reached = [] ∧
          w' = ⟨w.path, w.componentEnd + 1, w.hopsLeft, w.asked ++ [w.reached]⟩) ∨
        (readLinkTarget w.asked w.reached ≠ [] ∧ 1 < w.hopsLeft ∧
          w' = ⟨w.rewritten firmlinks (readLinkTarget w.asked w.reached), 1, w.hopsLeft - 1,
            w.asked ++ [w.reached]⟩)) := by
  simp only [iteration, Bool.not_eq_true'] at h
  split at h
  · cases h
  · rename_i hlocal
    refine ⟨Bool.not_eq_false _ ▸ hlocal, ?_⟩
    split at h
    · rename_i htarget
      cases h
      exact .inl ⟨htarget, rfl⟩
    · rename_i htarget
      split at h
      · cases h
      · rename_i hhops
        cases h
        exact .inr ⟨htarget, by omega, rfl⟩

theorem iteration_done (h : iteration mounts firmlinks readLinkTarget w = .done w') :
    (onLocalMount mounts w.reached = false ∧ w' = w) ∨
      (onLocalMount mounts w.reached = true ∧ readLinkTarget w.asked w.reached ≠ [] ∧
        w.hopsLeft ≤ 1 ∧ w' = ⟨w.path, w.componentStart, w.hopsLeft - 1, w.asked ++ [w.reached]⟩) := by
  simp only [iteration, Bool.not_eq_true'] at h
  split at h
  · rename_i hlocal
    cases h
    exact .inl ⟨hlocal, rfl⟩
  · rename_i hlocal
    split at h
    · cases h
    · rename_i htarget
      split at h
      · rename_i hhops
        cases h
        exact .inr ⟨Bool.not_eq_false _ ▸ hlocal, htarget, by omega, rfl⟩
      · cases h

theorem iteration_remote (hlocal : onLocalMount mounts w.reached = false) :
    iteration mounts firmlinks readLinkTarget w = .done w := by
  simp [iteration, hlocal]

theorem iteration_noLink (hlocal : onLocalMount mounts w.reached = true)
    (htarget : readLinkTarget w.asked w.reached = []) :
    iteration mounts firmlinks readLinkTarget w =
      .yield ⟨w.path, w.componentEnd + 1, w.hopsLeft, w.asked ++ [w.reached]⟩ := by
  simp [iteration, hlocal, htarget]

theorem iteration_giveUp (hlocal : onLocalMount mounts w.reached = true)
    (htarget : readLinkTarget w.asked w.reached ≠ []) (hhops : w.hopsLeft ≤ 1) :
    iteration mounts firmlinks readLinkTarget w =
      .done ⟨w.path, w.componentStart, w.hopsLeft - 1, w.asked ++ [w.reached]⟩ := by
  have hzero : w.hopsLeft - 1 = 0 := by omega
  simp [iteration, hlocal, htarget, hzero]

theorem iteration_link (hlocal : onLocalMount mounts w.reached = true)
    (htarget : readLinkTarget w.asked w.reached ≠ []) (hhops : 1 < w.hopsLeft) :
    iteration mounts firmlinks readLinkTarget w =
      .yield ⟨w.rewritten firmlinks (readLinkTarget w.asked w.reached), 1, w.hopsLeft - 1,
        w.asked ++ [w.reached]⟩ := by
  have hzero : w.hopsLeft - 1 ≠ 0 := by omega
  simp [iteration, hlocal, htarget, hzero]

theorem find_getD {text : Text} {start : ℕ} (hstart : start ≤ text.length) (c : Char) :
    (find text c start).getD text.length = start + (text.drop start).findIdx (· == c) := by
  unfold find
  cases hfind : (text.drop start).findIdx? (· == c) with
  | none =>
    have hidx := List.findIdx?_eq_none_iff_findIdx_eq.mp hfind
    rw [hidx, List.length_drop, Option.map_none, Option.getD_none]
    omega
  | some k =>
    rw [(List.findIdx?_eq_some_iff_findIdx_eq.mp hfind).2]
    rfl

theorem Walk.componentEnd_eq (h : w.componentStart ≤ w.path.length) :
    w.componentEnd = w.componentStart + (w.path.drop w.componentStart).findIdx (· == '/') :=
  find_getD h '/'

theorem Walk.componentStart_le_end (h : w.componentStart ≤ w.path.length) :
    w.componentStart ≤ w.componentEnd := by
  rw [w.componentEnd_eq h]
  exact Nat.le_add_right _ _

theorem Walk.componentEnd_le (h : w.componentStart ≤ w.path.length) :
    w.componentEnd ≤ w.path.length := by
  have hidx : (w.path.drop w.componentStart).findIdx (· == '/') ≤ _ := List.findIdx_le_length
  rw [List.length_drop] at hidx
  rw [w.componentEnd_eq h]
  omega

theorem Walk.getElem?_ne_slash (h : w.componentStart ≤ w.path.length) {k : ℕ}
    (hstart : w.componentStart ≤ k) (hend : k < w.componentEnd) : w.path[k]? ≠ some '/' := by
  rw [w.componentEnd_eq h] at hend
  intro hslash
  have hbefore : k - w.componentStart < (w.path.drop w.componentStart).findIdx (· == '/') := by omega
  have hne := List.not_of_lt_findIdx hbefore
  have hk : w.path[w.componentStart + (k - w.componentStart)]? = some '/' := by
    rw [Nat.add_sub_cancel' hstart, hslash]
  rw [← List.getElem?_drop] at hk
  obtain ⟨hlt, hget⟩ := List.getElem?_eq_some_iff.mp hk
  simp [hget] at hne

def resolveLoop (mounts : List Mount) (firmlinks : List Firmlink)
    (readLinkTarget : List Text → Text → Text) (w : Walk) : Walk :=
  if _hmore : w.componentStart < w.path.length then
    match _hstep : iteration mounts firmlinks readLinkTarget w with
    | .done w' => w'
    | .yield w' => resolveLoop mounts firmlinks readLinkTarget w'
  else w
termination_by (w.hopsLeft, w.path.length - w.componentStart)
decreasing_by
  have hend := w.componentStart_le_end _hmore.le
  obtain ⟨_, ⟨_, rfl⟩ | ⟨_, hhops, rfl⟩⟩ := iteration_yield _hstep
  · exact Prod.Lex.right _ (by dsimp only; omega)
  · exact Prod.Lex.left _ _ (by dsimp only; omega)

def resolveLocalSymlinks (path : Text) (mounts : List Mount) (firmlinks : List Firmlink)
    (readLinkTarget : List Text → Text → Text) : Walk :=
  resolveLoop mounts firmlinks readLinkTarget ⟨path, 1, 40, []⟩

theorem resolveLoop_exit (hexit : w.path.length ≤ w.componentStart) :
    resolveLoop mounts firmlinks readLinkTarget w = w := by
  rw [resolveLoop, dif_neg (not_lt.mpr hexit)]

theorem resolveLoop_done (hmore : w.componentStart < w.path.length)
    (hstep : iteration mounts firmlinks readLinkTarget w = .done w') :
    resolveLoop mounts firmlinks readLinkTarget w = w' := by
  rw [resolveLoop, dif_pos hmore]
  split
  · rename_i w₁ hstep₁
    rw [hstep] at hstep₁
    exact (ForInStep.done.inj hstep₁).symm
  · rename_i w₁ hstep₁
    rw [hstep] at hstep₁
    cases hstep₁

theorem resolveLoop_yield (hmore : w.componentStart < w.path.length)
    (hstep : iteration mounts firmlinks readLinkTarget w = .yield w') :
    resolveLoop mounts firmlinks readLinkTarget w = resolveLoop mounts firmlinks readLinkTarget w' := by
  rw [resolveLoop, dif_pos hmore]
  split
  · rename_i w₁ hstep₁
    rw [hstep] at hstep₁
    cases hstep₁
  · rename_i w₁ hstep₁
    rw [hstep] at hstep₁
    rw [ForInStep.yield.inj hstep₁]

/-- The rule of the loop: what every iteration keeps, and what then holds when it is left. -/
theorem resolveLoop_rule {I P : Walk → Prop}
    (hyield : ∀ w w', w.componentStart < w.path.length →
      iteration mounts firmlinks readLinkTarget w = .yield w' → I w → I w')
    (hdone : ∀ w w', w.componentStart < w.path.length →
      iteration mounts firmlinks readLinkTarget w = .done w' → I w → P w')
    (hexit : ∀ w, w.path.length ≤ w.componentStart → I w → P w) (hinv : I w) :
    P (resolveLoop mounts firmlinks readLinkTarget w) := by
  induction w using resolveLoop.induct mounts firmlinks readLinkTarget with
  | case1 w hmore w' hstep =>
    rw [resolveLoop_done hmore hstep]
    exact hdone w w' hmore hstep hinv
  | case2 w hmore w' hstep ih =>
    rw [resolveLoop_yield hmore hstep]
    exact ih (hyield w w' hmore hstep hinv)
  | case3 w hmore =>
    rw [resolveLoop_exit (not_lt.mp hmore)]
    exact hexit w (not_lt.mp hmore) hinv

end Loop

section RemoteStorage

variable {mounts : List Mount} {firmlinks : List Firmlink}
  {readLinkTarget : List Text → Text → Text} {w w' : Walk} {path : Text}

/-- Some mount of the list holds the path, and it is local. -/
def HeldLocally (mounts : List Mount) (path : Text) : Prop :=
  ∃ mount place, mountForPath mounts path = some (mount, place) ∧ mount.isLocal = true

theorem heldLocally_iff : HeldLocally mounts path ↔ onLocalMount mounts path = true := by
  unfold HeldLocally onLocalMount
  cases mountForPath mounts path with
  | none => simp
  | some found => simp [Prod.ext_iff]

/-- The path and its prefixes that end just before one of its later slashes are held locally. -/
structure TouchesLocal (mounts : List Mount) (path : Text) : Prop where
  self : HeldLocally mounts path
  ancestors : ∀ k, 1 ≤ k → path[k]? = some '/' → HeldLocally mounts (path.take k)

/-- The prefixes that end before the current component were checked, and so was all that was read. -/
structure Walk.Checked (mounts : List Mount) (w : Walk) : Prop where
  passed : ∀ k, 1 ≤ k → k < w.componentStart → w.path[k]? = some '/' →
    HeldLocally mounts (w.path.take k)
  asked : ∀ path ∈ w.asked, TouchesLocal mounts path

theorem checked_start (mounts : List Mount) (path : Text) (hops : ℕ) {asked : List Text}
    (hasked : ∀ path ∈ asked, TouchesLocal mounts path) :
    Walk.Checked mounts ⟨path, 1, hops, asked⟩ := by
  refine ⟨?_, hasked⟩
  intro k hk hlt
  exact absurd hlt (not_lt.mpr hk)

theorem Walk.Checked.touchesLocal (hw : w.Checked mounts) (hmore : w.componentStart ≤ w.path.length)
    (hlocal : onLocalMount mounts w.reached = true) : TouchesLocal mounts w.reached := by
  refine ⟨heldLocally_iff.mpr hlocal, ?_⟩
  intro k hk hslash
  have hlt : k < w.componentEnd := by
    have hlength := (List.getElem?_eq_some_iff.mp hslash).1
    exact (List.length_take .. ▸ hlength).trans_le (Nat.min_le_left _ _)
  have hslash' : w.path[k]? = some '/' := by
    rw [← hslash, Walk.reached, List.getElem?_take_of_lt hlt]
  have hpassed : k < w.componentStart := by
    by_contra hstart
    exact w.getElem?_ne_slash hmore (not_lt.mp hstart) hlt hslash'
  have htake : w.reached.take k = w.path.take k := by
    rw [Walk.reached, List.take_take, Nat.min_eq_left hlt.le]
  rw [htake]
  exact hw.passed k hk hpassed hslash'

theorem Walk.Checked.asked_append (hw : w.Checked mounts)
    (hmore : w.componentStart ≤ w.path.length) (hlocal : onLocalMount mounts w.reached = true) :
    ∀ path ∈ w.asked ++ [w.reached], TouchesLocal mounts path := by
  intro path hpath
  obtain hpath | hpath := List.mem_append.mp hpath
  · exact hw.asked path hpath
  · obtain rfl := List.mem_singleton.mp hpath
    exact hw.touchesLocal hmore hlocal

theorem Walk.Checked.yield (hmore : w.componentStart < w.path.length)
    (hstep : iteration mounts firmlinks readLinkTarget w = .yield w') (hw : w.Checked mounts) :
    w'.Checked mounts := by
  obtain ⟨hlocal, ⟨_, rfl⟩ | ⟨_, _, rfl⟩⟩ := iteration_yield hstep
  · refine ⟨?_, hw.asked_append hmore.le hlocal⟩
    intro k hk hlt hslash
    -- the slash was passed before, or it is the one that ends the component just checked
    obtain hbefore | hafter := lt_or_ge k w.componentStart
    · exact hw.passed k hk hbefore hslash
    · obtain hinside | rfl := (Nat.lt_succ_iff.mp hlt).lt_or_eq
      · exact absurd hslash (w.getElem?_ne_slash hmore.le hafter hinside)
      · exact heldLocally_iff.mpr hlocal
  · exact checked_start mounts _ _ (hw.asked_append hmore.le hlocal)

theorem Walk.Checked.done (hmore : w.componentStart < w.path.length)
    (hstep : iteration mounts firmlinks readLinkTarget w = .done w') (hw : w.Checked mounts) :
    ∀ path ∈ w'.asked, TouchesLocal mounts path := by
  obtain ⟨_, rfl⟩ | ⟨hlocal, _, _, rfl⟩ := iteration_done hstep
  · exact hw.asked
  · exact hw.asked_append hmore.le hlocal

/-- No link is read on remote storage, nor below it, whatever the links are and whatever rewriting they
have caused. -/
theorem resolveLocalSymlinks_touchesLocal (mounts : List Mount) (firmlinks : List Firmlink)
    (readLinkTarget : List Text → Text → Text) (path : Text) :
    ∀ read ∈ (resolveLocalSymlinks path mounts firmlinks readLinkTarget).asked,
      HeldLocally mounts read ∧
        ∀ k, 1 ≤ k → read[k]? = some '/' → HeldLocally mounts (read.take k) := by
  have hstart : Walk.Checked mounts ⟨path, 1, 40, []⟩ :=
    checked_start mounts path 40 fun _ hmem => absurd hmem List.not_mem_nil
  have htouches : ∀ read ∈ (resolveLocalSymlinks path mounts firmlinks readLinkTarget).asked,
      TouchesLocal mounts read := by
    apply resolveLoop_rule (I := Walk.Checked mounts)
      (P := fun w => ∀ read ∈ w.asked, TouchesLocal mounts read)
    · intro w w' hmore hstep hw
      exact hw.yield hmore hstep
    · intro w w' hmore hstep hw
      exact hw.done hmore hstep
    · intro w _ hw
      exact hw.asked
    · exact hstart
  intro read hread
  exact ⟨(htouches read hread).self, (htouches read hread).ancestors⟩

/-- `/l` is a link to `/m`. -/
def linkOfRoot (path : Text) : Text := if path = "/l".toList then "/m".toList else []

theorem resolveLocalSymlinks_touchesLocal_linkOfRoot :
    HeldLocally [⟨"/".toList, "8:1".toList, true⟩] "/m".toList ∧
      ∀ k, 1 ≤ k → "/m".toList[k]? = some '/' →
        HeldLocally [⟨"/".toList, "8:1".toList, true⟩] ("/m".toList.take k) := by
  apply resolveLocalSymlinks_touchesLocal _ [] (fun _ => linkOfRoot) "/l".toList
  have hlink : iteration [⟨"/".toList, "8:1".toList, true⟩] [] (fun _ => linkOfRoot)
      ⟨"/l".toList, 1, 40, []⟩ = .yield ⟨"/m".toList, 1, 39, ["/l".toList]⟩ := by rfl
  have hpass : iteration [⟨"/".toList, "8:1".toList, true⟩] [] (fun _ => linkOfRoot)
      ⟨"/m".toList, 1, 39, ["/l".toList]⟩ =
        .yield ⟨"/m".toList, 3, 39, ["/l".toList, "/m".toList]⟩ := by rfl
  rw [resolveLocalSymlinks, resolveLoop_yield (by decide) hlink, resolveLoop_yield (by decide) hpass,
    resolveLoop_exit (by decide)]
  decide

end RemoteStorage

end CppUtils.StorageSpeed
