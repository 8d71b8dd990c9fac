import CppUtils.StorageSpeed.KernelWalk

/-!
# The limit on links

The kernel follows 40 links in one lookup. The loop counts down from 40 and stops at zero before it
follows the link, so it follows 39.
-/

namespace CppUtils.StorageSpeed

variable {mounts : List Mount} {links : Text → Text} {path name : Text}
  {names resolved pending result : List Text} {hops followed : ℕ}

section AllLocal

/-- The mounts are all local, and one of them holds the root. -/
structure AllLocal (mounts : List Mount) : Prop where
  isLocal : ∀ mount ∈ mounts, mount.isLocal = true
  root : ∃ mount ∈ mounts, isWithinFolder ['/'] mount.mountPoint = true

theorem isWithinFolder_of_root {folder : Text} (hroot : isWithinFolder ['/'] folder = true)
    (habs : path.head? = some '/') : isWithinFolder path folder = true := by
  obtain ⟨rest, rfl⟩ := List.head?_eq_some_iff.mp habs
  have hfirst : folder <+: ['/'] := by
    rw [isWithinFolder, Bool.and_eq_true] at hroot
    exact List.isPrefixOf_iff_prefix.mp hroot.1
  obtain rfl | rfl : folder = [] ∨ folder = ['/'] := by
    cases folder with
    | nil => exact .inl rfl
    | cons c folder =>
      obtain ⟨rfl, hrest⟩ := List.cons_prefix_cons.mp hfirst
      exact .inr (by rw [List.prefix_nil.mp hrest])
  · simp [isWithinFolder]
  · simp [isWithinFolder]

theorem AllLocal.onLocalMount (h : AllLocal mounts) (habs : path.head? = some '/') :
    onLocalMount mounts path = true := by
  have hdeepest := mountForPath_isDeepest mounts path
  unfold StorageSpeed.onLocalMount
  cases hfound : mountForPath mounts path with
  | none =>
    rw [hfound] at hdeepest
    obtain ⟨mount, hmount, hroot⟩ := h.root
    obtain ⟨place, hplace⟩ := List.mem_iff_getElem?.mp hmount
    have hnone := hdeepest (mount, place) (List.mk_mem_zipIdx_iff_getElem?.mpr hplace)
    rw [isWithinFolder_of_root hroot habs] at hnone
    cases hnone
  | some found =>
    rw [hfound] at hdeepest
    exact h.isLocal _ (List.fst_mem_of_mem_zipIdx hdeepest.1)

theorem head?_entryPath (resolved : List Text) (name : Text) :
    (entryPath resolved name).head? = some '/' :=
  head?_render_ne_nil (by simp)

end AllLocal

section Follows

/-- The walk over components without a limit: how many links it follows, and where it ends. -/
inductive Follows (links : Text → Text) : ℕ → List Text → List Text → List Text → Prop
  | finish {resolved : List Text} : Follows links 0 resolved [] resolved
  | up {followed : ℕ} {resolved pending result : List Text}
      (h : Follows links followed resolved.dropLast pending result) :
    Follows links followed resolved (dotDot :: pending) result
  | enter {followed : ℕ} {resolved pending result : List Text} {name : Text} (hname : name ≠ dotDot)
      (hlink : links (entryPath resolved name) = [])
      (h : Follows links followed (resolved ++ [name]) pending result) :
    Follows links followed resolved (name :: pending) result
  | follow {followed : ℕ} {resolved pending result : List Text} {name : Text} (hname : name ≠ dotDot)
      (hlink : links (entryPath resolved name) ≠ [])
      (h : Follows links followed
        (if (links (entryPath resolved name)).head? = some '/' then [] else resolved)
        (targetNames (links (entryPath resolved name)) ++ pending) result) :
    Follows links (followed + 1) resolved (name :: pending) result

def LinkFree (links : Text → Text) (names : List Text) : Prop :=
  ∀ front name, front ++ [name] <+: names → links (entryPath front name) = []

theorem linkFree_append (h : LinkFree links resolved) (hlink : links (entryPath resolved name) = []) :
    LinkFree links (resolved ++ [name]) := by
  intro front name' hfirst
  obtain heq | hfirst := List.prefix_concat_iff.mp hfirst
  · have hparts := List.append_inj' heq rfl
    rw [hparts.1, List.singleton_inj.mp hparts.2]
    exact hlink
  · exact h front name' hfirst

theorem linkFree_nil (links : Text → Text) : LinkFree links [] := by
  intro front name hfirst
  exact absurd (List.prefix_nil.mp hfirst) (by simp)

/-- With the budget for one link more, the walk ends where the unlimited one does. -/
theorem Follows.kernelWalk_eq (h : Follows links followed resolved pending result)
    (hlocal : AllLocal mounts) (hresolved : LinkFree links resolved) (hhops : followed < hops) :
    kernelWalk mounts links hops resolved pending = result ∧ LinkFree links result := by
  induction h generalizing hops with
  | finish =>
    rw [kernelWalk]
    exact ⟨rfl, hresolved⟩
  | up h ih =>
    rw [kernelWalk, if_pos rfl]
    exact ih (fun front name hfirst => hresolved front name (hfirst.trans (List.dropLast_prefix _))) hhops
  | enter hname hlink h ih =>
    rw [kernelWalk, if_neg hname, if_neg (by simp [hlocal.onLocalMount (head?_entryPath _ _)]),
      if_pos hlink]
    exact ih (linkFree_append hresolved hlink) hhops
  | follow hname hlink h ih =>
    rw [kernelWalk, if_neg hname, if_neg (by simp [hlocal.onLocalMount (head?_entryPath _ _)]),
      if_neg hlink, if_neg (by omega)]
    apply ih _ (by omega)
    split
    · exact linkFree_nil links
    · exact hresolved

/-- Without it, the walk stops before a link. -/
theorem Follows.kernelWalk_stops (h : Follows links followed resolved pending result)
    (hlocal : AllLocal mounts) (hpos : 1 ≤ hops) (hhops : hops ≤ followed) :
    ¬ LinkFree links (kernelWalk mounts links hops resolved pending) := by
  induction h generalizing hops with
  | finish => exact absurd (hpos.trans hhops) (by simp)
  | up h ih =>
    rw [kernelWalk, if_pos rfl]
    exact ih hpos hhops
  | enter hname hlink h ih =>
    rw [kernelWalk, if_neg hname, if_neg (by simp [hlocal.onLocalMount (head?_entryPath _ _)]),
      if_pos hlink]
    exact ih hpos hhops
  | @follow followed resolved pending result name hname hlink h ih =>
    rw [kernelWalk, if_neg hname, if_neg (by simp [hlocal.onLocalMount (head?_entryPath _ _)]),
      if_neg hlink]
    split
    · intro hfree
      apply hlink
      apply hfree resolved name
      exact ⟨pending, by rw [List.append_assoc, List.singleton_append]⟩
    · exact ih (by omega) (by omega)

end Follows

section Limit

theorem isField_kernelWalk (mounts : List Mount) (links : Text → Text) (hops : ℕ)
    (hresolved : ∀ n ∈ resolved, IsField '/' n) (hpending : ∀ n ∈ pending, IsField '/' n) :
    ∀ n ∈ kernelWalk mounts links hops resolved pending, IsField '/' n := by
  have hstop : ∀ n ∈ resolved ++ pending, IsField '/' n := fun n hn =>
    (List.mem_append.mp hn).elim (hresolved n) (hpending n)
  induction hops, resolved, pending using kernelWalk.induct mounts links with
  | case1 hops resolved =>
    rw [kernelWalk]
    exact hresolved
  | case2 hops resolved pending ih =>
    rw [kernelWalk, if_pos rfl]
    have hfront : ∀ n ∈ resolved.dropLast, IsField '/' n := fun n hn =>
      hresolved n (List.mem_of_mem_dropLast hn)
    have hrest : ∀ n ∈ pending, IsField '/' n := fun n hn => hpending n (List.mem_cons_of_mem _ hn)
    exact ih hfront hrest fun n hn => (List.mem_append.mp hn).elim (hfront n) (hrest n)
  | case3 hops resolved name pending hname hlocal =>
    rw [kernelWalk, if_neg hname, if_pos hlocal]
    exact hstop
  | case4 hops resolved name pending hname hlocal hlink ih =>
    rw [kernelWalk, if_neg hname, if_neg hlocal, if_pos hlink]
    have hall : ∀ n ∈ (resolved ++ [name]) ++ pending, IsField '/' n := by
      rw [List.append_assoc, List.singleton_append]
      exact hstop
    exact ih (fun n hn => hall n (List.mem_append_left _ hn))
      (fun n hn => hall n (List.mem_append_right _ hn)) hall
  | case5 hops resolved name pending hname hlocal hlink hgive =>
    rw [kernelWalk, if_neg hname, if_neg hlocal, if_neg hlink, if_pos hgive]
    exact hstop
  | case6 hops resolved name pending hname hlocal hlink hgive ih =>
    rw [kernelWalk, if_neg hname, if_neg hlocal, if_neg hlink, if_neg hgive]
    have hbase : ∀ n ∈ if (links (entryPath resolved name)).head? = some '/' then [] else resolved,
        IsField '/' n := by
      split
      · exact fun n hn => absurd hn List.not_mem_nil
      · exact hresolved
    have hrest : ∀ n ∈ targetNames (links (entryPath resolved name)) ++ pending, IsField '/' n := by
      intro n hn
      obtain hn | hn := List.mem_append.mp hn
      · exact isField_of_mem_components (List.mem_filter.mp hn).1
      · exact hpending n (List.mem_cons_of_mem _ hn)
    exact ih hbase hrest fun n hn => (List.mem_append.mp hn).elim (hbase n) (hrest n)

theorem components_resolveLocalSymlinks (mounts : List Mount) (habs : path.head? = some '/')
    (hnormal : lexicallyNormal path = path) (hlinks : ∀ path, ClimbsFirst (targetNames (links path))) :
    components (resolveLocalSymlinks path mounts [] fun _ => links).path =
      kernelWalk mounts links 40 [] (components path) := by
  have hnames := (spells_of_lexicallyNormal habs hnormal).2
  have hspells := resolveLoop_spells hlinks 40 [] _ (settled_nil mounts links) (.names hnames) _ rfl
    (.inl rfl) (at_start habs hnormal)
  exact hspells.components_eq (isField_kernelWalk mounts links 40
    (fun n hn => absurd hn List.not_mem_nil) fun n hn => (hnames n hn).field)

theorem not_linkFree_of_forty (hlocal : AllLocal mounts) (habs : path.head? = some '/')
    (hnormal : lexicallyNormal path = path) (hlinks : ∀ path, ClimbsFirst (targetNames (links path)))
    (hfollows : Follows links followed [] (components path) result) (hforty : 40 ≤ followed) :
    ¬ LinkFree links (components (resolveLocalSymlinks path mounts [] fun _ => links).path) := by
  rw [components_resolveLocalSymlinks mounts habs hnormal hlinks]
  exact hfollows.kernelWalk_stops hlocal (by omega) hforty

/-- Of the walks that the kernel finishes, with at most 40 links, the loop finishes exactly those with at
most 39. -/
theorem resolveLocalSymlinks_linkFree_iff (mounts : List Mount) (links : Text → Text) (path : Text)
    (followed : ℕ) (result : List Text) (hlocal : AllLocal mounts) (habs : path.head? = some '/')
    (hnormal : lexicallyNormal path = path) (hlinks : ∀ path, ClimbsFirst (targetNames (links path)))
    (hfollows : Follows links followed [] (components path) result) (hlimit : followed ≤ 40) :
    LinkFree links (components (resolveLocalSymlinks path mounts [] fun _ => links).path) ↔
      followed ≤ 39 := by
  constructor
  · intro hfree
    by_contra hgt
    exact not_linkFree_of_forty hlocal habs hnormal hlinks hfollows (by omega) hfree
  · intro hle
    rw [components_resolveLocalSymlinks mounts habs hnormal hlinks]
    obtain ⟨heq, hfree⟩ := hfollows.kernelWalk_eq hlocal (linkFree_nil links) (Nat.lt_succ_of_le hle)
    rw [heq]
    exact hfree

/-! ### A chain of links -/

/-- Each name of two letters `a` or more is a link to the name with one letter less. -/
def shorterName (path : Text) : Text :=
  match path with
  | '/' :: 'a' :: rest => if rest ≠ [] ∧ rest.all (· = 'a') then '/' :: rest else []
  | _ => []

def longName (length : ℕ) : Text := List.replicate length 'a'

theorem isField_longName (length : ℕ) : IsField '/' (longName (length + 1)) := by
  constructor
  · exact List.cons_ne_nil _ _
  · intro hmem
    exact absurd (List.eq_of_mem_replicate hmem) (by decide)

theorem longName_ne_dotDot (length : ℕ) : longName (length + 1) ≠ dotDot := by
  intro h
  exact absurd (List.cons.inj h).1 (by decide)

theorem entryPath_nil (name : Text) : entryPath [] name = '/' :: name := by
  rw [entryPath, List.nil_append, render_cons, render_nil, List.append_nil]

theorem shorterName_longName (length : ℕ) :
    shorterName ('/' :: longName (length + 2)) = '/' :: longName (length + 1) := by
  change (if longName (length + 1) ≠ [] ∧ (longName (length + 1)).all (· = 'a') then _ else _) = _
  refine if_pos ⟨List.cons_ne_nil _ _, List.all_eq_true.mpr ?_⟩
  intro c hc
  exact decide_eq_true (List.eq_of_mem_replicate hc)

theorem components_longName (length : ℕ) :
    components ('/' :: longName (length + 1)) = [longName (length + 1)] :=
  (fields_cons_sep _ rfl).trans (fields_eq_singleton (isField_longName length).1
    (isField_longName length).free)

theorem follows_shorterName (length : ℕ) :
    Follows shorterName length [] [longName (length + 1)] [longName 1] := by
  induction length with
  | zero =>
    refine .enter (longName_ne_dotDot 0) ?_ .finish
    rw [entryPath_nil]
    rfl
  | succ length ih =>
    have hlink : shorterName (entryPath [] (longName (length + 2))) = '/' :: longName (length + 1) := by
      rw [entryPath_nil, shorterName_longName]
    refine .follow (longName_ne_dotDot _) ?_ ?_
    · rw [hlink]
      exact List.cons_ne_nil _ _
    · have htarget : targetNames ('/' :: longName (length + 1)) = [longName (length + 1)] := by
        rw [targetNames, components_longName, List.filter_cons_of_pos]
        · rfl
        · apply decide_eq_true
          intro h
          exact absurd (List.cons.inj h).1 (by decide)
      rw [hlink, htarget, List.append_nil]
      exact ih

theorem climbsFirst_shorterName (path : Text) : ClimbsFirst (targetNames (shorterName path)) := by
  unfold shorterName
  split
  · rename_i rest
    split
    · rename_i hrest
      have hfield : IsField '/' rest := by
        refine ⟨hrest.1, ?_⟩
        intro hmem
        exact absurd (of_decide_eq_true (List.all_eq_true.mp hrest.2 _ hmem)) (by decide)
      have hcomponents : components ('/' :: rest) = [rest] :=
        (fields_cons_sep _ rfl).trans (fields_eq_singleton hfield.1 hfield.free)
      intro hmem
      have hmem := (List.dropWhile_sublist _).subset hmem
      rw [targetNames, hcomponents] at hmem
      obtain rfl := List.mem_singleton.mp (List.mem_filter.mp hmem).1
      exact absurd (List.all_eq_true.mp hrest.2 '.' (by decide)) (by decide)
    · exact List.not_mem_nil
  · exact List.not_mem_nil

def rootMount : List Mount := [⟨['/'], "8:1".toList, true⟩]

theorem allLocal_rootMount : AllLocal rootMount := by
  constructor
  · intro mount hmount
    rw [List.mem_singleton.mp hmount]
  · exact ⟨_, List.mem_singleton_self _, rfl⟩

theorem resolveLocalSymlinks_linkFree_iff_oneLink :
    LinkFree shorterName
        (components (resolveLocalSymlinks ('/' :: longName 2) rootMount [] fun _ => shorterName).path) ↔
      1 ≤ 39 := by
  apply resolveLocalSymlinks_linkFree_iff rootMount shorterName _ 1 [longName 1] allLocal_rootMount rfl
    (by decide) climbsFirst_shorterName _ (by omega)
  rw [components_longName]
  exact follows_shorterName 1

theorem notLinkFree_fortyLinks :
    Follows shorterName 40 [] (components ('/' :: longName 41)) [longName 1] ∧
      ¬ LinkFree shorterName (components
        (resolveLocalSymlinks ('/' :: longName 41) rootMount [] fun _ => shorterName).path) := by
  have hfollows : Follows shorterName 40 [] (components ('/' :: longName 41)) [longName 1] := by
    rw [components_longName]
    exact follows_shorterName 40
  exact ⟨hfollows, not_linkFree_of_forty allLocal_rootMount rfl (by decide) climbsFirst_shorterName
    hfollows le_rfl⟩

end Limit

end CppUtils.StorageSpeed
