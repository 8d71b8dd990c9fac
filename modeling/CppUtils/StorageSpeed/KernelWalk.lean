import CppUtils.StorageSpeed.NormalForm
import CppUtils.StorageSpeed.Resolve

/-!
# Resolving as the kernel walks

The kernel keeps a resolved directory and the components still to come, and never goes back; the code
rewrites one string and starts over. Without firmlinks the two agree.
-/

namespace CppUtils.StorageSpeed

section Reference

/-- The components of a link's target, without `.`. -/
def targetNames (target : Text) : List Text := (components target).filter (· ≠ dot)

/-- The path of an entry of the resolved directory. -/
def entryPath (resolved : List Text) (name : Text) : Text := render '/' (resolved ++ [name])

/-- The walk over components: what is resolved, followed by what is pending where it stops. -/
def kernelWalk (mounts : List Mount) (links : Text → Text) :
    ℕ → List Text → List Text → List Text
  | _, resolved, [] => resolved
  | hopsLeft, resolved, name :: pending =>
    if name = dotDot then kernelWalk mounts links hopsLeft resolved.dropLast pending
    else if onLocalMount mounts (entryPath resolved name) = false then resolved ++ name :: pending
    else if links (entryPath resolved name) = [] then
      kernelWalk mounts links hopsLeft (resolved ++ [name]) pending
    else if hopsLeft ≤ 1 then resolved ++ name :: pending
    else kernelWalk mounts links (hopsLeft - 1)
      (if (links (entryPath resolved name)).head? = some '/' then [] else resolved)
      (targetNames (links (entryPath resolved name)) ++ pending)
termination_by hopsLeft _ pending => (hopsLeft, pending.length)
decreasing_by
  · exact Prod.Lex.right _ (Nat.lt_succ_self _)
  · exact Prod.Lex.right _ (Nat.lt_succ_self _)
  · exact Prod.Lex.left _ _ (by omega)

def ClimbsFirst (names : List Text) : Prop := dotDot ∉ names.dropWhile (· = dotDot)

end Reference

variable {mounts : List Mount} {links : Text → Text} {w : Walk} {name target : Text}
  {names resolved front rest pending : List Text}

section Pending

/-- Leading `..` components, and then names. -/
inductive Climbing : List Text → Prop
  | names {pending : List Text} : (∀ n ∈ pending, IsName n) → Climbing pending
  | up {pending : List Text} : Climbing pending → Climbing (dotDot :: pending)

theorem Climbing.append (h : Climbing names) (hpending : ∀ n ∈ pending, IsName n) :
    Climbing (names ++ pending) := by
  induction h with
  | names hnames => exact .names fun n hn => (List.mem_append.mp hn).elim (hnames n) (hpending n)
  | up _ ih => exact .up ih

theorem Climbing.tail_of_dotDot (h : Climbing (dotDot :: pending)) : Climbing pending := by
  cases h with
  | names hnames => exact absurd rfl (hnames dotDot List.mem_cons_self).ne_dotDot
  | up h => exact h

theorem Climbing.isName (h : Climbing (name :: pending)) (hname : name ≠ dotDot) :
    ∀ n ∈ name :: pending, IsName n := by
  cases h with
  | names hnames => exact hnames
  | up _ => exact absurd rfl hname

theorem climbing_of_climbsFirst (hnames : ∀ n ∈ names, IsField '/' n ∧ n ≠ dot)
    (hclimbs : ClimbsFirst names) : Climbing names := by
  induction names with
  | nil => exact .names fun n hn => absurd hn List.not_mem_nil
  | cons name names ih =>
    unfold ClimbsFirst at hclimbs
    by_cases hdotDot : name = dotDot
    · rw [List.dropWhile_cons_of_pos (by simpa using hdotDot)] at hclimbs
      rw [hdotDot]
      exact .up (ih (fun n hn => hnames n (List.mem_cons_of_mem _ hn)) hclimbs)
    · rw [List.dropWhile_cons_of_neg (by simpa using hdotDot)] at hclimbs
      refine .names fun n hn => ⟨(hnames n hn).1, (hnames n hn).2, ?_⟩
      rintro rfl
      exact hclimbs hn

theorem climbing_targetNames (hclimbs : ClimbsFirst (targetNames target)) :
    Climbing (targetNames target) := by
  apply climbing_of_climbsFirst _ hclimbs
  intro n hn
  obtain ⟨hmem, hdot⟩ := List.mem_filter.mp hn
  exact ⟨isField_of_mem_components hmem, of_decide_eq_true hdot⟩

end Pending

section Settled

/-- A directory that the walk has resolved: each of its prefixes is on a local mount, and no link. -/
structure Settled (mounts : List Mount) (links : Text → Text) (resolved : List Text) : Prop where
  names : ∀ n ∈ resolved, IsName n
  passed : ∀ front name, front ++ [name] <+: resolved →
    onLocalMount mounts (entryPath front name) = true ∧
      links (entryPath front name) = []

theorem settled_nil (mounts : List Mount) (links : Text → Text) : Settled mounts links [] := by
  constructor
  · intro n hn
    cases hn
  · intro front name hfirst
    exact absurd (List.prefix_nil.mp hfirst) (by simp)

theorem Settled.of_prefix (h : Settled mounts links resolved) (hfront : front <+: resolved) :
    Settled mounts links front :=
  ⟨fun n hn => h.names n (hfront.subset hn), fun _ _ hfirst => h.passed _ _ (hfirst.trans hfront)⟩

theorem Settled.append (h : Settled mounts links resolved) (hname : IsName name)
    (hlocal : onLocalMount mounts (entryPath resolved name) = true)
    (hlink : links (entryPath resolved name) = []) :
    Settled mounts links (resolved ++ [name]) := by
  constructor
  · intro n hn
    obtain hn | hn := List.mem_append.mp hn
    · exact h.names n hn
    · rw [List.mem_singleton.mp hn]
      exact hname
  · intro front name' hfirst
    obtain heq | hfirst := List.prefix_concat_iff.mp hfirst
    · rw [entryPath, heq]
      exact ⟨hlocal, hlink⟩
    · exact h.passed front name' hfirst

end Settled

section Position

/-- The loop has passed `front`, the first of the names that its path spells. -/
structure Walk.At (w : Walk) (names front : List Text) : Prop where
  spells : Spells w.path names
  passed : front <+: names
  start : w.componentStart = (render '/' front).length + 1

theorem head?_render_append (rest : List Text) {tail : Text} (htail : tail = [] ∨ tail = ['/']) :
    ∀ c ∈ (render '/' rest ++ tail).head?, (c == '/') = true := by
  intro c hc
  cases rest with
  | nil =>
    obtain rfl | rfl := htail
    · cases hc
    · cases hc
      rfl
  | cons name rest =>
    cases hc
    rfl

/-- The path is cut before and after the current component. -/
theorem Walk.At.cut (h : w.At (front ++ name :: rest) front) (hname : IsField '/' name) :
    ∃ tail, (tail = [] ∨ tail = ['/']) ∧
      w.path = (render '/' front ++ ['/']) ++ (name ++ (render '/' rest ++ tail)) ∧
      w.componentStart = (render '/' front ++ ['/']).length ∧
      w.componentEnd = (render '/' front ++ ['/']).length + name.length := by
  obtain ⟨tail, htail, hpath⟩ := h.spells.exists_tail
  have hcut : w.path = (render '/' front ++ ['/']) ++ (name ++ (render '/' rest ++ tail)) := by
    rw [hpath, render_append, render_cons]
    simp only [List.append_assoc, List.cons_append, List.nil_append]
  have hstart : w.componentStart = (render '/' front ++ ['/']).length := by
    rw [h.start, List.length_append, List.length_singleton]
  refine ⟨tail, htail, hcut, hstart, ?_⟩
  have hle : w.componentStart ≤ w.path.length := by
    rw [hstart, hcut]
    exact (List.prefix_append _ _).length_le
  rw [w.componentEnd_eq hle, hstart, hcut, List.drop_left,
    findIdx_append_of_free hname.free (head?_render_append rest htail)]

theorem Walk.At.componentStart_lt (h : w.At (front ++ name :: rest) front) (hname : IsField '/' name) :
    w.componentStart < w.path.length := by
  obtain ⟨tail, _, hcut, hstart, _⟩ := h.cut hname
  have hpos := List.length_pos_iff.mpr hname.1
  rw [hstart, hcut]
  simp only [List.length_append]
  omega

theorem Walk.At.length_le (h : w.At front front) : w.path.length ≤ w.componentStart := by
  obtain ⟨tail, rfl | rfl, hpath⟩ := h.spells.exists_tail
  · rw [hpath, h.start, List.append_nil]
    exact Nat.le_succ _
  · rw [hpath, h.start, List.length_append, List.length_singleton]

theorem Walk.At.reached_eq (h : w.At (front ++ name :: rest) front) (hname : IsField '/' name) :
    w.reached = entryPath front name := by
  obtain ⟨tail, _, hcut, _, hend⟩ := h.cut hname
  rw [Walk.reached, hend, hcut, ← List.length_append, ← List.append_assoc, List.take_left, entryPath,
    render_append, render_cons, render_nil, List.append_nil, List.append_assoc, List.singleton_append]

theorem Walk.At.take_start (h : w.At (front ++ name :: rest) front) (hname : IsField '/' name) :
    w.path.take w.componentStart = render '/' front ++ ['/'] := by
  obtain ⟨tail, _, hcut, hstart, _⟩ := h.cut hname
  rw [hstart, hcut, List.take_left]

/-- The part behind the current component spells what comes after it. -/
theorem Walk.At.drop_end (h : w.At (front ++ name :: rest) front) (hname : IsField '/' name) :
    ∃ tail, (tail = [] ∨ tail = ['/']) ∧ w.path.drop w.componentEnd = render '/' rest ++ tail := by
  obtain ⟨tail, htail, hcut, _, hend⟩ := h.cut hname
  refine ⟨tail, htail, ?_⟩
  rw [hend, hcut, ← List.length_append, ← List.append_assoc, List.drop_left]

theorem Walk.At.next (h : w.At (front ++ name :: rest) front) (hname : IsField '/' name) (hops : ℕ)
    (asked : List Text) :
    Walk.At ⟨w.path, w.componentEnd + 1, hops, asked⟩ (front ++ name :: rest) (front ++ [name]) := by
  obtain ⟨_, _, _, _, hend⟩ := h.cut hname
  refine ⟨h.spells, ⟨rest, by rw [List.append_assoc, List.singleton_append]⟩, ?_⟩
  change w.componentEnd + 1 = _
  rw [hend, render_append, render_cons, render_nil, List.append_nil, List.length_append,
    List.length_append, List.length_cons, List.length_cons, List.length_nil]
  omega

theorem exists_at_of_settled (hw : w.At names front) (hresolved : Settled mounts links resolved)
    (hfirst : front <+: resolved) (hnames : resolved <+: names) :
    ∃ w', w'.At names resolved ∧ w'.hopsLeft = w.hopsLeft ∧
      resolveLoop mounts [] (fun _ => links) w = resolveLoop mounts [] (fun _ => links) w' := by
  obtain ⟨more, rfl⟩ := hfirst
  induction more generalizing front w with
  | nil =>
    rw [List.append_nil]
    exact ⟨w, hw, rfl, rfl⟩
  | cons name more ih =>
    have hassoc : front ++ name :: more = front ++ [name] ++ more := by
      rw [List.append_assoc, List.singleton_append]
    have hname : IsName name := hresolved.names name (List.mem_append_right _ List.mem_cons_self)
    obtain ⟨hlocal, hlink⟩ := hresolved.passed front name (hassoc ▸ List.prefix_append _ _)
    obtain ⟨rest, rfl⟩ := hnames
    have hat : w.At (front ++ name :: (more ++ rest)) front := by
      rw [← List.cons_append, ← List.append_assoc]
      exact hw
    rw [← hat.reached_eq hname.field] at hlocal hlink
    have hnext := hat.next hname.field w.hopsLeft (w.asked ++ [w.reached])
    rw [← List.cons_append, ← List.append_assoc] at hnext
    rw [hassoc] at hnext hresolved ⊢
    obtain ⟨w', hw', hhops, hloop⟩ := ih (hassoc ▸ hnext) hresolved (hassoc ▸ List.prefix_append _ _)
    refine ⟨w', hassoc ▸ hw', hhops, ?_⟩
    rw [← hloop]
    exact resolveLoop_yield (hat.componentStart_lt hname.field) (iteration_noLink hlocal hlink)

/-- Where a link leads: its target from the root or from the directory reached, and then the rest. -/
theorem Walk.At.rewritten_spells (h : w.At (front ++ name :: rest) front)
    (hnames : ∀ n ∈ front ++ name :: rest, IsName n) (target : Text) :
    Spells (w.rewritten [] target)
      ((targetNames target ++ rest).foldl (pushName true)
        (if target.head? = some '/' then [] else front)) := by
  have hfront : ∀ n ∈ front, IsName n := fun n hn => hnames n (List.mem_append_left _ hn)
  have hrest : ∀ n ∈ rest, IsField '/' n := fun n hn =>
    (hnames n (List.mem_append_right _ (List.mem_cons_of_mem _ hn))).field
  have hname := (hnames name (List.mem_append_right _ List.mem_cons_self)).field
  obtain ⟨tail, htail, hdrop⟩ := h.drop_end hname
  have hfold : ∀ base, (targetNames target ++ rest).foldl (pushName true) base =
      (components target ++ rest).foldl (pushName true) base := by
    intro base
    rw [List.foldl_append, List.foldl_append, targetNames, foldl_pushName_filter]
  change Spells (lexicallyNormal ((if target.head? = some '/' then target
    else w.path.take w.componentStart ++ target) ++ w.path.drop w.componentEnd)) _
  rw [hdrop, hfold]
  split
  · rename_i habs
    have habs' : (target ++ (render '/' rest ++ tail)).head? = some '/' := by
      rw [List.head?_append, habs]
      rfl
    have hspells := lexicallyNormal_spells habs'
    rw [components_append target htail hrest] at hspells
    exact hspells
  · rw [h.take_start hname]
    have habs : (render '/' front ++ ['/'] ++ target ++ (render '/' rest ++ tail)).head? = some '/' := by
      cases front with
      | nil => rfl
      | cons n front => rfl
    have hcomponents : components (render '/' front ++ ['/'] ++ target) = front ++ components target := by
      rw [List.append_assoc, List.singleton_append]
      exact (fields_append_cons _ target rfl).trans
        (congrArg (· ++ _) (fields_render fun n hn => (hfront n hn).field))
    have hspells := lexicallyNormal_spells habs
    rw [components_append _ htail hrest, hcomponents, normalNames, List.append_assoc front,
      List.foldl_append, foldl_pushName_names [] hfront] at hspells
    exact hspells

end Position

section Refinement

theorem exists_at_name (hresolved : Settled mounts links resolved) (hpending : Climbing (name :: pending))
    (hname : name ≠ dotDot)
    (hfront : front = [] ∨ front <+: resolved ∧ (name :: pending).head? ≠ some dotDot)
    (hw : w.At ((name :: pending).foldl (pushName true) resolved) front) :
    (∀ n ∈ resolved ++ name :: pending, IsName n) ∧
      ∃ w', w'.At (resolved ++ name :: pending) resolved ∧ w'.hopsLeft = w.hopsLeft ∧
        resolveLoop mounts [] (fun _ => links) w = resolveLoop mounts [] (fun _ => links) w' := by
  have hnames := hpending.isName hname
  have hfirst : front <+: resolved := hfront.elim (fun h => h ▸ List.nil_prefix) And.left
  rw [foldl_pushName_names resolved hnames] at hw
  refine ⟨?_, exists_at_of_settled hw hresolved hfirst (List.prefix_append _ _)⟩
  intro n hn
  exact (List.mem_append.mp hn).elim (hresolved.names n) (hnames n)

/-- From any point of the reference walk, the loop on the path that spells what is resolved and pending
ends where the walk does. -/
theorem resolveLoop_spells (hlinks : ∀ path, ClimbsFirst (targetNames (links path))) (hopsLeft : ℕ)
    (resolved pending : List Text) (hresolved : Settled mounts links resolved)
    (hpending : Climbing pending) (w : Walk) (hhops : w.hopsLeft = hopsLeft)
    (hfront : front = [] ∨ front <+: resolved ∧ pending.head? ≠ some dotDot)
    (hw : w.At (pending.foldl (pushName true) resolved) front) :
    Spells (resolveLoop mounts [] (fun _ => links) w).path
      (kernelWalk mounts links hopsLeft resolved pending) := by
  induction hopsLeft, resolved, pending using kernelWalk.induct mounts links generalizing w front with
  | case1 hopsLeft resolved =>
    have hfirst : front <+: resolved := hfront.elim (fun h => h ▸ List.nil_prefix) And.left
    obtain ⟨w', hw', _, hloop⟩ := exists_at_of_settled hw hresolved hfirst (List.prefix_refl _)
    rw [hloop, resolveLoop_exit hw'.length_le, kernelWalk]
    exact hw'.spells
  | case2 hopsLeft resolved pending ih =>
    obtain rfl : front = [] := hfront.resolve_right fun h => h.2 rfl
    rw [List.foldl_cons,
      pushName_dotDot fun hmem => (hresolved.names _ hmem).ne_dotDot rfl] at hw
    rw [kernelWalk, if_pos rfl]
    exact ih (hresolved.of_prefix (List.dropLast_prefix _)) hpending.tail_of_dotDot w hhops (.inl rfl) hw
  | case3 hopsLeft resolved name pending hname hlocal =>
    -- the next component is not on a local mount
    obtain ⟨hnames, w', hw', hhops', hloop⟩ := exists_at_name hresolved hpending hname hfront hw
    have hfield := (hnames name (List.mem_append_right _ List.mem_cons_self)).field
    rw [← hw'.reached_eq hfield] at hlocal
    rw [hloop, resolveLoop_done (hw'.componentStart_lt hfield) (iteration_remote hlocal), kernelWalk,
      if_neg hname, if_pos (hw'.reached_eq hfield ▸ hlocal)]
    exact hw'.spells
  | case4 hopsLeft resolved name pending hname hlocal hlink ih =>
    -- the next component is no link
    obtain ⟨hnames, w', hw', hhops', hloop⟩ := exists_at_name hresolved hpending hname hfront hw
    have hisName := hnames name (List.mem_append_right _ List.mem_cons_self)
    have hpendingNames : ∀ n ∈ pending, IsName n := fun n hn =>
      hnames n (List.mem_append_right _ (List.mem_cons_of_mem _ hn))
    rw [Bool.not_eq_false] at hlocal
    have hsettled := hresolved.append hisName hlocal hlink
    have hnext := hw'.next hisName.field w'.hopsLeft (w'.asked ++ [w'.reached])
    have hstep : iteration mounts [] (fun _ => links) w' =
        .yield ⟨w'.path, w'.componentEnd + 1, w'.hopsLeft, w'.asked ++ [w'.reached]⟩ := by
      apply iteration_noLink
      · rw [hw'.reached_eq hisName.field]
        exact hlocal
      · rw [hw'.reached_eq hisName.field]
        exact hlink
    rw [hloop, resolveLoop_yield (hw'.componentStart_lt hisName.field) hstep, kernelWalk, if_neg hname,
      if_neg (by simpa using hlocal), if_pos hlink]
    refine ih hsettled (.names hpendingNames) _ (hhops'.trans hhops) (.inr ⟨List.prefix_refl _, ?_⟩) ?_
    · intro hhead
      exact (hpendingNames dotDot (List.mem_of_mem_head? hhead)).ne_dotDot rfl
    · rw [foldl_pushName_names _ hpendingNames, List.append_assoc, List.singleton_append]
      exact hnext
  | case5 hopsLeft resolved name pending hname hlocal hlink hgive =>
    -- the link that uses up the budget
    obtain ⟨hnames, w', hw', hhops', hloop⟩ := exists_at_name hresolved hpending hname hfront hw
    have hfield := (hnames name (List.mem_append_right _ List.mem_cons_self)).field
    rw [Bool.not_eq_false] at hlocal
    have hstep : iteration mounts [] (fun _ => links) w' =
        .done ⟨w'.path, w'.componentStart, w'.hopsLeft - 1, w'.asked ++ [w'.reached]⟩ := by
      apply iteration_giveUp
      · rw [hw'.reached_eq hfield]
        exact hlocal
      · rw [hw'.reached_eq hfield]
        exact hlink
      · rw [hhops', hhops]
        exact hgive
    rw [hloop, resolveLoop_done (hw'.componentStart_lt hfield) hstep, kernelWalk, if_neg hname,
      if_neg (by simpa using hlocal), if_neg hlink, if_pos hgive]
    exact hw'.spells
  | case6 hopsLeft resolved name pending hname hlocal hlink hgive ih =>
    -- a link that is followed: the loop starts over, the walk goes on
    obtain ⟨hnames, w', hw', hhops', hloop⟩ := exists_at_name hresolved hpending hname hfront hw
    have hfield := (hnames name (List.mem_append_right _ List.mem_cons_self)).field
    have hpendingNames : ∀ n ∈ pending, IsName n := fun n hn =>
      hnames n (List.mem_append_right _ (List.mem_cons_of_mem _ hn))
    rw [Bool.not_eq_false] at hlocal
    have hreached := hw'.reached_eq hfield
    have hstep : iteration mounts [] (fun _ => links) w' =
        .yield ⟨w'.rewritten [] (links (entryPath resolved name)), 1, w'.hopsLeft - 1,
          w'.asked ++ [w'.reached]⟩ := by
      rw [← hreached]
      apply iteration_link
      · rw [hreached]
        exact hlocal
      · rw [hreached]
        exact hlink
      · rw [hhops', hhops]
        exact not_le.mp hgive
    rw [hloop, resolveLoop_yield (hw'.componentStart_lt hfield) hstep, kernelWalk, if_neg hname,
      if_neg (by simpa using hlocal), if_neg hlink, if_neg hgive]
    have hspells := hw'.rewritten_spells hnames (links (entryPath resolved name))
    refine ih ?_ ((climbing_targetNames (hlinks _)).append hpendingNames) _ ?_ (.inl rfl)
      ⟨hspells, List.nil_prefix, rfl⟩
    · split
      · exact settled_nil mounts links
      · exact hresolved
    · change w'.hopsLeft - 1 = hopsLeft - 1
      rw [hhops', hhops]

theorem at_start {path : Text} (habs : path.head? = some '/') (hnormal : lexicallyNormal path = path) :
    Walk.At ⟨path, 1, 40, []⟩ ((components path).foldl (pushName true) []) [] := by
  obtain ⟨hspells, hnames⟩ := spells_of_lexicallyNormal habs hnormal
  rw [foldl_pushName_names [] hnames]
  exact ⟨hspells, List.nil_prefix, rfl⟩

/-- Without firmlinks the result is, up to a trailing slash, where the walk over components stops. -/
theorem resolveLocalSymlinks_eq_kernelWalk (mounts : List Mount) (links : Text → Text) (path : Text)
    (habs : path.head? = some '/') (hnormal : lexicallyNormal path = path)
    (hlinks : ∀ path, ClimbsFirst (targetNames (links path))) :
    Spells (resolveLocalSymlinks path mounts [] fun _ => links).path
      (kernelWalk mounts links 40 [] (components path)) := by
  have hnames := (spells_of_lexicallyNormal habs hnormal).2
  exact resolveLoop_spells hlinks 40 [] _ (settled_nil mounts links) (.names hnames) _ rfl (.inl rfl)
    (at_start habs hnormal)

def climbingLink (path : Text) : Text :=
  if path = "/home/u/hdd".toList then "../../mnt/hdd".toList else []

theorem resolveLocalSymlinks_eq_kernelWalk_climbingLink :
    Spells (resolveLocalSymlinks "/home/u/hdd/a.jpg".toList [⟨"/".toList, "8:1".toList, true⟩] []
        fun _ => climbingLink).path
      (kernelWalk [⟨"/".toList, "8:1".toList, true⟩] climbingLink 40 []
        (components "/home/u/hdd/a.jpg".toList)) := by
  apply resolveLocalSymlinks_eq_kernelWalk
  · decide
  · decide
  · intro path
    unfold climbingLink ClimbsFirst
    split
    · decide
    · decide

end Refinement

end CppUtils.StorageSpeed
