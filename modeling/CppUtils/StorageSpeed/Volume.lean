import CppUtils.StorageSpeed.LinkLimit
import CppUtils.StorageSpeed.MountTree

/-!
# The volume of a path on Linux

`volumeDeviceForPath` puts the parts together: the path is made absolute by its text, the mount table is
parsed, the links on local mounts are resolved, and the mount that holds the result is looked up. Against
the kernel: what it wrote into the table is read back, its walk is followed, and the mount it reaches is
found.
-/

namespace CppUtils.StorageSpeed

structure LinuxSystem where
  /-- `std::filesystem::absolute`; none for an error. -/
  absolute : Text → Option Text
  /-- The contents of `/proc/self/mountinfo`. -/
  mountInfo : Text
  /-- `readlink` without its buffer; none for what is not a link. -/
  readlink : Text → Option Text

/-- `PATH_MAX`, the size of the buffer. -/
def pathMax : ℕ := 4096

namespace LinuxSystem

variable (system : LinuxSystem)

def lexicallyAbsolutePath (path : Text) : Option Text := (system.absolute path).map lexicallyNormal

/-- A target that fills the buffer may be cut, and counts as none. -/
def symlinkTarget (path : Text) : Text :=
  match system.readlink path with
  | none => []
  | some target =>
    let length := min target.length pathMax
    if 0 < length ∧ length < pathMax then target.take length else []

def systemFirmlinks : List Firmlink := []

def currentMounts : List Mount := parseMountInfo system.mountInfo

def volumeDeviceForPath (path : Text) : Text :=
  match system.lexicallyAbsolutePath path with
  | none => []
  | some absolutePath =>
    let mounts := system.currentMounts
    let resolvedPath := (resolveLocalSymlinks (canonicalPath absolutePath systemFirmlinks) mounts
      systemFirmlinks fun _ => system.symlinkTarget).path
    match mountForPath mounts resolvedPath with
    | some (mount, _) => mount.device
    | none => []

end LinuxSystem

variable {names resolved pending : List Text} {path text : Text} {mounts : List Mount} {links : Text → Text}

section Normal

theorem head?_of_spells (h : Spells text names) : text.head? = some '/' := by
  obtain ⟨hne, rfl⟩ | rfl := h
  · exact head?_render_ne_nil hne
  · cases names <;> rfl

theorem getLast?_render_ne (hnames : ∀ n ∈ names, IsName n) : (render '/' names).getLast? ≠ some '/' := by
  obtain rfl | ⟨init, last, rfl⟩ := List.eq_nil_or_concat' names
  · simp
  · obtain ⟨hne, hfree⟩ := (hnames last (List.mem_append_right _ (List.mem_singleton_self _))).field
    intro h
    rw [render_append, render_cons, render_nil, List.append_nil, List.getLast?_append,
      List.getLast?_cons_of_ne_nil hne] at h
    cases hlast : last.getLast? with
    | none => exact hne (List.getLast?_eq_none_iff.mp hlast)
    | some c =>
      rw [hlast] at h
      exact hfree (List.mem_of_getLast? (hlast.trans h))

theorem lexicallyNormal_of_spells (h : Spells text names) (hnames : ∀ n ∈ names, IsName n) :
    lexicallyNormal text = text := by
  have hhead : (text.head? == some '/') = true := beq_iff_eq.mpr (head?_of_spells h)
  have hcomponents := h.components_eq fun n hn => (hnames n hn).field
  have hnormal : normalNames true (components text) = names := by
    rw [hcomponents, normalNames, foldl_pushName_names [] hnames, List.nil_append]
  unfold lexicallyNormal
  simp only [hhead, hnormal, if_true]
  cases hlast : names.getLast? with
  | none =>
    obtain ⟨hne, -⟩ | htext := h
    · exact absurd (List.getLast?_eq_none_iff.mp hlast) hne
    · rw [htext, List.getLast?_eq_none_iff.mp hlast]
      rfl
  | some last =>
    have hname := hnames last (List.mem_of_getLast? hlast)
    dsimp only
    obtain ⟨hne, htext⟩ | htext := h
    · have hend : text.getLast? ≠ some '/' := htext ▸ getLast?_render_ne hnames
      have hdirectory : namesDirectory text = false := by
        simp [namesDirectory, hcomponents, hlast, hname.ne_dot, hname.ne_dotDot, hend]
      rw [hdirectory, Bool.false_and, if_neg Bool.false_ne_true]
      exact htext.symm
    · have hend : text.getLast? = some '/' := by rw [htext, List.getLast?_concat]
      have hdirectory : namesDirectory text = true := by
        simp [namesDirectory, hend]
      rw [hdirectory, Bool.true_and, if_pos (by simpa using hname.ne_dotDot)]
      exact htext.symm

/-- What is pending before a walk stops are names, so what it returns are names. -/
theorem isName_kernelWalk (hlinks : ∀ path, ClimbsFirst (targetNames (links path))) (hops : ℕ)
    (hresolved : ∀ n ∈ resolved, IsName n) (hpending : Climbing pending) :
    ∀ n ∈ kernelWalk mounts links hops resolved pending, IsName n := by
  have hstop : ∀ {resolved : List Text} {name : Text} {pending : List Text},
      (∀ n ∈ resolved, IsName n) → Climbing (name :: pending) → name ≠ dotDot →
        ∀ n ∈ resolved ++ name :: pending, IsName n := fun hresolved hpending hname n hn =>
    (List.mem_append.mp hn).elim (hresolved n) (hpending.isName hname n)
  induction hops, resolved, pending using kernelWalk.induct mounts links with
  | case1 hops resolved =>
    rw [kernelWalk]
    exact hresolved
  | case2 hops resolved pending ih =>
    rw [kernelWalk, if_pos rfl]
    exact ih (fun n hn => hresolved n (List.mem_of_mem_dropLast hn)) hpending.tail_of_dotDot
  | case3 hops resolved name pending hname hlocal =>
    rw [kernelWalk, if_neg hname, if_pos hlocal]
    exact hstop hresolved hpending hname
  | case4 hops resolved name pending hname hlocal hlink ih =>
    rw [kernelWalk, if_neg hname, if_neg hlocal, if_pos hlink]
    have hrest := hpending.isName hname
    refine ih (fun n hn => ?_) (.names fun n hn => hrest n (List.mem_cons_of_mem _ hn))
    obtain hn | hn := List.mem_append.mp hn
    · exact hresolved n hn
    · rw [List.mem_singleton.mp hn]
      exact hrest name List.mem_cons_self
  | case5 hops resolved name pending hname hlocal hlink hgive =>
    rw [kernelWalk, if_neg hname, if_neg hlocal, if_neg hlink, if_pos hgive]
    exact hstop hresolved hpending hname
  | case6 hops resolved name pending hname hlocal hlink hgive ih =>
    rw [kernelWalk, if_neg hname, if_neg hlocal, if_neg hlink, if_neg hgive]
    have hrest := hpending.isName hname
    refine ih ?_ ((climbing_targetNames (hlinks _)).append fun n hn => hrest n (List.mem_cons_of_mem _ hn))
    split
    · exact fun n hn => absurd hn List.not_mem_nil
    · exact hresolved

end Normal

section Walks

variable {records : List MountRecord} {t : MountTree records} {followed hops : ℕ} {entered : List (List Text)}
  {result : List Text}

/-- The walk of the kernel over components, until it comes to a mount that is not local: how many links it
follows, the entries it comes to, and where it ends. It has no limit here. -/
inductive MountTree.Walks (t : MountTree records) (links : Text → Text) :
    List Text → List Text → ℕ → List (List Text) → List Text → Prop
  | finish {resolved : List Text} : Walks t links resolved [] 0 [] resolved
  | up {resolved pending : List Text} {followed : ℕ} {entered : List (List Text)} {result : List Text}
      (h : Walks t links resolved.dropLast pending followed entered result) :
    Walks t links resolved (dotDot :: pending) followed entered result
  | stop {resolved pending : List Text} {name : Text} (hname : name ≠ dotDot)
      (hremote : (recordAt records (t.walk (resolved ++ [name]))).toMount.isLocal = false) :
    Walks t links resolved (name :: pending) 0 [resolved ++ [name]] (resolved ++ name :: pending)
  | enter {resolved pending : List Text} {name : Text} {followed : ℕ} {entered : List (List Text)}
      {result : List Text} (hname : name ≠ dotDot)
      (hlocal : (recordAt records (t.walk (resolved ++ [name]))).toMount.isLocal = true)
      (hlink : links (entryPath resolved name) = [])
      (h : Walks t links (resolved ++ [name]) pending followed entered result) :
    Walks t links resolved (name :: pending) followed ((resolved ++ [name]) :: entered) result
  | follow {resolved pending : List Text} {name : Text} {followed : ℕ} {entered : List (List Text)}
      {result : List Text} (hname : name ≠ dotDot)
      (hlocal : (recordAt records (t.walk (resolved ++ [name]))).toMount.isLocal = true)
      (hlink : links (entryPath resolved name) ≠ [])
      (h : Walks t links (if (links (entryPath resolved name)).head? = some '/' then [] else resolved)
        (targetNames (links (entryPath resolved name)) ++ pending) followed entered result) :
    Walks t links resolved (name :: pending) (followed + 1) ((resolved ++ [name]) :: entered) result

/-- Of the mounts along the names, each that is hidden lies below one that can be seen. -/
def MountTree.SeenHighest (t : MountTree records) (names : List Text) : Prop :=
  ∀ h, t.Hidden h → t.point h <+: names → ∃ v, ¬ t.Hidden v ∧ t.point v <+: names ∧ t.rank h < t.rank v

/-- There the lookup in the table finds the mount that the kernel reaches. -/
theorem mountForPath_eq_walk (hspells : Spells path names) (hnames : ∀ n ∈ names, IsName n)
    (hseen : t.SeenHighest names) :
    mountForPath (parseMountInfo (mountTable records)) path = some (entryAt records (t.walk names)) := by
  have hcomponents : components path = names := hspells.components_eq fun n hn => (hnames n hn).field
  rw [mountForPath_eq_some_iff t (head?_of_spells hspells) (lexicallyNormal_of_spells hspells hnames),
    hcomponents]
  · exact t.walk_isHighest_iff.mpr hseen
  · rw [hcomponents]
    exact (t.walk_reaches names).along

theorem onLocalMount_entryPath {name : Text} (hnames : ∀ n ∈ resolved ++ [name], IsName n)
    (hseen : t.SeenHighest (resolved ++ [name])) :
    onLocalMount (parseMountInfo (mountTable records)) (entryPath resolved name) =
      (recordAt records (t.walk (resolved ++ [name]))).toMount.isLocal := by
  have hspells : Spells (entryPath resolved name) (resolved ++ [name]) := .inl ⟨by simp, rfl⟩
  unfold onLocalMount
  rw [mountForPath_eq_walk hspells hnames hseen]
  rfl

/-- With the budget for one link more, the walk over the table is that of the kernel. -/
theorem MountTree.Walks.kernelWalk_eq (h : t.Walks links resolved pending followed entered result)
    (hlinks : ∀ path, ClimbsFirst (targetNames (links path))) (hresolved : ∀ n ∈ resolved, IsName n)
    (hpending : Climbing pending) (hseen : ∀ names ∈ entered, t.SeenHighest names)
    (hhops : followed < hops) :
    kernelWalk (parseMountInfo (mountTable records)) links hops resolved pending = result := by
  have hentry : ∀ {resolved pending : List Text} {name : Text}, (∀ n ∈ resolved, IsName n) →
      Climbing (name :: pending) → name ≠ dotDot → ∀ n ∈ resolved ++ [name], IsName n := by
    intro resolved pending name hresolved hpending hname n hn
    obtain hn | hn := List.mem_append.mp hn
    · exact hresolved n hn
    · rw [List.mem_singleton.mp hn]
      exact hpending.isName hname name List.mem_cons_self
  induction h generalizing hops with
  | finish => rw [kernelWalk]
  | up h ih =>
    rw [kernelWalk, if_pos rfl]
    exact ih (fun n hn => hresolved n (List.mem_of_mem_dropLast hn)) hpending.tail_of_dotDot hseen hhops
  | stop hname hremote =>
    have hlocal := onLocalMount_entryPath (hentry hresolved hpending hname) (hseen _ List.mem_cons_self)
    rw [kernelWalk, if_neg hname, if_pos (hlocal.trans hremote)]
  | enter hname hlocal hlink h ih =>
    have hnames := hentry hresolved hpending hname
    have hfound := onLocalMount_entryPath hnames (hseen _ List.mem_cons_self)
    rw [kernelWalk, if_neg hname, if_neg (by simp [hfound, hlocal]), if_pos hlink]
    exact ih hnames (.names fun n hn => hpending.isName hname n (List.mem_cons_of_mem _ hn))
      (fun names hmem => hseen names (List.mem_cons_of_mem _ hmem)) hhops
  | follow hname hlocal hlink h ih =>
    have hfound := onLocalMount_entryPath (hentry hresolved hpending hname)
      (hseen _ List.mem_cons_self)
    rw [kernelWalk, if_neg hname, if_neg (by simp [hfound, hlocal]), if_neg hlink, if_neg (by omega)]
    refine ih ?_ ((climbing_targetNames (hlinks _)).append fun n hn =>
      hpending.isName hname n (List.mem_cons_of_mem _ hn))
      (fun names hmem => hseen names (List.mem_cons_of_mem _ hmem)) (by omega)
    split
    · exact fun n hn => absurd hn List.not_mem_nil
    · exact hresolved

end Walks

/-- On Linux the volume of a path is the device of the mount that the kernel reaches where its walk over
local links ends, if it follows at most 39: for a mount table as the kernel writes it, links that climb only
at their start, and no hidden mount above all that can be seen at an entry that the walk comes to. -/
theorem LinuxSystem.volumeDeviceForPath_eq_kernel {records : List MountRecord} (t : MountTree records)
    (system : LinuxSystem) (hinfo : system.mountInfo = mountTable records)
    (hlinks : ∀ link, ClimbsFirst (targetNames (system.symlinkTarget link))) {absolutePath : Text}
    (habsolute : system.absolute path = some absolutePath) (habs : absolutePath.head? = some '/')
    {followed : ℕ} {entered : List (List Text)} {walked : List Text}
    (hwalks : t.Walks system.symlinkTarget [] (components (lexicallyNormal absolutePath)) followed entered
      walked)
    (hlimit : followed ≤ 39) (hseen : ∀ names ∈ walked :: entered, t.SeenHighest names) :
    system.volumeDeviceForPath path = (recordAt records (t.walk walked)).device.text := by
  have hspells := lexicallyNormal_spells habs
  have hnames : ∀ n ∈ normalNames true (components absolutePath), IsName n :=
    isName_foldl_pushName (by simp) fun n hn => isField_of_mem_components hn
  have hnormal := lexicallyNormal_of_spells hspells hnames
  have hhead := head?_of_spells hspells
  have hstart := (spells_of_lexicallyNormal hhead hnormal).2
  -- The path that the links lead to is normal again, and its components are where the walk stops.
  have hwalked : kernelWalk system.currentMounts system.symlinkTarget 40 []
      (components (lexicallyNormal absolutePath)) = walked := by
    rw [currentMounts, hinfo]
    exact hwalks.kernelWalk_eq hlinks (by simp) (.names hstart)
      (fun names hmem => hseen names (List.mem_cons_of_mem _ hmem)) (Nat.lt_succ_of_le hlimit)
  let resolvedPath := (resolveLocalSymlinks (lexicallyNormal absolutePath) system.currentMounts []
    fun _ => system.symlinkTarget).path
  have hresolved : Spells resolvedPath walked := by
    rw [← hwalked]
    exact resolveLoop_spells hlinks 40 [] _ (settled_nil _ _) (.names hstart) _ rfl (.inl rfl)
      (at_start hhead hnormal)
  have hwalkedNames : ∀ n ∈ walked, IsName n := by
    rw [← hwalked]
    exact isName_kernelWalk hlinks 40 (by simp) (.names hstart)
  have hfound : mountForPath system.currentMounts resolvedPath =
      some (entryAt records (t.walk walked)) := by
    rw [currentMounts, hinfo]
    exact mountForPath_eq_walk hresolved hwalkedNames (hseen _ List.mem_cons_self)
  have hpath : system.lexicallyAbsolutePath path = some (lexicallyNormal absolutePath) := by
    rw [lexicallyAbsolutePath, habsolute, Option.map_some]
  simp only [volumeDeviceForPath, hpath]
  change (match mountForPath system.currentMounts resolvedPath with
    | some (mount, _) => mount.device
    | none => []) = _
  rw [hfound]
  rfl

section Disks

def plainField (text : Text) (hne : text ≠ []) (htext : text.all (!isBreak ·) = true) : WordField :=
  ⟨text, hne, forall_of_all htext⟩

/-- A disk at the root, and a second one at `/a`. -/
def twoDisks : List MountRecord :=
  [plainRecord (digitField '6' rfl) (digitField '5' rfl) [],
    { plainRecord (digitField '7' rfl) (digitField '6' rfl) ["a".toList] with
      device := plainField "8:17".toList (by decide) (by decide)
      device_plain := forall_of_all (by decide) }]

def twoDisksTree : MountTree twoDisks where
  parent := parentAt twoDisks
  point i := components (recordAt twoDisks i).mountPoint
  root := ⟨0, by decide⟩
  parent_eq_none_iff := by decide
  point_root := by decide
  point_of_parent := by decide
  child_unique := by decide
  stacked := by decide
  mountId_injective := by decide
  parent_iff := by decide
  mountPoint_eq := by decide
  isField_point _ _ := isField_of_mem_components
  unbroken_root i := by
    have hall : twoDisks.all (fun r => r.root.all (!isBreak ·)) = true := by decide
    exact forall_of_all (List.all_eq_true.mp hall _ (List.get_mem _ i))
  unbroken_mountPoint i := by
    have hall : twoDisks.all (fun r => r.mountPoint.all (!isBreak ·)) = true := by decide
    exact forall_of_all (List.all_eq_true.mp hall _ (List.get_mem _ i))

/-- `/l` is a link to the folder that the second disk is mounted on. -/
def linkedSystem : LinuxSystem where
  absolute := some
  mountInfo := mountTable twoDisks
  readlink path := if path = "/l".toList then some "a".toList else none

theorem volumeDeviceForPath_linkedSystem :
    linkedSystem.volumeDeviceForPath "/l".toList = "8:17".toList := by
  have hstart : components (lexicallyNormal "/l".toList) = ["l".toList] := by decide
  have hlink : linkedSystem.symlinkTarget (entryPath [] "l".toList) = "a".toList := by decide
  have hnames : targetNames "a".toList = ["a".toList] := by decide
  have hwalks : twoDisksTree.Walks linkedSystem.symlinkTarget []
      (components (lexicallyNormal "/l".toList)) 1 [["l".toList], ["a".toList]] ["a".toList] := by
    rw [hstart]
    refine .follow (by decide) (by decide) (by rw [hlink]; decide) ?_
    rw [hlink, if_neg (by decide), hnames, List.append_nil]
    exact .enter (by decide) (by decide) (by decide) .finish
  have hlinks : ∀ link, ClimbsFirst (targetNames (linkedSystem.symlinkTarget link)) := by
    intro link
    by_cases hlink : link = "/l".toList
    · rw [hlink, ClimbsFirst]
      decide
    · have hread : linkedSystem.readlink link = none := if_neg hlink
      rw [LinuxSystem.symlinkTarget, hread, ClimbsFirst]
      decide
  have hhighest : ∀ names ∈ [["a".toList], ["l".toList], ["a".toList]], ∀ v,
      twoDisksTree.point v <+: names → twoDisksTree.rank v ≤ twoDisksTree.rank (twoDisksTree.walk names) := by
    decide
  exact LinuxSystem.volumeDeviceForPath_eq_kernel twoDisksTree linkedSystem rfl hlinks rfl rfl hwalks
    (by decide) fun names hmem => twoDisksTree.walk_isHighest_iff.mp (hhighest names hmem)

end Disks

end CppUtils.StorageSpeed
