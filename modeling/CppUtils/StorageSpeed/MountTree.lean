import CppUtils.Lib.Overlay
import CppUtils.StorageSpeed.MountTable
import CppUtils.StorageSpeed.NormalForm

/-!
# The mount that the kernel reaches

The kernel walks the tree of its mounts and crosses to a child where one lies. `mountForPath` sees only
the list of mount points, and takes the deepest that holds the path; that may be one that is hidden.
-/

namespace CppUtils.StorageSpeed

section WithinPath

variable {path folder : Text} {names p q : List Text}

theorem Spells.isWithinFolder (h : Spells path (p ++ q)) :
    StorageSpeed.isWithinFolder path (pathText p) = true := by
  obtain ⟨tail, htail, htext⟩ := h.exists_tail
  rw [isWithinFolder_iff]
  by_cases hp : p = []
  · subst hp
    have hhead : path.head? = some '/' := by
      obtain ⟨hne, rfl⟩ | rfl := h
      · exact head?_render_ne_nil hne
      · cases q with
        | nil => rfl
        | cons name q => rfl
    obtain ⟨rest, rfl⟩ := List.head?_eq_some_iff.mp hhead
    exact ⟨rest, rfl, .inr (.inl rfl)⟩
  · refine ⟨render '/' q ++ tail, ?_, ?_⟩
    · rw [htext, pathText_of_ne_nil hp, render_append, List.append_assoc]
    · cases q with
      | nil =>
        obtain rfl | rfl := htail
        · exact .inl rfl
        · exact .inr (.inr rfl)
      | cons name q => exact .inr (.inr rfl)

theorem isWithinFolder_pathText_iff (hspells : Spells path names) (hnames : ∀ n ∈ names, IsField '/' n)
    (hp : ∀ n ∈ p, IsField '/' n) : isWithinFolder path (pathText p) = true ↔ p <+: names := by
  constructor
  · intro h
    have hfirst := components_folder h
    rw [components_pathText hp, hspells.components_eq hnames] at hfirst
    exact hfirst
  · rintro ⟨q, rfl⟩
    exact hspells.isWithinFolder

theorem length_pathText_lt (hq : ∀ n ∈ q, IsField '/' n) (hfirst : p <+: q) (hne : p ≠ q) :
    (pathText p).length < (pathText q).length := by
  obtain ⟨rest, rfl⟩ := hfirst
  cases rest with
  | nil => exact absurd (List.append_nil p).symm hne
  | cons name rest =>
    have hname := List.length_pos_iff.mpr (hq name (List.mem_append_right p List.mem_cons_self)).1
    by_cases hp : p = []
    · subst hp
      rw [pathText_nil, List.nil_append, pathText_of_ne_nil (List.cons_ne_nil _ _), render_cons]
      simp only [List.length_cons, List.length_append, List.length_nil]
      omega
    · rw [pathText_append hp, render_cons, List.length_append, List.length_cons]
      omega

theorem length_pathText_le_iff (hnames : ∀ n ∈ names, IsField '/' n) (hp : p <+: names)
    (hq : q <+: names) : (pathText p).length ≤ (pathText q).length ↔ p.length ≤ q.length := by
  obtain hle | hlt := le_or_gt p.length q.length
  · have hfirst := List.prefix_of_prefix_length_le hp hq hle
    refine iff_of_true ?_ hle
    by_cases heq : p = q
    · rw [heq]
    · exact (length_pathText_lt (fun n hn => hnames n (hq.subset hn)) hfirst heq).le
  · have hfirst := List.prefix_of_prefix_length_le hq hp hlt.le
    have hlonger := length_pathText_lt (fun n hn => hnames n (hp.subset hn)) hfirst
      fun h => hlt.ne (congrArg _ h)
    exact iff_of_false hlonger.not_ge hlt.not_ge

end WithinPath

section Tree

def recordAt (records : List MountRecord) (i : Fin records.length) : MountRecord := records.get i

/-- A mount table whose parent IDs make a tree of its mounts, mounted at normal paths. -/
structure MountTree (records : List MountRecord) extends Overlay records.length Text where
  mountId_injective : Function.Injective fun i => (recordAt records i).mountId.text
  parent_iff : ∀ {c i}, parent c = some i ↔
    i ≠ c ∧ (recordAt records c).parentId.text = (recordAt records i).mountId.text
  mountPoint_eq : ∀ i, (recordAt records i).mountPoint = pathText (point i)
  isField_point : ∀ i, ∀ name ∈ point i, IsField '/' name
  unbroken_root : ∀ i, ∀ c ∈ (recordAt records i).root, isBreak c = false
  unbroken_mountPoint : ∀ i, ∀ c ∈ (recordAt records i).mountPoint, isBreak c = false

variable {records : List MountRecord} {t : MountTree records} {path : Text} {i c m : Fin records.length}

def entryAt (records : List MountRecord) (i : Fin records.length) : Mount × ℕ :=
  ((recordAt records i).toMount, i)

theorem mem_zipIdx_iff {entry : Mount × ℕ} :
    entry ∈ (records.map MountRecord.toMount).zipIdx ↔ ∃ i, entryAt records i = entry := by
  rw [List.mem_zipIdx_iff_getElem?, List.getElem?_map, Option.map_eq_some_iff]
  constructor
  · rintro ⟨r, hr, hmount⟩
    obtain ⟨hlt, hget⟩ := List.getElem?_eq_some_iff.mp hr
    exact ⟨⟨entry.2, hlt⟩, Prod.ext (by rw [← hmount, ← hget]; rfl) rfl⟩
  · rintro ⟨i, rfl⟩
    exact ⟨records.get i, List.getElem?_eq_getElem i.isLt, rfl⟩

theorem parseMountInfo_mountTree (t : MountTree records) :
    parseMountInfo (mountTable records) = records.map MountRecord.toMount := by
  rw [parseMountInfo_mountTable_iff]
  intro r hr
  obtain ⟨i, rfl⟩ := List.get_of_mem hr
  exact MountRecord.legible_of_unbroken (t.unbroken_root i) (t.unbroken_mountPoint i)

/-- The mount that the kernel reaches on its way along the path. -/
def MountTree.kernelMount (t : MountTree records) (path : Text) : Fin records.length :=
  t.walk (components path)

theorem isWithinFolder_entryAt_iff (t : MountTree records) (habs : path.head? = some '/')
    (hnormal : lexicallyNormal path = path) :
    isWithinFolder path (entryAt records i).1.mountPoint = true ↔ t.point i <+: components path := by
  obtain ⟨hspells, hnames⟩ := spells_of_lexicallyNormal habs hnormal
  change isWithinFolder path (recordAt records i).mountPoint = true ↔ _
  rw [t.mountPoint_eq]
  exact isWithinFolder_pathText_iff hspells (fun n hn => (hnames n hn).field) (t.isField_point i)

theorem rank_le_iff_entryAt (hi : t.point i <+: components path) (hc : t.point c <+: components path) :
    t.rank i ≤ t.rank c ↔
      (entryAt records i).1.mountPoint.length ≤ (entryAt records c).1.mountPoint.length ∧
        ((entryAt records i).1.mountPoint.length = (entryAt records c).1.mountPoint.length →
          (entryAt records i).2 ≤ (entryAt records c).2) := by
  have hfields : ∀ n ∈ components path, IsField '/' n := fun n hn => isField_of_mem_components hn
  change _ ↔ (recordAt records i).mountPoint.length ≤ (recordAt records c).mountPoint.length ∧
    ((recordAt records i).mountPoint.length = (recordAt records c).mountPoint.length → i ≤ c)
  rw [t.mountPoint_eq, t.mountPoint_eq, Overlay.rank_le_iff, le_antisymm_iff, le_antisymm_iff,
    length_pathText_le_iff hfields hi hc, length_pathText_le_iff hfields hc hi]

/-- On a normal path `mountForPath` finds the mount of the highest rank along it. -/
theorem mountForPath_eq_some_iff (t : MountTree records) (habs : path.head? = some '/')
    (hnormal : lexicallyNormal path = path) (hm : t.point m <+: components path) :
    mountForPath (parseMountInfo (mountTable records)) path = some (entryAt records m) ↔
      ∀ v, t.point v <+: components path → t.rank v ≤ t.rank m := by
  have hdeepest := mountForPath_isDeepest (records.map MountRecord.toMount) path
  have hmem : ∀ v, entryAt records v ∈ (records.map MountRecord.toMount).zipIdx := fun v =>
    mem_zipIdx_iff.mpr ⟨v, rfl⟩
  rw [parseMountInfo_mountTree t]
  constructor
  · intro hfound v hv
    rw [hfound] at hdeepest
    exact (rank_le_iff_entryAt hv hm).mpr
      (hdeepest.2.2 _ (hmem v) ((isWithinFolder_entryAt_iff t habs hnormal).mpr hv))
  · intro hhighest
    have hwithin := (isWithinFolder_entryAt_iff t habs hnormal).mpr hm
    cases hfound : mountForPath (records.map MountRecord.toMount) path with
    | none =>
      rw [hfound] at hdeepest
      exact absurd ((hdeepest _ (hmem m)).symm.trans hwithin) Bool.false_ne_true
    | some best =>
      rw [hfound] at hdeepest
      obtain ⟨hbest, hbestWithin, hrest⟩ := hdeepest
      obtain ⟨b, rfl⟩ := mem_zipIdx_iff.mp hbest
      have hb := (isWithinFolder_entryAt_iff t habs hnormal).mp hbestWithin
      have hle := (rank_le_iff_entryAt hm hb).mpr (hrest _ (hmem m) hwithin)
      rw [t.rank_injective (le_antisymm hle (hhighest b hb))]

/-- The lookup finds the mount that the kernel reaches, unless a mount hidden from the kernel lies deeper
on the path than all that it can see there, or as deep and later in the table. -/
theorem mountForPath_eq_kernelMount_iff (t : MountTree records) (habs : path.head? = some '/')
    (hnormal : lexicallyNormal path = path) :
    mountForPath (parseMountInfo (mountTable records)) path =
        some (entryAt records (t.kernelMount path)) ↔
      ∀ h, t.Hidden h → t.point h <+: components path →
        ∃ v, ¬ t.Hidden v ∧ t.point v <+: components path ∧ t.rank h < t.rank v := by
  have hfound := mountForPath_eq_some_iff t habs hnormal (t.walk_reaches (components path)).along
  exact hfound.trans t.walk_isHighest_iff

end Tree

section Covered

theorem pathText_ne_nil (names : List Text) : pathText names ≠ [] := by
  cases names with
  | nil => exact List.cons_ne_nil _ _
  | cons name names => exact List.cons_ne_nil _ _

def digitField (digit : Char) (hdigit : isBreak digit = false) : WordField where
  text := [digit]
  ne_nil := List.cons_ne_nil _ _
  unbroken c hc := by
    rw [List.mem_singleton.mp hc]
    exact hdigit

def plainRecord (mountId parentId : WordField) (names : List Text) : MountRecord :=
  { brokenRecord with
    mountId := mountId
    parentId := parentId
    mountPoint := pathText names
    mountPoint_ne_nil := pathText_ne_nil names }

/-- The fourth mount is stacked on the second, and covers what is mounted below that. -/
def coveredRecords : List MountRecord :=
  [plainRecord (digitField '1' rfl) (digitField '0' rfl) [],
    plainRecord (digitField '2' rfl) (digitField '1' rfl) ["a".toList],
    plainRecord (digitField '3' rfl) (digitField '2' rfl) ["a".toList, "b".toList],
    plainRecord (digitField '4' rfl) (digitField '2' rfl) ["a".toList]]

/-- The mount whose ID the record gives for its parent. -/
def parentAt (records : List MountRecord) (c : Fin records.length) : Option (Fin records.length) :=
  (List.finRange records.length).find? fun i =>
    i ≠ c ∧ (recordAt records c).parentId.text = (recordAt records i).mountId.text

def coveredTree : MountTree coveredRecords where
  parent := parentAt coveredRecords
  point i := components (recordAt coveredRecords i).mountPoint
  root := ⟨0, by decide⟩
  parent_eq_none_iff := by decide
  point_root := by decide
  point_of_parent := by decide
  child_unique := by decide
  stacked := by decide
  mountId_injective := by decide
  parent_iff := by decide
  mountPoint_eq := by decide
  isField_point _ _ := isField_of_mem_components
  unbroken_root i := by
    have hall : coveredRecords.all (fun r => r.root.all (!isBreak ·)) = true := by decide
    exact forall_of_all (List.all_eq_true.mp hall _ (List.get_mem _ i))
  unbroken_mountPoint i := by
    have hall : coveredRecords.all (fun r => r.mountPoint.all (!isBreak ·)) = true := by decide
    exact forall_of_all (List.all_eq_true.mp hall _ (List.get_mem _ i))

/-- On `/a` the lookup agrees with the kernel, which sees the mount of the highest rank there. -/
theorem mountForPath_eq_kernelMount_folder :
    mountForPath (parseMountInfo (mountTable coveredRecords)) "/a".toList =
        some (entryAt coveredRecords (coveredTree.kernelMount "/a".toList)) ∧
      ∀ h, coveredTree.Hidden h → coveredTree.point h <+: components "/a".toList →
        ∃ v, ¬ coveredTree.Hidden v ∧ coveredTree.point v <+: components "/a".toList ∧
          coveredTree.rank h < coveredTree.rank v := by
  have hfound : mountForPath (parseMountInfo (mountTable coveredRecords)) "/a".toList =
      some (entryAt coveredRecords (coveredTree.kernelMount "/a".toList)) := by
    rw [parseMountInfo_mountTree coveredTree]
    decide
  exact ⟨hfound, (mountForPath_eq_kernelMount_iff coveredTree (by decide) (by decide)).mp hfound⟩

/-- On `/a/b` the lookup finds the third mount, which the fourth hides from the kernel. -/
theorem mountForPath_ne_kernelMount :
    lexicallyNormal "/a/b".toList = "/a/b".toList ∧
      mountForPath (parseMountInfo (mountTable coveredRecords)) "/a/b".toList =
        some (entryAt coveredRecords ⟨2, by decide⟩) ∧ coveredTree.Hidden ⟨2, by decide⟩ ∧
      mountForPath (parseMountInfo (mountTable coveredRecords)) "/a/b".toList ≠
        some (entryAt coveredRecords (coveredTree.kernelMount "/a/b".toList)) := by
  rw [parseMountInfo_mountTree coveredTree]
  refine ⟨by decide, by decide, ?_, by decide⟩
  apply Overlay.Hidden.covered (d := ⟨3, by decide⟩) (i := ⟨1, by decide⟩)
  · decide
  · decide
  · decide
  · decide

end Covered

end CppUtils.StorageSpeed
