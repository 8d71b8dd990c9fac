import CppUtils.StorageSpeed.Paths
import CppUtils.StorageSpeed.SpeedCache

/-!
# The volume of a path on Windows

The mount table is a snapshot that all threads share. A drive letter may have gone to another volume since,
so every hit is checked against the system, and a wrong one replaces the snapshot, once in a call.
-/

namespace CppUtils.StorageSpeed

/-- Text is in UTF-16 units; an empty `guidPath` stands for a volume without a GUID. -/
structure VolumeKey where
  guidPath : Text
  mountPath : Text
deriving DecidableEq

structure VolumeMount where
  path : Text
  guidPath : Text

/-- What `enumerateVolumeMounts` returns: the longest mount points first. -/
structure VolumeMountTable where
  mounts : List VolumeMount
  sorted : mounts.Pairwise fun a b => b.path.length ≤ a.path.length

inductive DriveType
  | fixed
  | ramDisk
  | other
  deriving DecidableEq

/-- `CompareStringOrdinal` that ignores the case maps each unit by the system's table. -/
abbrev CaseTable := Char → Char

def equalIgnoringCase (upper : CaseTable) (left right : Text) : Bool := left.map upper == right.map upper

def hasPathPrefix (upper : CaseTable) (path start : Text) : Bool :=
  decide (start.length ≤ path.length) && equalIgnoringCase upper (path.take start.length) start

/-- `VolumeKey::operator==`. -/
def VolumeKey.same (key other : VolumeKey) : Bool :=
  if key.guidPath.isEmpty != other.guidPath.isEmpty then false
  else if key.guidPath.isEmpty then key.mountPath == other.mountPath
  else key.guidPath == other.guidPath

/-- What one call sees of the system. `guidAt` is `GetVolumeNameForVolumeMountPointW` in the two attempts
on the table, `guidOfRoot` the same function in the fallback; the mounts are enumerated between the attempts
and after the fallback. -/
structure WindowsSystem where
  upper : CaseTable
  absolute : Text → Option Text
  driveType : Text → DriveType
  guidAt : Fin 2 → Text → Option Text
  enumerateVolumeMounts : Fin 2 → VolumeMountTable
  volumePathName : Text → Option Text
  guidOfRoot : Text → Option Text

namespace WindowsSystem

variable (system : WindowsSystem)

def normalizedWindowsPath (path : Text) : Text := path.map fun c => if c = '/' then '\\' else c

def isUncPath (path : Text) : Bool :=
  if hasPathPrefix system.upper path "\\\\?\\UNC\\".toList then true
  else "\\\\".toList.isPrefixOf path && !"\\\\?\\".toList.isPrefixOf path &&
    !"\\\\.\\".toList.isPrefixOf path

def isDriveLetter (c : Char) : Bool := ('A' ≤ c && c ≤ 'Z') || ('a' ≤ c && c ≤ 'z')

/-- The root of the drive that a path names, empty if it names none. -/
def driveRoot (path : Text) : Text :=
  let path := if "\\\\?\\".toList.isPrefixOf path then path.drop 4 else path
  match path with
  | letter :: ':' :: _ => if isDriveLetter letter then [letter, ':', '\\'] else []
  | _ => []

/-- What one attempt on the table finds. -/
inductive Attempt
  | noMount
  | current (key : VolumeKey)
  | outdated

def attemptLookup (attempt : Fin 2) (table : VolumeMountTable) (path : Text) : Attempt :=
  match table.mounts.find? fun candidate => hasPathPrefix system.upper path candidate.path with
  | none => .noMount
  | some mount =>
    match system.guidAt attempt mount.path with
    | none => .outdated
    | some guid =>
      if equalIgnoringCase system.upper mount.guidPath guid then .current ⟨mount.guidPath, mount.path⟩
      else .outdated

/-- The block under the mutex of the table: the key, and the table that is left. -/
def volumeKeyFromMountTable (table : VolumeMountTable) (path : Text) :
    Option VolumeKey × VolumeMountTable :=
  match system.attemptLookup 0 table path with
  | .noMount => (none, table)
  | .current key => (some key, table)
  | .outdated =>
    match system.attemptLookup 1 (system.enumerateVolumeMounts 0) path with
    | .current key => (some key, system.enumerateVolumeMounts 0)
    | _ => (none, system.enumerateVolumeMounts 0)

def volumeKeyFromSystem (path : Text) : Option VolumeKey :=
  match system.volumePathName path with
  | none => none
  | some volumeRoot => some ⟨(system.guidOfRoot volumeRoot).getD [], volumeRoot⟩

/-- The path that is looked up, unless it is remote. -/
def localPath (path : Text) : Option Text :=
  match system.absolute path with
  | none => none
  | some absolutePath =>
    let normalizedPath := normalizedWindowsPath absolutePath
    if system.isUncPath normalizedPath then none
    else
      let root := driveRoot normalizedPath
      if root ≠ [] ∧ system.driveType root ≠ .fixed ∧ system.driveType root ≠ .ramDisk then none
      else some normalizedPath

/-- `volumeKeyForPath`, and the table that it leaves. -/
def volumeKeyForPath (table : VolumeMountTable) (path : Text) : Option VolumeKey × VolumeMountTable :=
  match system.localPath path with
  | none => (none, table)
  | some normalizedPath =>
    match system.volumeKeyFromMountTable table normalizedPath with
    | (some key, table') => (some key, table')
    | (none, table') =>
      match system.volumeKeyFromSystem normalizedPath with
      | none => (none, table')
      | some key => (some key, if key.guidPath = [] then table' else system.enumerateVolumeMounts 1)

/-! ### What a key says -/

/-- The mount that a table gives for the path, with the volume that the system has there at this attempt. -/
structure IsCurrentMount (attempt : Fin 2) (table : VolumeMountTable) (path : Text) (key : VolumeKey) :
    Prop where
  mem : ⟨key.mountPath, key.guidPath⟩ ∈ table.mounts
  holds : hasPathPrefix system.upper path key.mountPath = true
  longest : ∀ mount ∈ table.mounts, hasPathPrefix system.upper path mount.path = true →
    mount.path.length ≤ key.mountPath.length
  current : ∃ guid, system.guidAt attempt key.mountPath = some guid ∧
    equalIgnoringCase system.upper key.guidPath guid = true

variable {system} {attempt : Fin 2} {table : VolumeMountTable} {path : Text} {key : VolumeKey}

theorem isCurrentMount_of_attempt (h : system.attemptLookup attempt table path = .current key) :
    system.IsCurrentMount attempt table path key := by
  unfold attemptLookup at h
  split at h
  · cases h
  · rename_i mount hfind
    obtain ⟨hholds, front, back, hmounts, hfront⟩ := List.find?_eq_some_iff_append.mp hfind
    split at h
    · cases h
    · rename_i guid hguid
      split at h
      · rename_i heq
        cases h
        refine ⟨List.mem_of_find?_eq_some hfind, hholds, fun other hother hbegins => ?_, guid, hguid, heq⟩
        -- A mount in front of the one found is none of the path, one behind it is no longer.
        have hsorted := table.sorted
        rw [hmounts] at hother hsorted
        rcases List.mem_append.mp hother with hmem | hmem
        · have hmiss := hfront other hmem
          rw [hbegins] at hmiss
          cases hmiss
        · rcases List.mem_cons.mp hmem with rfl | hmem
          · exact le_rfl
          · exact (List.pairwise_cons.mp (List.pairwise_append.mp hsorted).2.1).1 other hmem
      · cases h

/-- A key of the table is current, whatever the snapshot was: it is of the snapshot, or of the mounts as
they are enumerated anew. -/
theorem isCurrentMount_of_table (h : (system.volumeKeyFromMountTable table path).1 = some key) :
    system.IsCurrentMount 0 table path key ∨
      system.IsCurrentMount 1 (system.enumerateVolumeMounts 0) path key := by
  unfold volumeKeyFromMountTable at h
  split at h
  · cases h
  · rename_i hattempt
    cases h
    exact .inl (isCurrentMount_of_attempt hattempt)
  · split at h
    · rename_i hattempt
      cases h
      exact .inr (isCurrentMount_of_attempt hattempt)
    · cases h

/-- The path is on a local drive, as far as its text says. -/
structure IsLocalPath (system : WindowsSystem) (path normalizedPath : Text) : Prop where
  absolute : ∃ absolutePath, system.absolute path = some absolutePath ∧
    normalizedPath = normalizedWindowsPath absolutePath
  not_unc : system.isUncPath normalizedPath = false
  local_drive : driveRoot normalizedPath ≠ [] →
    system.driveType (driveRoot normalizedPath) = .fixed ∨
      system.driveType (driveRoot normalizedPath) = .ramDisk

theorem isLocalPath_of_eq_some {normalizedPath : Text} (h : system.localPath path = some normalizedPath) :
    system.IsLocalPath path normalizedPath := by
  unfold localPath at h
  split at h
  · cases h
  · rename_i absolutePath habsolute
    dsimp only at h
    split at h
    · cases h
    · rename_i hunc
      split at h
      · cases h
      · rename_i hdrive
        cases h
        refine ⟨⟨absolutePath, habsolute, rfl⟩, Bool.eq_false_iff.mpr hunc, fun hroot => ?_⟩
        by_contra hother
        rw [not_or] at hother
        exact hdrive ⟨hroot, hother⟩

/-- The key of a path is that of a local mount that holds it, the longest in the snapshot or in the new
table, and of the volume that is there now; or it is what the system itself answers. -/
structure KeyIsCurrent (system : WindowsSystem) (table : VolumeMountTable) (path : Text) (key : VolumeKey) :
    Prop where
  exists_local : ∃ normalizedPath, system.IsLocalPath path normalizedPath ∧
    (system.IsCurrentMount 0 table normalizedPath key ∨
      system.IsCurrentMount 1 (system.enumerateVolumeMounts 0) normalizedPath key ∨
      system.volumePathName normalizedPath = some key.mountPath ∧
        key.guidPath = (system.guidOfRoot key.mountPath).getD [])

theorem keyIsCurrent_of_eq_some (h : (system.volumeKeyForPath table path).1 = some key) :
    system.KeyIsCurrent table path key := by
  unfold volumeKeyForPath at h
  split at h
  · cases h
  · rename_i normalizedPath hlocal
    refine ⟨normalizedPath, isLocalPath_of_eq_some hlocal, ?_⟩
    split at h
    · rename_i key' table' hfound
      cases h
      exact (isCurrentMount_of_table (congrArg Prod.fst hfound)).imp_right .inl
    · refine .inr (.inr ?_)
      unfold volumeKeyFromSystem at h
      split at h
      · cases h
      · rename_i key' hsystem
        cases h
        split at hsystem
        · cases hsystem
        · rename_i volumeRoot hroot
          cases hsystem
          exact ⟨hroot, rfl⟩

end WindowsSystem

/-! ### The query -/

/-- What `queryVolumeSpeed` sees of the system; none for a query of the device that fails. -/
structure WindowsDevices where
  driveType : Text → DriveType
  opens : Text → Bool
  incursSeekPenalty : Text → Option Bool
  isOnUsb : Text → Option Bool

namespace WindowsDevices

/-- `CreateFileW` wants the path without its trailing backslash. -/
def volumeDevicePath (guidPath : Text) : Text :=
  if guidPath.getLast? = some '\\' then guidPath.dropLast else guidPath

def queryVolumeSpeed (devices : WindowsDevices) (volume : VolumeKey) : StorageSpeed :=
  match devices.driveType volume.mountPath with
  | .ramDisk => .fastRandomAccess
  | .other => .slowOrUnknown
  | .fixed =>
    if volume.guidPath = [] then .slowOrUnknown
    else if devices.opens (volumeDevicePath volume.guidPath) = false then .slowOrUnknown
    else if devices.incursSeekPenalty (volumeDevicePath volume.guidPath) = some false ∧
        devices.isOnUsb (volumeDevicePath volume.guidPath) = some false then .fastRandomAccess
    else .slowOrUnknown

/-- A disk in memory, or a fixed disk that seeks for free and is not on USB. -/
structure IsFast (devices : WindowsDevices) (volume : VolumeKey) : Prop where
  fixed : devices.driveType volume.mountPath ≠ .ramDisk → devices.driveType volume.mountPath = .fixed ∧
    volume.guidPath ≠ [] ∧ devices.incursSeekPenalty (volumeDevicePath volume.guidPath) = some false ∧
    devices.isOnUsb (volumeDevicePath volume.guidPath) = some false

theorem isFast_of_query {devices : WindowsDevices} {volume : VolumeKey}
    (h : devices.queryVolumeSpeed volume = .fastRandomAccess) : devices.IsFast volume := by
  refine ⟨fun hdisk => ?_⟩
  unfold queryVolumeSpeed at h
  split at h
  · rename_i hram
    exact absurd hram hdisk
  · cases h
  · rename_i hfixed
    split at h
    · cases h
    · rename_i hguid
      split at h
      · cases h
      · split at h
        · rename_i hanswers
          exact ⟨hfixed, hguid, hanswers⟩
        · cases h

end WindowsDevices

/-! ### The platform -/

namespace VolumeKey

/-- The volume that a key stands for: its GUID, or its mount point if it has none. -/
def volume (key : VolumeKey) : Text ⊕ Text :=
  if key.guidPath = [] then .inr key.mountPath else .inl key.guidPath

theorem same_iff {key other : VolumeKey} : key.same other = true ↔ key.volume = other.volume := by
  by_cases hkey : key.guidPath = []
  · by_cases hother : other.guidPath = []
    · simp [same, volume, hkey, hother]
    · simp [same, volume, hkey, hother]
  · by_cases hother : other.guidPath = []
    · simp [same, volume, hkey, hother]
    · simp only [same, volume, hkey, hother, if_false, Sum.inl.injEq]
      by_cases heq : key.guidPath = other.guidPath <;> simp [heq, hkey, hother]

theorem same_equivalence : Equivalence fun key other : VolumeKey => key.same other = true where
  refl _ := same_iff.mpr rfl
  symm h := same_iff.mpr (same_iff.mp h).symm
  trans h h' := same_iff.mpr ((same_iff.mp h).trans (same_iff.mp h'))

end VolumeKey

/-- Windows: a call sees the system and the shared table as it is then, or the devices. -/
def windowsPlatform : VolumePlatform where
  Path := Text
  VolumeKey := VolumeKey
  Observation := (WindowsSystem × VolumeMountTable) × WindowsDevices
  same := VolumeKey.same
  volumeKeyForPath seen path := (seen.1.1.volumeKeyForPath seen.1.2 path).1
  queryVolumeSpeed seen volume := seen.2.queryVolumeSpeed volume
  same_equivalence := VolumeKey.same_equivalence

/-- On Windows a path is called fast only if it was local, and the volume that its call saw it on, whatever
the snapshot said, had been found fast when it was queried. -/
theorem windowsFast_isCurrent {ι : Type} [DecidableEq ι] {s : SpeedState windowsPlatform ι}
    (hreach : (speedSystem windowsPlatform ι).Reachable s)
    {seen : (WindowsSystem × VolumeMountTable) × WindowsDevices} {path : Text} {key : Option VolumeKey}
    (hfast : .returned seen path key .fastRandomAccess ∈ s.events) :
    ∃ (found queried : VolumeKey) (now : (WindowsSystem × VolumeMountTable) × WindowsDevices),
      key = some found ∧ seen.1.1.KeyIsCurrent seen.1.2 path found ∧
        .queried now queried .fastRandomAccess ∈ s.events ∧ found.volume = queried.volume ∧
        now.2.IsFast queried := by
  have h := SpeedState.recorded hreach
  cases key with
  | none =>
    have hslow := h.justified _ hfast
    cases hslow
  | some found =>
    obtain ⟨now, queried, hquery, hsame, hanswer⟩ := h.exists_queried hfast
    exact ⟨found, queried, now, rfl, WindowsSystem.keyIsCurrent_of_eq_some (h.observed _ hfast), hquery,
      (VolumeKey.same_iff.mp hsame).symm, WindowsDevices.isFast_of_query hanswer⟩

section ReusedLetter

def tableOf (guidPath : Text) : VolumeMountTable := ⟨[⟨"C:\\".toList, guidPath⟩], List.pairwise_singleton _ _⟩

/-- The volume at `C:` is a new one; the snapshot still has the old. -/
def reusedLetter : WindowsSystem where
  upper := Char.toUpper
  absolute := some
  driveType _ := .fixed
  guidAt _ _ := some "new".toList
  enumerateVolumeMounts _ := tableOf "new".toList
  volumePathName _ := none
  guidOfRoot _ := none

def quickDisk : WindowsDevices where
  driveType _ := .fixed
  opens _ := true
  incursSeekPenalty _ := some false
  isOnUsb _ := some false

/-- What a call for a path on `C:` sees. -/
def letterSeen : (WindowsSystem × VolumeMountTable) × WindowsDevices :=
  ((reusedLetter, tableOf "old".toList), quickDisk)

theorem windowsFast_isCurrent_reusedLetter : ∃ (s : SpeedState windowsPlatform Unit) (queried : VolumeKey)
    (now : (WindowsSystem × VolumeMountTable) × WindowsDevices),
    .returned letterSeen "C:/a".toList (some (⟨"new".toList, "C:\\".toList⟩ : VolumeKey)) .fastRandomAccess
        ∈ s.events ∧
      reusedLetter.KeyIsCurrent (tableOf "old".toList) "C:/a".toList ⟨"new".toList, "C:\\".toList⟩ ∧
      .queried now queried .fastRandomAccess ∈ s.events ∧ queried.volume = .inl "new".toList ∧
      now.2.IsFast queried := by
  have hkey : windowsPlatform.volumeKeyForPath letterSeen "C:/a".toList =
      some (⟨"new".toList, "C:\\".toList⟩ : VolumeKey) := by
    change (reusedLetter.volumeKeyForPath (tableOf "old".toList) "C:/a".toList).1 = _
    decide
  have hspeed : windowsPlatform.queryVolumeSpeed letterSeen (⟨"new".toList, "C:\\".toList⟩ : VolumeKey) =
      .fastRandomAccess := by
    change quickDisk.queryVolumeSpeed ⟨"new".toList, "C:\\".toList⟩ = _
    decide
  obtain ⟨s, hsteps, -, -, hevents⟩ := exists_firstAnswer (t := ())
    (s := SpeedState.initial windowsPlatform Unit) rfl _ _ hkey rfl
  have hfast : .returned letterSeen "C:/a".toList (some (⟨"new".toList, "C:\\".toList⟩ : VolumeKey))
      .fastRandomAccess ∈ s.events := by
    rw [hevents, hspeed]
    exact List.mem_append_right _ (List.mem_singleton_self _)
  obtain ⟨found, queried, now, hfound, hcurrent, hquery, hvolume, hdevice⟩ :=
    windowsFast_isCurrent (.steps (.init rfl trivial) hsteps) hfast
  cases hfound
  exact ⟨s, queried, now, hfast, hcurrent, hquery, hvolume ▸ rfl, hdevice⟩

end ReusedLetter

end CppUtils.StorageSpeed
