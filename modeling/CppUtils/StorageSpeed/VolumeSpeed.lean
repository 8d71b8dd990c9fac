import CppUtils.StorageSpeed.SpeedCache
import CppUtils.StorageSpeed.Volume

/-!
# The speed of a volume on Linux

The device text of the mount table goes through `sscanf` and `makedev` into a number, and back through
`major`, `minor` and `std::to_string` into a path of `/sys`. The speed is read at the end of that path.
-/

namespace CppUtils.StorageSpeed

/-- `makedev`, `major` and `minor` of the C library. -/
structure DeviceNumbers where
  makedev : ℕ → ℕ → ℕ
  major : ℕ → ℕ
  minor : ℕ → ℕ
  major_makedev : ∀ a b, a < 2 ^ 32 → b < 2 ^ 32 → major (makedev a b) = a
  minor_makedev : ∀ a b, a < 2 ^ 32 → b < 2 ^ 32 → minor (makedev a b) = b

/-! ### The key of a device -/

/-- `strtoul`: a number that does not fit in 64 bits becomes the largest that does, with either sign. -/
def strtoul (negative : Bool) (value : ℕ) : ℕ :=
  if 2 ^ 64 ≤ value then 2 ^ 64 - 1 else if negative then (2 ^ 64 - value) % 2 ^ 64 else value

/-- `%u` of `sscanf`: leading space, a sign, digits; the lower half of the number is stored. -/
def scanUnsigned (stream : Text) : Option (ℕ × Text) :=
  let trimmed := stream.dropWhile isSpace
  let negative := trimmed.head? == some '-'
  let unsigned := if negative || trimmed.head? == some '+' then trimmed.tail else trimmed
  let digits := unsigned.takeWhile Char.isDigit
  if digits = [] then none
  else some (strtoul negative (Nat.ofDigitChars 10 digits 0) % 2 ^ 32, unsigned.dropWhile Char.isDigit)

/-- `sscanf(device, "%u:%u")` has to convert both numbers. -/
def volumeKeyFromDevice (numbers : DeviceNumbers) (device : Text) : Option ℕ :=
  match scanUnsigned device with
  | some (deviceMajor, ':' :: rest) =>
    match scanUnsigned rest with
    | some (deviceMinor, _) => some (numbers.makedev deviceMajor deviceMinor)
    | none => none
  | _ => none

/-- `std::to_string`. -/
def decimal (n : ℕ) : Text := Nat.toDigits 10 n

def sysDevBlock : Text := "/sys/dev/block/".toList

def sysDevLink (numbers : DeviceNumbers) (dev : ℕ) : Text :=
  sysDevBlock ++ decimal (numbers.major dev) ++ ':' :: decimal (numbers.minor dev)

theorem isSpace_of_isDigit {c : Char} (hc : c.isDigit = true) : isSpace c = false := by
  rw [isSpace, decide_eq_false_iff_not]
  intro hmem
  fin_cases hmem <;> cases hc

/-- The digits in front of anything else are read as the number. -/
theorem scanUnsigned_decimal {n : ℕ} (hn : n < 2 ^ 32) {rest : Text}
    (hrest : ∀ c ∈ rest.head?, c.isDigit = false) : scanUnsigned (decimal n ++ rest) = some (n, rest) := by
  have hdigits : ∀ c ∈ decimal n, c.isDigit = true := fun c hc =>
    Nat.isDigit_of_mem_toDigits (by decide) (by decide) hc
  have hne : decimal n ≠ [] := Nat.toDigits_ne_nil
  obtain ⟨c, digits, hdecimal⟩ := List.exists_cons_of_ne_nil hne
  have hc : c.isDigit = true := hdigits c (by rw [hdecimal]; exact List.mem_cons_self)
  have hspace : (decimal n ++ rest).dropWhile isSpace = decimal n ++ rest := by
    rw [hdecimal, List.cons_append, List.dropWhile_cons_of_neg (by simp [isSpace_of_isDigit hc])]
  have hhead : (decimal n ++ rest).head? = some c := by rw [hdecimal]; rfl
  have hminus : ((decimal n ++ rest).head? == some '-') = false := by
    rw [hhead, beq_eq_false_iff_ne]
    rintro ⟨⟩
    cases hc
  have hplus : ((decimal n ++ rest).head? == some '+') = false := by
    rw [hhead, beq_eq_false_iff_ne]
    rintro ⟨⟩
    cases hc
  have hstop : rest.takeWhile Char.isDigit = [] ∧ rest.dropWhile Char.isDigit = rest := by
    cases rest with
    | nil => exact ⟨rfl, rfl⟩
    | cons d rest =>
      have hd := hrest d rfl
      exact ⟨by simp [hd], by simp [hd]⟩
  have htake : (decimal n ++ rest).takeWhile Char.isDigit = decimal n := by
    rw [List.takeWhile_append_of_pos hdigits, hstop.1, List.append_nil]
  have hdrop : (decimal n ++ rest).dropWhile Char.isDigit = rest := by
    rw [List.dropWhile_append_of_pos hdigits, hstop.2]
  have hvalue : strtoul false (Nat.ofDigitChars 10 (decimal n) 0) % 2 ^ 32 = n := by
    rw [decimal, Nat.ofDigitChars_ten_toDigits, strtoul, if_neg (by omega)]
    exact Nat.mod_eq_of_lt hn
  simp only [scanUnsigned, hspace, hminus, hplus, Bool.or_false, Bool.false_eq_true, if_false, htake, hdrop,
    hvalue, if_neg hne]

/-- The link of a device is named like the device in the mount table. -/
theorem sysDevLink_of_device (numbers : DeviceNumbers) {a b : ℕ} (ha : a < 2 ^ 32) (hb : b < 2 ^ 32) :
    ∃ key, volumeKeyFromDevice numbers (decimal a ++ ':' :: decimal b) = some key ∧
      sysDevLink numbers key = sysDevBlock ++ (decimal a ++ ':' :: decimal b) := by
  have hmajor : scanUnsigned (decimal a ++ ':' :: decimal b) = some (a, ':' :: decimal b) :=
    scanUnsigned_decimal ha fun c hc => by cases hc; rfl
  have hminor : scanUnsigned (decimal b) = some (b, []) := by
    have hread : scanUnsigned (decimal b ++ []) = some (b, []) := scanUnsigned_decimal hb fun c hc => by cases hc
    rwa [List.append_nil] at hread
  refine ⟨numbers.makedev a b, by simp only [volumeKeyFromDevice, hmajor, hminor], ?_⟩
  rw [sysDevLink, numbers.major_makedev a b ha hb, numbers.minor_makedev a b ha hb, List.append_assoc]

/-! ### The query -/

structure DeviceTree where
  /-- `std::filesystem::canonical`; none for an error. -/
  canonical : Text → Option Text
  /-- The first character that `>>` reads from a file, none if there is none. -/
  firstChar : Text → Option Char

/-- `std::string::find` of a text, as a test. -/
def containsText (text pattern : Text) : Bool := text.tails.any pattern.isPrefixOf

/-- `operator/` of `std::filesystem::path`, for a name on the right. -/
def joinPath (folder name : Text) : Text :=
  if folder = [] ∨ folder.getLast? = some '/' then folder ++ name else folder ++ '/' :: name

/-- `std::filesystem::path::parent_path` of an absolute path. -/
def parentPath (path : Text) : Text :=
  let front := (path.reverse.dropWhile (· ≠ '/')).dropWhile (· = '/')
  if front = [] then ['/'] else front.reverse

/-- The loop over the two folders: the first readable file decides. -/
def rotationalSpeed (tree : DeviceTree) : List Text → StorageSpeed
  | [] => .slowOrUnknown
  | queueDir :: rest =>
    match tree.firstChar (joinPath queueDir "rotational".toList) with
    | some rotational => if rotational = '0' then .fastRandomAccess else .slowOrUnknown
    | none => rotationalSpeed tree rest

def queryVolumeSpeed (numbers : DeviceNumbers) (tree : DeviceTree) (dev : ℕ) : StorageSpeed :=
  match tree.canonical (sysDevLink numbers dev) with
  | none => .slowOrUnknown
  | some devicePath =>
    if containsText devicePath "/usb".toList = true then .slowOrUnknown
    else rotationalSpeed tree
      [joinPath devicePath "queue".toList, joinPath (parentPath devicePath) "queue".toList]

theorem containsText_iff {text pattern : Text} : containsText text pattern = true ↔ pattern <:+: text := by
  simp [containsText, List.infix_iff_prefix_suffix, and_comm]

def rotationalFile (folder : Text) : Text := joinPath (joinPath folder "queue".toList) "rotational".toList

/-- The device is not on USB, and the flag of its disk says that it does not rotate: its own flag, or its
parent's if it has none. -/
structure DeviceTree.IsSolidState (tree : DeviceTree) (link : Text) (devicePath : Text) : Prop where
  canonical : tree.canonical link = some devicePath
  not_usb : ¬ "/usb".toList <:+: devicePath
  flag : tree.firstChar (rotationalFile devicePath) = some '0' ∨
    tree.firstChar (rotationalFile devicePath) = none ∧
      tree.firstChar (rotationalFile (parentPath devicePath)) = some '0'

theorem rotationalSpeed_fast_iff {tree : DeviceTree} {folder parent : Text} :
    rotationalSpeed tree [folder, parent] = .fastRandomAccess ↔
      tree.firstChar (joinPath folder "rotational".toList) = some '0' ∨
        tree.firstChar (joinPath folder "rotational".toList) = none ∧
          tree.firstChar (joinPath parent "rotational".toList) = some '0' := by
  rw [rotationalSpeed, rotationalSpeed, rotationalSpeed]
  cases tree.firstChar (joinPath folder "rotational".toList) with
  | some c => by_cases hc : c = '0' <;> simp [hc]
  | none =>
    cases tree.firstChar (joinPath parent "rotational".toList) with
    | some c => by_cases hc : c = '0' <;> simp [hc]
    | none => simp

theorem queryVolumeSpeed_fast_iff {numbers : DeviceNumbers} {tree : DeviceTree} {dev : ℕ} :
    queryVolumeSpeed numbers tree dev = .fastRandomAccess ↔
      ∃ devicePath, tree.IsSolidState (sysDevLink numbers dev) devicePath := by
  unfold queryVolumeSpeed
  cases hcanonical : tree.canonical (sysDevLink numbers dev) with
  | none =>
    refine iff_of_false (by simp) ?_
    rintro ⟨devicePath, h⟩
    cases hcanonical.symm.trans h.canonical
  | some devicePath =>
    dsimp only
    constructor
    · intro h
      split at h
      · cases h
      · rename_i husb
        exact ⟨devicePath, hcanonical, mt containsText_iff.mpr husb, rotationalSpeed_fast_iff.mp h⟩
    · rintro ⟨other, h⟩
      cases hcanonical.symm.trans h.canonical
      rw [if_neg (mt containsText_iff.mp h.not_usb)]
      exact rotationalSpeed_fast_iff.mpr h.flag

/-! ### The platform -/

/-- Linux: a call sees the mounts and links, or the device tree. -/
def linuxPlatform (numbers : DeviceNumbers) : VolumePlatform where
  Path := Text
  VolumeKey := ℕ
  Observation := LinuxSystem × DeviceTree
  same key key' := decide (key = key')
  volumeKeyForPath seen path :=
    let device := seen.1.volumeDeviceForPath path
    if device = [] then none else volumeKeyFromDevice numbers device
  queryVolumeSpeed seen dev := queryVolumeSpeed numbers seen.2 dev
  same_equivalence := decide_eq_equivalence

theorem linuxPlatform_same {numbers : DeviceNumbers} {key key' : ℕ} :
    (linuxPlatform numbers).same key key' = true ↔ key = key' := decide_eq_true_iff

/-- On Linux a path is called fast only if the mount table that its call saw gave a device for it, and that
device, looked up under the very text of the table, was not on USB and did not rotate in the tree that its
query saw. -/
theorem fast_isSolidState {numbers : DeviceNumbers} {ι : Type} [DecidableEq ι]
    {s : SpeedState (linuxPlatform numbers) ι} (hreach : (speedSystem (linuxPlatform numbers) ι).Reachable s)
    {seen : LinuxSystem × DeviceTree} {path : Text} {key : Option ℕ}
    (hfast : .returned seen path key .fastRandomAccess ∈ s.events) :
    ∃ (dev : ℕ) (now : LinuxSystem × DeviceTree) (devicePath : Text), key = some dev ∧
      volumeKeyFromDevice numbers (seen.1.volumeDeviceForPath path) = some dev ∧
      .queried now dev .fastRandomAccess ∈ s.events ∧
      now.2.IsSolidState (sysDevLink numbers dev) devicePath ∧
      ∀ a b, a < 2 ^ 32 → b < 2 ^ 32 → seen.1.volumeDeviceForPath path = decimal a ++ ':' :: decimal b →
        sysDevLink numbers dev = sysDevBlock ++ seen.1.volumeDeviceForPath path := by
  have h := SpeedState.recorded hreach
  cases key with
  | none =>
    have hslow := h.justified _ hfast
    cases hslow
  | some dev =>
    obtain ⟨now, key', hquery, hsame, hanswer⟩ := h.exists_queried hfast
    obtain rfl : key' = dev := linuxPlatform_same.mp hsame
    obtain ⟨devicePath, hsolid⟩ := queryVolumeSpeed_fast_iff.mp hanswer
    have hdevice : volumeKeyFromDevice numbers (seen.1.volumeDeviceForPath path) = some key' := by
      have hkey := h.observed _ hfast
      change (if seen.1.volumeDeviceForPath path = [] then none
        else volumeKeyFromDevice numbers (seen.1.volumeDeviceForPath path)) = some key' at hkey
      split at hkey
      · cases hkey
      · exact hkey
    refine ⟨key', now, devicePath, rfl, hdevice, hquery, hsolid, fun a b ha hb htext => ?_⟩
    obtain ⟨dev, hdev, hlink⟩ := sysDevLink_of_device numbers ha hb
    rw [htext, hdev] at hdevice
    cases hdevice
    rw [htext]
    exact hlink

/-- How the GNU C library packs a device number. -/
def gnuNumbers : DeviceNumbers where
  makedev a b := a % 2 ^ 12 * 2 ^ 8 + a / 2 ^ 12 * 2 ^ 44 + b % 2 ^ 8 + b / 2 ^ 8 * 2 ^ 20
  major dev := dev / 2 ^ 8 % 2 ^ 12 + dev / 2 ^ 44 * 2 ^ 12
  minor dev := dev % 2 ^ 8 + dev / 2 ^ 20 % 2 ^ 24 * 2 ^ 8
  major_makedev a b ha hb := by omega
  minor_makedev a b ha hb := by omega

def diskSeen (flag : Char) : LinuxSystem × DeviceTree :=
  (linkedSystem,
    { canonical := fun _ => some "/sys/devices/sda".toList
      firstChar := fun _ => some flag })

theorem linkedSystem_root : linkedSystem.volumeDeviceForPath ['/'] = "8:2".toList := by
  have hmounts : linkedSystem.currentMounts = twoDisks.map MountRecord.toMount :=
    parseMountInfo_mountTree twoDisksTree
  have hpath : linkedSystem.lexicallyAbsolutePath ['/'] = some ['/'] := by decide
  simp only [LinuxSystem.volumeDeviceForPath, hpath, hmounts]
  rw [resolveLocalSymlinks, resolveLoop_exit (by decide)]
  decide

theorem volumeKeyForPath_root (flag : Char) :
    (linuxPlatform gnuNumbers).volumeKeyForPath (diskSeen flag) ['/'] = some (2050 : ℕ) := by
  have hdevice : (diskSeen flag).1.volumeDeviceForPath ['/'] = "8:2".toList := linkedSystem_root
  change (if (diskSeen flag).1.volumeDeviceForPath ['/'] = [] then none
    else volumeKeyFromDevice gnuNumbers ((diskSeen flag).1.volumeDeviceForPath ['/'])) = some 2050
  rw [hdevice]
  decide

theorem queryVolumeSpeed_root :
    (linuxPlatform gnuNumbers).queryVolumeSpeed (diskSeen '0') (2050 : ℕ) = .fastRandomAccess := by
  change queryVolumeSpeed gnuNumbers (diskSeen '0').2 2050 = .fastRandomAccess
  refine queryVolumeSpeed_fast_iff.mpr ⟨"/sys/devices/sda".toList, rfl, ?_, .inl rfl⟩
  rw [← containsText_iff]
  decide

/-- The speed of the root is asked for twice; by the second time the disk rotates. -/
theorem askedTwice : ∃ s : SpeedState (linuxPlatform gnuNumbers) Unit,
    (speedSystem (linuxPlatform gnuNumbers) Unit).Reachable s ∧
      s.events = [.queried (diskSeen '0') (2050 : ℕ) .fastRandomAccess,
        .returned (diskSeen '0') ['/'] (some (2050 : ℕ)) .fastRandomAccess,
        .returned (diskSeen '1') ['/'] (some (2050 : ℕ)) .fastRandomAccess] := by
  obtain ⟨s, hsteps, hidle, hcached, hevents⟩ := exists_firstAnswer (t := ())
    (s := SpeedState.initial (linuxPlatform gnuNumbers) Unit) rfl (diskSeen '0') ['/']
    (volumeKeyForPath_root '0') rfl
  rw [queryVolumeSpeed_root] at hcached hevents
  obtain ⟨s', hsteps', -, hevents'⟩ := exists_laterAnswer hidle (diskSeen '1') ['/']
    (volumeKeyForPath_root '1') (by rw [hcached]; rfl)
  refine ⟨s', .steps (.init rfl trivial) (hsteps.trans hsteps'), ?_⟩
  rw [hevents', hevents]
  rfl

/-- The second call saw a disk that rotates, and answers what the query saw. -/
theorem fast_isSolidState_askedTwice : ∃ s : SpeedState (linuxPlatform gnuNumbers) Unit,
    .returned (diskSeen '1') ['/'] (some (2050 : ℕ)) .fastRandomAccess ∈ s.events ∧
      ∃ (now : LinuxSystem × DeviceTree) (devicePath : Text),
        .queried now (2050 : ℕ) .fastRandomAccess ∈ s.events ∧
          now.2.IsSolidState (sysDevLink gnuNumbers 2050) devicePath := by
  obtain ⟨s, hreach, hevents⟩ := askedTwice
  have hfast : .returned (diskSeen '1') ['/'] (some (2050 : ℕ)) .fastRandomAccess ∈ s.events := by
    rw [hevents]
    exact List.mem_cons_of_mem _ (List.mem_cons_of_mem _ List.mem_cons_self)
  obtain ⟨dev, now, devicePath, hdev, -, hquery, hsolid, -⟩ := fast_isSolidState hreach hfast
  cases hdev
  exact ⟨s, hfast, now, devicePath, hquery, hsolid⟩

end CppUtils.StorageSpeed
