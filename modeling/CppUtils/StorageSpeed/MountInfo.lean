import CppUtils.StorageSpeed.Paths

/-!
# Reading `/proc/self/mountinfo`

`parseMountInfo` extracts words from a stream, as the source does; `parseLine_eq` says what that means
for the words of a line.
-/

namespace CppUtils.StorageSpeed

section Unescape

def isOctalDigit (c : Char) : Bool := '0' ≤ c && c ≤ '7'

/-- The `char` whose code three octal digits give. -/
def octalChar (a b d : Char) : Char :=
  Char.ofNat (((a.toNat - '0'.toNat) * 64 + (b.toNat - '0'.toNat) * 8 + (d.toNat - '0'.toNat)) % 256)

/-- A backslash with three octal digits after it is one character; every other one is copied. -/
def unescapedMountPoint : Text → Text
  | '\\' :: a :: b :: d :: rest =>
    if isOctalDigit a && isOctalDigit b && isOctalDigit d then
      octalChar a b d :: unescapedMountPoint rest
    else '\\' :: unescapedMountPoint (a :: b :: d :: rest)
  | c :: rest => c :: unescapedMountPoint rest
  | [] => []

theorem unescapedMountPoint_cons {c : Char} (hc : c ≠ '\\') (rest : Text) :
    unescapedMountPoint (c :: rest) = c :: unescapedMountPoint rest := by
  rw [unescapedMountPoint]
  intro a b d rest' heq
  exact absurd heq hc

end Unescape

section Stream

/-- `std::isspace` in the classic locale. -/
def isSpace (c : Char) : Bool := c ∈ [' ', '\t', '\n', '\x0b', '\x0c', '\r']

/-- What `>>` can extract from a stream. -/
def words (stream : Text) : List Text := fields isSpace stream

/-- `stream >> word`: the next word and the rest of the stream, unless it is at its end. -/
def extract (stream : Text) : Option (Text × Text) :=
  match stream.dropWhile isSpace with
  | [] => none
  | c :: rest => some ((c :: rest).span (!isSpace ·))

variable {stream rest word : Text}

theorem words_dropWhile (stream : Text) : words (stream.dropWhile isSpace) = words stream := by
  induction stream with
  | nil => rfl
  | cons c stream ih =>
    by_cases hc : isSpace c
    · rw [List.dropWhile_cons_of_pos hc, ih]
      exact (fields_cons_sep stream hc).symm
    · rw [List.dropWhile_cons_of_neg hc]

theorem words_of_extract (h : extract stream = some (word, rest)) :
    words stream = word :: words rest := by
  rw [← words_dropWhile]
  unfold extract at h
  split at h
  · cases h
  · rename_i c front hfront
    rw [List.span_eq_takeWhile_dropWhile] at h
    cases h
    have hc : isSpace c = false := by
      have hhead := List.head?_dropWhile_not isSpace stream
      rw [hfront] at hhead
      simpa using hhead
    rw [hfront]
    calc words (c :: front)
      _ = words ((c :: front).takeWhile (!isSpace ·) ++ (c :: front).dropWhile (!isSpace ·)) := by
        rw [List.takeWhile_append_dropWhile]
      _ = (c :: front).takeWhile (!isSpace ·) :: words ((c :: front).dropWhile (!isSpace ·)) := by
        apply fields_append_of_free
        · rw [List.takeWhile_cons_of_pos (by simpa using hc)]
          exact List.cons_ne_nil _ _
        · intro x hx
          simpa using List.all_eq_true.mp List.all_takeWhile x hx
        · intro y hy
          have hhead := List.head?_dropWhile_not (!isSpace ·) (c :: front)
          rw [Option.mem_def.mp hy] at hhead
          simpa using hhead

theorem words_of_extract_eq_none (h : extract stream = none) : words stream = [] := by
  rw [← words_dropWhile]
  unfold extract at h
  split at h
  · rename_i hfront
    rw [hfront]
    rfl
  · cases h

theorem extract_length_lt (h : extract stream = some (word, rest)) : rest.length < stream.length := by
  unfold extract at h
  split at h
  · cases h
  · rename_i c front hfront
    have hle : (c :: front).length ≤ stream.length := hfront ▸ (List.dropWhile_suffix _).length_le
    have hc : isSpace c = false := by
      have hhead := List.head?_dropWhile_not isSpace stream
      rw [hfront] at hhead
      simpa using hhead
    rw [List.span_eq_takeWhile_dropWhile] at h
    cases h
    rw [List.dropWhile_cons_of_pos (by simpa using hc)]
    have hdrop := (List.dropWhile_suffix (!isSpace ·) (l := front)).length_le
    rw [List.length_cons] at hle
    omega

theorem extract_cases (stream : Text) : (extract stream = none ∧ words stream = []) ∨
    ∃ word rest, extract stream = some (word, rest) ∧ words stream = word :: words rest := by
  cases h : extract stream with
  | none => exact .inl ⟨rfl, words_of_extract_eq_none h⟩
  | some found =>
    obtain ⟨word, rest⟩ := found
    exact .inr ⟨word, rest, rfl, words_of_extract h⟩

end Stream

section Parse

def dash : Text := ['-']

/-- `while (fields >> field && field != "-") {}`, and the stream behind the `-`. -/
def skipToDash (stream : Text) : Option Text :=
  match _h : extract stream with
  | none => none
  | some (field, rest) => if field = dash then some rest else skipToDash rest
termination_by stream.length
decreasing_by exact extract_length_lt _h

/-- The allowlist. -/
def localTypes : List Text :=
  ["ext2", "ext3", "ext4", "xfs", "btrfs", "f2fs", "jfs", "reiserfs", "zfs", "bcachefs", "nilfs2",
    "vfat", "msdos", "exfat", "ntfs", "ntfs3", "fuseblk", "hfs", "hfsplus", "udf", "iso9660",
    "squashfs", "erofs", "overlay", "tmpfs", "ramfs", "devtmpfs", "devpts", "proc",
    "sysfs"].map String.toList

def isLocalFileSystemType (type : Text) : Bool := type ∈ localTypes

/-- One iteration of the loop over the lines; `none` is `continue`. -/
def parseLine (line : Text) : Option Mount := do
  let (_mountId, fields) ← extract line
  let (_parentId, fields) ← extract fields
  let (device, fields) ← extract fields
  let (_root, fields) ← extract fields
  let (mountPoint, fields) ← extract fields
  let fields ← skipToDash fields
  let (type, _) ← extract fields
  some ⟨unescapedMountPoint mountPoint, device, isLocalFileSystemType type⟩

/-- The lines that `std::getline` returns: what comes after the last newline is one unless it is empty. -/
def getLines (text : Text) : List Text :=
  let pieces := text.splitOn '\n'
  if pieces.getLast? = some [] then pieces.dropLast else pieces

theorem getLines_flatMap {β : Type*} (line : β → Text) (bs : List β) (hlines : ∀ b ∈ bs, '\n' ∉ line b) :
    getLines (bs.flatMap fun b => line b ++ ['\n']) = bs.map line := by
  have hsplit : (bs.flatMap fun b => line b ++ ['\n']).splitOn '\n' = bs.map line ++ [[]] := by
    induction bs with
    | nil => rfl
    | cons b bs ih =>
      rw [List.flatMap_cons, List.append_assoc, List.singleton_append,
        List.splitOn_append_cons_self_of_not_mem (hlines b List.mem_cons_self),
        ih fun b hb => hlines b (List.mem_cons_of_mem _ hb)]
      rfl
  unfold getLines
  rw [hsplit]
  simp

theorem newline_notMem_of_mem_getLines {text line : Text} (hmem : line ∈ getLines text) :
    '\n' ∉ line := by
  have hpiece : line ∈ text.splitOnP (· == '\n') := by
    unfold getLines at hmem
    dsimp only at hmem
    split at hmem
    · exact List.mem_of_mem_dropLast hmem
    · exact hmem
  intro hnewline
  simpa using mem_splitOnP_free hpiece '\n' hnewline

def parseMountInfo (mountInfo : Text) : List Mount := (getLines mountInfo).filterMap parseLine

/-- The word after the first `-`. -/
def afterDash (words : List Text) : Option Text := ((words.dropWhile (· ≠ dash)).drop 1).head?

def readWords : List Text → Option Mount
  | _ :: _ :: device :: _ :: mountPoint :: more =>
    (afterDash more).map fun type => ⟨unescapedMountPoint mountPoint, device, isLocalFileSystemType type⟩
  | _ => none

theorem skipToDash_bind_extract (stream : Text) :
    ((skipToDash stream).bind extract).map Prod.fst = afterDash (words stream) := by
  induction stream using skipToDash.induct with
  | case1 stream h =>
    rw [skipToDash, h, words_of_extract_eq_none h]
    rfl
  | case2 stream rest h =>
    rw [skipToDash, h, words_of_extract h]
    obtain ⟨hnone, hwords⟩ | ⟨word, rest', hsome, hwords⟩ := extract_cases rest
    · rw [hwords]
      simp [hnone, afterDash]
    · rw [hwords]
      simp [hsome, afterDash]
  | case3 stream word rest h hdash ih =>
    have hskip : afterDash (word :: words rest) = afterDash (words rest) := by
      rw [afterDash, List.dropWhile_cons_of_pos (by simpa using hdash)]
      rfl
    rw [skipToDash, h, words_of_extract h, hskip, ← ih]
    simp [hdash]

/-- Only the words of a line matter. -/
theorem parseLine_eq (line : Text) : parseLine line = readWords (words line) := by
  unfold parseLine
  obtain ⟨h₁, hw₁⟩ | ⟨mountId, line₁, h₁, hw₁⟩ := extract_cases line
  · rw [h₁, hw₁]
    rfl
  obtain ⟨h₂, hw₂⟩ | ⟨parentId, line₂, h₂, hw₂⟩ := extract_cases line₁
  · simp [h₁, hw₁, h₂, hw₂, readWords]
  obtain ⟨h₃, hw₃⟩ | ⟨device, line₃, h₃, hw₃⟩ := extract_cases line₂
  · simp [h₁, hw₁, h₂, hw₂, h₃, hw₃, readWords]
  obtain ⟨h₄, hw₄⟩ | ⟨root, line₄, h₄, hw₄⟩ := extract_cases line₃
  · simp [h₁, hw₁, h₂, hw₂, h₃, hw₃, h₄, hw₄, readWords]
  obtain ⟨h₅, hw₅⟩ | ⟨mountPoint, line₅, h₅, hw₅⟩ := extract_cases line₄
  · simp [h₁, hw₁, h₂, hw₂, h₃, hw₃, h₄, hw₄, h₅, hw₅, readWords]
  rw [hw₁, hw₂, hw₃, hw₄, hw₅, readWords, ← skipToDash_bind_extract]
  simp only [h₁, h₂, h₃, h₄, h₅, Option.bind_eq_bind, Option.bind_some]
  cases skipToDash line₅ with
  | none => rfl
  | some rest =>
    simp only [Option.bind_some]
    cases extract rest with
    | none => rfl
    | some found => rfl

end Parse

section Grammar

theorem afterDash_eq_some_iff {fields : List Text} {type : Text} : afterDash fields = some type ↔
    ∃ before after, fields = before ++ dash :: type :: after ∧ dash ∉ before := by
  induction fields with
  | nil => simp [afterDash]
  | cons field fields ih =>
    by_cases hdash : field = dash
    · subst hdash
      unfold afterDash
      rw [List.dropWhile_cons_of_neg (by simp), List.drop_one, List.tail_cons]
      constructor
      · intro h
        obtain ⟨after, rfl⟩ := List.head?_eq_some_iff.mp h
        exact ⟨[], after, rfl, List.not_mem_nil⟩
      · rintro ⟨before, after, heq, hbefore⟩
        cases before with
        | nil =>
          rw [(List.cons.inj heq).2]
          rfl
        | cons first before =>
          exact absurd ((List.cons.inj heq).1 ▸ List.mem_cons_self) hbefore
    · have hskip : afterDash (field :: fields) = afterDash fields := by
        rw [afterDash, List.dropWhile_cons_of_pos (by simpa using hdash)]
        rfl
      rw [hskip, ih]
      constructor
      · rintro ⟨before, after, rfl, hbefore⟩
        refine ⟨field :: before, after, rfl, ?_⟩
        exact List.not_mem_cons_of_ne_of_not_mem (Ne.symm hdash) hbefore
      · rintro ⟨before, after, heq, hbefore⟩
        cases before with
        | nil => exact absurd (List.cons.inj heq).1 hdash
        | cons first before =>
          exact ⟨before, after, (List.cons.inj heq).2, List.not_mem_of_not_mem_cons hbefore⟩

/-- The line describes the mount: the third and the fifth of its words, and the one after the first `-`
that comes later. -/
def Describes (line : Text) (mount : Mount) : Prop :=
  ∃ mountId parentId root mountPoint type before after,
    words line = [mountId, parentId, mount.device, root, mountPoint] ++ before ++ dash :: type :: after ∧
      dash ∉ before ∧ mount.mountPoint = unescapedMountPoint mountPoint ∧
      mount.isLocal = isLocalFileSystemType type

theorem parseLine_eq_some_iff {line : Text} {mount : Mount} :
    parseLine line = some mount ↔ Describes line mount := by
  rw [parseLine_eq]
  unfold readWords Describes
  constructor
  · intro h
    split at h
    · rename_i mountId parentId device root mountPoint more hwords
      obtain ⟨type, htype, rfl⟩ := Option.map_eq_some_iff.mp h
      obtain ⟨before, after, rfl, hbefore⟩ := afterDash_eq_some_iff.mp htype
      exact ⟨mountId, parentId, root, mountPoint, type, before, after, hwords, hbefore, rfl, rfl⟩
    · cases h
  · rintro ⟨mountId, parentId, root, mountPoint, type, before, after, hwords, hbefore, hpoint, hlocal⟩
    rw [hwords]
    change (afterDash (before ++ dash :: type :: after)).map _ = _
    rw [afterDash_eq_some_iff.mpr ⟨before, after, rfl, hbefore⟩, Option.map_some, ← hpoint, ← hlocal]

theorem parseLine_nil : parseLine [] = none := rfl

/-- The empty piece behind the last newline describes nothing. -/
theorem parseMountInfo_eq (text : Text) :
    parseMountInfo text = (text.splitOn '\n').filterMap parseLine := by
  unfold parseMountInfo getLines
  dsimp only
  split
  · rename_i hlast
    obtain ⟨front, hfront⟩ := List.getLast?_eq_some_iff.mp hlast
    rw [hfront, List.dropLast_concat, List.filterMap_append, List.filterMap_cons, parseLine_nil]
    exact (List.append_nil _).symm
  · rfl

/-- The mounts are those of the lines, in order, and a line has one exactly if it describes it; so no
line changes what another one gives. -/
theorem parseMountInfo_grammar :
    (∀ text, parseMountInfo text = (text.splitOn '\n').flatMap fun line => (parseLine line).toList) ∧
      (∀ line mount, parseLine line = some mount ↔ Describes line mount) ∧
      ∀ a b, parseMountInfo (a ++ '\n' :: b) = parseMountInfo a ++ parseMountInfo b := by
  refine ⟨?_, fun _ _ => parseLine_eq_some_iff, ?_⟩
  · intro text
    rw [parseMountInfo_eq, List.filterMap_eq_flatMap_toList]
  · intro a b
    rw [parseMountInfo_eq, List.splitOn_append_cons_self, List.filterMap_append, parseMountInfo_eq,
      parseMountInfo_eq]

end Grammar

end CppUtils.StorageSpeed
