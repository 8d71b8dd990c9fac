import CppUtils.StorageSpeed.MountInfo

/-!
# The kernel's mount table

How the kernel writes its mounts, and which records `parseMountInfo` reads back. A space, tab, newline
and backslash are escaped; `>>` also ends a word at a vertical tab, form feed or carriage return.
-/

namespace CppUtils.StorageSpeed

section Escape

/-- What the kernel writes as an octal escape. -/
def isEscaped (c : Char) : Bool := c ∈ [' ', '\t', '\n', '\\']

def octalDigit (n : ℕ) : Char := Char.ofNat ('0'.toNat + n)

def escapeChar (c : Char) : Text :=
  if isEscaped c then
    ['\\', octalDigit (c.toNat / 64), octalDigit (c.toNat / 8 % 8), octalDigit (c.toNat % 8)]
  else [c]

def escaped (text : Text) : Text := text.flatMap escapeChar

/-- What ends a word for `>>` although the kernel writes it as it is. -/
def isBreak (c : Char) : Bool := c ∈ ['\x0b', '\x0c', '\r']

variable {c : Char} {text : Text}

theorem forall_of_all {p : Char → Bool} (h : text.all (!p ·) = true) : ∀ c ∈ text, p c = false := by
  simpa using h

theorem escapeChar_eq_singleton (hc : isEscaped c = false) : escapeChar c = [c] := by
  rw [escapeChar, hc]
  rfl

theorem isEscaped_cases (hc : isEscaped c = true) : c = ' ' ∨ c = '\t' ∨ c = '\n' ∨ c = '\\' := by
  simpa [isEscaped] using hc

theorem isBreak_cases (hc : isBreak c = true) : c = '\x0b' ∨ c = '\x0c' ∨ c = '\r' := by
  simpa [isBreak] using hc

theorem isSpace_cases (hc : isSpace c = true) : isEscaped c = true ∨ isBreak c = true := by
  simp only [isSpace, List.mem_cons, List.not_mem_nil, or_false, decide_eq_true_eq] at hc
  obtain rfl | rfl | rfl | rfl | rfl | rfl := hc
  · exact .inl rfl
  · exact .inl rfl
  · exact .inl rfl
  · exact .inr rfl
  · exact .inr rfl
  · exact .inr rfl

theorem escapeChar_of_isBreak (hc : isBreak c = true) : ∃ a, escapeChar c = [a] ∧ isSpace a = true := by
  obtain rfl | rfl | rfl := isBreak_cases hc
  · exact ⟨_, rfl, rfl⟩
  · exact ⟨_, rfl, rfl⟩
  · exact ⟨_, rfl, rfl⟩

theorem isSpace_of_mem_escapeChar (hc : isBreak c = false) : ∀ a ∈ escapeChar c, isSpace a = false := by
  cases hescaped : isEscaped c with
  | true =>
    obtain rfl | rfl | rfl | rfl := isEscaped_cases hescaped
    · exact forall_of_all rfl
    · exact forall_of_all rfl
    · exact forall_of_all rfl
    · exact forall_of_all rfl
  | false =>
    rw [escapeChar_eq_singleton hescaped]
    intro a ha
    rw [List.mem_singleton.mp ha, ← Bool.not_eq_true]
    intro hspace
    obtain h | h := isSpace_cases hspace
    · exact Bool.false_ne_true (hescaped.symm.trans h)
    · exact Bool.false_ne_true (hc.symm.trans h)

theorem escapeChar_ne_nil (c : Char) : escapeChar c ≠ [] := by
  unfold escapeChar
  split
  · exact List.cons_ne_nil _ _
  · exact List.cons_ne_nil _ _

theorem unescapedMountPoint_escapeChar (c : Char) (rest : Text) :
    unescapedMountPoint (escapeChar c ++ rest) = c :: unescapedMountPoint rest := by
  cases hc : isEscaped c with
  | true =>
    obtain rfl | rfl | rfl | rfl := isEscaped_cases hc
    · rfl
    · rfl
    · rfl
    · rfl
  | false =>
    rw [escapeChar_eq_singleton hc]
    apply unescapedMountPoint_cons
    rintro rfl
    exact Bool.false_ne_true (hc.symm.trans rfl)

theorem unescapedMountPoint_escaped (text : Text) : unescapedMountPoint (escaped text) = text := by
  induction text with
  | nil => rfl
  | cons c text ih =>
    change unescapedMountPoint (escapeChar c ++ escaped text) = c :: text
    rw [unescapedMountPoint_escapeChar, ih]

theorem escaped_injective : Function.Injective escaped :=
  Function.LeftInverse.injective unescapedMountPoint_escaped

theorem escaped_eq_self (htext : ∀ c ∈ text, isEscaped c = false) : escaped text = text := by
  induction text with
  | nil => rfl
  | cons c text ih =>
    change escapeChar c ++ escaped text = c :: text
    rw [escapeChar_eq_singleton (htext c List.mem_cons_self),
      ih fun c hc => htext c (List.mem_cons_of_mem _ hc)]
    rfl

theorem escaped_eq_iff {plain : Text} (hplain : ∀ c ∈ plain, isEscaped c = false) :
    escaped text = plain ↔ text = plain := by
  constructor
  · intro h
    exact escaped_injective (h.trans (escaped_eq_self hplain).symm)
  · rintro rfl
    exact escaped_eq_self hplain

theorem newline_notMem_escaped (text : Text) : '\n' ∉ escaped text := by
  intro hmem
  obtain ⟨c, _, hc⟩ := List.mem_flatMap.mp hmem
  cases hescaped : isEscaped c with
  | true =>
    obtain rfl | rfl | rfl | rfl := isEscaped_cases hescaped
    · exact absurd hc (by decide)
    · exact absurd hc (by decide)
    · exact absurd hc (by decide)
    · exact absurd hc (by decide)
  | false =>
    rw [escapeChar_eq_singleton hescaped] at hc
    rw [← List.mem_singleton.mp hc] at hescaped
    exact Bool.false_ne_true (hescaped.symm.trans rfl)

/-- The runs of a text between its breaks. -/
def pieces (text : Text) : List Text := fields isBreak text

theorem words_escaped (text : Text) : words (escaped text) = (pieces text).map escaped :=
  fields_flatMap (fun _ hc => escapeChar_of_isBreak hc) (fun _ hc => isSpace_of_mem_escapeChar hc)
    escapeChar_ne_nil text

theorem pieces_eq_singleton (hne : text ≠ []) (htext : ∀ c ∈ text, isBreak c = false) :
    pieces text = [text] :=
  fields_eq_singleton hne htext

theorem isLocalFileSystemType_escaped (type : Text) :
    isLocalFileSystemType (escaped type) = isLocalFileSystemType type := by
  have hplain : ∀ name ∈ localTypes, ∀ c ∈ name, isEscaped c = false := by
    intro name hname
    have hall : localTypes.all (fun name => name.all (!isEscaped ·)) = true := by decide
    exact forall_of_all (List.all_eq_true.mp hall name hname)
  unfold isLocalFileSystemType
  rw [decide_eq_decide]
  constructor
  · intro hmem
    rw [(escaped_eq_iff (hplain _ hmem)).mp rfl]
    exact hmem
  · intro hmem
    rw [escaped_eq_self (hplain _ hmem)]
    exact hmem

end Escape

section Records

/-- A field that is one word. -/
structure WordField where
  text : Text
  ne_nil : text ≠ []
  unbroken : ∀ c ∈ text, isBreak c = false

/-- A mount as the kernel knows it. The root, the mount point and what follows the type are any text. -/
structure MountRecord where
  mountId : WordField
  parentId : WordField
  device : WordField
  root : Text
  mountPoint : Text
  options : WordField
  optionalFields : List WordField
  type : WordField
  source : Text
  superOptions : Text
  device_plain : ∀ c ∈ device.text, isEscaped c = false
  root_ne_nil : root ≠ []
  mountPoint_ne_nil : mountPoint ≠ []
  options_ne_dash : options.text ≠ dash
  optionalFields_ne_dash : ∀ field ∈ optionalFields, field.text ≠ dash

namespace MountRecord

variable {r : MountRecord}

/-- The fields from the options on. -/
def fieldsFromOptions (r : MountRecord) : List Text :=
  r.options.text :: r.optionalFields.map WordField.text ++
    [dash, r.type.text, r.source, r.superOptions]

def allFields (r : MountRecord) : List Text :=
  [r.mountId.text, r.parentId.text, r.device.text, r.root, r.mountPoint] ++ r.fieldsFromOptions

/-- The record's line, without the newline. -/
def line (r : MountRecord) : Text := [' '].intercalate (r.allFields.map escaped)

def toMount (r : MountRecord) : Mount :=
  ⟨r.mountPoint, r.device.text, isLocalFileSystemType r.type.text⟩

/-- What `>>` finds of the options and of what follows. -/
def tail (r : MountRecord) : List Text :=
  r.options.text :: r.optionalFields.map WordField.text ++
    dash :: r.type.text :: (pieces r.source ++ pieces r.superOptions)

theorem flatMap_pieces_words (fields : List WordField) :
    (fields.map WordField.text).flatMap pieces = fields.map WordField.text := by
  induction fields with
  | nil => rfl
  | cons field fields ih =>
    rw [List.map_cons, List.flatMap_cons, ih, pieces_eq_singleton field.ne_nil field.unbroken]
    rfl

theorem flatMap_pieces_fieldsFromOptions (r : MountRecord) : r.fieldsFromOptions.flatMap pieces = r.tail := by
  have hdash : pieces dash = [dash] := by decide
  unfold fieldsFromOptions tail
  rw [List.flatMap_append, List.flatMap_cons, flatMap_pieces_words,
    pieces_eq_singleton r.options.ne_nil r.options.unbroken, List.flatMap_cons, hdash, List.flatMap_cons,
    pieces_eq_singleton r.type.ne_nil r.type.unbroken]
  simp

/-- The words of a line, before they were escaped: the root and the mount point may make any number. -/
theorem words_line (r : MountRecord) : words r.line =
    (r.mountId.text :: r.parentId.text :: r.device.text ::
      (pieces r.root ++ pieces r.mountPoint ++ r.tail)).map escaped := by
  have hall : r.allFields.flatMap pieces = r.mountId.text :: r.parentId.text :: r.device.text ::
      (pieces r.root ++ pieces r.mountPoint ++ r.tail) := by
    rw [allFields, List.flatMap_append, flatMap_pieces_fieldsFromOptions]
    simp only [List.flatMap_cons, List.flatMap_nil, List.append_nil,
      pieces_eq_singleton r.mountId.ne_nil r.mountId.unbroken,
      pieces_eq_singleton r.parentId.ne_nil r.parentId.unbroken,
      pieces_eq_singleton r.device.ne_nil r.device.unbroken, List.cons_append, List.nil_append,
      List.append_assoc]
  rw [← hall, List.map_flatMap, line, words, fields_intercalate rfl, List.flatMap_map]
  exact List.flatMap_congr fun field _ => words_escaped field

theorem escaped_eq_dash {text : Text} : escaped text = dash ↔ text = dash :=
  escaped_eq_iff (forall_of_all rfl)

theorem afterDash_map_escaped (fields : List Text) :
    afterDash (fields.map escaped) = (afterDash fields).map escaped := by
  induction fields with
  | nil => rfl
  | cons field fields ih =>
    by_cases hdash : field = dash
    · subst hdash
      unfold afterDash
      rw [List.map_cons, List.dropWhile_cons_of_neg (by simp [escaped_eq_dash]),
        List.dropWhile_cons_of_neg (by simp)]
      cases fields with
      | nil => rfl
      | cons next fields => rfl
    · have hdash' : escaped field ≠ dash := fun h => hdash (escaped_eq_dash.mp h)
      unfold afterDash at ih ⊢
      rw [List.map_cons, List.dropWhile_cons_of_pos (by simpa using hdash'),
        List.dropWhile_cons_of_pos (by simpa using hdash)]
      exact ih

/-- The type follows the first `-`, unless an earlier field is one. -/
theorem afterDash_append {fields : List Text} (hfields : dash ∉ fields) (type : Text) (rest : List Text) :
    afterDash (fields ++ dash :: type :: rest) = some type :=
  afterDash_eq_some_iff.mpr ⟨fields, rest, rfl, hfields⟩

theorem dash_notMem_optionalFields (r : MountRecord) : dash ∉ r.optionalFields.map WordField.text := by
  intro hmem
  obtain ⟨field, hfield, hdash⟩ := List.mem_map.mp hmem
  exact r.optionalFields_ne_dash field hfield hdash

theorem afterDash_optionalFields (r : MountRecord) (rest : List Text) :
    afterDash (r.optionalFields.map WordField.text ++ dash :: r.type.text :: rest) =
      some r.type.text :=
  afterDash_append r.dash_notMem_optionalFields _ _

theorem afterDash_tail (r : MountRecord) : afterDash r.tail = some r.type.text := by
  unfold tail
  apply afterDash_append
  intro hmem
  obtain hoptions | hmem := List.mem_cons.mp hmem
  · exact r.options_ne_dash hoptions.symm
  · exact r.dash_notMem_optionalFields hmem

/-- The mount point is read back as one word in fifth place, and a type of the same kind behind `-`.
With a break inside the root the fields shift; that shows unless what comes fifth is the same text. -/
def Legible (r : MountRecord) : Prop :=
  (∀ c ∈ r.mountPoint, isBreak c = false) ∧
    match pieces r.root with
    | [] => r.options.text = r.mountPoint
    | [_] => True
    | _ :: second :: others =>
      second = r.mountPoint ∧ ∃ type, afterDash (others ++ r.mountPoint :: r.tail) = some type ∧
        isLocalFileSystemType type = isLocalFileSystemType r.type.text

theorem legible_of_unbroken (hroot : ∀ c ∈ r.root, isBreak c = false)
    (hmountPoint : ∀ c ∈ r.mountPoint, isBreak c = false) : r.Legible := by
  refine ⟨hmountPoint, ?_⟩
  rw [pieces_eq_singleton r.root_ne_nil hroot]
  trivial

/-- What the words make, when these texts come in fifth place and after it. -/
theorem readWords_eq_toMount_iff {first fifth : Text} {more : List Text} :
    readWords ((r.mountId.text :: r.parentId.text :: r.device.text :: first :: fifth :: more).map escaped) =
        some r.toMount ↔
      fifth = r.mountPoint ∧ ∃ type, afterDash more = some type ∧
        isLocalFileSystemType type = isLocalFileSystemType r.type.text := by
  simp only [List.map_cons, readWords, afterDash_map_escaped, unescapedMountPoint_escaped,
    escaped_eq_self r.device_plain, toMount]
  cases afterDash more with
  | none => simp
  | some type => simp [isLocalFileSystemType_escaped]

theorem unbroken_of_mem_pieces {text piece : Text} (hmem : piece ∈ pieces text) :
    ∀ c ∈ piece, isBreak c = false :=
  free_of_mem_fields hmem

theorem unbroken_of_mem_words {field : Text} (hmem : field ∈ pieces r.root ++ pieces r.mountPoint ++ r.tail) :
    ∀ c ∈ field, isBreak c = false := by
  simp only [tail, List.mem_append, List.mem_cons, List.mem_map] at hmem
  obtain (hmem | hmem) | (rfl | ⟨field, _, rfl⟩) | rfl | rfl | hmem | hmem := hmem
  · exact unbroken_of_mem_pieces hmem
  · exact unbroken_of_mem_pieces hmem
  · exact r.options.unbroken
  · exact field.unbroken
  · exact forall_of_all rfl
  · exact r.type.unbroken
  · exact unbroken_of_mem_pieces hmem
  · exact unbroken_of_mem_pieces hmem

theorem exists_fifth (r : MountRecord) : ∃ first fifth more,
    pieces r.root ++ pieces r.mountPoint ++ r.tail = first :: fifth :: more := by
  have hlength : 2 ≤ (pieces r.root ++ pieces r.mountPoint ++ r.tail).length := by
    simp only [tail, List.length_append, List.length_cons]
    omega
  obtain ⟨first, rest, hfirst⟩ := List.exists_cons_of_length_pos (Nat.zero_lt_of_lt hlength)
  rw [hfirst, List.length_cons] at hlength
  obtain ⟨fifth, more, hfifth⟩ :=
    List.exists_cons_of_length_pos (Nat.lt_of_succ_le (Nat.le_of_succ_le_succ hlength))
  exact ⟨first, fifth, more, by rw [hfirst, hfifth]⟩

theorem parseLine_line_iff (r : MountRecord) : parseLine r.line = some r.toMount ↔ r.Legible := by
  rw [parseLine_eq, words_line]
  by_cases hmountPoint : ∀ c ∈ r.mountPoint, isBreak c = false
  · rw [pieces_eq_singleton r.mountPoint_ne_nil hmountPoint, Legible, and_iff_right hmountPoint]
    cases hroot : pieces r.root with
    | nil =>
      -- the options are taken for the mount point
      change readWords ((r.mountId.text :: r.parentId.text :: r.device.text :: r.mountPoint ::
        r.options.text :: (_ ++ _)).map escaped) = _ ↔ _
      rw [readWords_eq_toMount_iff, afterDash_optionalFields]
      simp
    | cons first others =>
      cases others with
      | nil =>
        change readWords ((r.mountId.text :: r.parentId.text :: r.device.text :: first ::
          r.mountPoint :: r.tail).map escaped) = _ ↔ _
        rw [readWords_eq_toMount_iff, afterDash_tail]
        simp
      | cons second others =>
        change readWords ((r.mountId.text :: r.parentId.text :: r.device.text :: first :: second ::
          (others ++ [r.mountPoint] ++ r.tail)).map escaped) = _ ↔ _
        rw [readWords_eq_toMount_iff, List.append_assoc, List.singleton_append]
  · -- the mount point is cut, and no word is that long
    obtain ⟨first, fifth, more, hfifth⟩ := r.exists_fifth
    rw [hfifth, readWords_eq_toMount_iff]
    constructor
    · rintro ⟨rfl, _⟩
      have hmem : r.mountPoint ∈ pieces r.root ++ pieces r.mountPoint ++ r.tail := by
        rw [hfifth]
        exact List.mem_cons_of_mem _ List.mem_cons_self
      exact absurd (unbroken_of_mem_words hmem) hmountPoint
    · intro hlegible
      exact absurd hlegible.1 hmountPoint

theorem newline_notMem_line (r : MountRecord) : '\n' ∉ r.line := by
  apply notMem_intercalate (by decide)
  intro piece hpiece
  obtain ⟨field, _, rfl⟩ := List.mem_map.mp hpiece
  exact newline_notMem_escaped field

end MountRecord

def mountTable (records : List MountRecord) : Text := records.flatMap fun r => r.line ++ ['\n']

theorem getLines_mountTable (records : List MountRecord) :
    getLines (mountTable records) = records.map MountRecord.line :=
  getLines_flatMap MountRecord.line records fun r _ => r.newline_notMem_line

/-- The table is read back exactly if each of its records is. -/
theorem parseMountInfo_mountTable_iff (records : List MountRecord) :
    parseMountInfo (mountTable records) = records.map MountRecord.toMount ↔
      ∀ r ∈ records, r.Legible := by
  rw [parseMountInfo, getLines_mountTable, List.filterMap_map, List.filterMap_eq_map_iff_forall_eq_some]
  exact forall₂_congr fun r _ => r.parseLine_line_iff

/-- A file system mounted on a directory whose name has a carriage return in it. -/
def brokenRecord : MountRecord where
  mountId := ⟨"36".toList, by decide, forall_of_all rfl⟩
  parentId := ⟨"1".toList, by decide, forall_of_all rfl⟩
  device := ⟨"8:2".toList, by decide, forall_of_all rfl⟩
  root := "/".toList
  mountPoint := "/a\rb".toList
  options := ⟨"rw".toList, by decide, forall_of_all rfl⟩
  optionalFields := []
  type := ⟨"ext4".toList, by decide, forall_of_all rfl⟩
  source := "/dev/sda2".toList
  superOptions := "rw".toList
  device_plain := forall_of_all rfl
  root_ne_nil := by decide
  mountPoint_ne_nil := by decide
  options_ne_dash := by decide
  optionalFields_ne_dash := by simp

theorem parseMountInfo_brokenRecord :
    parseMountInfo (mountTable [brokenRecord]) = [⟨"/a".toList, "8:2".toList, true⟩] ∧
      parseMountInfo (mountTable [brokenRecord]) ≠ [brokenRecord.toMount] := by
  have hwords : parseLine = readWords ∘ words := funext parseLine_eq
  unfold parseMountInfo
  rw [hwords]
  constructor
  · decide
  · decide

end Records

end CppUtils.StorageSpeed
