import CppUtils.Lib.Fields
import Mathlib

/-!
# Paths, mounts and firmlinks

Strings are lists of characters, a byte being the character with its code.
-/

namespace CppUtils.StorageSpeed

abbrev Text := List Char

/-- A `Mount` as `parseMountInfo` fills it in. -/
structure Mount where
  mountPoint : Text
  device : Text
  isLocal : Bool
deriving DecidableEq, Repr

structure Firmlink where
  path : Text
  target : Text
deriving DecidableEq, Repr

/-- `std::string_view::starts_with` and the character that has to follow. -/
def isWithinFolder (path folder : Text) : Bool :=
  folder.isPrefixOf path &&
    (path.length == folder.length || folder.getLast? == some '/' || path[folder.length]? == some '/')

/-- `path` with its longest matching firmlink replaced; of equally long ones the first. -/
def canonicalPath (path : Text) (firmlinks : List Firmlink) : Text :=
  let found := firmlinks.foldl (fun found firmlink =>
    if isWithinFolder path firmlink.path &&
        found.all (fun (best : Firmlink) => firmlink.path.length > best.path.length)
      then some firmlink else found) none
  match found with
  | some best => best.target ++ path.drop best.path.length
  | none => path

/-- The loop of `mountForPath` over the mounts with their places in the vector. -/
def keepDeepest (path : Text) (found : Option (Mount × ℕ)) (entry : Mount × ℕ) :
    Option (Mount × ℕ) :=
  if isWithinFolder path entry.1.mountPoint &&
      found.all (fun best => entry.1.mountPoint.length ≥ best.1.mountPoint.length)
    then some entry else found

/-- The `const Mount*` that the source returns: the mount and its place in the vector. -/
def mountForPath (mounts : List Mount) (path : Text) : Option (Mount × ℕ) :=
  mounts.zipIdx.foldl (keepDeepest path) none

/-- `std::string_view::find` of a character. -/
def find (text : Text) (c : Char) (start : ℕ) : Option ℕ :=
  ((text.drop start).findIdx? (· == c)).map (start + ·)

section LexicallyNormal

def components (path : Text) : List Text := fields (· == '/') path

def dot : Text := ['.']

def dotDot : Text := ['.', '.']

/-- What one name does to the names before it: `.` goes, and `..` goes with the name before it. At the
root `..` goes alone; a relative path keeps it. -/
def pushName (absolute : Bool) (names : List Text) (name : Text) : List Text :=
  if name = dot then names
  else if name = dotDot then
    match names.getLast? with
    | none => if absolute then [] else [dotDot]
    | some last => if last = dotDot then names ++ [dotDot] else names.dropLast
  else names ++ [name]

def normalNames (absolute : Bool) (names : List Text) : List Text :=
  names.foldl (pushName absolute) []

/-- The path denotes a directory: it ends in a separator, in `.` or in `..`. -/
def namesDirectory (path : Text) : Bool :=
  path.getLast? == some '/' || (components path).getLast? == some dot ||
    (components path).getLast? == some dotDot

/-- `std::filesystem::path::lexically_normal` on a system without root names. -/
def lexicallyNormal (path : Text) : Text :=
  let absolute := path.head? == some '/'
  let names := normalNames absolute (components path)
  match names.getLast? with
  | none => if absolute then ['/'] else if path = [] then [] else dot
  | some last =>
    let text := if absolute then render '/' names else (render '/' names).tail
    if namesDirectory path && last ≠ dotDot then text ++ ['/'] else text

end LexicallyNormal

section MountForPath

/-- The entry found holds the path, and none that does has a longer mount point, or an equally long one
and a later place. -/
def IsDeepest (path : Text) (entries : List (Mount × ℕ)) : Option (Mount × ℕ) → Prop
  | none => ∀ entry ∈ entries, isWithinFolder path entry.1.mountPoint = false
  | some best => best ∈ entries ∧ isWithinFolder path best.1.mountPoint = true ∧
    ∀ entry ∈ entries, isWithinFolder path entry.1.mountPoint = true →
      entry.1.mountPoint.length ≤ best.1.mountPoint.length ∧
        (entry.1.mountPoint.length = best.1.mountPoint.length → entry.2 ≤ best.2)

theorem IsDeepest.keepDeepest {path : Text} {entries : List (Mount × ℕ)} {found : Option (Mount × ℕ)}
    {entry : Mount × ℕ} (h : IsDeepest path entries found) (hplace : ∀ e ∈ entries, e.2 ≤ entry.2) :
    IsDeepest path (entries ++ [entry]) (keepDeepest path found entry) := by
  unfold StorageSpeed.keepDeepest
  cases hwithin : isWithinFolder path entry.1.mountPoint with
  | false =>
    rw [Bool.false_and, if_neg Bool.false_ne_true]
    cases found with
    | none =>
      intro e he
      obtain he | he := List.mem_append.mp he
      · exact h e he
      · rw [List.mem_singleton.mp he]
        exact hwithin
    | some best =>
      obtain ⟨hmem, hbest, hdeepest⟩ := h
      refine ⟨List.mem_append_left _ hmem, hbest, ?_⟩
      intro e he hin
      obtain he | he := List.mem_append.mp he
      · exact hdeepest e he hin
      · rw [List.mem_singleton.mp he, hwithin] at hin
        cases hin
  | true =>
    rw [Bool.true_and]
    split
    · rename_i hbeats
      refine ⟨List.mem_append_right _ (List.mem_singleton_self _), hwithin, ?_⟩
      intro e he hin
      obtain he | he := List.mem_append.mp he
      · cases found with
        | none =>
          rw [h e he] at hin
          cases hin
        | some best =>
          have hlength := (h.2.2 e he hin).1
          rw [Option.all_some, decide_eq_true_eq] at hbeats
          exact ⟨hlength.trans hbeats, fun _ => hplace e he⟩
      · rw [List.mem_singleton.mp he]
        exact ⟨le_rfl, fun _ => le_rfl⟩
    · rename_i hbeaten
      cases found with
      | none => exact absurd rfl hbeaten
      | some best =>
        rw [Option.all_some, decide_eq_true_eq] at hbeaten
        obtain ⟨hmem, hbest, hdeepest⟩ := h
        refine ⟨List.mem_append_left _ hmem, hbest, ?_⟩
        intro e he hin
        obtain he | he := List.mem_append.mp he
        · exact hdeepest e he hin
        · rw [List.mem_singleton.mp he]
          omega

theorem mountForPath_isDeepest (mounts : List Mount) (path : Text) :
    IsDeepest path mounts.zipIdx (mountForPath mounts path) := by
  unfold mountForPath
  induction mounts using List.reverseRecOn with
  | nil => exact fun entry hentry => absurd hentry List.not_mem_nil
  | append_singleton mounts mount ih =>
    rw [List.zipIdx_append, List.foldl_append]
    apply ih.keepDeepest
    intro e he
    have := List.snd_lt_of_mem_zipIdx he
    omega

end MountForPath

end CppUtils.StorageSpeed
