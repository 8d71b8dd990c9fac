import CppUtils.StorageSpeed.MountInfo
import CppUtils.StorageSpeed.NormalForm

/-!
# Firmlinks

A line of the table names a folder of the system volume and its place on the data volume. `canonicalPath`
compares and cuts texts; what it should do is replace the first names of a path by a folder.
-/

namespace CppUtils.StorageSpeed

/-- One pass of the loop of `parseFirmlinks`. -/
def parseFirmlink (dataVolumeRoot line : Text) : Option Firmlink :=
  match find line '\t' 0 with
  | none => none
  | some tab =>
    if line.head? ≠ some '/' ∨ tab + 1 = line.length then none
    else some ⟨line.take tab, dataVolumeRoot ++ '/' :: line.drop (tab + 1)⟩

def parseFirmlinks (firmlinks dataVolumeRoot : Text) : List Firmlink :=
  (getLines firmlinks).filterMap (parseFirmlink dataVolumeRoot)

variable {firmlinks : List Firmlink} {firmlink best : Firmlink} {text root path folder : Text}
  {names rest : List Text}

theorem find_lt {c : Char} {place : ℕ} (h : find text c 0 = some place) : text[place]? = some c := by
  obtain ⟨i, hi, rfl⟩ := Option.map_eq_some_iff.mp h
  obtain ⟨hlt, hchar, _⟩ := List.findIdx?_eq_some_iff_getElem.mp hi
  rw [Nat.zero_add, List.getElem?_eq_getElem (by simpa using hlt)]
  exact congrArg some (by simpa using hchar)

theorem exists_line_of_mem_parseFirmlinks (hmem : firmlink ∈ parseFirmlinks text root) :
    ∃ line ∈ getLines text, ∃ tab, find line '\t' 0 = some tab ∧ line.head? = some '/' ∧
      tab + 1 ≠ line.length ∧ firmlink = ⟨line.take tab, root ++ '/' :: line.drop (tab + 1)⟩ := by
  obtain ⟨line, hin, hline⟩ := List.mem_filterMap.mp hmem
  unfold parseFirmlink at hline
  split at hline
  · cases hline
  · rename_i tab htab
    split at hline
    · cases hline
    · rename_i hkept
      obtain ⟨hhead, hlength⟩ := not_or.mp hkept
      exact ⟨line, hin, tab, htab, not_not.mp hhead, hlength, (Option.some.inj hline).symm⟩

/-- A firmlink of the table leads from an absolute path to something below the root. -/
theorem mem_parseFirmlinks (hmem : firmlink ∈ parseFirmlinks text root) :
    firmlink.path.head? = some '/' ∧ ∃ place, place ≠ [] ∧ firmlink.target = root ++ '/' :: place := by
  obtain ⟨line, _, tab, htab, hhead, hlength, rfl⟩ := exists_line_of_mem_parseFirmlinks hmem
  have hat := find_lt htab
  obtain ⟨line, rfl⟩ := List.head?_eq_some_iff.mp hhead
  have hpos : tab ≠ 0 := by
    rintro rfl
    cases hat
  obtain ⟨hlt, _⟩ := List.getElem?_eq_some_iff.mp hat
  refine ⟨?_, ('/' :: line).drop (tab + 1), ?_, rfl⟩
  · obtain ⟨k, rfl⟩ := Nat.exists_eq_succ_of_ne_zero hpos
    rfl
  · intro hnil
    have := List.drop_eq_nil_iff.mp hnil
    omega

/-- The firmlink that `canonicalPath` replaces: of the longest that the path is within, the first. To
replace none is to replace the empty text by itself. -/
def replacedFirmlink (firmlinks : List Firmlink) (path : Text) : Firmlink :=
  ((firmlinks.filter (isWithinFolder path ·.path)).argmax (·.path.length)).getD ⟨[], []⟩

theorem foldl_longest (path : Text) (firmlinks : List Firmlink) (found : Option Firmlink) :
    firmlinks.foldl (fun found firmlink =>
        if isWithinFolder path firmlink.path &&
            found.all (fun (best : Firmlink) => firmlink.path.length > best.path.length)
          then some firmlink else found) found =
      (firmlinks.filter (isWithinFolder path ·.path)).foldl
        (List.argAux fun b c => c.path.length < b.path.length) found := by
  induction firmlinks generalizing found with
  | nil => rfl
  | cons firmlink firmlinks ih =>
    rw [List.foldl_cons, ih, List.filter_cons]
    cases isWithinFolder path firmlink.path with
    | false => rfl
    | true =>
      rw [if_pos rfl, List.foldl_cons]
      congr 1
      cases found with
      | none => rfl
      | some best =>
        unfold List.argAux
        simp only [Bool.true_and, Option.all_some, decide_eq_true_eq, gt_iff_lt]

theorem canonicalPath_eq (path : Text) (firmlinks : List Firmlink) :
    canonicalPath path firmlinks = (replacedFirmlink firmlinks path).target ++
      path.drop (replacedFirmlink firmlinks path).path.length := by
  unfold canonicalPath replacedFirmlink List.argmax
  rw [foldl_longest]
  cases (firmlinks.filter (isWithinFolder path ·.path)).foldl _ none with
  | none => rfl
  | some best => rfl

/-- Either the path is within no firmlink, or the one replaced is within the table, holds the path and
is as long as any that does. -/
theorem replacedFirmlink_spec (firmlinks : List Firmlink) (path : Text) :
    ((∀ f ∈ firmlinks, isWithinFolder path f.path = false) ∧
        replacedFirmlink firmlinks path = ⟨[], []⟩) ∨
      (replacedFirmlink firmlinks path ∈ firmlinks ∧
        isWithinFolder path (replacedFirmlink firmlinks path).path = true ∧
        ∀ f ∈ firmlinks, isWithinFolder path f.path = true →
          f.path.length ≤ (replacedFirmlink firmlinks path).path.length) := by
  unfold replacedFirmlink
  cases hbest : (firmlinks.filter (isWithinFolder path ·.path)).argmax (·.path.length) with
  | none =>
    refine .inl ⟨?_, rfl⟩
    intro f hf
    have hnone := List.filter_eq_nil_iff.mp (List.argmax_eq_none.mp hbest) f hf
    exact Bool.eq_false_iff.mpr hnone
  | some best =>
    obtain ⟨hmem, hwithin⟩ := List.mem_filter.mp (List.argmax_mem hbest)
    refine .inr ⟨hmem, hwithin, ?_⟩
    intro f hf hin
    exact List.le_of_mem_argmax (f := fun x : Firmlink => x.path.length)
      (List.mem_filter.mpr ⟨hf, hin⟩) hbest

section Idempotent

theorem isWithinFolder_root_or {place : Text} (h : isWithinFolder (root ++ '/' :: place) folder = true) :
    isWithinFolder root folder = true ∨ isWithinFolder folder root = true := by
  obtain ⟨tail, htext, hend⟩ := isWithinFolder_iff.mp h
  rw [isWithinFolder_iff, isWithinFolder_iff]
  obtain ⟨more, hfolder, hmore⟩ | ⟨more, hroot, hmore⟩ := List.append_eq_append_iff.mp htext
  · -- the folder goes on after the root
    cases more with
    | nil => exact .inr ⟨[], hfolder, .inl rfl⟩
    | cons c more => exact .inr ⟨c :: more, hfolder, .inr (.inr (congrArg some (List.cons.inj hmore).1.symm))⟩
  · -- the folder ends in the root
    refine .inl ⟨more, hroot, ?_⟩
    cases more with
    | nil => exact .inl rfl
    | cons c more =>
      rw [hmore] at hend
      obtain hnil | hslash := hend
      · cases hnil
      · exact .inr hslash

/-- A rewritten path starts with the root, so no firmlink apart from it holds the path. -/
theorem canonicalPath_idempotent (firmlinks root path : Text)
    (hholds : ∀ f ∈ parseFirmlinks firmlinks root, isWithinFolder root f.path = false)
    (hwithin : ∀ f ∈ parseFirmlinks firmlinks root, isWithinFolder f.path root = false) :
    canonicalPath (canonicalPath path (parseFirmlinks firmlinks root)) (parseFirmlinks firmlinks root) =
      canonicalPath path (parseFirmlinks firmlinks root) := by
  obtain ⟨_, hfound⟩ | ⟨hmem, _, _⟩ := replacedFirmlink_spec (parseFirmlinks firmlinks root) path
  · have hself : canonicalPath path (parseFirmlinks firmlinks root) = path := by
      rw [canonicalPath_eq, hfound]
      rfl
    rw [hself, hself]
  · obtain ⟨_, place, _, htarget⟩ := mem_parseFirmlinks hmem
    have htext : canonicalPath path (parseFirmlinks firmlinks root) = root ++ '/' :: (place ++
        path.drop (replacedFirmlink (parseFirmlinks firmlinks root) path).path.length) := by
      rw [canonicalPath_eq, htarget, List.append_assoc, List.cons_append]
    rw [htext]
    obtain ⟨_, hfound⟩ | ⟨hmem, hin, _⟩ := replacedFirmlink_spec (parseFirmlinks firmlinks root)
      (root ++ '/' :: (place ++ path.drop
        (replacedFirmlink (parseFirmlinks firmlinks root) path).path.length))
    · rw [canonicalPath_eq, hfound]
      rfl
    · exfalso
      obtain hroot | hroot := isWithinFolder_root_or hin
      · rw [hholds _ hmem] at hroot
        cases hroot
      · rw [hwithin _ hmem] at hroot
        cases hroot

theorem canonicalPath_idempotent_users :
    canonicalPath (canonicalPath "/Users/me".toList
        (parseFirmlinks "/Users\tUsers".toList "/System/Volumes/Data".toList))
        (parseFirmlinks "/Users\tUsers".toList "/System/Volumes/Data".toList) =
      canonicalPath "/Users/me".toList
        (parseFirmlinks "/Users\tUsers".toList "/System/Volumes/Data".toList) :=
  canonicalPath_idempotent "/Users\tUsers".toList "/System/Volumes/Data".toList "/Users/me".toList
    (by decide) (by decide)

end Idempotent

section Deepest

/-- A firmlink whose components come first in the path, with as many of them as any such firmlink. -/
structure IsDeepestFirmlink (firmlinks : List Firmlink) (path : Text) (firmlink : Firmlink) : Prop where
  mem : firmlink ∈ firmlinks
  first : components firmlink.path <+: components path
  deepest : ∀ f ∈ firmlinks, components f.path <+: components path →
    (components f.path).length ≤ (components firmlink.path).length

/-- The path with the names of a deepest firmlink replaced by its target, if there is such a firmlink. -/
structure RewritesDeepest (firmlinks : List Firmlink) (path : Text) : Prop where
  noSibling : ∀ f ∈ firmlinks, isWithinFolder path f.path = true →
    components f.path <+: components path
  unchanged : (∀ f ∈ firmlinks, ¬ components f.path <+: components path) →
    canonicalPath path firmlinks = path
  rewritten : (∃ f ∈ firmlinks, components f.path <+: components path) →
    ∃ f rest, IsDeepestFirmlink firmlinks path f ∧ components path = components f.path ++ rest ∧
      components (canonicalPath path firmlinks) = components f.target ++ rest ∧
      isWithinFolder (canonicalPath path firmlinks) f.target = true

/-- The text is a deepest target with a slash before each of the names that remain. -/
def WritesDeepest (firmlinks : List Firmlink) (path : Text) : Prop :=
  ∃ f rest, IsDeepestFirmlink firmlinks path f ∧ components path = components f.path ++ rest ∧
    canonicalPath path firmlinks = f.target ++ render '/' rest

/-- Some deepest firmlink is spelled as a path is, and none ends in a slash before a name that remains. -/
def WellSpelled (firmlinks : List Firmlink) (path : Text) : Prop :=
  (∃ f, IsDeepestFirmlink firmlinks path f) →
    (∃ f, IsDeepestFirmlink firmlinks path f ∧ f.path = pathText (components f.path)) ∧
    ∀ f, IsDeepestFirmlink firmlinks path f → f.path = render '/' (components f.path) ++ ['/'] →
      components f.path = components path

theorem exists_isDeepestFirmlink (h : ∃ f ∈ firmlinks, components f.path <+: components path) :
    ∃ f, IsDeepestFirmlink firmlinks path f := by
  obtain ⟨f, hf, hfirst⟩ := h
  have hmem : f ∈ firmlinks.filter (components ·.path <+: components path) :=
    List.mem_filter.mpr ⟨hf, decide_eq_true hfirst⟩
  cases hbest : (firmlinks.filter (components ·.path <+: components path)).argmax
      (fun x => (components x.path).length) with
  | none =>
    rw [List.argmax_eq_none.mp hbest] at hmem
    cases hmem
  | some best =>
    obtain ⟨hin, hbestFirst⟩ := List.mem_filter.mp (List.argmax_mem hbest)
    refine ⟨best, hin, of_decide_eq_true hbestFirst, ?_⟩
    intro g hg hgFirst
    exact List.le_of_mem_argmax (f := fun x : Firmlink => (components x.path).length)
      (List.mem_filter.mpr ⟨hg, decide_eq_true hgFirst⟩) hbest

theorem IsDeepestFirmlink.components_eq {f g : Firmlink} (hf : IsDeepestFirmlink firmlinks path f)
    (hg : IsDeepestFirmlink firmlinks path g) : components f.path = components g.path := by
  have hlength := le_antisymm (hg.deepest f hf.mem hf.first) (hf.deepest g hg.mem hg.first)
  exact (List.prefix_of_prefix_length_le hf.first hg.first hlength.le).eq_of_length hlength

/-- A folder of a path spells its first names; before a name that remains it may end in a slash. -/
theorem spelled_of_isWithinFolder (hpath : path = pathText (components path))
    (hfolder : folder.head? = some '/') (h : isWithinFolder path folder = true) :
    ∃ rest, components path = components folder ++ rest ∧
      (folder = pathText (components folder) ∧ (components folder ≠ [] ∨ rest = []) ∨
        rest ≠ [] ∧ folder = render '/' (components folder) ++ ['/']) := by
  have hnames : ∀ n ∈ components path, IsField '/' n := fun n hn => isField_of_mem_components hn
  rw [hpath] at h
  obtain ⟨q, rest, hsplit, hspelled⟩ := exists_of_isWithinFolder hnames hfolder h
  have hq : ∀ n ∈ q, IsField '/' n :=
    fun n hn => hnames n (hsplit ▸ List.mem_append_left rest hn)
  obtain hplain | ⟨hrest, hslash⟩ := hspelled
  · have hcomponents : components folder = q := by rw [hplain, components_pathText hq]
    refine ⟨rest, by rw [hcomponents, hsplit], ?_⟩
    rw [hcomponents]
    by_cases hroot : q = [] ∧ rest ≠ []
    · obtain ⟨rfl, hrest⟩ := hroot
      exact .inr ⟨hrest, hplain⟩
    · refine .inl ⟨hplain, ?_⟩
      rw [not_and_or, not_not] at hroot
      exact hroot
  · have hcomponents : components folder = q := by
      rw [hslash]
      exact Spells.components_eq (.inr rfl) hq
    exact ⟨rest, by rw [hcomponents, hsplit], .inr ⟨hrest, by rw [hcomponents, hslash]⟩⟩

theorem length_lt_of_spelled {q mid : List Text}
    (h : folder = pathText q ∨ folder = render '/' q ++ ['/']) (hmid : mid ≠ [])
    (hnames : ∀ n ∈ mid, IsField '/' n) : folder.length < (render '/' (q ++ mid)).length := by
  obtain ⟨name, mid, rfl⟩ := List.exists_cons_of_ne_nil hmid
  have hle : folder.length ≤ (render '/' q).length + 1 := by
    obtain rfl | rfl := h
    · unfold pathText
      split
      · simp
      · omega
    · simp
  have hlt : (render '/' q).length + 1 < (render '/' (q ++ [name])).length :=
    length_render_lt (hnames name List.mem_cons_self).1 q
  have hmore : (render '/' (q ++ name :: mid)).length =
      (render '/' (q ++ [name])).length + (render '/' mid).length := by
    rw [← List.length_append, ← render_append, List.append_assoc, List.singleton_append]
  omega

theorem WritesDeepest.rewritesDeepest (h : WritesDeepest firmlinks path) :
    RewritesDeepest firmlinks path := by
  obtain ⟨f, rest, hf, hrest, htext⟩ := h
  refine ⟨fun g hg hin => components_folder hin, fun hnone => absurd hf.first (hnone f hf.mem), ?_⟩
  intro _
  refine ⟨f, rest, hf, hrest, ?_, ?_⟩
  · rw [htext]
    refine fields_append_render f.target ?_
    intro n hn
    exact isField_of_mem_components (hrest ▸ List.mem_append_right _ hn)
  · rw [htext, isWithinFolder_iff]
    refine ⟨render '/' rest, rfl, ?_⟩
    cases rest with
    | nil => exact .inl rfl
    | cons name rest => exact .inr (.inr rfl)

variable (firmlinks path)

theorem canonicalPath_of_plain (hpath : path = pathText (components path)) {q : List Text}
    (hrest : components path = q ++ rest) (hroot : q ≠ [] ∨ rest = [])
    (hplain : (replacedFirmlink firmlinks path).path = pathText q) :
    canonicalPath path firmlinks = (replacedFirmlink firmlinks path).target ++ render '/' rest := by
  rw [canonicalPath_eq, hplain]
  congr 1
  rw [hrest] at hpath
  rw [hpath]
  by_cases hq : q = []
  · obtain rfl := hroot.resolve_left (not_not.mpr hq)
    rw [List.append_nil, List.drop_length]
    rfl
  · rw [pathText_append hq, List.drop_left]

/-- Replacing a firmlink with a slash at its end takes the slash of the first name that remains. -/
theorem canonicalPath_of_slash (hpath : path = pathText (components path)) {q : List Text} {name : Text}
    (hrest : components path = q ++ name :: rest)
    (hslash : (replacedFirmlink firmlinks path).path = render '/' q ++ ['/']) :
    canonicalPath path firmlinks =
      (replacedFirmlink firmlinks path).target ++ (name ++ render '/' rest) := by
  have htext : path = (render '/' q ++ ['/']) ++ (name ++ render '/' rest) := by
    rw [hpath, hrest, pathText_of_ne_nil (by simp), render_append, render_cons, List.append_assoc,
      List.singleton_append]
  rw [canonicalPath_eq, hslash]
  congr 1
  conv_lhs => rw [htext]
  exact List.drop_left

variable {firmlinks path}

theorem IsDeepestFirmlink.eq_or_shorter {f g : Firmlink} (hg : IsDeepestFirmlink firmlinks path g)
    (hpath : path = pathText (components path)) (hmem : f ∈ firmlinks) (habs : f.path.head? = some '/')
    (hin : isWithinFolder path f.path = true) :
    components f.path = components g.path ∨ f.path.length < (render '/' (components g.path)).length := by
  obtain ⟨rest, hrest, hspelled⟩ := spelled_of_isWithinFolder hpath habs hin
  have hfirst : components f.path <+: components path := ⟨rest, hrest.symm⟩
  obtain ⟨mid, hmid⟩ := List.prefix_of_prefix_length_le hfirst hg.first (hg.deepest f hmem hfirst)
  by_cases hnil : mid = []
  · rw [hnil, List.append_nil] at hmid
    exact .inl hmid
  · right
    rw [← hmid]
    refine length_lt_of_spelled ?_ hnil ?_
    · exact hspelled.imp And.left And.right
    · intro n hn
      exact isField_of_mem_components (hmid ▸ List.mem_append_right _ hn)

theorem IsDeepestFirmlink.of_components_eq {f g : Firmlink} (hg : IsDeepestFirmlink firmlinks path g)
    (hmem : f ∈ firmlinks) (heq : components f.path = components g.path) :
    IsDeepestFirmlink firmlinks path f where
  mem := hmem
  first := heq ▸ hg.first
  deepest := heq ▸ hg.deepest

theorem RewritesDeepest.of_unmatched (hnone : ¬ ∃ f ∈ firmlinks, components f.path <+: components path) :
    RewritesDeepest firmlinks path where
  noSibling := fun f hf hin => components_folder hin
  unchanged := by
    intro _
    obtain ⟨_, hfound⟩ | ⟨hmem, hin, _⟩ := replacedFirmlink_spec firmlinks path
    · rw [canonicalPath_eq, hfound]
      rfl
    · exact absurd ⟨_, hmem, components_folder hin⟩ hnone
  rewritten := fun hsome => absurd hsome hnone

/-- The well-spelled deepest firmlink is found, and it is the longest that holds the path. -/
theorem WellSpelled.writesDeepest (h : WellSpelled firmlinks path)
    (habs : ∀ f ∈ firmlinks, f.path.head? = some '/') (hpath : path = pathText (components path))
    (hdeep : ∃ f, IsDeepestFirmlink firmlinks path f) : WritesDeepest firmlinks path := by
  obtain ⟨⟨f, hf, hplain⟩, hnoSlash⟩ := h hdeep
  obtain ⟨more, hmore⟩ := hf.first
  have hin : isWithinFolder path f.path = true := by
    rw [hpath, hplain, ← hmore]
    exact isWithinFolder_pathText_append _ more
  obtain ⟨hnone, _⟩ | ⟨hmem, hwithin, hlongest⟩ := replacedFirmlink_spec firmlinks path
  · rw [hnone f hf.mem] at hin
    cases hin
  · have hsame : components (replacedFirmlink firmlinks path).path = components f.path := by
      obtain hsame | hshorter := hf.eq_or_shorter hpath hmem (habs _ hmem) hwithin
      · exact hsame
      · exfalso
        have hlength := hlongest f hf.mem hin
        have hne : components f.path ≠ [] := by
          intro hnil
          rw [hnil] at hshorter
          cases hshorter
        rw [hplain, pathText_of_ne_nil hne] at hlength
        omega
    have hdeepest := hf.of_components_eq hmem hsame
    obtain ⟨rest, hrest, ⟨hspelled, hroot⟩ | ⟨hne, hspelled⟩⟩ :=
      spelled_of_isWithinFolder hpath (habs _ hmem) hwithin
    · exact ⟨_, rest, hdeepest, hrest, canonicalPath_of_plain _ _ hpath hrest hroot hspelled⟩
    · rw [hnoSlash _ hdeepest hspelled] at hrest
      exact absurd (List.self_eq_append_right.mp hrest) hne

section Places

variable {others : List Firmlink} {place : Text} {f : Firmlink}

theorem IsDeepestFirmlink.exists_of_paths (hpaths : others.map (·.path) = firmlinks.map (·.path))
    (hf : IsDeepestFirmlink firmlinks path f) :
    ∃ g, IsDeepestFirmlink others path g ∧ g.path = f.path := by
  have hmem : f.path ∈ others.map (·.path) := hpaths ▸ List.mem_map_of_mem hf.mem
  obtain ⟨g, hg, hpath⟩ := List.mem_map.mp hmem
  refine ⟨g, ⟨hg, hpath ▸ hf.first, ?_⟩, hpath⟩
  intro other hother hfirst
  have hmem : other.path ∈ firmlinks.map (·.path) := hpaths ▸ List.mem_map_of_mem hother
  obtain ⟨other', hother', hsame⟩ := List.mem_map.mp hmem
  rw [hpath, ← hsame]
  exact hf.deepest other' hother' (hsame ▸ hfirst)

/-- Being well spelled is about the paths of the table, not about its targets. -/
theorem WellSpelled.of_paths (hpaths : others.map (·.path) = firmlinks.map (·.path))
    (h : WellSpelled others path) : WellSpelled firmlinks path := by
  rintro ⟨f, hf⟩
  obtain ⟨g, hg, _⟩ := hf.exists_of_paths hpaths
  obtain ⟨⟨g, hg, hplain⟩, hnoSlash⟩ := h ⟨g, hg⟩
  constructor
  · obtain ⟨f, hf, hsame⟩ := hg.exists_of_paths hpaths.symm
    exact ⟨f, hf, hsame ▸ hplain⟩
  · intro f hf hslash
    obtain ⟨g, hg, hsame⟩ := hf.exists_of_paths hpaths
    rw [← hsame] at hslash ⊢
    exact hnoSlash g hg hslash

theorem length_le_of_mem_components {name : Text} (hpath : path = pathText (components path))
    (hmem : name ∈ components path) : name.length ≤ path.length := by
  obtain ⟨before, after, hsplit⟩ := List.append_of_mem hmem
  rw [hpath, hsplit, pathText_of_ne_nil (by simp), render_append, render_cons]
  simp only [List.length_append, List.length_cons]
  omega

theorem components_of_plain (hpath : path = pathText (components path))
    (hrest : components path = components (replacedFirmlink firmlinks path).path ++ rest)
    (hroot : components (replacedFirmlink firmlinks path).path ≠ [] ∨ rest = [])
    (hplain : (replacedFirmlink firmlinks path).path = pathText (components (replacedFirmlink firmlinks path).path))
    (htarget : (replacedFirmlink firmlinks path).target = root ++ render '/' [place])
    (hplace : IsField '/' place) :
    components (canonicalPath path firmlinks) = components root ++ place :: rest := by
  have hfields : ∀ n ∈ place :: rest, IsField '/' n := by
    intro n hn
    obtain rfl | hn := List.mem_cons.mp hn
    · exact hplace
    · exact isField_of_mem_components (hrest ▸ List.mem_append_right _ hn)
  rw [canonicalPath_of_plain _ _ hpath hrest hroot hplain, htarget, List.append_assoc, ← render_append]
  exact fields_append_render root hfields

/-- The first name that remains is written on to the place. -/
theorem components_of_slash {name : Text} (hpath : path = pathText (components path))
    (hrest : components path = components (replacedFirmlink firmlinks path).path ++ name :: rest)
    (hslash : (replacedFirmlink firmlinks path).path =
      render '/' (components (replacedFirmlink firmlinks path).path) ++ ['/'])
    (htarget : (replacedFirmlink firmlinks path).target = root ++ render '/' [place])
    (hplace : IsField '/' place) :
    components (canonicalPath path firmlinks) = components root ++ (place ++ name) :: rest := by
  have hrestFields : ∀ n ∈ name :: rest, IsField '/' n := fun n hn =>
    isField_of_mem_components (hrest ▸ List.mem_append_right _ hn)
  have hfields : ∀ n ∈ (place ++ name) :: rest, IsField '/' n := by
    intro n hn
    obtain rfl | hn := List.mem_cons.mp hn
    · refine ⟨List.append_ne_nil_of_left_ne_nil hplace.1 _, ?_⟩
      rw [List.mem_append, not_or]
      exact ⟨hplace.2, (hrestFields name List.mem_cons_self).2⟩
    · exact hrestFields n (List.mem_cons_of_mem _ hn)
  have htext : canonicalPath path firmlinks = root ++ render '/' ((place ++ name) :: rest) := by
    rw [canonicalPath_of_slash _ _ hpath hrest hslash, htarget]
    simp
  rw [htext]
  exact fields_append_render root hfields

/-- A deepest firmlink with a slash before a name that remains is longer than one that is spelled as a
path is. -/
theorem IsDeepestFirmlink.components_eq_of_slash {g : Firmlink} (hg : IsDeepestFirmlink firmlinks path g)
    (hpath : path = pathText (components path)) (hplain : g.path = pathText (components g.path))
    (hrest : components path = components g.path ++ rest) (hroot : components g.path ≠ [] ∨ rest = [])
    (hlongest : ∀ f ∈ firmlinks, isWithinFolder path f.path = true → f.path.length ≤ g.path.length)
    (hf : IsDeepestFirmlink firmlinks path f) (hslash : f.path = render '/' (components f.path) ++ ['/']) :
    components f.path = components path := by
  by_contra hnames
  rw [← hf.components_eq hg] at hrest hplain hroot
  generalize components f.path = q at *
  have hne : rest ≠ [] := by
    rintro rfl
    exact hnames (by rw [hrest, List.append_nil])
  have hin : isWithinFolder path f.path = true := by
    rw [hpath, hrest, hslash]
    exact isWithinFolder_pathText_slash _ hne
  have hlength := hlongest f hf.mem hin
  rw [hplain, pathText_of_ne_nil (hroot.resolve_right hne), hslash, List.length_append] at hlength
  simp at hlength

/-- Where every target is one place with a name that no path has room for, a table that rewrites the
path is well spelled: what it replaces has the components of a deepest firmlink and no slash at its end. -/
theorem RewritesDeepest.wellSpelled (h : RewritesDeepest firmlinks path)
    (habs : ∀ f ∈ firmlinks, f.path.head? = some '/') (hpath : path = pathText (components path))
    (hplace : IsField '/' place) (hlong : path.length < place.length)
    (htargets : ∀ f ∈ firmlinks, f.target = root ++ render '/' [place]) :
    WellSpelled firmlinks path := by
  rintro ⟨f, hf⟩
  obtain ⟨g, rest, hg, hrest, hcomponents, _⟩ := h.rewritten ⟨f, hf.mem, hf.first⟩
  have htarget : components g.target = components root ++ [place] := by
    rw [htargets g hg.mem]
    exact fields_append_render root (by simpa using hplace)
  rw [htarget, List.append_assoc, List.singleton_append] at hcomponents
  obtain ⟨_, hfound⟩ | ⟨hmem, hwithin, hlongest⟩ := replacedFirmlink_spec firmlinks path
  · -- the path itself has no such name
    rw [canonicalPath_eq, hfound] at hcomponents
    have hmem : place ∈ components path := by
      change components path = _ at hcomponents
      rw [hcomponents]
      simp
    have := length_le_of_mem_components hpath hmem
    omega
  · obtain ⟨more, hmore, ⟨hspelled, hends⟩ | ⟨hne, hspelled⟩⟩ :=
      spelled_of_isWithinFolder hpath (habs _ hmem) hwithin
    · rw [components_of_plain hpath hmore hends hspelled (htargets _ hmem) hplace] at hcomponents
      obtain rfl : more = rest := (List.cons.inj (List.append_cancel_left hcomponents)).2
      have hdeepest := hg.of_components_eq hmem (List.append_cancel_right (hmore.symm.trans hrest))
      exact ⟨⟨_, hdeepest, hspelled⟩, fun f hf =>
        hdeepest.components_eq_of_slash hpath hspelled hmore hends hlongest hf⟩
    · exfalso
      obtain ⟨name, more, rfl⟩ := List.exists_cons_of_ne_nil hne
      rw [components_of_slash hpath hmore hspelled (htargets _ hmem) hplace] at hcomponents
      have hname : IsField '/' name :=
        isField_of_mem_components (hmore ▸ List.mem_append_right _ List.mem_cons_self)
      have hjoined : place ++ name = place := (List.cons.inj (List.append_cancel_left hcomponents)).1
      exact hname.1 (List.self_eq_append_right.mp hjoined.symm)

/-- A text that names the paths of a table again, each with the same place. -/
def relocated (place : Text) (firmlinks : List Firmlink) : Text :=
  firmlinks.flatMap fun f => f.path ++ '\t' :: place ++ ['\n']

theorem parseFirmlink_tab {folder : Text} (root : Text) (habs : folder.head? = some '/')
    (htab : '\t' ∉ folder) (hplace : place ≠ []) :
    parseFirmlink root (folder ++ '\t' :: place) = some ⟨folder, root ++ '/' :: place⟩ := by
  have hfind : find (folder ++ '\t' :: place) '\t' 0 = some folder.length := by
    unfold find
    rw [List.drop_zero, List.findIdx?_append, List.findIdx?_eq_none_iff.mpr]
    · simp [List.findIdx?_cons]
    · intro c hc
      rw [beq_eq_false_iff_ne]
      rintro rfl
      exact htab hc
  have hlength : folder.length + 1 ≠ (folder ++ '\t' :: place).length := by
    have := List.length_pos_iff.mpr hplace
    rw [List.length_append, List.length_cons]
    omega
  unfold parseFirmlink
  rw [hfind]
  dsimp only
  rw [if_neg]
  · rw [List.take_left, ← List.drop_drop, List.drop_left]
    rfl
  · rw [not_or, not_not]
    refine ⟨?_, hlength⟩
    obtain ⟨folder, rfl⟩ := List.head?_eq_some_iff.mp habs
    rfl

theorem notMem_path_of_mem_parseFirmlinks (hmem : f ∈ parseFirmlinks text root) :
    '\t' ∉ f.path ∧ '\n' ∉ f.path := by
  obtain ⟨line, hin, tab, htab, _, _, rfl⟩ := exists_line_of_mem_parseFirmlinks hmem
  constructor
  · obtain ⟨i, hi, rfl⟩ := Option.map_eq_some_iff.mp htab
    obtain ⟨hlt, _, hbefore⟩ := List.findIdx?_eq_some_iff_getElem.mp hi
    intro htab
    obtain ⟨k, hk, hchar⟩ := List.mem_take_iff_getElem.mp htab
    have hfirst := hbefore k (by omega)
    simp only [List.drop_zero, hchar, beq_self_eq_true, not_true_eq_false] at hfirst
  · exact fun hnewline => newline_notMem_of_mem_getLines hin (List.mem_of_mem_take hnewline)

theorem parseFirmlinks_relocated (text root : Text) (hplace : IsField '\n' place) :
    parseFirmlinks (relocated place (parseFirmlinks text root)) root =
      (parseFirmlinks text root).map fun f => ⟨f.path, root ++ '/' :: place⟩ := by
  have hlines : ∀ f ∈ parseFirmlinks text root, '\n' ∉ f.path ++ '\t' :: place := by
    intro f hf hnewline
    obtain hpath | hplace' := List.mem_append.mp hnewline
    · exact (notMem_path_of_mem_parseFirmlinks hf).2 hpath
    · obtain htab | hplace' := List.mem_cons.mp hplace'
      · cases htab
      · exact hplace.2 hplace'
  rw [parseFirmlinks, relocated, getLines_flatMap _ _ hlines, List.filterMap_map,
    List.filterMap_eq_map_iff_forall_eq_some]
  intro f hf
  exact parseFirmlink_tab root (mem_parseFirmlinks hf).1 (notMem_path_of_mem_parseFirmlinks hf).1 hplace.1

/-- A table that is not well spelled rewrites the path wrongly for some places. -/
theorem exists_not_rewritesDeepest (hpath : path = pathText (components path))
    (hill : ¬ WellSpelled (parseFirmlinks text root) path) :
    ∃ other, (parseFirmlinks other root).map (·.path) = (parseFirmlinks text root).map (·.path) ∧
      ¬ RewritesDeepest (parseFirmlinks other root) path := by
  have hfree (c : Char) (hc : c ≠ 'x') : IsField c (List.replicate (path.length + 1) 'x') :=
    ⟨by simp, fun hmem => hc (List.eq_of_mem_replicate hmem)⟩
  have htable := parseFirmlinks_relocated text root (hfree '\n' (by decide))
  have hpaths : (parseFirmlinks (relocated (List.replicate (path.length + 1) 'x')
      (parseFirmlinks text root)) root).map (·.path) = (parseFirmlinks text root).map (·.path) := by
    rw [htable, List.map_map]
    rfl
  have htargets : ∀ f ∈ parseFirmlinks (relocated (List.replicate (path.length + 1) 'x')
      (parseFirmlinks text root)) root,
      f.target = root ++ render '/' [List.replicate (path.length + 1) 'x'] := by
    intro f hf
    rw [htable] at hf
    obtain ⟨_, _, rfl⟩ := List.mem_map.mp hf
    simp
  refine ⟨_, hpaths, ?_⟩
  intro h
  have hlong : path.length < (List.replicate (path.length + 1) 'x').length := by
    rw [List.length_replicate]
    exact Nat.lt_succ_self _
  exact hill (.of_paths hpaths (h.wellSpelled (fun f hf => (mem_parseFirmlinks hf).1) hpath
    (hfree '/' (by decide)) hlong htargets))

end Places

/-- On an absolute normal path without a trailing slash a well-spelled table rewrites the components, and
the text; how the paths of the table are spelled promises no more: with other places it rewrites wrongly. -/
theorem rewritesDeepest_of_wellSpelled (text root path : Text) (habs : path.head? = some '/')
    (hnormal : lexicallyNormal path = path) (hslash : path = ['/'] ∨ path.getLast? ≠ some '/') :
    (WellSpelled (parseFirmlinks text root) path → RewritesDeepest (parseFirmlinks text root) path ∧
        ((∃ f, IsDeepestFirmlink (parseFirmlinks text root) path f) →
          WritesDeepest (parseFirmlinks text root) path)) ∧
      (¬ WellSpelled (parseFirmlinks text root) path →
        ∃ other, (parseFirmlinks other root).map (·.path) = (parseFirmlinks text root).map (·.path) ∧
          ¬ RewritesDeepest (parseFirmlinks other root) path) := by
  have hpath := eq_pathText habs hnormal hslash
  refine ⟨?_, exists_not_rewritesDeepest hpath⟩
  intro h
  have hwrites := h.writesDeepest (fun f hf => (mem_parseFirmlinks hf).1) hpath
  refine ⟨?_, hwrites⟩
  by_cases hmatch : ∃ f ∈ parseFirmlinks text root, components f.path <+: components path
  · exact (hwrites (exists_isDeepestFirmlink hmatch)).rewritesDeepest
  · exact .of_unmatched hmatch

theorem rewritesDeepest_of_wellSpelled_local :
    RewritesDeepest (parseFirmlinks "/usr/local\tusr/local".toList "/System/Volumes/Data".toList)
        "/usr/local/bin".toList ∧
      ∃ other, (parseFirmlinks other "/System/Volumes/Data".toList).map (·.path) = ["/Users/".toList] ∧
        ¬ RewritesDeepest (parseFirmlinks other "/System/Volumes/Data".toList) "/Users/me".toList := by
  have htable : parseFirmlinks "/usr/local\tusr/local".toList "/System/Volumes/Data".toList =
      [⟨"/usr/local".toList, "/System/Volumes/Data/usr/local".toList⟩] := by decide
  constructor
  · refine ((rewritesDeepest_of_wellSpelled _ _ _ rfl (by decide) (.inr (by decide))).1 ?_).1
    rw [htable]
    rintro ⟨f, hf⟩
    refine ⟨⟨f, hf, ?_⟩, ?_⟩
    · obtain rfl := List.mem_singleton.mp hf.mem
      decide
    · intro g hg hslash
      obtain rfl := List.mem_singleton.mp hg.mem
      exact absurd hslash (by decide)
  · refine (rewritesDeepest_of_wellSpelled "/Users/\tUsers".toList _ _ rfl (by decide)
      (.inr (by decide))).2 ?_
    have htable : parseFirmlinks "/Users/\tUsers".toList "/System/Volumes/Data".toList =
        [⟨"/Users/".toList, "/System/Volumes/Data/Users".toList⟩] := by decide
    rw [htable]
    intro hwell
    obtain ⟨⟨f, hf, hplain⟩, _⟩ := hwell (exists_isDeepestFirmlink
      ⟨_, List.mem_singleton_self _, by decide⟩)
    obtain rfl := List.mem_singleton.mp hf.mem
    exact absurd hplain (by decide)

/-- A firmlink may be written with a slash at its end; the slash before the names that remain is lost. -/
theorem not_rewritesDeepest_users : ¬ ∀ text root path : Text, root.head? = some '/' →
    root.getLast? ≠ some '/' → path.head? = some '/' → lexicallyNormal path = path →
    path = ['/'] ∨ path.getLast? ≠ some '/' → RewritesDeepest (parseFirmlinks text root) path := by
  intro h
  have hrewrites := h "/Users/\tUsers".toList "/System/Volumes/Data".toList "/Users/me".toList rfl
    (by decide) rfl (by decide) (.inr (by decide))
  have htable : parseFirmlinks "/Users/\tUsers".toList "/System/Volumes/Data".toList =
      [⟨"/Users/".toList, "/System/Volumes/Data/Users".toList⟩] := by decide
  rw [htable] at hrewrites
  obtain ⟨f, rest, hf, hrest, hcomponents, hwithin⟩ :=
    hrewrites.rewritten ⟨_, List.mem_singleton_self _, by decide⟩
  clear hwithin
  obtain rfl := List.mem_singleton.mp hf.mem
  have hrest' : ["Users".toList] ++ rest = ["Users".toList] ++ ["me".toList] := hrest.symm
  obtain rfl := List.append_cancel_left hrest'
  exact absurd hcomponents (by decide)

end Deepest

end CppUtils.StorageSpeed
