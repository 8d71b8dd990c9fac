import CppUtils.StorageSpeed.Paths

/-!
# Lexically normal absolute paths

An absolute normal path spells a list of names, with a trailing slash or without one.
-/

namespace CppUtils.StorageSpeed

variable {name path text target : Text} {names rest pending : List Text}

theorem isField_of_mem_components (hmem : name ∈ components path) : IsField '/' name :=
  isField_of_mem_fields hmem

/-- A component that names an entry of its directory. -/
structure IsName (name : Text) : Prop where
  field : IsField '/' name
  ne_dot : name ≠ dot
  ne_dotDot : name ≠ dotDot

section PushName

@[simp] theorem pushName_dot (absolute : Bool) (names : List Text) :
    pushName absolute names dot = names := if_pos rfl

theorem pushName_name (hname : IsName name) (absolute : Bool) (names : List Text) :
    pushName absolute names name = names ++ [name] := by
  rw [pushName, if_neg hname.ne_dot, if_neg hname.ne_dotDot]

/-- Below the root `..` only ever cancels a name. -/
theorem pushName_dotDot (hnames : dotDot ∉ names) : pushName true names dotDot = names.dropLast := by
  rw [pushName, if_neg (by decide), if_pos rfl]
  cases hlast : names.getLast? with
  | none =>
    rw [List.getLast?_eq_none_iff.mp hlast]
    rfl
  | some last =>
    have hne : last ≠ dotDot := by
      rintro rfl
      exact hnames (List.mem_of_getLast? hlast)
    exact if_neg hne

theorem isName_pushName (hnames : ∀ n ∈ names, IsName n) (hname : IsField '/' name) :
    ∀ n ∈ pushName true names name, IsName n := by
  by_cases hdot : name = dot
  · rw [hdot, pushName_dot]
    exact hnames
  · by_cases hdotDot : name = dotDot
    · rw [hdotDot, pushName_dotDot fun hmem => (hnames _ hmem).ne_dotDot rfl]
      exact fun n hn => hnames n (List.mem_of_mem_dropLast hn)
    · rw [pushName_name ⟨hname, hdot, hdotDot⟩]
      intro n hn
      obtain hn | hn := List.mem_append.mp hn
      · exact hnames n hn
      · rw [List.mem_singleton.mp hn]
        exact ⟨hname, hdot, hdotDot⟩

theorem isName_foldl_pushName (hnames : ∀ n ∈ names, IsName n) (hrest : ∀ n ∈ rest, IsField '/' n) :
    ∀ n ∈ rest.foldl (pushName true) names, IsName n := by
  induction rest generalizing names with
  | nil => exact hnames
  | cons name rest ih =>
    exact ih (isName_pushName hnames (hrest name List.mem_cons_self))
      fun n hn => hrest n (List.mem_cons_of_mem _ hn)

theorem foldl_pushName_names (names : List Text) (hrest : ∀ n ∈ rest, IsName n) :
    rest.foldl (pushName true) names = names ++ rest := by
  induction rest generalizing names with
  | nil => exact (List.append_nil _).symm
  | cons name rest ih =>
    rw [List.foldl_cons, pushName_name (hrest name List.mem_cons_self),
      ih _ fun n hn => hrest n (List.mem_cons_of_mem _ hn), List.append_assoc, List.singleton_append]

theorem foldl_pushName_filter (names rest : List Text) :
    (rest.filter (· ≠ dot)).foldl (pushName true) names = rest.foldl (pushName true) names := by
  induction rest generalizing names with
  | nil => rfl
  | cons name rest ih =>
    by_cases hdot : name = dot
    · rw [List.filter_cons_of_neg (by simpa using hdot), List.foldl_cons, hdot, pushName_dot]
      exact ih names
    · rw [List.filter_cons_of_pos (by simpa using hdot), List.foldl_cons, List.foldl_cons]
      exact ih _

end PushName

section Spells

/-- `text` is the absolute path of these names; the root has its slash, the others may have one. -/
def Spells (text : Text) (names : List Text) : Prop :=
  (names ≠ [] ∧ text = render '/' names) ∨ text = render '/' names ++ ['/']

theorem Spells.exists_tail (h : Spells text names) :
    ∃ tail, (tail = [] ∨ tail = ['/']) ∧ text = render '/' names ++ tail := by
  obtain ⟨_, rfl⟩ | rfl := h
  · exact ⟨[], .inl rfl, (List.append_nil _).symm⟩
  · exact ⟨['/'], .inr rfl, rfl⟩

theorem components_append (front : Text) {tail : Text} (htail : tail = [] ∨ tail = ['/'])
    (hrest : ∀ n ∈ rest, IsField '/' n) :
    components (front ++ (render '/' rest ++ tail)) = components front ++ rest := by
  obtain rfl | rfl := htail
  · rw [List.append_nil]
    exact fields_append_render front hrest
  · rw [← List.append_assoc]
    exact (fields_append_singleton _ rfl).trans (fields_append_render front hrest)

theorem Spells.components_eq (h : Spells text names) (hnames : ∀ n ∈ names, IsField '/' n) :
    components text = names := by
  obtain ⟨tail, htail, rfl⟩ := h.exists_tail
  exact components_append [] htail hnames

theorem head?_render_ne_nil (hnames : names ≠ []) : (render '/' names).head? = some '/' := by
  obtain ⟨name, rest, rfl⟩ := List.exists_cons_of_ne_nil hnames
  rfl

theorem lexicallyNormal_spells (habs : path.head? = some '/') :
    Spells (lexicallyNormal path) (normalNames true (components path)) := by
  have htrue : (path.head? == some '/') = true := beq_iff_eq.mpr habs
  unfold lexicallyNormal
  simp only [htrue, if_true]
  cases hlast : (normalNames true (components path)).getLast? with
  | none =>
    rw [List.getLast?_eq_none_iff.mp hlast]
    exact .inr rfl
  | some last =>
    have hne : normalNames true (components path) ≠ [] := by
      intro hnil
      rw [hnil] at hlast
      cases hlast
    dsimp only
    split
    · exact .inr rfl
    · exact .inl ⟨hne, rfl⟩

theorem spells_of_lexicallyNormal (habs : path.head? = some '/') (hnormal : lexicallyNormal path = path) :
    Spells path (components path) ∧ ∀ n ∈ components path, IsName n := by
  have hspells := lexicallyNormal_spells habs
  have hnames : ∀ n ∈ normalNames true (components path), IsName n :=
    isName_foldl_pushName (by simp) fun n hn => isField_of_mem_components hn
  rw [hnormal] at hspells
  rw [hspells.components_eq fun n hn => (hnames n hn).field]
  exact ⟨hspells, hnames⟩

def pathText (names : List Text) : Text := if names = [] then ['/'] else render '/' names

@[simp] theorem pathText_nil : pathText [] = ['/'] := rfl

theorem pathText_of_ne_nil (hnames : names ≠ []) : pathText names = render '/' names := if_neg hnames

theorem components_pathText (hnames : ∀ n ∈ names, IsField '/' n) : components (pathText names) = names := by
  cases names with
  | nil => rfl
  | cons name names => exact fields_render hnames

/-- A normal path without a trailing slash is the text of its components. -/
theorem eq_pathText (habs : path.head? = some '/') (hnormal : lexicallyNormal path = path)
    (hslash : path = ['/'] ∨ path.getLast? ≠ some '/') : path = pathText (components path) := by
  obtain ⟨hspells, _⟩ := spells_of_lexicallyNormal habs hnormal
  obtain ⟨hne, htext⟩ | htext := hspells
  · rw [pathText_of_ne_nil hne]
    exact htext
  · obtain hroot | hlast := hslash
    · rw [hroot]
      rfl
    · exact absurd (by rw [htext, List.getLast?_concat]) hlast

/-- A path cut before one of its later slashes is cut between two names. -/
theorem exists_of_append_eq_render {front back : Text} (hnames : ∀ n ∈ names, IsField '/' n)
    (hfront : front.head? = some '/') (heq : front ++ '/' :: back = render '/' names) :
    ∃ q r, names = q ++ r ∧ q ≠ [] ∧ front = render '/' q ∧ '/' :: back = render '/' r := by
  induction names generalizing front with
  | nil => exact absurd heq (by simp)
  | cons name names ih =>
    obtain ⟨front, rfl⟩ := List.head?_eq_some_iff.mp hfront
    rw [render_cons, List.cons_append, List.cons.injEq] at heq
    have hname := (hnames name List.mem_cons_self).2
    obtain ⟨more, hfront', hmore⟩ | ⟨more, hname', hmore⟩ := List.append_eq_append_iff.mp heq.2
    · -- the cut would be inside the name
      cases more with
      | nil =>
        rw [List.nil_append] at hmore
        rw [List.append_nil] at hfront'
        refine ⟨[name], names, rfl, List.cons_ne_nil _ _, ?_, hmore⟩
        rw [render_cons, render_nil, List.append_nil, hfront']
      | cons c more =>
        have hc : c = '/' := (List.cons.inj hmore).1.symm
        rw [hfront', hc] at hname
        exact absurd (List.mem_append_right _ List.mem_cons_self) hname
    · cases more with
      | nil =>
        rw [List.nil_append] at hmore
        rw [List.append_nil] at hname'
        refine ⟨[name], names, rfl, List.cons_ne_nil _ _, ?_, hmore.symm⟩
        rw [render_cons, render_nil, List.append_nil, hname']
      | cons c more =>
        have hslash : (c :: more).head? = some '/' := by
          cases names with
          | nil => exact absurd hmore (by simp)
          | cons next names => exact congrArg some (List.cons.inj hmore).1.symm
        obtain ⟨q, r, rfl, _, hq, hr⟩ :=
          ih (fun n hn => hnames n (List.mem_cons_of_mem _ hn)) hslash hmore.symm
        refine ⟨name :: q, r, rfl, List.cons_ne_nil _ _, ?_, hr⟩
        rw [render_cons, hname', hq]

end Spells

section WithinFolder

variable {folder : Text}

theorem isWithinFolder_iff : isWithinFolder path folder = true ↔
    ∃ tail, path = folder ++ tail ∧ (tail = [] ∨ folder.getLast? = some '/' ∨ tail.head? = some '/') := by
  rw [isWithinFolder, Bool.and_eq_true, List.isPrefixOf_iff_prefix]
  constructor
  · rintro ⟨⟨tail, rfl⟩, hend⟩
    rw [List.getElem?_append_right le_rfl, Nat.sub_self, ← List.head?_eq_getElem?] at hend
    simp only [Bool.or_eq_true, beq_iff_eq, List.length_append, Nat.add_eq_left,
      List.length_eq_zero_iff] at hend
    exact ⟨tail, rfl, or_assoc.mp hend⟩
  · rintro ⟨tail, rfl, hend⟩
    rw [List.getElem?_append_right le_rfl, Nat.sub_self, ← List.head?_eq_getElem?]
    simp only [Bool.or_eq_true, beq_iff_eq, List.length_append, Nat.add_eq_left,
      List.length_eq_zero_iff]
    exact ⟨List.prefix_append _ _, or_assoc.mpr hend⟩

theorem components_folder (h : isWithinFolder path folder = true) :
    components folder <+: components path := by
  obtain ⟨tail, rfl, rfl | hlast | hhead⟩ := isWithinFolder_iff.mp h
  · rw [List.append_nil]
  · obtain ⟨front, rfl⟩ := List.getLast?_eq_some_iff.mp hlast
    rw [List.append_assoc, List.singleton_append]
    unfold components
    rw [fields_append_singleton front rfl, fields_append_cons front tail rfl]
    exact List.prefix_append _ _
  · obtain ⟨tail, rfl⟩ := List.head?_eq_some_iff.mp hhead
    unfold components
    rw [fields_append_cons folder tail rfl]
    exact List.prefix_append _ _

theorem pathText_append (hnames : names ≠ []) (rest : List Text) :
    pathText (names ++ rest) = pathText names ++ render '/' rest := by
  rw [pathText_of_ne_nil hnames, pathText_of_ne_nil (List.append_ne_nil_of_left_ne_nil hnames rest),
    render_append]

/-- The folders of a path spell its first names; where names remain a slash may follow. -/
theorem exists_of_isWithinFolder (hnames : ∀ n ∈ names, IsField '/' n) (hfolder : folder.head? = some '/')
    (h : isWithinFolder (pathText names) folder = true) :
    ∃ q rest, names = q ++ rest ∧ (folder = pathText q ∨ rest ≠ [] ∧ folder = render '/' q ++ ['/']) := by
  obtain ⟨tail, htext, hend⟩ := isWithinFolder_iff.mp h
  cases tail with
  | nil =>
    rw [List.append_nil] at htext
    exact ⟨names, [], (List.append_nil _).symm, .inl htext.symm⟩
  | cons c tail =>
    have hne : names ≠ [] := by
      rintro rfl
      obtain ⟨front, rfl⟩ := List.head?_eq_some_iff.mp hfolder
      simp at htext
    rw [pathText_of_ne_nil hne] at htext
    obtain hnil | hlast | hhead := hend
    · cases hnil
    · obtain ⟨front, rfl⟩ := List.getLast?_eq_some_iff.mp hlast
      rw [List.append_assoc, List.singleton_append] at htext
      cases front with
      | nil => exact ⟨[], names, rfl, .inl rfl⟩
      | cons a front =>
        have hslash : (a :: front).head? = some '/' := hfolder
        obtain ⟨q, rest, rfl, _, hfront, hrest⟩ := exists_of_append_eq_render hnames hslash htext.symm
        refine ⟨q, rest, rfl, .inr ⟨?_, by rw [hfront]⟩⟩
        rintro rfl
        cases hrest
    · obtain rfl : c = '/' := Option.some.inj hhead
      obtain ⟨q, rest, rfl, hq, hfront, hrest⟩ := exists_of_append_eq_render hnames hfolder htext.symm
      exact ⟨q, rest, rfl, .inl (hfront.trans (pathText_of_ne_nil hq).symm)⟩

theorem isWithinFolder_pathText_append (q rest : List Text) :
    isWithinFolder (pathText (q ++ rest)) (pathText q) = true := by
  rw [isWithinFolder_iff]
  by_cases hq : q = []
  · obtain rfl := hq
    cases rest with
    | nil => exact ⟨[], rfl, .inl rfl⟩
    | cons name rest => exact ⟨name ++ render '/' rest, rfl, .inr (.inl rfl)⟩
  · refine ⟨render '/' rest, pathText_append hq rest, ?_⟩
    cases rest with
    | nil => exact .inl rfl
    | cons name rest => exact .inr (.inr rfl)

theorem isWithinFolder_pathText_slash (q : List Text) (hrest : rest ≠ []) :
    isWithinFolder (pathText (q ++ rest)) (render '/' q ++ ['/']) = true := by
  rw [isWithinFolder_iff]
  obtain ⟨name, rest, rfl⟩ := List.exists_cons_of_ne_nil hrest
  refine ⟨name ++ render '/' rest, ?_, .inr (.inl List.getLast?_concat)⟩
  rw [pathText_of_ne_nil (List.append_ne_nil_of_right_ne_nil _ hrest), render_append, render_cons,
    List.append_assoc, List.singleton_append]

end WithinFolder

end CppUtils.StorageSpeed
