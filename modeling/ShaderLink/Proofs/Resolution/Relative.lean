import ShaderLink.Proofs.Import.Markers

/-!
# Relative paths

A relative path is walked from the directory of the module (`ModulePath.walk`), and a path with its
markers in front leads to where the walk ends (`ModulePath.resolve?_eq_walk`). A marker elsewhere is
taken for a name. So it is the grammar that decides whether markers are resolved away
(`Module.resolvesAway_iff`): it lets them stand in the middle of a leaf's path, and also in the path
that a module declares for itself.
-/

namespace ShaderLink

namespace ModulePath

variable {base dir path markers names absolute : List String}

/-! ### Walking -/

/-- One step through the directories: `.` stays, `..` goes up, unless there is nothing further up,
and a name goes down. -/
def step (dir : ModulePath) (segment : String) : Option ModulePath :=
  if segment = "." then some dir
  else if segment = ".." then if dir = [] then none else some dir.dropLast
  else some (dir ++ [segment])

/-- The walk along a path, one step for each segment. -/
def walk (dir : ModulePath) (path : List String) : Option ModulePath :=
  path.foldlM step dir

/-- A path that starts with a marker. -/
def IsRelative (path : List String) : Prop :=
  ∃ s ∈ path.head?, IsMarker s

instance : DecidablePred IsRelative :=
  fun path ↦ inferInstanceAs (Decidable (∃ s ∈ path.head?, IsMarker s))

/-- Where the walk along a path starts: a relative one in the directory of the module, any other at
the root. -/
def origin (base path : List String) : ModulePath :=
  if IsRelative path then base.dropLast else []

@[simp] theorem walk_nil (dir : ModulePath) : walk dir [] = some dir := rfl

theorem walk_cons (dir : ModulePath) (s : String) (path : List String) :
    walk dir (s :: path) = (step dir s).bind fun next ↦ walk next path := rfl

theorem walk_append (dir : ModulePath) (front behind : List String) :
    walk dir (front ++ behind) = (walk dir front).bind fun next ↦ walk next behind :=
  List.foldlM_append

/-- Names go down. -/
theorem walk_names (hnames : ∀ s ∈ names, ¬IsMarker s) (dir : ModulePath) :
    walk dir names = some (dir ++ names) := by
  induction names generalizing dir with
  | nil => rw [walk_nil, List.append_nil]
  | cons s names ih =>
    obtain ⟨hs, hnames⟩ := List.forall_mem_cons.1 hnames
    obtain ⟨hhere, hup⟩ := not_or.1 hs
    rw [walk_cons, step, if_neg hhere, if_neg hup, Option.bind_some, ih hnames, List.append_assoc,
      List.singleton_append]

/-- Markers go up as many levels as there are `..` among them. -/
theorem walk_markers (hmarkers : ∀ s ∈ markers, IsMarker s) (dir : ModulePath) :
    walk dir markers =
      if markers.count ".." ≤ dir.length then some (dir.take (dir.length - markers.count ".."))
      else none := by
  induction markers generalizing dir with
  | nil => simp
  | cons s markers ih =>
    obtain ⟨hs, hmore⟩ := List.forall_mem_cons.1 hmarkers
    rcases hs with rfl | rfl
    · rw [walk_cons, step, if_pos rfl, Option.bind_some, ih hmore,
        List.count_cons_of_ne (by decide)]
    · rw [walk_cons, step, if_neg (by decide), if_pos rfl, List.count_cons_self]
      rcases List.eq_nil_or_concat dir with rfl | ⟨dir, last, rfl⟩
      · rw [if_pos rfl, Option.bind_none, if_neg (by simp)]
      · rw [List.concat_eq_append, if_neg (by simp), Option.bind_some, List.dropLast_concat,
          ih hmore, List.length_append, List.length_singleton]
        by_cases hle : markers.count ".." ≤ dir.length
        · rw [if_pos hle, if_pos (by omega), List.take_append_of_le_length (by omega)]
          congr 2
          omega
        · rw [if_neg hle, if_neg (by omega)]

/-! ### Resolving -/

theorem takeWhile_isMarker (hmarkers : ∀ s ∈ markers, IsMarker s)
    (hnames : ∀ s ∈ names, ¬IsMarker s) :
    (markers ++ names).takeWhile isMarker = markers ∧
      (markers ++ names).dropWhile isMarker = names := by
  have hall : ∀ s ∈ markers, isMarker s = true := fun s hs ↦ isMarker_iff.2 (hmarkers s hs)
  rw [List.takeWhile_append_of_pos hall, List.dropWhile_append_of_pos hall]
  cases names with
  | nil => exact ⟨List.append_nil _, rfl⟩
  | cons s names =>
    have hs : ¬isMarker s = true := fun h ↦ hnames s List.mem_cons_self (isMarker_iff.1 h)
    rw [List.takeWhile_cons_of_neg hs, List.dropWhile_cons_of_neg hs]
    exact ⟨List.append_nil _, rfl⟩

theorem not_isRelative (hnames : ∀ s ∈ names, ¬IsMarker s) : ¬IsRelative names := by
  rintro ⟨s, hs, hmarker⟩
  exact hnames s (List.mem_of_mem_head? hs) hmarker

theorem resolve?_names (hnames : ∀ s ∈ names, ¬IsMarker s) (base : ModulePath) :
    resolve? base names = some names := by
  obtain ⟨htake, -⟩ := takeWhile_isMarker (List.forall_mem_nil IsMarker) hnames
  rw [List.nil_append] at htake
  rw [resolve?, htake]
  rfl

theorem resolve?_markers (hmarkers : ∀ s ∈ markers, IsMarker s) (hne : markers ≠ [])
    (hnames : ∀ s ∈ names, ¬IsMarker s) (base : ModulePath) :
    resolve? base (markers ++ names) =
      if 1 + markers.count ".." ≤ base.length then
        some (base.take (base.length - (1 + markers.count "..")) ++ names)
      else none := by
  obtain ⟨htake, hdrop⟩ := takeWhile_isMarker hmarkers hnames
  have hempty : ¬markers.isEmpty = true := fun h ↦ hne (List.isEmpty_iff.1 h)
  rw [resolve?, htake, hdrop]
  exact if_neg hempty

/-- **Resolving is walking.** A path with its markers in front leads to where the walk along it
ends, except that the module at the root has no directory to start from. -/
theorem resolve?_eq_walk (h : IsPath path) :
    resolve? base path =
      if IsRelative path ∧ base = [] then none else walk (origin base path) path := by
  obtain ⟨markers, names, rfl, hmarkers, hwords⟩ := h
  have hnames : ∀ s ∈ names, ¬IsMarker s := fun s hs hmarker ↦ hmarker.not_isWord (hwords s hs)
  rcases eq_or_ne markers [] with rfl | hne
  · have hplain := not_isRelative hnames
    rw [List.nil_append, resolve?_names hnames, if_neg fun h ↦ hplain h.1, origin, if_neg hplain,
      walk_names hnames, List.nil_append]
  · obtain ⟨s, rest, rfl⟩ := List.exists_cons_of_ne_nil hne
    have hrelative : IsRelative ((s :: rest) ++ names) := ⟨s, rfl, hmarkers s List.mem_cons_self⟩
    rw [resolve?_markers hmarkers hne hnames, origin, if_pos hrelative]
    rcases List.eq_nil_or_concat base with rfl | ⟨dir, last, rfl⟩
    · have hroot : ¬1 + (s :: rest).count ".." ≤ 0 := by omega
      rw [List.length_nil, if_neg hroot, if_pos ⟨hrelative, rfl⟩]
    · have hinside : ¬(IsRelative ((s :: rest) ++ names) ∧ dir ++ [last] = []) := by simp
      rw [List.concat_eq_append, if_neg hinside, List.dropLast_concat, walk_append,
        walk_markers hmarkers, List.length_append, List.length_singleton]
      by_cases hle : (s :: rest).count ".." ≤ dir.length
      · rw [if_pos (by omega), if_pos hle, Option.bind_some, walk_names hnames,
          List.take_append_of_le_length (by omega)]
        congr 3
        omega
      · rw [if_neg (by omega), if_neg hle, Option.bind_none]

/-! ### Markers that are left -/

/-- The path has its markers in front, and wherever it can be resolved, none is left and the result
is where the walk ends. -/
structure ResolvesAway (base path : List String) : Prop where
  isPath : IsPath path
  unmarked : ∀ absolute, resolve? base path = some absolute → ∀ s ∈ absolute, ¬IsMarker s
  walks : ∀ absolute, resolve? base path = some absolute →
    walk (origin base path) path = some absolute

/-- A beginning of a path has a marker in it if the path is relative and the beginning not empty. -/
theorem exists_isMarker_take_iff (hbase : ¬IsRelative base → ∀ s ∈ base, ¬IsMarker s) (n : Nat) :
    (∃ s ∈ base.take n, IsMarker s) ↔ IsRelative base ∧ 0 < n := by
  constructor
  · rintro ⟨s, hs, hmarker⟩
    refine ⟨not_not.1 fun hplain ↦ hbase hplain s (List.mem_of_mem_take hs) hmarker, ?_⟩
    rcases Nat.eq_zero_or_pos n with rfl | hpos
    · cases hs
    · exact hpos
  · rintro ⟨⟨s, hs, hmarker⟩, hpos⟩
    refine ⟨s, List.mem_of_mem_head? ?_, hmarker⟩
    rwa [List.head?_take, if_neg (Nat.ne_of_gt hpos)]

/-- Of a path with its markers in front, markers are left only where the module's own path has one
in front that the way out does not reach. -/
theorem resolvesAway_iff_of_isPath (h : IsPath path)
    (hbase : ¬IsRelative base → ∀ s ∈ base, ¬IsMarker s) :
    ResolvesAway base path ↔ ¬(IsRelative path ∧ IsRelative base ∧
      1 + (path.takeWhile isMarker).count ".." < base.length) := by
  obtain ⟨markers, names, rfl, hmarkers, hwords⟩ := id h
  have hnames : ∀ s ∈ names, ¬IsMarker s := fun s hs hmarker ↦ hmarker.not_isWord (hwords s hs)
  have hwalks (absolute) (hresolve : resolve? base (markers ++ names) = some absolute) :
      walk (origin base (markers ++ names)) (markers ++ names) = some absolute := by
    rw [resolve?_eq_walk h] at hresolve
    split at hresolve
    · cases hresolve
    · exact hresolve
  -- what is left to be said is that no marker is in the path that is resolved to
  have hunmarked : ResolvesAway base (markers ++ names) ↔
      ∀ absolute, resolve? base (markers ++ names) = some absolute → ∀ s ∈ absolute, ¬IsMarker s :=
    ⟨ResolvesAway.unmarked, fun hunmarked ↦ ⟨h, hunmarked, hwalks⟩⟩
  rw [hunmarked, (takeWhile_isMarker hmarkers hnames).1]
  rcases eq_or_ne markers [] with rfl | hne
  · rw [List.nil_append, resolve?_names hnames]
    refine iff_of_true ?_ fun h ↦ not_isRelative hnames h.1
    rintro absolute heq
    obtain rfl := Option.some.inj heq
    exact hnames
  · obtain ⟨s, rest, rfl⟩ := List.exists_cons_of_ne_nil hne
    have hrelative : IsRelative ((s :: rest) ++ names) := ⟨s, rfl, hmarkers s List.mem_cons_self⟩
    rw [resolve?_markers hmarkers hne hnames]
    -- a marker of the base remains if the path goes up less far than the base is long
    by_cases hle : 1 + (s :: rest).count ".." ≤ base.length
    · have hleft := exists_isMarker_take_iff hbase (base.length - (1 + (s :: rest).count ".."))
      rw [if_pos hle]
      constructor
      · rintro hnone ⟨-, hbase, hlt⟩
        obtain ⟨t, ht, hmarker⟩ := hleft.2 ⟨hbase, Nat.sub_pos_of_lt hlt⟩
        exact hnone _ rfl t (List.mem_append_left _ ht) hmarker
      · rintro hnot absolute heq t ht hmarker
        obtain rfl := Option.some.inj heq
        rcases List.mem_append.1 ht with ht | ht
        · obtain ⟨hbase, hpos⟩ := hleft.1 ⟨t, ht, hmarker⟩
          exact hnot ⟨hrelative, hbase, Nat.lt_of_sub_pos hpos⟩
        · exact hnames t ht hmarker
    · rw [if_neg hle]
      exact iff_of_true nofun fun h ↦ hle h.2.2.le

/-! ### Paths of files -/

/-- No separator is left in the pieces. -/
theorem eq_false_of_mem_splitOnP {α : Type} {p : α → Bool} {l piece : List α}
    (h : piece ∈ l.splitOnP p) : ∀ a ∈ piece, p a = false := by
  induction l generalizing piece with
  | nil =>
    obtain rfl := List.mem_singleton.1 h
    exact List.forall_mem_nil _
  | cons a l ih =>
    rw [List.splitOnP_cons_eq_if_modifyHead] at h
    split at h
    · rcases List.mem_cons.1 h with rfl | h
      · exact List.forall_mem_nil _
      · exact ih h
    · rename_i ha
      cases hsplit : l.splitOnP p with
      | nil => exact absurd hsplit (List.splitOnP_ne_nil p l)
      | cons first pieces =>
        rw [hsplit] at h ih
        rcases List.mem_cons.1 h with rfl | h
        · exact List.forall_mem_cons.2 ⟨Bool.eq_false_iff.2 ha, ih List.mem_cons_self⟩
        · exact ih (List.mem_cons_of_mem _ h)

/-- There is no marker in a path that is named by a file. -/
theorem not_isMarker_of_mem_ofFile {file : Text} {s : String} (hs : s ∈ ofFile file) :
    ¬IsMarker s := by
  rw [ofFile, ofText] at hs
  obtain ⟨piece, hpiece, rfl⟩ := List.mem_map.1 hs
  have hpoint := eq_false_of_mem_splitOnP (List.mem_of_mem_filter hpiece)
  have hmem : IsMarker (String.ofList piece) → '.' ∈ piece := by
    rintro (heq | heq)
    · rw [← String.toList_ofList (l := piece), heq]
      decide
    · rw [← String.toList_ofList (l := piece), heq]
      decide
  exact fun hmarker ↦ absurd (hpoint '.' (hmem hmarker)) (by decide)

end ModulePath

/-- The tree of an import. -/
def Element.tree? : Element → Option ImportTree
  | importing tree _ _ => some tree
  | _ => none

namespace Module

variable {options : ParseOptions} {file : String} {source : Text} {m : Module} {tree : ImportTree}
  {dialect : ImportDialect} {span : Span} {leaf : ImportLeaf}

/-- **Markers are resolved away where they stand in front.** The path of a leaf consists of markers
and names. It has its markers in front, and resolving it leaves none of them and leads to where the
walk from the directory of the module ends, if and only if on no route to the leaf a marker stands
behind a name, and the way out does not stop behind a marker of the module's own path. -/
theorem resolvesAway_iff (h : parse options file source = .ok m)
    (himport : .importing tree dialect span ∈ m.elements) (hleaf : leaf ∈ tree.leaves) :
    (∀ s ∈ leaf.path, IsMarker s ∨ IsWord s) ∧
      (ModulePath.ResolvesAway m.path leaf.path ↔
        (∀ groups ∈ tree.routes, groups.flatten = leaf.path → MarkersOutside groups) ∧
          ¬(ModulePath.IsRelative leaf.path ∧ ModulePath.IsRelative m.path ∧
            1 + (leaf.path.takeWhile ModulePath.isMarker).count ".." < m.path.length)) := by
  obtain ⟨htrees, hpath⟩ := grouped_of_parse h
  obtain ⟨hsegments, hiff⟩ := (htrees tree dialect span himport).isPath_iff hleaf
  -- the path of a module is that of its file or as declared, with markers only in front
  have hbase : ¬ModulePath.IsRelative m.path → ∀ s ∈ m.path, ¬IsMarker s := by
    intro hplain s hs
    rcases hpath with hfile | ⟨markers, names, heq, hmarkers, hwords⟩
    · rw [hfile] at hs
      exact ModulePath.not_isMarker_of_mem_ofFile hs
    · cases markers with
      | nil =>
        rw [heq] at hs
        exact fun hmarker ↦ hmarker.not_isWord (hwords s hs)
      | cons marker markers =>
        refine absurd ⟨marker, ?_, hmarkers marker List.mem_cons_self⟩ hplain
        rw [heq]
        rfl
  refine ⟨hsegments, ?_⟩
  rw [← hiff]
  constructor
  · intro haway
    exact ⟨haway.isPath, (ModulePath.resolvesAway_iff_of_isPath haway.isPath hbase).1 haway⟩
  · rintro ⟨hleaf, hout⟩
    exact (ModulePath.resolvesAway_iff_of_isPath hleaf hbase).2 hout

/-- Of two markers in a list behind a marker, the one behind a name as well is left. -/
theorem resolvesAway_iff_nested : ∃ m tree dialect span below beside,
    parse .default "pkg/main" "import ./\x7blib/\x7b./f\x7d, ../g\x7d;\n".toList = .ok m ∧
      .importing tree dialect span ∈ m.elements ∧ tree.leaves = [below, beside] ∧
      ¬ModulePath.ResolvesAway m.path below.path ∧ ModulePath.ResolvesAway m.path beside.path := by
  have heval : (parse .default "pkg/main"
      "import ./\x7blib/\x7b./f\x7d, ../g\x7d;\n".toList).toOption.map (fun m ↦
        (m.path, (m.elements.filterMap Element.tree?).map fun tree ↦
          (tree.leaves, tree.routes))) =
      some (["pkg", "main"],
        [([⟨[".", "lib", ".", "f"], none, none, false⟩, ⟨[".", "..", "g"], none, none, false⟩],
          [[["."], ["lib"], ["."], ["f"]], [["."], [".."], ["g"]]])]) := by decide +kernel
  obtain ⟨m, hm, heval⟩ := Option.map_eq_some_iff.1 heval
  obtain ⟨hpath, helements⟩ := Prod.mk.inj heval
  obtain ⟨tree, htree, heq⟩ := List.mem_map.1 (helements ▸ List.mem_singleton.2 rfl)
  obtain ⟨hleaves, hroutes⟩ := Prod.mk.inj heq
  obtain ⟨e, he, htree⟩ := List.mem_filterMap.1 htree
  cases e with
  | importing tree' dialect span =>
    obtain rfl := Option.some.inj htree
    have hm := Except.eq_ok_of_toOption hm
    have hbelow := (resolvesAway_iff hm he (hleaves ▸ List.mem_cons_self)).2
    have hbeside := (resolvesAway_iff hm he
      (hleaves ▸ List.mem_cons_of_mem _ List.mem_cons_self)).2
    rw [hpath, hroutes] at hbelow hbeside
    refine ⟨m, _, dialect, span, _, _, hm, he, hleaves, ?_, ?_⟩
    · rw [hpath, hbelow]
      decide
    · rw [hpath, hbeside]
      decide
  | _ => cases htree

end Module

end ShaderLink
