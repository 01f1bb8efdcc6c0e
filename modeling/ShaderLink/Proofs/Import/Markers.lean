import ShaderLink.Proofs.Import.Dialects
import ShaderLink.Proofs.Module.DeclaredPath

/-!
# Markers in imports

The grammar takes markers wherever a tree starts, also in a list behind other segments and in front
of `from`. So what has its markers in front is not the path of a leaf but each of the groups of
segments that it is put together from (`ImportTree.Grouped`). The path itself does so if and only if
no group with a marker stands behind one with a name (`isPath_flatten_iff`).
-/

namespace ShaderLink

/-! ### Groups of segments -/

/-- No group with a marker stands behind one with a name. -/
def MarkersOutside (groups : List (List String)) : Prop :=
  groups.Pairwise fun front behind ↦ (∀ s ∈ front, IsMarker s) ∨ ∀ s ∈ behind, ¬IsMarker s

instance : DecidablePred MarkersOutside := fun groups ↦ inferInstanceAs (Decidable
  (groups.Pairwise fun front behind ↦ (∀ s ∈ front, IsMarker s) ∨ ∀ s ∈ behind, ¬IsMarker s))

theorem IsPath.isMarker_or_isWord {path : List String} (h : IsPath path) :
    ∀ s ∈ path, IsMarker s ∨ IsWord s := by
  obtain ⟨markers, names, rfl, hmarkers, hnames⟩ := h
  exact List.forall_mem_append.2 ⟨fun s hs ↦ .inl (hmarkers s hs), fun s hs ↦ .inr (hnames s hs)⟩

/-- Markers may be put in front of a path. -/
theorem IsPath.markers_append {markers path : List String} (hmarkers : ∀ s ∈ markers, IsMarker s)
    (h : IsPath path) : IsPath (markers ++ path) := by
  obtain ⟨more, names, rfl, hmore, hnames⟩ := h
  exact ⟨markers ++ more, names, (List.append_assoc _ _ _).symm,
    List.forall_mem_append.2 ⟨hmarkers, hmore⟩, hnames⟩

/-- What stands in front of a path with a name in it and behind one without markers. -/
theorem isPath_append_iff {front behind : List String} (hfront : IsPath front) :
    IsPath (front ++ behind) ↔
      IsPath behind ∧ ((∀ s ∈ front, IsMarker s) ∨ ∀ s ∈ behind, ¬IsMarker s) := by
  obtain ⟨markers, names, rfl, hmarkers, hnames⟩ := hfront
  constructor
  · rintro ⟨markers', names', heq, hmarkers', hnames'⟩
    rw [List.append_assoc] at heq
    rcases List.append_eq_append_iff.1 heq with ⟨more, rfl, hmore⟩ | ⟨more, rfl, hmore⟩
    · -- the markers of the whole go on behind those of the front
      cases names with
      | nil =>
        refine ⟨⟨more, names', hmore, (List.forall_mem_append.1 hmarkers').2, hnames'⟩, .inl ?_⟩
        rwa [List.append_nil]
      | cons s names =>
        cases more with
        | nil =>
          rw [List.nil_append] at hmore
          rw [← hmore] at hnames'
          obtain ⟨-, hbehind⟩ := List.forall_mem_append.1 hnames'
          exact ⟨⟨[], behind, rfl, List.forall_mem_nil _, hbehind⟩,
            .inr fun s hs hmarker ↦ hmarker.not_isWord (hbehind s hs)⟩
        | cons s' more =>
          obtain ⟨rfl, -⟩ := List.cons.inj hmore
          have hmarker := hmarkers' s (List.mem_append_right _ List.mem_cons_self)
          exact absurd (hnames s List.mem_cons_self) hmarker.not_isWord
    · rw [hmore] at hnames'
      obtain ⟨-, hrest⟩ := List.forall_mem_append.1 hnames'
      obtain ⟨-, hbehind⟩ := List.forall_mem_append.1 hrest
      exact ⟨⟨[], behind, rfl, List.forall_mem_nil _, hbehind⟩,
        .inr fun s hs hmarker ↦ hmarker.not_isWord (hbehind s hs)⟩
  · rintro ⟨hbehind, hall | hnone⟩
    · exact hbehind.markers_append hall
    · refine ⟨markers, names ++ behind, List.append_assoc _ _ _, hmarkers,
        List.forall_mem_append.2 ⟨hnames, fun s hs ↦ ?_⟩⟩
      exact (hbehind.isMarker_or_isWord s hs).resolve_left (hnone s hs)

/-- A path that is put together from groups has its markers in front if and only if no group with a
marker stands behind one with a name. -/
theorem isPath_flatten_iff {groups : List (List String)} (h : ∀ group ∈ groups, IsPath group) :
    IsPath groups.flatten ↔ MarkersOutside groups := by
  induction groups with
  | nil => exact ⟨fun _ ↦ .nil, fun _ ↦ ⟨[], [], rfl, List.forall_mem_nil _, List.forall_mem_nil _⟩⟩
  | cons group groups ih =>
    obtain ⟨hgroup, hgroups⟩ := List.forall_mem_cons.1 h
    rw [List.flatten_cons, isPath_append_iff hgroup, ih hgroups, MarkersOutside, MarkersOutside,
      List.pairwise_cons, and_comm]
    refine and_congr_left fun _ ↦ ⟨fun h behind hbehind ↦ ?_, fun h ↦ ?_⟩
    · exact h.imp_right fun hnone s hs ↦ hnone s (List.mem_flatten_of_mem hbehind hs)
    · by_cases hall : ∀ s ∈ group, IsMarker s
      · exact .inl hall
      · refine .inr fun s hs ↦ ?_
        obtain ⟨behind, hbehind, hs⟩ := List.mem_flatten.1 hs
        exact (h behind hbehind).resolve_left hall s hs

/-! ### Routes through a tree -/

namespace ImportTree

mutual

/-- The routes to the leaves of a tree, in the order written: on each, the groups of segments of the
paths that it goes down, and the leaf's own name. -/
def routes : ImportTree → List (List (List String))
  | item name _ _ => [[[name]]]
  | wildcard _ => [[]]
  | list trees => routesOfAll trees
  | path segments tail => tail.routes.map (segments :: ·)

/-- The routes to the leaves of several trees. -/
def routesOfAll : List ImportTree → List (List (List String))
  | [] => []
  | tree :: trees => tree.routes ++ routesOfAll trees

end

mutual

/-- The path of a leaf is what stands on the route to it. -/
theorem map_path_leavesBelow (above : List String) :
    ∀ tree : ImportTree, (tree.leavesBelow above).map ImportLeaf.path =
      tree.routes.map fun groups ↦ above ++ groups.flatten
  | .item name localName args => by simp [leavesBelow, routes]
  | .wildcard localName => by simp [leavesBelow, routes]
  | .list trees => map_path_leavesOfAll above trees
  | .path segments tail => by
    rw [leavesBelow, routes, map_path_leavesBelow (above ++ segments) tail, List.map_map]
    simp only [Function.comp_def, List.flatten_cons, List.append_assoc]

theorem map_path_leavesOfAll (above : List String) :
    ∀ trees : List ImportTree, (leavesOfAll above trees).map ImportLeaf.path =
      (routesOfAll trees).map fun groups ↦ above ++ groups.flatten
  | [] => rfl
  | tree :: trees => by
    rw [leavesOfAll, routesOfAll, List.map_append, List.map_append,
      map_path_leavesBelow above tree, map_path_leavesOfAll above trees]

end

theorem mem_routesOfAll {groups : List (List String)} {trees : List ImportTree} :
    groups ∈ routesOfAll trees ↔ ∃ tree ∈ trees, groups ∈ tree.routes := by
  induction trees with
  | nil => simp [routesOfAll]
  | cons tree trees ih => simp [routesOfAll, ih]

/-- Each group of segments has its markers in front, and items are called by names. -/
inductive Grouped : ImportTree → Prop
  | item {name : String} (localName : Option String) (args : Option (List String))
    (hname : IsWord name) : Grouped (.item name localName args)
  | wildcard (localName : Option String) : Grouped (.wildcard localName)
  | list {trees : List ImportTree} (h : ∀ tree ∈ trees, Grouped tree) : Grouped (.list trees)
  | path {segments : List String} {tail : ImportTree} (hsegments : IsPath segments)
    (h : Grouped tail) : Grouped (.path segments tail)

variable {tree : ImportTree} {groups : List (List String)} {segments : List String}

theorem Grouped.under (h : tree.Grouped) (hsegments : IsPath segments) :
    (tree.under segments).Grouped := by
  cases segments with
  | nil => exact h
  | cons s segments => exact .path hsegments h

/-- On every route, each group has its markers in front. -/
theorem Grouped.isPath (h : tree.Grouped) (hroute : groups ∈ tree.routes) :
    ∀ group ∈ groups, IsPath group := by
  induction h generalizing groups with
  | @item name localName args hname =>
    obtain rfl := List.mem_singleton.1 hroute
    exact List.forall_mem_singleton.2
      ⟨[], [name], rfl, List.forall_mem_nil _, List.forall_mem_singleton.2 hname⟩
  | wildcard =>
    obtain rfl := List.mem_singleton.1 hroute
    exact List.forall_mem_nil _
  | list _ ih =>
    obtain ⟨tree, hmem, hroute⟩ := mem_routesOfAll.1 hroute
    exact ih tree hmem hroute
  | path hsegments _ ih =>
    rw [routes] at hroute
    obtain ⟨behind, hbehind, rfl⟩ := List.mem_map.1 hroute
    exact List.forall_mem_cons.2 ⟨hsegments, ih hbehind⟩

/-- The segments of a leaf are markers and names, and the markers are in front if and only if there
is no route to it on which a marker stands behind a name. -/
theorem Grouped.isPath_iff {leaf : ImportLeaf} (h : tree.Grouped) (hleaf : leaf ∈ tree.leaves) :
    (∀ s ∈ leaf.path, IsMarker s ∨ IsWord s) ∧
      (IsPath leaf.path ↔
        ∀ groups ∈ tree.routes, groups.flatten = leaf.path → MarkersOutside groups) := by
  have hmem : leaf.path ∈ (tree.leavesBelow []).map ImportLeaf.path := List.mem_map_of_mem hleaf
  rw [map_path_leavesBelow] at hmem
  obtain ⟨groups, hroute, hpath⟩ := List.mem_map.1 hmem
  rw [List.nil_append] at hpath
  constructor
  · rw [← hpath]
    intro s hs
    obtain ⟨group, hgroup, hs⟩ := List.mem_flatten.1 hs
    exact (h.isPath hroute group hgroup).isMarker_or_isWord s hs
  · constructor
    · intro hleaf groups hroute heq
      rwa [← heq, isPath_flatten_iff (h.isPath hroute)] at hleaf
    · intro hall
      rw [← hpath, isPath_flatten_iff (h.isPath hroute)]
      exact hall groups hroute hpath

end ImportTree

/-! ### What the parser reads -/

namespace Parser

/-- What each value of a repetition has. -/
theorem Repeats.forall_of_yields {α : Type} {p : Parser α} {P : α → Prop} {c c' : Cursor}
    {as : List α} (h : p.Repeats c as c') (hp : ∀ c a c', p.Yields c a c' → P a) :
    ∀ a ∈ as, P a := by
  induction h with
  | nil => exact List.forall_mem_nil _
  | cons head _ ih => exact List.forall_mem_cons.2 ⟨hp _ _ _ head, ih⟩

namespace Yields

variable {l : Lexicon} {c c' : Cursor} {token : Token} {n : Nat}

theorem exists_lex_tokenWithin (h : (tokenWithin l n).Yields c token c') :
    ∃ c₁, l.lex c₁ = .token token c' := by
  induction n generalizing c with
  | zero => exact h.not_refuse.elim
  | succ n ih =>
    obtain ⟨next, c₁, hlex, hrest⟩ := Yields.bind h
    split at hrest
    · exact ih hrest
    · obtain ⟨rfl, rfl⟩ := hrest.pure
      exact ⟨c, hlex.lexed⟩

/-- A name in an import is an identifier. -/
theorem isWord_directiveWord {s : String} (h : directiveWord.Yields c s c') : IsWord s := by
  obtain ⟨token, htoken, rfl⟩ := h.map
  obtain ⟨htoken, hkind⟩ := htoken.tokenIf
  obtain ⟨n, c₁, -, hwithin⟩ := Yields.bind htoken
  obtain ⟨c₂, hlex⟩ := hwithin.exists_lex_tokenWithin
  obtain ⟨x, -, hfound, rfl, -⟩ :=
    Lexeme.FoundBy.of_lexWith (Lexicon.directive.splits_rule c₂.rest) hlex
  have hkind : x.kind = .word := beq_iff_eq.1 hkind
  obtain ⟨rule, hrule, hkind', hmatched⟩ := hfound.exists_rule (by rw [hkind]; decide)
  have hidentifier : rule.2 = Scan.identifier := by
    rw [hkind] at hkind'
    simp only [Lexicon.rules, List.mem_cons, List.not_mem_nil, or_false] at hrule
    rcases hrule with rfl | rfl | rfl | rfl | rfl | rfl | rfl <;> first | rfl | cases hkind'
  rw [hidentifier] at hmatched
  rw [IsWord, Lexeme.token, String.toList_ofList]
  exact (Lexeme.isIdentifier_of_matched hmatched).1

theorem isMarker_relativeMarkers {markers : List String}
    (h : relativeMarkers.Yields c markers c') : ∀ s ∈ markers, IsMarker s := by
  refine (Yields.many h).forall_of_yields fun c s c' h ↦ ?_
  obtain ⟨token, c₁, -, hpure⟩ := h.bind
  obtain ⟨rfl, -⟩ := hpure.pure
  split
  · exact .inl rfl
  · exact .inr rfl

/-- Leaving away the file extension leaves a path. -/
theorem isPath_dropExtension {path : List String} (h : IsPath path) :
    IsPath (dropExtension path) := by
  rw [dropExtension]
  split
  · obtain ⟨markers, names, rfl, hmarkers, hnames⟩ := h
    rcases List.eq_nil_or_concat names with rfl | ⟨names, s, rfl⟩
    · rw [List.append_nil]
      exact ⟨markers.dropLast, [], (List.append_nil _).symm,
        fun s hs ↦ hmarkers s (List.mem_of_mem_dropLast hs), List.forall_mem_nil _⟩
    · rw [List.concat_eq_append, ← List.append_assoc, List.dropLast_concat]
      rw [List.concat_eq_append] at hnames
      exact ⟨markers, names, rfl, hmarkers, (List.forall_mem_append.1 hnames).1⟩
  · exact h

theorem isPath_modulePath {path : List String} (h : modulePath.Yields c path c') : IsPath path := by
  obtain ⟨markers, c₁, hmarkers, h⟩ := Yields.bind h
  obtain ⟨words, c₂, hwords, h⟩ := h.bind
  obtain ⟨rfl, -⟩ := h.pure
  obtain ⟨first, c₃, rest, hfirst, hrest, rfl⟩ := hwords.separated₁
  refine isPath_dropExtension ⟨markers, first :: rest, rfl, hmarkers.isMarker_relativeMarkers,
    List.forall_mem_cons.2 ⟨hfirst.isWord_directiveWord, ?_⟩⟩
  exact hrest.forall_of_yields fun c s c' h ↦ by
    obtain ⟨separator, c₁, -, hword⟩ := h.seqRight
    exact hword.isWord_directiveWord

/-- A tree is grouped if what stands inside it is. -/
theorem grouped_treeWithin
    (htree : ∀ {segments : List String} {tree : ImportTree} {c c' : Cursor},
      (treeWithin n segments).Yields c tree c' → IsPath segments → tree.Grouped)
    (hlist : ∀ {trees : List ImportTree} {c c' : Cursor},
      (listWithin n).Yields c trees c' → ∀ tree ∈ trees, tree.Grouped)
    {segments : List String} {tree : ImportTree}
    (h : (treeWithin (n + 1) segments).Yields c tree c') (hsegments : IsPath segments) :
    tree.Grouped := by
  rw [treeWithin] at h
  obtain ⟨brace, c₁, -, h⟩ := h.bind
  split at h
  · obtain ⟨trees, c₂, htrees, h⟩ := h.bind
    obtain ⟨rfl, -⟩ := h.pure
    exact (ImportTree.Grouped.list (hlist htrees)).under hsegments
  · obtain ⟨star, c₂, -, h⟩ := h.bind
    split at h
    · obtain ⟨localName, c₃, -, h⟩ := h.bind
      obtain ⟨rfl, -⟩ := h.pure
      exact (ImportTree.Grouped.wildcard localName).under hsegments
    · obtain ⟨name, c₃, hname, h⟩ := h.bind
      have hword := hname.commit.isWord_directiveWord
      obtain ⟨separator, c₄, -, h⟩ := h.bind
      split at h
      · refine htree h ((isPath_append_iff hsegments).2 ⟨⟨[], [name], rfl, List.forall_mem_nil _,
          List.forall_mem_singleton.2 hword⟩, .inr ?_⟩)
        exact List.forall_mem_singleton.2 fun hmarker ↦ hmarker.not_isWord hword
      · obtain ⟨args, c₅, -, h⟩ := h.bind
        obtain ⟨localName, c₆, -, h⟩ := h.bind
        obtain ⟨rfl, -⟩ := h.pure
        exact (ImportTree.Grouped.item localName args hword).under hsegments

/-- The trees of a list are grouped if each of them and the rest of the list are. -/
theorem grouped_listWithin
    (htree : ∀ {segments : List String} {tree : ImportTree} {c c' : Cursor},
      (treeWithin n segments).Yields c tree c' → IsPath segments → tree.Grouped)
    (hlist : ∀ {trees : List ImportTree} {c c' : Cursor},
      (listWithin n).Yields c trees c' → ∀ tree ∈ trees, tree.Grouped)
    {trees : List ImportTree} (h : (listWithin (n + 1)).Yields c trees c') :
    ∀ tree ∈ trees, tree.Grouped := by
  rw [listWithin] at h
  obtain ⟨_, c₁, -, h⟩ := h.bind
  obtain ⟨brace, c₂, -, h⟩ := h.bind
  split at h
  · obtain ⟨rfl, -⟩ := h.pure
    exact List.forall_mem_nil _
  · obtain ⟨markers, c₃, hmarkers, h⟩ := h.bind
    obtain ⟨tree, c₄, hfirst, h⟩ := h.bind
    have hpath : IsPath markers := ⟨markers, [], (List.append_nil _).symm,
      hmarkers.isMarker_relativeMarkers, List.forall_mem_nil _⟩
    obtain ⟨_, c₅, -, h⟩ := h.bind
    obtain ⟨comma, c₆, -, h⟩ := h.bind
    split at h
    · obtain ⟨rest, c₇, hrest, h⟩ := h.bind
      obtain ⟨rfl, -⟩ := h.pure
      exact List.forall_mem_cons.2 ⟨htree hfirst hpath, hlist hrest⟩
    · obtain ⟨_, c₇, -, h⟩ := h.bind
      obtain ⟨closing, c₈, -, h⟩ := h.bind
      obtain ⟨rfl, -⟩ := h.pure
      exact List.forall_mem_singleton.2 (htree hfirst hpath)

theorem grouped_trees (n : Nat) :
    (∀ {segments : List String} {tree : ImportTree} {c c' : Cursor},
      (treeWithin n segments).Yields c tree c' → IsPath segments → tree.Grouped) ∧
    ∀ {trees : List ImportTree} {c c' : Cursor},
      (listWithin n).Yields c trees c' → ∀ tree ∈ trees, tree.Grouped := by
  induction n with
  | zero => exact ⟨fun h ↦ h.not_refuse.elim, fun h ↦ h.not_refuse.elim⟩
  | succ n ih => exact ⟨grouped_treeWithin ih.1 ih.2, grouped_listWithin ih.1 ih.2⟩

theorem grouped_importTree {tree : ImportTree} (h : importTree.Yields c tree c') :
    tree.Grouped := by
  obtain ⟨markers, c₁, hmarkers, h⟩ := Yields.bind h
  obtain ⟨n, c₂, -, h⟩ := h.bind
  exact (grouped_trees _).1 h ⟨markers, [], (List.append_nil _).symm,
    hmarkers.isMarker_relativeMarkers, List.forall_mem_nil _⟩

theorem grouped_importFrom {tree : ImportTree} (h : importFrom.Yields c tree c') :
    tree.Grouped := by
  obtain ⟨first, c₁, hfirst, h⟩ := Yields.bind h
  obtain ⟨path, c₂, hpath, h⟩ := h.bind
  have hgrouped := hfirst.grouped_importTree
  rcases hpath.optional with ⟨segments, hsegments, rfl⟩ | ⟨rfl, -⟩
  · obtain ⟨rfl, -⟩ := h.pure
    obtain ⟨token, c₃, -, hsegments⟩ := hsegments.seqRight
    exact hgrouped.under hsegments.commit.isPath_modulePath
  · obtain ⟨rfl, -⟩ := h.pure
    exact hgrouped

/-- An item that is an import is grouped, and one that declares a path has its markers in front. -/
theorem grouped_item {i : Item} (h : item.Yields c i c') :
    (∀ tree dialect span, i = .importing tree dialect span → tree.Grouped) ∧
      ∀ path span, i = .module path span → IsPath path := by
  obtain ⟨p, hp, h⟩ := Yields.firstOf h
  simp only [List.mem_cons, List.not_mem_nil, or_false] at hp
  rcases hp with rfl | rfl | rfl | rfl | rfl | rfl
  · obtain ⟨⟨path, span⟩, c₁, hspanned, h⟩ := Yields.bind h
    obtain ⟨rfl, -⟩ := h.pure
    obtain ⟨u, c₂, -, h, -⟩ := hspanned.spanned
    obtain ⟨token, c₃, -, h⟩ := h.bind
    obtain ⟨path', c₄, hpath, h⟩ := h.bind
    obtain ⟨_, c₅, -, h⟩ := h.bind
    obtain ⟨rfl, -⟩ := h.pure
    refine ⟨nofun, fun path span heq ↦ ?_⟩
    obtain ⟨rfl, -⟩ := Item.module.inj heq
    exact hpath.commit.isPath_modulePath
  · obtain ⟨⟨⟨tree, dialect⟩, span⟩, c₁, hspanned, h⟩ := Yields.bind h
    obtain ⟨rfl, -⟩ := h.pure
    obtain ⟨u, c₂, -, h, -⟩ := hspanned.spanned
    have hgrouped : tree.Grouped := by
      obtain ⟨p, hp, h⟩ := h.firstOf
      simp only [List.mem_cons, List.not_mem_nil, or_false] at hp
      rcases hp with rfl | rfl
      · obtain ⟨token, c₃, -, h⟩ := h.bind
        obtain ⟨tree', c₄, htree, h⟩ := h.bind
        obtain ⟨_, c₅, -, h⟩ := h.bind
        obtain ⟨heq, -⟩ := h.pure
        obtain ⟨rfl, -⟩ := Prod.mk.inj heq
        exact htree.commit.grouped_importFrom
      · obtain ⟨token, c₃, -, h⟩ := h.bind
        obtain ⟨tree', c₄, htree, h⟩ := h.bind
        obtain ⟨_, c₅, -, h⟩ := h.bind
        obtain ⟨heq, -⟩ := h.pure
        obtain ⟨rfl, -⟩ := Prod.mk.inj heq
        exact htree.commit.grouped_importTree
    refine ⟨fun tree dialect span heq ↦ ?_, nofun⟩
    obtain ⟨rfl, -, -⟩ := Item.importing.inj heq
    exact hgrouped
  · obtain ⟨r, c₁, -, h⟩ := Yields.bind h
    obtain ⟨rfl, -⟩ := h.pure
    exact ⟨nofun, nofun⟩
  · obtain ⟨r, c₁, -, h⟩ := Yields.bind h
    obtain ⟨rfl, -⟩ := h.pure
    exact ⟨nofun, nofun⟩
  · obtain ⟨_, _, _, _, _, _, -, -, rfl⟩ := exists_of_declItem h
    exact ⟨nofun, nofun⟩
  · obtain ⟨token, -, rfl⟩ := Yields.map h
    exact ⟨nofun, nofun⟩

end Yields

end Parser

/-! ### In a module -/

namespace Assembly

/-- The imports among the elements are those among the items. -/
theorem mem_importing_foldl {exportsAll : Bool} {tree : ImportTree} {dialect : ImportDialect}
    {span : Span} {items : List Item} {a : Assembly}
    (h : .importing tree dialect span ∈ (items.foldl (item exportsAll) a).elements) :
    .importing tree dialect span ∈ a.elements ∨ .importing tree dialect span ∈ items := by
  induction items generalizing a with
  | nil => exact .inl h
  | cons i items ih =>
    rw [List.foldl_cons] at h
    rcases ih h with h | h
    · cases i with
      | importing tree' dialect' span' =>
        rcases List.mem_append.1 h with h | h
        · exact .inl h
        · obtain ⟨rfl, rfl, rfl⟩ := Element.importing.inj (List.mem_singleton.1 h)
          exact .inr List.mem_cons_self
      | decl d =>
        rw [item, decl] at h
        -- the elements inside a declaration import nothing
        have hchildren : Element.importing tree dialect span ∉
            (BodyAssembly.ofEvents a.scopes d.events).children := fun hmem ↦ by
          cases List.filterMap_eq_nil_iff.1
            (BodyAssembly.children_ofEvents a.scopes d.events).2 _ hmem
        refine .inl ((List.mem_append.1 h).resolve_right fun h ↦ ?_)
        rcases List.mem_append.1 h with h | h
        · obtain ⟨word, -, heq⟩ := List.mem_map.1 h
          cases heq
        · exact hchildren ((List.mem_cons.1 h).resolve_left fun heq ↦ by cases heq)
      | stray token => exact .inl h
      | _ =>
        refine .inl ((List.mem_append.1 h).resolve_right fun h ↦ ?_)
        cases List.mem_singleton.1 h
    · exact .inr (List.mem_cons_of_mem _ h)

end Assembly

namespace Module

variable {options : ParseOptions} {file : String} {source : Text} {m : Module}

/-- The imports of a module are grouped, and its path is that of its file or has its markers in
front. -/
theorem grouped_of_parse (h : parse options file source = .ok m) :
    (∀ tree dialect span, .importing tree dialect span ∈ m.elements → tree.Grouped) ∧
      (m.path = ModulePath.ofFile file.toList ∨ IsPath m.path) := by
  obtain ⟨items, c', e, hrun, rfl⟩ := exists_items h
  obtain ⟨all, c₁, hall, hend⟩ := Parser.Yields.bind (.of_run hrun)
  obtain ⟨u, c₂, -, hend⟩ := hend.bind
  obtain ⟨rfl, -⟩ := hend.pure
  have hitems := hall.many.forall_of_yields
    (P := fun i ↦ (∀ tree dialect span, i = .importing tree dialect span → tree.Grouped) ∧
      ∀ path span, i = .module path span → IsPath path) fun _ _ _ ↦ Parser.Yields.grouped_item
  constructor
  · intro tree dialect span hmem
    have hmem := (Assembly.mem_importing_foldl hmem).resolve_left List.not_mem_nil
    exact (hitems _ hmem).1 tree dialect span rfl
  · obtain ⟨-, hpath⟩ := Assembly.declarations_foldl (!all.any Item.marksExport) all
      ⟨none, [], Assembly.globalScope all, Assembly.strayProblems all, none, 0⟩
    have hpath : (ofItems file source
        (Conditional.process options.conditions ⟨file⟩ source) all).path =
        ((all.filterMap Item.declaration?).foldl (fun _ declared ↦ some declared.1) none).getD
          (ModulePath.ofFile file.toList) := congrArg (Option.getD · _) hpath
    rw [hpath]
    -- the last path that is declared is the one that counts
    rcases List.eq_nil_or_concat (all.filterMap Item.declaration?) with hnil | ⟨_, last, hlast⟩
    · rw [hnil]
      exact .inl rfl
    · rw [hlast, List.concat_eq_append, List.foldl_append]
      have hmem : last ∈ all.filterMap Item.declaration? := by
        rw [hlast, List.concat_eq_append]
        exact List.mem_concat_self
      obtain ⟨i, hi, hdeclares⟩ := List.mem_filterMap.1 hmem
      cases i with
      | module path span =>
        obtain rfl := Option.some.inj hdeclares
        exact .inr ((hitems _ hi).2 path span rfl)
      | _ => cases hdeclares

end Module

end ShaderLink
