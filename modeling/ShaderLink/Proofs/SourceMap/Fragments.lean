import ShaderLink.Proofs.SourceMap.Compaction
import ShaderLink.Splice

/-!
# Maps as lists of fragments

A source map is put together from **fragments**, each a text that stands for a span of a source. The
operations that put it together, in whatever order, only ever add fragments at the end, and making
the map compact in between adds none (`SourceMap.Holds`). The entries do not show this any more, as
compact maps have joined copies, but every look-up does: a byte comes from where the one fragment
that it is in comes from (`SourceMap.refines_fragments`).

The invariant that carries this through all operations is that the entries tile the text. With it
look-up by bisection finds the entry of every byte, and compacting keeps what an entry says.
-/

namespace ShaderLink

/-- A text that stands for a span of a source. -/
structure Fragment where
  text : Text
  source : SourceId
  origin : Span
deriving DecidableEq

namespace Fragment

/-- Where the byte at an offset of the fragment comes from. If the fragment is as long as what it
stands for, its bytes are the bytes there. Otherwise they all come from the start. -/
def placeAt (f : Fragment) (offset : Nat) : Place :=
  ⟨f.source, if f.origin.size = f.text.size then f.origin.start + offset else f.origin.start⟩

/-- The text of fragments one behind the other. -/
def join (fs : List Fragment) : Text :=
  fs.flatMap Fragment.text

@[simp] theorem join_append (fs gs : List Fragment) : join (fs ++ gs) = join fs ++ join gs :=
  List.flatMap_append

@[simp] theorem join_singleton (f : Fragment) : join [f] = f.text :=
  List.flatMap_singleton ..

/-- The byte at an offset is in a fragment, and comes from there. -/
def Gives (fs : List Fragment) (offset : Nat) (p : Place) : Prop :=
  ∃ front f behind, fs = front ++ f :: behind ∧ (join front).size ≤ offset ∧
    offset < (join front).size + f.text.size ∧ p = f.placeAt (offset - (join front).size)

variable {fs gs : List Fragment} {n : Nat} {p : Place}

/-- Fragments behind do not change where a place comes from, -/
theorem Gives.append_right (h : Gives fs n p) (gs : List Fragment) : Gives (fs ++ gs) n p := by
  obtain ⟨front, f, behind, rfl, h⟩ := h
  exact ⟨front, f, behind ++ gs, by simp, h⟩

/-- and fragments in front move it. -/
theorem Gives.append_left (h : Gives gs n p) (fs : List Fragment) :
    Gives (fs ++ gs) ((join fs).size + n) p := by
  obtain ⟨front, f, behind, rfl, hstart, hstop, rfl⟩ := h
  refine ⟨fs ++ front, f, behind, by simp, ?_, ?_, ?_⟩ <;> rw [join_append, Text.size_append]
  · omega
  · omega
  · rw [Nat.add_sub_add_left]

end Fragment

namespace SourceMap

/-- A map that some operations have put together, with the fragments that they have added. -/
inductive Holds : SourceMap → List Fragment → Prop
  | empty (id : SourceId) : Holds (empty id) []
  | add {m : SourceMap} {fs : List Fragment} (h : Holds m fs) (f : Fragment) :
      Holds (m.add f.text f.source f.origin) (fs ++ [f])
  | addCopy {m m' : SourceMap} {fs : List Fragment} (h : Holds m fs) {t inside : Text}
      {source : SourceId} {span : Span} (hinside : t.slice? span = some inside)
      (hadd : m.addCopy t source span = .ok m') : Holds m' (fs ++ [⟨inside, source, span⟩])
  | append {m n : SourceMap} {fs gs : List Fragment} (h : Holds m fs) (h' : Holds n gs) :
      Holds (m.append n) (fs ++ gs)
  | compact {m : SourceMap} {fs : List Fragment} (h : Holds m fs) : Holds m.compact fs

/-- The map has the text of the fragments, and its bytes come from where the fragments say. -/
structure Refines (m : SourceMap) (fs : List Fragment) : Prop where
  tiled : m.Tiled
  text : m.text = Fragment.join fs
  origin : ∀ n < m.text.size, ∃ p, m.origin? n = some p ∧ Fragment.Gives fs n p

variable {m n : SourceMap} {fs gs : List Fragment} {offset : Nat}

/-! ### Look-up in what is put together -/

/-- Behind the end of the text nothing comes from anywhere. -/
theorem Tiled.origin?_eq_none (h : m.Tiled) (hoffset : m.text.size < offset) :
    m.origin? offset = none := by
  have hstop : ∀ e ∈ m.entries, e.target.stop < offset := fun e he ↦
    (Tiles.bounds h he).2.trans_lt hoffset
  have hmono : m.entries.Pairwise fun e f ↦
      decide (f.target.stop ≤ offset) = true → decide (e.target.stop ≤ offset) = true :=
    (Tiles.pairwise_stop h).imp fun {e f} hle ↦ by
      simpa using hle.trans
  have hat : m.entryAt? offset = none := by
    have hfind : (m.entries.find? fun e ↦ !decide (e.target.stop ≤ offset)) = none :=
      List.find?_eq_none.2 fun e he ↦ by simp [(hstop e he).le]
    rw [entryAt?, bisect_eq_length_takeWhile hmono, getElem?_length_takeWhile, hfind]
    rfl
  have hlast : (m.entries.getLast?.filter fun e ↦ e.target.stop == offset) = none := by
    refine Option.filter_eq_none_iff.2 fun e he ↦ ?_
    simpa using (hstop e (List.mem_of_getLast? he)).ne
  rw [origin?, hat]
  show (m.entries.getLast?.filter fun e ↦ e.target.stop == offset).map _ = none
  rw [hlast]
  rfl

/-- What stands in front of an appended map comes from where it came from. -/
theorem Tiled.origin?_append_left (hm : m.Tiled) (hn : n.Tiled) (hoffset : offset < m.text.size) :
    (m.append n).origin? offset = m.origin? offset := by
  obtain ⟨e, he, hstart, hstop, horigin⟩ := hm.exists_origin? hoffset
  rw [horigin]
  exact (hm.append hn).origin?_eq (List.mem_append_left _ he) hstart hstop

/-- An appended map is looked up as before, behind what stands in front of it. -/
theorem Tiled.origin?_append_right (hm : m.Tiled) (hn : n.Tiled) (hoffset : offset < n.text.size) :
    (m.append n).origin? (m.text.size + offset) = n.origin? offset := by
  obtain ⟨e, he, hstart, hstop, horigin⟩ := hn.exists_origin? hoffset
  have hshift : e.shift m.text.size ∈ (m.append n).entries :=
    List.mem_append_right _ (List.mem_map_of_mem he)
  have hbounds : (e.shift m.text.size).target.start ≤ m.text.size + offset ∧
      m.text.size + offset < (e.shift m.text.size).target.stop := by
    rw [Entry.shift, Span.start_shift, Span.stop_shift]
    omega
  have hinside : m.text.size + offset - (e.target.start + m.text.size) =
      offset - e.target.start := by omega
  rw [horigin, (hm.append hn).origin?_eq hshift hbounds.1 hbounds.2]
  show some (⟨e.source, if e.isCopy then
      e.origin.start + (m.text.size + offset - (e.target.start + m.text.size)) else _⟩ : Place) = _
  rw [hinside]
  rfl

/-- Adding a fragment is appending the map of the fragment alone. -/
theorem add_eq_append (m : SourceMap) (f : Fragment) :
    m.add f.text f.source f.origin =
      m.append ((empty m.id).add f.text f.source f.origin) := by
  simp [add, append, empty, Entry.shift, Span.shift]

/-! ### Each operation refines its effect on the fragments -/

theorem refines_empty (id : SourceId) : (empty id).Refines [] where
  tiled := tiled_empty id
  text := rfl
  origin _ hn := absurd hn (Nat.not_lt_zero _)

/-- The map of a single fragment. -/
theorem refines_singleton (id : SourceId) (f : Fragment) :
    ((empty id).add f.text f.source f.origin).Refines [f] where
  tiled := (tiled_empty id).add _ _ _
  text := (Fragment.join_singleton f).symm
  origin k hk := by
    have hk : k < f.text.size := hk
    have hentry := ((tiled_empty id).add f.text f.source f.origin).origin?_eq (n := k)
      (List.mem_singleton_self _) (Nat.zero_le k) (by simpa [Span.stop, empty] using hk)
    refine ⟨_, hentry, [], f, [], rfl, Nat.zero_le k, ?_, ?_⟩
    · simpa [Fragment.join] using hk
    · simp [Entry.placeAt, Entry.isCopy, Fragment.placeAt, Fragment.join, empty]

/-- Appending maps puts the fragments of one behind those of the other. -/
theorem Refines.append (hm : m.Refines fs) (hn : n.Refines gs) :
    (m.append n).Refines (fs ++ gs) where
  tiled := hm.tiled.append hn.tiled
  text := by
    show m.text ++ n.text = Fragment.join (fs ++ gs)
    rw [hm.text, hn.text, Fragment.join_append]
  origin k hk := by
    by_cases hfront : k < m.text.size
    · obtain ⟨p, horigin, hgives⟩ := hm.origin k hfront
      exact ⟨p, (hm.tiled.origin?_append_left hn.tiled hfront).trans horigin,
        hgives.append_right gs⟩
    · obtain ⟨j, rfl⟩ := Nat.exists_eq_add_of_le (Nat.le_of_not_lt hfront)
      have hj : j < n.text.size := by
        have hk : m.text.size + j < (m.text ++ n.text).size := hk
        rw [Text.size_append] at hk
        omega
      obtain ⟨p, horigin, hgives⟩ := hn.origin j hj
      refine ⟨p, (hm.tiled.origin?_append_right hn.tiled hj).trans horigin, ?_⟩
      rw [hm.text]
      exact hgives.append_left fs

/-- A fragment that is added is the last. -/
theorem Refines.add (h : m.Refines fs) (f : Fragment) :
    (m.add f.text f.source f.origin).Refines (fs ++ [f]) := by
  rw [add_eq_append]
  exact h.append (refines_singleton m.id f)

/-- Compacting changes no look-up of a byte. -/
theorem Tiled.origin?_compact (h : m.Tiled) (hoffset : offset < m.text.size) :
    m.compact.origin? offset = m.origin? offset := by
  obtain ⟨e, he, hstart, hstop, horigin⟩ := h.exists_origin? hoffset
  rw [horigin, h.covered.origin?_compact he hstart hstop]

/-- Compacting changes no fragment. -/
theorem Refines.compact (h : m.Refines fs) : m.compact.Refines fs where
  tiled := h.tiled.covered.exact_compact.tiled
  text := h.text
  origin k hk := by
    obtain ⟨p, horigin, hgives⟩ := h.origin k hk
    exact ⟨p, (h.tiled.origin?_compact hk).trans horigin, hgives⟩

/-- The operations refine what they do to the fragments. -/
theorem Holds.refines (h : m.Holds fs) : m.Refines fs := by
  induction h with
  | empty id => exact refines_empty id
  | add h f ih => exact ih.add f
  | addCopy h hinside hadd ih =>
    rw [SourceMap.addCopy, hinside] at hadd
    obtain rfl := Except.ok.inj hadd
    exact ih.add ⟨_, _, _⟩
  | append h h' ih ih' => exact ih.append ih'
  | compact h ih => exact ih.compact

/-- A map that operations have put together covers its text, which is that of the fragments. Each
byte comes from where the fragment it is in says, and nothing behind the end comes from anywhere.
Compacting the map once more changes no look-up of a byte. -/
theorem refines_fragments (h : m.Holds fs) :
    m.coverage = .ok () ∧ m.text = fs.flatMap Fragment.text ∧
      (∀ p < m.text.size, ∃ front f behind, fs = front ++ f :: behind ∧
        (Fragment.join front).size ≤ p ∧ p < (Fragment.join front).size + f.text.size ∧
        m.origin? p = some (f.placeAt (p - (Fragment.join front).size)) ∧
        m.compact.origin? p = m.origin? p) ∧
      ∀ p, m.text.size < p → m.origin? p = none := by
  have hrefines := h.refines
  refine ⟨hrefines.tiled.coverage, hrefines.text, fun p hp ↦ ?_, fun p hp ↦
    hrefines.tiled.origin?_eq_none hp⟩
  obtain ⟨place, horigin, front, f, behind, hfs, hstart, hstop, rfl⟩ := hrefines.origin p hp
  exact ⟨front, f, behind, hfs, hstart, hstop, horigin, hrefines.tiled.origin?_compact hp⟩

/-- Two copies that are joined, a replacement, and behind them a map of its own. -/
def assembled : SourceMap :=
  let copies := ((empty ⟨"out"⟩).add "fn ".toList ⟨"a"⟩ ⟨0, 3⟩).add "f".toList ⟨"a"⟩ ⟨3, 1⟩
  (copies.compact.add "oo0".toList ⟨"a"⟩ ⟨4, 2⟩).append
    ((empty ⟨"in"⟩).add "()".toList ⟨"b"⟩ ⟨7, 2⟩)

/-- The fragments of the map. -/
def pieces : List Fragment :=
  [⟨"fn ".toList, ⟨"a"⟩, ⟨0, 3⟩⟩, ⟨"f".toList, ⟨"a"⟩, ⟨3, 1⟩⟩, ⟨"oo0".toList, ⟨"a"⟩, ⟨4, 2⟩⟩,
    ⟨"()".toList, ⟨"b"⟩, ⟨7, 2⟩⟩]

theorem refines_fragments_assembled :
    assembled.Holds pieces ∧ assembled.coverage = .ok () ∧ assembled.text = "fn foo0()".toList ∧
      (∃ f ∈ pieces, ∃ k, assembled.origin? 6 = some (f.placeAt k)) ∧
      assembled.origin? 6 = some ⟨⟨"a"⟩, 4⟩ ∧ assembled.compact.origin? 6 = assembled.origin? 6 ∧
      assembled.origin? 10 = none := by
  have hone : Text.slice? "fn foo()".toList ⟨0, 3⟩ = some "fn ".toList := by decide
  have htwo : Text.slice? "fn foo()".toList ⟨3, 1⟩ = some "f".toList := by decide
  have hcopies : Holds _ (pieces.take 2) := .addCopy (.addCopy (.empty ⟨"out"⟩) hone rfl) htwo rfl
  have hholds : assembled.Holds pieces :=
    .append (.add (.compact hcopies) ⟨_, _, _⟩) (.add (.empty _) ⟨_, _, _⟩)
  obtain ⟨hcoverage, htext, hinside, hbehind⟩ := refines_fragments hholds
  obtain ⟨front, f, behind, hfs, -, -, horigin, hcompact⟩ := hinside 6 (by decide)
  refine ⟨hholds, hcoverage, htext, ⟨f, by rw [hfs]; simp, _, horigin⟩, by decide +kernel,
    hcompact, hbehind 10 (by decide)⟩

end SourceMap

end ShaderLink
