import ShaderLink.Proofs.Text.Cut
import ShaderLink.SourceMap.Basic

/-!
# Where the bytes of a text come from

A **traced** text is a text in which every byte knows its origin. A byte is either copied from an
offset of a source, or part of a text that was put in the place of a range of a source, or put in
from nowhere. Traced texts are put together and cut like texts, and the bytes keep their origins;
nothing here speaks of maps. What a map says about a text is compared with this elsewhere.

A replacement may replace bytes that are replacements themselves. So the range of a replacement is
the smallest one around the origins of all bytes replaced (`Origin.hull`).
-/

namespace ShaderLink

/-- A text by the name that maps know it by. -/
structure SourceText where
  id : SourceId
  text : Text

/-- Where a byte comes from. -/
inductive Origin where
  /-- The byte is the one at the offset. -/
  | copied (file : SourceText) (offset : Nat)
  /-- The byte stands in the place of the range. -/
  | replaced (file : SourceText) (range : Span)
  /-- The byte was put in, under a name that need not be the name of a text. -/
  | inserted (source : SourceId)

namespace Origin

/-- The stretch of a source that a byte comes from. -/
def range? : Origin → Option (SourceText × Span)
  | copied file offset => some (file, ⟨offset, 1⟩)
  | replaced file range => some (file, range)
  | inserted _ => none

/-- The byte comes from the range of the file. -/
def Within (file : SourceText) (range : Span) (o : Origin) : Prop :=
  ∃ s, o.range? = some (file, s) ∧ range.start ≤ s.start ∧ s.stop ≤ range.stop

/-- The smallest span around two spans. -/
def cover (s s' : Span) : Span :=
  Span.between (min s.start s'.start) (max s.stop s'.stop)

/-- The origin of a text that was put in the place of bytes with the given origins. -/
def hull (os : List Origin) : Origin :=
  match os.filterMap range? with
  | [] => inserted ⟨""⟩
  | (file, range) :: rest => replaced file (rest.foldl (fun r e ↦ cover r e.2) range)

/-- A byte of origin `o'` may be found where one of origin `o` is asked for. Inside a replacement,
every byte of what was replaced may. -/
def Refines (o' o : Origin) : Prop :=
  o' = o ∨ ∃ file range, o = replaced file range ∧ o'.Within file range

theorem Refines.refl (o : Origin) : o.Refines o :=
  .inl rfl

theorem start_cover (s s' : Span) : (cover s s').start = min s.start s'.start := rfl

theorem stop_cover (s s' : Span) : (cover s s').stop = max s.stop s'.stop := by
  refine Span.stop_between ?_
  simp only [Span.stop]
  omega

/-- Covering more and more spans covers all of them. -/
theorem le_foldl_cover {α : Type} (f : α → Span) (as : List α) (r : Span) :
    ((as.foldl (fun r a ↦ cover r (f a)) r).start ≤ r.start ∧
      r.stop ≤ (as.foldl (fun r a ↦ cover r (f a)) r).stop) ∧
    ∀ a ∈ as, (as.foldl (fun r a ↦ cover r (f a)) r).start ≤ (f a).start ∧
      (f a).stop ≤ (as.foldl (fun r a ↦ cover r (f a)) r).stop := by
  induction as generalizing r with
  | nil => simp
  | cons a as ih =>
    obtain ⟨⟨hstart, hstop⟩, hall⟩ := ih (cover r (f a))
    rw [start_cover] at hstart
    rw [stop_cover] at hstop
    rw [List.foldl_cons]
    refine ⟨⟨by omega, by omega⟩, List.forall_mem_cons.2 ⟨⟨by omega, by omega⟩, hall⟩⟩

/-- A text in the place of bytes from one file replaces a range that they all come from. -/
theorem hull_eq {file : SourceText} {os : List Origin} (hne : os ≠ [])
    (hfile : ∀ o ∈ os, ∃ s, o.range? = some (file, s)) :
    ∃ range, hull os = replaced file range ∧ ∀ o ∈ os, o.Within file range := by
  cases os with
  | nil => exact absurd rfl hne
  | cons first os =>
    obtain ⟨s, hs⟩ := hfile first List.mem_cons_self
    have hcover := le_foldl_cover (fun e : SourceText × Span ↦ e.2) (os.filterMap range?) s
    refine ⟨_, by rw [hull, List.filterMap_cons, hs], List.forall_mem_cons.2
      ⟨⟨s, hs, hcover.1⟩, fun o ho ↦ ?_⟩⟩
    obtain ⟨s', hs'⟩ := hfile o (List.mem_cons_of_mem first ho)
    exact ⟨s', hs', hcover.2 (file, s') (List.mem_filterMap.2 ⟨o, ho, hs'⟩)⟩

end Origin

/-- A text whose bytes know where they come from. -/
@[ext]
structure Traced where
  text : Text
  /-- The origins of the bytes. -/
  origins : List Origin
  length_origins : origins.length = text.size

namespace Traced

/-- The empty text. -/
def empty : Traced :=
  ⟨[], [], rfl⟩

/-- Two texts one behind the other. -/
def append (tr tr' : Traced) : Traced where
  text := tr.text ++ tr'.text
  origins := tr.origins ++ tr'.origins
  length_origins := by
    rw [List.length_append, tr.length_origins, tr'.length_origins, Text.size_append]

instance : Append Traced :=
  ⟨append⟩

/-- A text all bytes of which come from the same. -/
def constant (t : Text) (o : Origin) : Traced :=
  ⟨t, List.replicate t.size o, List.length_replicate⟩

/-- A text that is copied from a file, from an offset on. -/
def copy (file : SourceText) (start : Nat) (t : Text) : Traced where
  text := t
  origins := (List.range' start t.size).map (Origin.copied file)
  length_origins := by rw [List.length_map, List.length_range']

/-- The part of a text in a span, which is empty if the text cannot be cut there. -/
def slice (tr : Traced) (s : Span) : Traced :=
  match h : tr.text.slice? s with
  | none => empty
  | some inside =>
    { text := inside
      origins := (tr.origins.drop s.start).take s.size
      length_origins := by
        obtain ⟨before, behind, htext, hstart, hsize⟩ := Text.slice?_eq_some_iff.1 h
        have hall := tr.length_origins
        rw [htext, Text.size_append, Text.size_append] at hall
        rw [List.length_take, List.length_drop, hall]
        omega }

/-- All bytes come from one file. -/
def InFile (file : SourceText) (tr : Traced) : Prop :=
  ∀ o ∈ tr.origins, ∃ s, o.range? = some (file, s)

/-- All bytes are copied from one file. -/
def Copied (file : SourceText) (tr : Traced) : Prop :=
  ∀ o ∈ tr.origins, ∃ n, o = .copied file n

/-- What is said to be copied from an offset is the byte at the offset. -/
def Faithful (tr : Traced) : Prop :=
  ∀ (p : Nat) (file : SourceText) (n : Nat), tr.origins[p]? = some (.copied file n) →
    ∃ b, tr.text.bytes[p]? = some b ∧ file.text.bytes[n]? = some b

variable {tr tr' : Traced} {file : SourceText} {s : Span}

@[simp] theorem text_append (tr tr' : Traced) : (tr ++ tr').text = tr.text ++ tr'.text := rfl

@[simp] theorem origins_append (tr tr' : Traced) :
    (tr ++ tr').origins = tr.origins ++ tr'.origins := rfl

theorem append_assoc (a b c : Traced) : a ++ b ++ c = a ++ (b ++ c) := by
  ext1
  · exact List.append_assoc a.text b.text c.text
  · exact List.append_assoc a.origins b.origins c.origins

/-- A slice of a traced text is the slice of the text, and its bytes keep their origins. -/
theorem slice_of_slice? {inside : Text} (h : tr.text.slice? s = some inside) :
    (tr.slice s).text = inside ∧ (tr.slice s).origins = (tr.origins.drop s.start).take s.size := by
  rw [slice]
  split
  · rename_i hnone
    rw [hnone] at h
    cases h
  · rename_i found hfound
    obtain rfl := Option.some.inj (hfound ▸ h)
    exact ⟨rfl, rfl⟩

/-- The slice of everything is the text itself. -/
theorem slice_span (tr : Traced) : tr.slice tr.text.span = tr := by
  obtain ⟨htext, horigins⟩ := slice_of_slice? tr.text.slice?_span
  refine Traced.ext htext ?_
  rw [horigins]
  show (tr.origins.drop 0).take tr.text.size = tr.origins
  rw [List.drop_zero, ← tr.length_origins, List.take_length]

/-- The origins in a slice are some of those of the text. -/
theorem mem_origins_of_mem_slice {o : Origin} (h : o ∈ (tr.slice s).origins) : o ∈ tr.origins := by
  rw [slice] at h
  split at h
  · exact absurd h List.not_mem_nil
  · exact List.mem_of_mem_drop (List.mem_of_mem_take h)

/-! ### One file -/

theorem InFile.append (h : tr.InFile file) (h' : tr'.InFile file) : (tr ++ tr').InFile file :=
  fun o ho ↦ (List.mem_append.1 ho).elim (h o) (h' o)

/-- What is copied from a file comes from it. -/
theorem Copied.inFile (h : tr.Copied file) : tr.InFile file := by
  intro o ho
  obtain ⟨n, rfl⟩ := h o ho
  exact ⟨_, rfl⟩

theorem Copied.append (h : tr.Copied file) (h' : tr'.Copied file) : (tr ++ tr').Copied file :=
  fun o ho ↦ (List.mem_append.1 ho).elim (h o) (h' o)

/-- A copy is copied throughout. -/
theorem copied_copy (file : SourceText) (start : Nat) (t : Text) :
    (copy file start t).Copied file := by
  intro o ho
  obtain ⟨n, -, rfl⟩ := List.mem_map.1 ho
  exact ⟨n, rfl⟩

theorem inFile_copy (file : SourceText) (start : Nat) (t : Text) :
    (copy file start t).InFile file :=
  (copied_copy file start t).inFile

/-- A part of a text comes from no other files. -/
theorem InFile.slice (h : tr.InFile file) (s : Span) : (tr.slice s).InFile file :=
  fun o ho ↦ h o (mem_origins_of_mem_slice ho)

/-! ### Faithful texts -/

theorem faithful_empty : empty.Faithful :=
  fun _ _ _ h ↦ absurd h nofun

/-- Parts that say the truth about their copies make a whole that does. -/
theorem Faithful.append (h : tr.Faithful) (h' : tr'.Faithful) : (tr ++ tr').Faithful := by
  intro p file n hp
  rw [origins_append] at hp
  rw [text_append, Text.bytes_append]
  by_cases hlt : p < tr.origins.length
  · rw [List.getElem?_append_left hlt] at hp
    rw [List.getElem?_append_left (by rwa [Text.length_bytes, ← tr.length_origins])]
    exact h p file n hp
  · rw [List.getElem?_append_right (Nat.le_of_not_lt hlt)] at hp
    have hlength : tr.text.bytes.length = tr.origins.length := by
      rw [Text.length_bytes, tr.length_origins]
    rw [List.getElem?_append_right (by omega), hlength]
    exact h' _ file n hp

/-- A copy says the truth if the text does stand there. -/
theorem faithful_copy {start : Nat} {t : Text}
    (h : file.text.slice? ⟨start, t.size⟩ = some t) : (copy file start t).Faithful := by
  intro p file' n hp
  have hbytes := Text.bytes_of_slice? h
  dsimp only at hbytes
  simp only [copy, List.getElem?_map, Option.map_eq_some_iff] at hp
  obtain ⟨m, hm, heq⟩ := hp
  obtain ⟨rfl, rfl⟩ := Origin.copied.inj heq
  obtain ⟨hlt, hm⟩ := List.getElem?_eq_some_iff.1 hm
  rw [List.length_range'] at hlt
  obtain rfl : start + p = m := by
    rw [← hm, List.getElem_range', Nat.one_mul]
  have hp : p < t.bytes.length := by rwa [Text.length_bytes]
  refine ⟨t.bytes[p], List.getElem?_eq_getElem hp, ?_⟩
  have hget : (t.bytes)[p]? = file.text.bytes[start + p]? := by
    rw [hbytes, List.getElem?_take_of_lt hlt, List.getElem?_drop]
  rw [← hget, List.getElem?_eq_getElem hp]

/-- A text that replaces another, or is put in, claims nothing. -/
theorem faithful_constant {t : Text} {o : Origin} (h : ∀ file n, o ≠ .copied file n) :
    (constant t o).Faithful := by
  intro p file n hp
  have hmem := List.eq_of_mem_replicate (List.mem_of_getElem? hp)
  exact absurd hmem.symm (h file n)

/-- So does a part of a text that does. -/
theorem Faithful.slice (h : tr.Faithful) (s : Span) : (tr.slice s).Faithful := by
  intro p file n hp
  cases hinside : tr.text.slice? s with
  | none =>
    have hempty : tr.slice s = empty := by
      rw [Traced.slice]
      split
      · rfl
      · rename_i inside hsome
        rw [hinside] at hsome
        cases hsome
    rw [hempty] at hp
    exact absurd hp nofun
  | some inside =>
    obtain ⟨htext, horigins⟩ := slice_of_slice? hinside
    have hlt : p < s.size := by
      have hbound := (List.getElem?_eq_some_iff.1 hp).1
      rw [horigins, List.length_take] at hbound
      omega
    rw [horigins, List.getElem?_take_of_lt hlt, List.getElem?_drop] at hp
    obtain ⟨b, hb, hsource⟩ := h _ file n hp
    refine ⟨b, ?_, hsource⟩
    rw [htext, Text.bytes_of_slice? hinside, List.getElem?_take_of_lt hlt, List.getElem?_drop, hb]

end Traced

end ShaderLink
