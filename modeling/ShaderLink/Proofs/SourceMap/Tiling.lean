import Mathlib.Data.List.Pairwise
import Mathlib.Order.Nat
import ShaderLink.Proofs.Except
import ShaderLink.SourceMap.Compact
import ShaderLink.SourceMap.Coverage

/-!
# Entries that tile a text

The entries of a map **tile** a stretch of its text if each target starts where the one before it
stops. Maps are only ever built by adding at the end, so their entries tile the whole text
(`SourceMap.Tiled`), and making a map compact keeps that and leaves no entry for the empty span
(`SourceMap.Exact`). An exact map passes the check of its coverage, and that check is the only way
in which putting texts together could be found at fault.

The check itself asks for less, as it passes over entries for nothing wherever they stand
(`SourceMap.Covered`). Making a map compact drops them, so a map that passes becomes exact.
-/

namespace ShaderLink

/-- The targets of the entries follow one another from `lo` to `hi` without gap or overlap. -/
def Tiles : Nat → List Entry → Nat → Prop
  | lo, [], hi => lo = hi
  | lo, e :: es, hi => e.target.start = lo ∧ Tiles e.target.stop es hi

namespace Tiles

variable {lo mid hi : Nat} {e : Entry} {es xs ys : List Entry}

/-- Two tilings that meet make one. -/
theorem append (hx : Tiles lo xs mid) (hy : Tiles mid ys hi) : Tiles lo (xs ++ ys) hi := by
  induction xs generalizing lo with
  | nil =>
    obtain rfl : lo = mid := hx
    exact hy
  | cons e xs ih => exact ⟨hx.1, ih hx.2⟩

/-- A tiling that is moved tiles the range that is moved as far. -/
theorem shift (h : Tiles lo es hi) (n : Nat) :
    Tiles (lo + n) (es.map (Entry.shift · n)) (hi + n) := by
  induction es generalizing lo with
  | nil => exact congrArg (· + n) h
  | cons e es ih =>
    have hrest := ih h.2
    rw [← Span.stop_shift] at hrest
    exact ⟨congrArg (· + n) h.1, hrest⟩

theorem le (h : Tiles lo es hi) : lo ≤ hi := by
  induction es generalizing lo with
  | nil => exact Nat.le_of_eq h
  | cons e es ih =>
    have hrest := ih h.2
    have hfirst := h.1
    simp only [Span.stop] at hrest
    omega

/-- No entry reaches over the ends. -/
theorem bounds (h : Tiles lo es hi) (he : e ∈ es) : lo ≤ e.target.start ∧ e.target.stop ≤ hi := by
  induction es generalizing lo with
  | nil => exact absurd he List.not_mem_nil
  | cons f es ih =>
    have hfirst := h.1
    rcases List.mem_cons.1 he with rfl | he
    · exact ⟨hfirst.ge, h.2.le⟩
    · obtain ⟨hlo, hhi⟩ := ih h.2 he
      simp only [Span.stop] at hlo hhi ⊢
      omega

/-- An entry ends before those behind it start. -/
theorem pairwise (h : Tiles lo es hi) :
    es.Pairwise fun e f ↦ e.target.stop ≤ f.target.start := by
  induction es generalizing lo with
  | nil => exact .nil
  | cons e es ih => exact List.pairwise_cons.2 ⟨fun f hf ↦ (h.2.bounds hf).1, ih h.2⟩

/-- Entries for nothing can be left out. -/
theorem filter (h : Tiles lo es hi) :
    Tiles lo (es.filter fun e ↦ !e.target.isEmpty) hi := by
  induction es generalizing lo with
  | nil => exact h
  | cons e es ih =>
    have hrest := ih h.2
    rw [List.filter_cons]
    split
    · exact ⟨h.1, hrest⟩
    · rename_i hempty
      have hstop : e.target.stop = e.target.start := by
        simpa [Span.isEmpty, Span.stop] using hempty
      rwa [hstop, h.1] at hrest

/-- In particular they are sorted. -/
theorem pairwise_before (h : Tiles lo es hi) : es.Pairwise (Entry.before · ·) := by
  refine h.pairwise.imp fun {e f} hle ↦ ?_
  simp only [Entry.before, Span.stop, decide_eq_true_eq] at hle ⊢
  omega

theorem joinFrom (h : Tiles lo (e :: es) hi) : Tiles lo (e.joinFrom es) hi := by
  induction es generalizing e lo with
  | nil => exact h
  | cons f es ih =>
    rw [Entry.joinFrom]
    split
    · rename_i hjoins
      have hstop : (e.join f).target.stop = f.target.stop := by
        have hadjacent : e.target.stop = f.target.start := h.2.1.symm
        simp only [Entry.join, Span.stop] at hadjacent ⊢
        omega
      refine ih ⟨h.1, ?_⟩
      rw [hstop]
      exact h.2.2
    · exact ⟨h.1, ih h.2⟩

/-- Joining neighbours leaves no gap. -/
theorem joinAll (h : Tiles lo es hi) : Tiles lo (Entry.joinAll es) hi := by
  cases es with
  | nil => exact h
  | cons e es => exact h.joinFrom

/-- Where only entries for nothing can stand, no other does. -/
theorem filter_eq_nil (h : Tiles lo es lo) : (es.filter fun e ↦ !e.target.isEmpty) = [] := by
  refine List.filter_eq_nil_iff.2 fun e he ↦ ?_
  obtain ⟨hstart, hstop⟩ := h.bounds he
  simp only [Span.stop] at hstop
  have hsize : e.target.size = 0 := by omega
  simp [Span.isEmpty, hsize]

/-- What tiles the place of each tile tiles the stretch, as far as entries for something go. -/
theorem filter_flatten {ess : List (List Entry)}
    (h : List.Forall₂ (fun e fs ↦ Tiles e.target.start fs e.target.stop) es ess)
    (htiles : Tiles lo (es.filter fun e ↦ !e.target.isEmpty) hi) :
    Tiles lo (ess.flatten.filter fun e ↦ !e.target.isEmpty) hi := by
  induction h generalizing lo with
  | nil => exact htiles
  | @cons e fs es ess hfirst _ ih =>
    rw [List.flatten_cons, List.filter_append]
    rw [List.filter_cons] at htiles
    split at htiles
    · rw [htiles.1] at hfirst
      exact hfirst.filter.append (ih htiles.2)
    · rename_i hempty
      have hstop : e.target.stop = e.target.start := by
        simpa [Span.isEmpty, Span.stop] using hempty
      rw [hstop] at hfirst
      rw [hfirst.filter_eq_nil]
      exact ih htiles

end Tiles

/-- Entries cover a text up to where those of them tile it that are not for nothing. -/
theorem coverFrom_eq_ok_iff {lo hi : Nat} {es : List Entry} :
    coverFrom lo es = .ok hi ↔ Tiles lo (es.filter fun e ↦ !e.target.isEmpty) hi := by
  induction es generalizing lo with
  | nil => exact ⟨fun h ↦ Except.ok.inj h, fun h ↦ congrArg Except.ok h⟩
  | cons e es ih =>
    rw [coverFrom]
    by_cases hempty : e.target.isEmpty = true
    · rw [if_pos hempty, List.filter_cons_of_neg (by simp [hempty])]
      exact ih
    · rw [if_neg hempty, List.filter_cons_of_pos (by simp [hempty])]
      refine ⟨fun h ↦ ?_, fun h ↦ ?_⟩
      · split at h
        · cases h
        · split at h
          · cases h
          · exact ⟨by omega, ih.1 h⟩
      · have hstart : e.target.start = lo := h.1
        rw [if_neg (by omega), if_neg (by omega)]
        exact ih.2 h.2

namespace Entry

/-- What holds of entries and of joined entries holds of all that joining makes of them. -/
theorem forall_mem_joinFrom {P : Entry → Prop}
    (hjoin : ∀ e f, e.joins f = true → P e → P f → P (e.join f)) {e : Entry} {es : List Entry}
    (he : P e) (hes : ∀ f ∈ es, P f) : ∀ f ∈ e.joinFrom es, P f := by
  induction es generalizing e with
  | nil =>
    intro f hf
    rwa [List.mem_singleton.1 hf]
  | cons f es ih =>
    obtain ⟨hf, hes⟩ := List.forall_mem_cons.1 hes
    rw [joinFrom]
    split
    · rename_i hjoins
      exact ih (hjoin e f hjoins he hf) hes
    · exact List.forall_mem_cons.2 ⟨he, ih hf hes⟩

/-- What two entries keep when they are joined, they keep when all are that can be. -/
theorem forall_mem_joinAll {P : Entry → Prop}
    (hjoin : ∀ e f, e.joins f = true → P e → P f → P (e.join f)) {es : List Entry}
    (hes : ∀ f ∈ es, P f) : ∀ f ∈ joinAll es, P f := by
  cases es with
  | nil => exact hes
  | cons e es =>
    obtain ⟨he, hes⟩ := List.forall_mem_cons.1 hes
    exact forall_mem_joinFrom hjoin he hes

end Entry

namespace SourceMap

variable {m n : SourceMap}

/-- The entries tile the text. -/
def Tiled (m : SourceMap) : Prop :=
  Tiles 0 m.entries m.text.size

/-- The entries tile the text, and none of them is for nothing. -/
structure Exact (m : SourceMap) : Prop where
  tiled : m.Tiled
  size_pos : ∀ e ∈ m.entries, 0 < e.target.size

/-- The entries that are not for nothing tile the text. -/
def Covered (m : SourceMap) : Prop :=
  Tiles 0 (m.entries.filter fun e ↦ !e.target.isEmpty) m.text.size

/-- A map passes the check exactly if its entries cover its text. -/
theorem coverage_eq_ok_iff : m.coverage = .ok () ↔ m.Covered := by
  rw [Covered, ← coverFrom_eq_ok_iff, coverage, Except.bind_eq_ok]
  refine ⟨fun ⟨covered, hcovered, hrest⟩ ↦ ?_, fun h ↦ ⟨_, h, by simp [pure, Except.pure]⟩⟩
  split at hrest
  · cases hrest
  · split at hrest
    · cases hrest
    · obtain rfl : covered = m.text.size := by omega
      exact hcovered

/-- A map whose entries tile the text covers it. -/
theorem Tiled.covered (h : m.Tiled) : m.Covered :=
  Tiles.filter h

theorem tiled_empty (id : SourceId) : (empty id).Tiled :=
  rfl

/-- A fragment put behind the text gets an entry behind the entries. -/
theorem Tiled.add (h : m.Tiled) (fragment : Text) (source : SourceId) (origin : Span) :
    (m.add fragment source origin).Tiled := by
  have hlast : Tiles m.text.size [⟨source, origin, ⟨m.text.size, fragment.size⟩⟩]
      (m.text ++ fragment).size := ⟨rfl, (Text.size_append m.text fragment).symm⟩
  exact Tiles.append h hlast

theorem Tiled.append (hm : m.Tiled) (hn : n.Tiled) : (m.append n).Tiled := by
  have hshift := Tiles.shift hn m.text.size
  rw [Nat.zero_add, Nat.add_comm, ← Text.size_append] at hshift
  exact Tiles.append hm hshift

/-- Making a map compact leaves out the entries for nothing and joins neighbours, and nothing has
to be moved for that. -/
theorem Covered.entries_compact (h : m.Covered) :
    m.compact.entries = Entry.joinAll (m.entries.filter fun e ↦ !e.target.isEmpty) := by
  simp only [compact]
  rw [sortBy_of_pairwise (Tiles.pairwise_before h)]

/-- Compacting a map that covers its text makes it exact. -/
theorem Covered.exact_compact (h : m.Covered) : m.compact.Exact where
  tiled := by
    rw [Tiled, h.entries_compact]
    exact Tiles.joinAll h
  size_pos := by
    rw [h.entries_compact]
    refine Entry.forall_mem_joinAll (fun e f _ he _ ↦ ?_) fun e he ↦ ?_
    · simp only [Entry.join]
      omega
    · have hne := (List.mem_filter.1 he).2
      simp only [Span.isEmpty, Bool.not_eq_true', beq_eq_false_iff_ne] at hne
      omega

/-- A tiled map passes the check. -/
theorem Tiled.coverage (h : m.Tiled) : m.coverage = .ok () :=
  coverage_eq_ok_iff.2 h.covered

end SourceMap

end ShaderLink
