import ShaderLink.Proofs.SourceMap.Tiling
import ShaderLink.SourceMap.Lookup

/-!
# Bisection finds the entry

Where a condition holds of the first elements of a list and of no others, bisection counts those
elements (`bisect_eq_length_takeWhile`), so it finds what a search from the start would find. The
stops of entries that tile a text only grow, so this applies to look-up: every byte of the text has
the entry whose target holds it, and there is only one such entry.
-/

namespace ShaderLink

/-! ### Bisection -/

section Bisection

variable {α : Type} {p : α → Bool} {xs : List α}

/-- If `p` holds of no element behind one that it fails for, it holds at an index exactly if the
index is among the first elements that satisfy it. -/
theorem any_getElem?_iff (h : xs.Pairwise fun a b ↦ p b → p a) (i : Nat) :
    xs[i]?.any p = true ↔ i < (xs.takeWhile p).length := by
  induction xs generalizing i with
  | nil => simp
  | cons a xs ih =>
    obtain ⟨ha, hxs⟩ := List.pairwise_cons.1 h
    by_cases hp : p a = true
    · rw [List.takeWhile_cons_of_pos hp, List.length_cons]
      cases i with
      | zero => simp [hp]
      | succ i => simpa using ih hxs i
    · rw [List.takeWhile_cons_of_neg hp]
      cases i with
      | zero => simp [hp]
      | succ i =>
        have hno : ∀ b ∈ xs, ¬p b = true := fun b hb hpb ↦ hp (ha b hb hpb)
        have hnone : xs[i]?.any p = false := by
          cases hi : xs[i]? with
          | none => rfl
          | some b => simpa using hno b (List.mem_of_getElem? hi)
        simp [hnone]

/-- Bisection between two bounds on the number finds the number. -/
theorem bisectFrom_eq (h : xs.Pairwise fun a b ↦ p b → p a) {base size : Nat}
    (hlo : base ≤ (xs.takeWhile p).length) (hhi : (xs.takeWhile p).length ≤ base + size) :
    bisectFrom p xs base size = (xs.takeWhile p).length := by
  -- both halves keep the number between the bounds
  induction size using Nat.strongRecOn generalizing base with
  | _ size ih =>
    rw [bisectFrom]
    split
    · have hany := any_getElem?_iff h base
      split
      · rename_i hp
        have hlt := hany.1 hp
        omega
      · rename_i hp
        have hle := mt hany.2 hp
        omega
    · have hany := any_getElem?_iff h (base + size / 2)
      refine ih (size - size / 2) (by omega) ?_ ?_ <;> split <;> rename_i hp
      · exact (hany.1 hp).le
      · exact hlo
      · omega
      · have hle := mt hany.2 hp
        omega

theorem bisect_eq_length_takeWhile (h : xs.Pairwise fun a b ↦ p b → p a) :
    bisect p xs = (xs.takeWhile p).length := by
  refine bisectFrom_eq h (Nat.zero_le _) ?_
  rw [Nat.zero_add]
  exact (List.takeWhile_sublist p).length_le

/-- Behind the first elements that satisfy `p` stands the first that does not. -/
theorem getElem?_length_takeWhile (p : α → Bool) (xs : List α) :
    xs[(xs.takeWhile p).length]? = xs.find? fun a ↦ !p a := by
  induction xs with
  | nil => rfl
  | cons a xs ih =>
    cases hp : p a <;> simp [hp, ih]

end Bisection

/-! ### Finding entries -/

namespace Tiles

variable {lo hi n : Nat} {es : List Entry}

/-- The first target that ends behind a byte holds it. -/
theorem find?_at (h : Tiles lo es hi) (hlo : lo ≤ n) (hhi : n < hi) :
    ∃ e, es.find? (fun e ↦ !decide (e.target.stop ≤ n)) = some e ∧ e ∈ es ∧
      e.target.start ≤ n ∧ n < e.target.stop := by
  induction es generalizing lo with
  | nil =>
    obtain rfl : lo = hi := h
    omega
  | cons e es ih =>
    by_cases hn : e.target.stop ≤ n
    · obtain ⟨f, hfind, hf, hin⟩ := ih h.2 hn
      exact ⟨f, by rw [List.find?_cons_of_neg (by simpa using hn), hfind],
        List.mem_cons_of_mem e hf, hin⟩
    · exact ⟨e, List.find?_cons_of_pos (by simpa using hn), List.mem_cons_self,
        h.1.symm ▸ hlo, Nat.lt_of_not_le hn⟩

/-- The first target that ends at an offset or behind it holds the byte before the offset. -/
theorem find?_before (h : Tiles lo es hi) (hlo : lo < n) (hhi : n ≤ hi) :
    ∃ e, es.find? (fun e ↦ !decide (e.target.stop < n)) = some e ∧ e ∈ es ∧
      e.target.start < n ∧ n ≤ e.target.stop := by
  induction es generalizing lo with
  | nil =>
    obtain rfl : lo = hi := h
    omega
  | cons e es ih =>
    by_cases hn : e.target.stop < n
    · obtain ⟨f, hfind, hf, hin⟩ := ih h.2 hn
      exact ⟨f, by rw [List.find?_cons_of_neg (by simpa using hn), hfind],
        List.mem_cons_of_mem e hf, hin⟩
    · exact ⟨e, List.find?_cons_of_pos (by simpa using hn), List.mem_cons_self,
        h.1.symm ▸ hlo, Nat.le_of_not_lt hn⟩

/-- No two tiles hold the same byte. -/
theorem eq_of_mem (h : Tiles lo es hi) {e f : Entry} (he : e ∈ es) (hf : f ∈ es)
    (hstart : e.target.start ≤ n) (hstop : n < e.target.stop) (hstart' : f.target.start ≤ n)
    (hstop' : n < f.target.stop) : e = f := by
  by_contra hne
  let apart (e f : Entry) := e.target.stop ≤ f.target.start ∨ f.target.stop ≤ e.target.start
  have hapart : es.Pairwise apart := h.pairwise.imp Or.inl
  have hsymm : Std.Symm apart := ⟨fun _ _ ↦ Or.symm⟩
  have hor : apart e f := hapart.forall he hf hne
  omega

/-- The stops of tiles only grow. -/
theorem pairwise_stop (h : Tiles lo es hi) :
    es.Pairwise fun e f ↦ e.target.stop ≤ f.target.stop :=
  h.pairwise.imp fun {e f} hle ↦ by
    simp only [Span.stop] at hle ⊢
    omega

end Tiles

namespace SourceMap

variable {m : SourceMap} {n : Nat}

/-- Every byte has the entry whose target holds it. -/
theorem Tiled.exists_entryAt? (h : m.Tiled) (hn : n < m.text.size) :
    ∃ e, m.entryAt? n = some e ∧ e ∈ m.entries ∧ e.target.start ≤ n ∧ n < e.target.stop := by
  obtain ⟨e, hfind, he, hstart, hstop⟩ := Tiles.find?_at h (Nat.zero_le n) hn
  refine ⟨e, ?_, he, hstart, hstop⟩
  have hmono : m.entries.Pairwise fun e f ↦
      decide (f.target.stop ≤ n) = true → decide (e.target.stop ≤ n) = true :=
    (Tiles.pairwise_stop h).imp fun {e f} hle ↦ by
      simpa using hle.trans
  rw [entryAt?, bisect_eq_length_takeWhile hmono, getElem?_length_takeWhile, hfind]
  simpa [Option.filter] using hstart

/-- Every byte has the entry whose target holds it, looked up from the offset behind the byte. -/
theorem Tiled.exists_entryBefore? (h : m.Tiled) (hpos : 0 < n) (hn : n ≤ m.text.size) :
    ∃ e, m.entryBefore? n = some e ∧ e ∈ m.entries ∧ e.target.start < n ∧ n ≤ e.target.stop := by
  obtain ⟨e, hfind, he, hstart, hstop⟩ := Tiles.find?_before h hpos hn
  refine ⟨e, ?_, he, hstart, hstop⟩
  have hmono : m.entries.Pairwise fun e f ↦
      decide (f.target.stop < n) = true → decide (e.target.stop < n) = true :=
    (Tiles.pairwise_stop h).imp fun {e f} hle ↦ by
      simpa using hle.trans_lt
  rw [entryBefore?, bisect_eq_length_takeWhile hmono, getElem?_length_takeWhile, hfind]
  simp [Option.filter, hstart]

/-- The entry that holds a byte is found for it. -/
theorem Tiled.entryAt?_eq (h : m.Tiled) {e : Entry} (he : e ∈ m.entries)
    (hstart : e.target.start ≤ n) (hstop : n < e.target.stop) : m.entryAt? n = some e := by
  obtain ⟨f, hat, hf, hstart', hstop'⟩ :=
    h.exists_entryAt? (hstop.trans_le (Tiles.bounds h he).2)
  rw [hat, Tiles.eq_of_mem h he hf hstart hstop hstart' hstop']

theorem Tiled.origin?_eq (h : m.Tiled) {e : Entry} (he : e ∈ m.entries)
    (hstart : e.target.start ≤ n) (hstop : n < e.target.stop) :
    m.origin? n = some (e.placeAt n e.origin.start) := by
  rw [origin?, h.entryAt?_eq he hstart hstop]
  rfl

/-- Every byte comes from where its entry says. -/
theorem Tiled.exists_origin? (h : m.Tiled) (hn : n < m.text.size) :
    ∃ e ∈ m.entries, e.target.start ≤ n ∧ n < e.target.stop ∧
      m.origin? n = some (e.placeAt n e.origin.start) := by
  obtain ⟨e, -, he, hstart, hstop⟩ := h.exists_entryAt? hn
  exact ⟨e, he, hstart, hstop, h.origin?_eq he hstart hstop⟩

end SourceMap

end ShaderLink
