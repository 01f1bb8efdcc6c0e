import ShaderLink.Proofs.Provenance.Origin
import ShaderLink.Proofs.SourceMap.Compaction

/-!
# Maps that agree with a traced text

A map **traces** a traced text if it has the same text and each of its entries agrees with the
origins of the bytes in its target. Agreement is stated for single bytes (`Entry.Agrees`): an entry
for a copied byte must be a copy that leads to this very byte, and an entry for a replaced byte must
lead into the range replaced, from both of its ends.

An entry that stands for a replacement of the same length is a copy like any other, and compacting
may join it with its neighbours. Stated for single bytes, agreement does not notice.
-/

namespace ShaderLink

namespace Entry

/-- The offset of the source that a byte of the target starts at. -/
def firstAt (e : Entry) (p : Nat) : Nat :=
  (e.placeAt p e.origin.start).offset

/-- The offset of the source that a byte of the target ends at. -/
def lastAt (e : Entry) (p : Nat) : Nat :=
  (e.placeAt (p + 1) e.origin.stop).offset

/-- The entry says of a byte of its target that it has the origin. -/
def Agrees (e : Entry) (p : Nat) : Origin → Prop
  | .copied file n => e.source = file.id ∧ e.isCopy = true ∧ e.firstAt p = n
  | .replaced file range => e.source = file.id ∧ range.start ≤ e.firstAt p ∧
      e.firstAt p < range.stop ∧ e.lastAt p ≤ range.stop
  | .inserted source => e.source = source

variable {e e' : Entry} {p : Nat} {o o' : Origin}

theorem firstAt_of_isCopy (h : e.isCopy = true) :
    e.firstAt p = e.origin.start + (p - e.target.start) := by
  simp [firstAt, placeAt, h]

theorem lastAt_of_isCopy (h : e.isCopy = true) (hp : e.target.start ≤ p) :
    e.lastAt p = e.firstAt p + 1 := by
  simp only [lastAt, firstAt, placeAt, h, if_true]
  omega

theorem firstAt_of_not_isCopy (h : ¬e.isCopy = true) : e.firstAt p = e.origin.start := by
  simp [firstAt, placeAt, h]

theorem lastAt_of_not_isCopy (h : ¬e.isCopy = true) : e.lastAt p = e.origin.stop := by
  simp [lastAt, placeAt, h]

/-- An entry that agrees with a byte agrees with what the byte may be found in the place of. -/
theorem Agrees.of_refines (h : e.Agrees p o') (hp : e.target.start ≤ p) (href : o'.Refines o) :
    e.Agrees p o := by
  rcases href with rfl | ⟨file, range, rfl, s, hs, hstart, hstop⟩
  · exact h
  · cases o' with
    | copied file' n =>
      obtain ⟨rfl, rfl⟩ : file' = file ∧ (⟨n, 1⟩ : Span) = s := by simpa [Origin.range?] using hs
      obtain ⟨hsource, hcopy, rfl⟩ := h
      have hlast := lastAt_of_isCopy hcopy hp
      simp only [Span.stop] at hstart hstop
      exact ⟨hsource, hstart, by simp only [Span.stop]; omega, by simp only [Span.stop]; omega⟩
    | replaced file' range' =>
      obtain ⟨rfl, rfl⟩ : file' = file ∧ range' = s := by simpa [Origin.range?] using hs
      obtain ⟨hsource, hfirst, hfirst', hlast⟩ := h
      exact ⟨hsource, hstart.trans hfirst, hfirst'.trans_le hstop, hlast.trans hstop⟩
    | inserted source => cases hs

/-- Two copies that lead to the same byte say the same of it. -/
theorem Agrees.of_copies {p' : Nat} (h : e.Agrees p o) (hcopy : e.isCopy = true)
    (hcopy' : e'.isCopy = true) (hsource : e'.source = e.source)
    (hfirst : e'.firstAt p' = e.firstAt p) (hp : e.target.start ≤ p)
    (hp' : e'.target.start ≤ p') : e'.Agrees p' o := by
  have hlast : e'.lastAt p' = e.lastAt p := by
    rw [lastAt_of_isCopy hcopy hp, lastAt_of_isCopy hcopy' hp', hfirst]
  cases o with
  | copied file n => exact ⟨hsource.trans h.1, hcopy', hfirst.trans h.2.2⟩
  | replaced file range =>
    obtain ⟨hs, hle, hlt, hstop⟩ := h
    exact ⟨hsource.trans hs, hfirst ▸ hle, hfirst ▸ hlt, hlast ▸ hstop⟩
  | inserted source => exact hsource.trans h

/-- An entry keeps what it says when it is moved. -/
theorem Agrees.shift (h : e.Agrees p o) (n : Nat) : (e.shift n).Agrees (p + n) o := by
  have hfirst : (e.shift n).firstAt (p + n) = e.firstAt p := by
    have hsub : p + n - (e.target.start + n) = p - e.target.start := by omega
    simp [firstAt, placeAt, Entry.shift, isCopy, Span.shift, hsub]
  have hlast : (e.shift n).lastAt (p + n) = e.lastAt p := by
    have hsub : p + n + 1 - (e.target.start + n) = p + 1 - e.target.start := by omega
    simp [lastAt, placeAt, Entry.shift, isCopy, Span.shift, hsub]
  cases o with
  | copied file m => exact ⟨h.1, h.2.1, hfirst.trans h.2.2⟩
  | replaced file range =>
    obtain ⟨hs, hle, hlt, hstop⟩ := h
    exact ⟨hs, hfirst ▸ hle, hfirst ▸ hlt, hlast ▸ hstop⟩
  | inserted source => exact h

/-- What an entry says of all bytes of its target. -/
def Traces (e : Entry) (origins : List Origin) : Prop :=
  ∀ p, e.target.start ≤ p → p < e.target.stop → ∃ o, origins[p]? = some o ∧ e.Agrees p o

/-- A joined entry says of each byte what the entry did that was joined. -/
theorem Traces.join {origins : List Origin} (hjoins : e.joins e' = true) (h : e.Traces origins)
    (h' : e'.Traces origins) : (e.join e').Traces origins := by
  have hcopy := isCopy_join hjoins
  simp only [joins, Bool.and_eq_true, beq_iff_eq] at hjoins
  obtain ⟨⟨⟨⟨hsource, hcopy₁⟩, hcopy₂⟩, horigin⟩, htarget⟩ := hjoins
  intro p hstart hstop
  have hstart' : e.target.start ≤ p := hstart
  by_cases hp : p < e.target.stop
  · obtain ⟨o, ho, hagrees⟩ := h p hstart hp
    refine ⟨o, ho, hagrees.of_copies hcopy₁ hcopy rfl ?_ hstart hstart⟩
    rw [firstAt_of_isCopy hcopy, firstAt_of_isCopy hcopy₁]
    rfl
  · have hp' : e'.target.start ≤ p := htarget ▸ Nat.le_of_not_lt hp
    have hstop' : p < e'.target.stop := by
      simp only [Entry.join, Span.stop] at hstop htarget ⊢
      omega
    obtain ⟨o, ho, hagrees⟩ := h' p hp' hstop'
    refine ⟨o, ho, hagrees.of_copies hcopy₂ hcopy hsource ?_ hp' hstart⟩
    rw [firstAt_of_isCopy hcopy, firstAt_of_isCopy hcopy₂]
    simp only [Entry.join, isCopy, beq_iff_eq, Span.stop] at hcopy₁ horigin htarget ⊢
    omega

end Entry

namespace SourceMap

/-- The map has the traced text, and its entries agree with the origins. -/
structure Traces (m : SourceMap) (tr : Traced) : Prop where
  text : m.text = tr.text
  entries : ∀ e ∈ m.entries, e.Traces tr.origins

variable {m n : SourceMap} {tr tr' : Traced}

theorem traces_empty (id : SourceId) : (empty id).Traces .empty :=
  ⟨rfl, fun _ he ↦ absurd he List.not_mem_nil⟩

theorem Traces.compact (h : m.Traces tr) (hcovered : m.Covered) : m.compact.Traces tr where
  text := h.text
  entries := by
    rw [hcovered.entries_compact]
    exact Entry.forall_mem_joinAll (fun e f hjoins he hf ↦ he.join hjoins hf)
      fun e he ↦ h.entries e (List.mem_filter.1 he).1

/-- Origins in front of others stand where they stood. -/
theorem Traces.entries_left (h : m.Traces tr) (tr' : Traced) {e : Entry} (he : e ∈ m.entries) :
    e.Traces (tr ++ tr').origins := by
  intro p hstart hstop
  obtain ⟨o, ho, hagrees⟩ := h.entries e he p hstart hstop
  have hlt := (List.getElem?_eq_some_iff.1 ho).1
  exact ⟨o, by rw [Traced.origins_append, List.getElem?_append_left hlt, ho], hagrees⟩

theorem Traces.append (hm : m.Traces tr) (hn : n.Traces tr') : (m.append n).Traces (tr ++ tr') where
  text := by rw [Traced.text_append, ← hm.text, ← hn.text]; rfl
  entries e he := by
    rcases List.mem_append.1 he with he | he
    · exact hm.entries_left tr' he
    · obtain ⟨e, hmem, rfl⟩ := List.mem_map.1 he
      intro p hstart hstop
      have hle : m.text.size ≤ p := by
        simp only [Entry.shift, Span.start_shift] at hstart
        omega
      obtain ⟨q, rfl⟩ : ∃ q, p = q + m.text.size := ⟨p - m.text.size, by omega⟩
      simp only [Entry.shift, Span.start_shift, Span.stop_shift] at hstart hstop
      obtain ⟨o, ho, hagrees⟩ := hn.entries e hmem q (by omega) (by omega)
      refine ⟨o, ?_, hagrees.shift m.text.size⟩
      have hlength : tr.origins.length = m.text.size := by rw [tr.length_origins, hm.text]
      rw [Traced.origins_append, List.getElem?_append_right (by omega), hlength,
        Nat.add_sub_cancel, ho]

/-- A fragment can be added with the origins that the new entry gives its bytes. -/
theorem Traces.add (hm : m.Traces tr) (tr' : Traced) {source : SourceId} {origin : Span}
    (h : ∀ p < tr'.text.size, ∃ o, tr'.origins[p]? = some o ∧
      (⟨source, origin, ⟨0, tr'.text.size⟩⟩ : Entry).Agrees p o) :
    (m.add tr'.text source origin).Traces (tr ++ tr') := by
  have hone :
      (⟨m.id, tr'.text, [⟨source, origin, ⟨0, tr'.text.size⟩⟩]⟩ : SourceMap).Traces tr' := by
    refine ⟨rfl, fun e he p hstart hstop ↦ ?_⟩
    rw [List.mem_singleton.1 he] at hstop ⊢
    exact h p (by simpa [Span.stop] using hstop)
  have happend := hm.append hone
  simpa [SourceMap.append, SourceMap.add, Entry.shift, Span.shift] using happend

/-- Adding a copy adds the bytes of the file. -/
theorem Traces.add_copy (hm : m.Traces tr) (file : SourceText) (start : Nat) (t : Text) :
    (m.add t file.id ⟨start, t.size⟩).Traces (tr ++ .copy file start t) := by
  refine hm.add (.copy file start t) fun p hp ↦ ⟨.copied file (start + p), ?_, rfl, ?_, ?_⟩
  · have hlt : p < t.size := hp
    simp [Traced.copy, List.getElem?_range' hlt]
  · simp [Entry.isCopy, Traced.copy]
  · rw [Entry.firstAt_of_isCopy (by simp [Entry.isCopy, Traced.copy])]
    simp

/-- Adding a fragment under some name adds bytes that were put in under that name. -/
theorem Traces.add_inserted (hm : m.Traces tr) (t : Text) (source : SourceId) (origin : Span) :
    (m.add t source origin).Traces (tr ++ .constant t (.inserted source)) := by
  refine hm.add (.constant t (.inserted source)) fun p hp ↦ ⟨.inserted source, ?_, rfl⟩
  have hlt : p < t.size := hp
  simp [Traced.constant, hlt]

/-- The place of a byte is what its entry says. -/
theorem Traces.exists_origin? (h : m.Traces tr) (htiled : m.Tiled) {p : Nat} {o : Origin}
    (hp : tr.origins[p]? = some o) :
    ∃ e : Entry, e.Agrees p o ∧ m.origin? p = some ⟨e.source, e.firstAt p⟩ := by
  have hlt : p < m.text.size := by
    rw [h.text, ← tr.length_origins]
    exact (List.getElem?_eq_some_iff.1 hp).1
  obtain ⟨e, he, hstart, hstop, horigin⟩ := htiled.exists_origin? hlt
  obtain ⟨o', ho', hagrees⟩ := h.entries e he p hstart hstop
  obtain rfl := Option.some.inj (ho'.symm.trans hp)
  exact ⟨e, hagrees, horigin⟩

/-- A byte that was copied comes from where it was copied from. -/
theorem Traces.origin?_of_copied (h : m.Traces tr) (htiled : m.Tiled) {p n : Nat}
    {file : SourceText} (hp : tr.origins[p]? = some (.copied file n)) :
    m.origin? p = some ⟨file.id, n⟩ := by
  obtain ⟨e, ⟨hsource, -, hfirst⟩, horigin⟩ := h.exists_origin? htiled hp
  rw [horigin, hsource, hfirst]

end SourceMap

end ShaderLink
