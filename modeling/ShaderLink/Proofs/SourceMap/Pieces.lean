import ShaderLink.Proofs.SourceMap.Lookup
import ShaderLink.SourceMap.Merge

/-!
# Tracing through an exact map

Look-up never misses on a map whose entries tile its text, so tracing through such a map only fails
where an entry leads out of the text. A copy becomes one piece for each inner entry that shares a
byte with it, and the pieces tile its place (`SourceMap.exists_tracePieces`). The ends of a
replacement are found in the entries next to them.
-/

namespace ShaderLink

namespace SourceMap

variable {m : SourceMap} {e i : Entry} {n start stop : Nat}

/-! ### The pieces of a copy -/

theorem isCopy_piece (hi : i.isCopy = true) : (piece i e start stop).isCopy = true := by
  simp only [piece, hi, if_true]
  exact beq_self_eq_true _

theorem origin_piece (hi : ¬i.isCopy = true) : (piece i e start stop).origin = i.origin := by
  simp [piece, hi]

/-- The pieces from an offset on are that of the entry which holds the offset, and those from where
this one stops. -/
theorem exists_piece_iff (hm : m.Tiled) (hi : i ∈ m.entries) (hstart : i.target.start ≤ n)
    (hend : n < i.target.stop) (hn : n < stop) {f : Entry} :
    (∃ j ∈ m.entries, max j.target.start n < min j.target.stop stop ∧
        f = piece j e (max j.target.start n) (min j.target.stop stop)) ↔
      f = piece i e n (min i.target.stop stop) ∨
        ∃ j ∈ m.entries, max j.target.start (min i.target.stop stop) < min j.target.stop stop ∧
          f = piece j e (max j.target.start (min i.target.stop stop)) (min j.target.stop stop) := by
  -- an entry with a byte from the offset on and before the stop of `i` is `i`
  have hsame {j : Entry} (hj : j ∈ m.entries)
    (hshare : max j.target.start n < min j.target.stop stop)
      (hlt : max j.target.start n < i.target.stop) : j = i :=
    Tiles.eq_of_mem hm (n := max j.target.start n) hj hi (by omega) (by omega) (by omega) hlt
  constructor
  · rintro ⟨j, hj, hshare, rfl⟩
    by_cases hlt : max j.target.start n < i.target.stop
    · obtain rfl := hsame hj hshare hlt
      exact .inl (by rw [max_eq_right hstart])
    · refine .inr ⟨j, hj, by omega, ?_⟩
      congr 1
      omega
  · rintro (rfl | ⟨j, hj, hshare, rfl⟩)
    · exact ⟨i, hi, by omega, by rw [max_eq_right hstart]⟩
    · refine ⟨j, hj, by omega, ?_⟩
      have hbehind : ¬max j.target.start n < i.target.stop := fun hlt ↦ by
        obtain rfl := hsame hj (by omega) hlt
        omega
      congr 1
      omega

/-- From every offset of a copy on there are pieces, one for each inner entry that shares a byte
with the rest of the copy, and they tile its place. -/
theorem exists_tracePieces (hm : m.Tiled) (hcopy : e.isCopy = true)
    (hinside : e.origin.stop ≤ m.text.size) (hlo : e.origin.start ≤ n) (hhi : n ≤ e.origin.stop) :
    ∃ es, m.tracePieces e n = .ok es ∧
      Tiles (e.target.start + (n - e.origin.start)) es e.target.stop ∧
      ∀ f, f ∈ es ↔ ∃ i ∈ m.entries,
        max i.target.start n < min i.target.stop e.origin.stop ∧
          f = piece i e (max i.target.start n) (min i.target.stop e.origin.stop) := by
  have hstop : e.target.stop = e.target.start + (e.origin.stop - e.origin.start) := by
    simp only [Entry.isCopy, beq_iff_eq] at hcopy
    simp only [Span.stop]
    omega
  -- the induction is on what is left of the copy, of which each piece takes at least one byte
  induction hleft : e.origin.stop - n using Nat.strongRecOn generalizing n with
  | _ left ih =>
    rw [tracePieces]
    split
    · rename_i hlt
      obtain ⟨i, hat, hi, hstart, hend⟩ := hm.exists_entryAt? (hlt.trans_le hinside)
      have hnext : n < min i.target.stop e.origin.stop := lt_min hend hlt
      obtain ⟨es, hes, htiles, hmem⟩ := ih _ (by omega) (n := min i.target.stop e.origin.stop)
        (by omega) (by omega) rfl
      have hjoint : (piece i e n (min i.target.stop e.origin.stop)).target.stop =
          e.target.start + (min i.target.stop e.origin.stop - e.origin.start) := by
        show e.target.start + (n - e.origin.start) + (min i.target.stop e.origin.stop - n) = _
        omega
      rw [hat]
      dsimp only
      rw [if_pos hnext, hes]
      refine ⟨_, rfl, ⟨rfl, hjoint ▸ htiles⟩, fun f ↦ ?_⟩
      rw [List.mem_cons, hmem f]
      exact (exists_piece_iff hm hi hstart hend hlt).symm
    · rename_i hge
      obtain rfl : n = e.origin.stop := by omega
      refine ⟨[], rfl, hstop.symm, fun f ↦ ?_⟩
      simp only [List.not_mem_nil, false_iff, not_exists, not_and]
      intro j _ hj
      omega

/-! ### The ends of a replacement -/

/-- Where a span starts is told by the entry that holds its first byte. -/
theorem exists_traceStart (hm : m.Tiled) (hn : n < m.text.size) :
    ∃ i ∈ m.entries, i.target.start ≤ n ∧ n < i.target.stop ∧
      m.traceStart n = .ok (i.placeAt n i.origin.start) := by
  obtain ⟨i, hat, hi, hstart, hstop⟩ := hm.exists_entryAt? hn
  exact ⟨i, hi, hstart, hstop, by rw [traceStart, hat]⟩

/-- Where a span ends is told by the entry that holds its last byte. -/
theorem exists_traceEnd (hm : m.Tiled) (hpos : 0 < n) (hn : n ≤ m.text.size) :
    ∃ i ∈ m.entries, i.target.start < n ∧ n ≤ i.target.stop ∧
      m.traceEnd n = .ok (i.placeAt n i.origin.stop) := by
  obtain ⟨i, hbefore, hi, hstart, hstop⟩ := hm.exists_entryBefore? hpos hn
  have hne : m.text.isEmpty = false := by
    cases htext : m.text with
    | nil =>
      rw [htext] at hn
      exact absurd (hpos.trans_le hn) (lt_irrefl 0)
    | cons c t => rfl
  refine ⟨i, hi, hstart, hstop, ?_⟩
  rw [traceEnd, hne, hbefore]
  rfl

end SourceMap

end ShaderLink
