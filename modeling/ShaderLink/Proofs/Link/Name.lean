import Mathlib.Data.Finset.Card
import Mathlib.Data.Finset.Dedup
import Mathlib.Order.Nat
import ShaderLink.Link.Name

/-!
# Fresh names are fresh

A fresh name is none of those taken, and it is the first such name among the base and the numbered
names. Crossing out a name that was found taken changes nothing for the names tried later, because
different numbers make different names. For the same reason a free number is found before more of
them have been tried than there are names taken (`lt_card_of_taken`).

Names for several bases are chosen one after another, each time with those chosen before added to
the names taken (`freshNames_named`).
-/

namespace ShaderLink

/-- Different numbers make different names. -/
theorem numbered_inj {base : String} {m n : Nat}
    (h : base ++ toString m = base ++ toString n) : m = n := by
  have hlist := congrArg String.toList h
  rw [String.toList_append, String.toList_append] at hlist
  have hdigits := List.append_cancel_left hlist
  rw [Nat.toString_eq_repr, Nat.toString_eq_repr, Nat.toList_repr, Nat.toList_repr] at hdigits
  simpa using congrArg (Nat.ofDigitChars 10 · 0) hdigits

/-- The search finds the first number, from an index on, that makes a name not taken. -/
theorem exists_numberedName (base : String) (taken : List String) (index : Nat) :
    ∃ n : Nat, numberedName base taken index = base ++ toString n ∧ index ≤ n ∧
      base ++ toString n ∉ taken ∧ ∀ k, index ≤ k → k < n → base ++ toString k ∈ taken := by
  fun_induction numberedName base taken index with
  | case1 taken index hmem ih =>
    obtain ⟨n, hname, hle, hfresh, hbelow⟩ := ih
    have hother {k : Nat} (hk : index < k) : base ++ toString k ≠ base ++ toString index :=
      fun heq ↦ Nat.ne_of_gt hk (numbered_inj heq)
    refine ⟨n, hname, by omega, ?_, fun k hk hkn ↦ ?_⟩
    · exact fun hn ↦ hfresh ((List.mem_erase_of_ne (hother (by omega))).2 hn)
    · rcases Nat.eq_or_lt_of_le hk with rfl | hlt
      · exact hmem
      · exact List.mem_of_mem_erase (hbelow k hlt hkn)
  | case2 taken index hmem => exact ⟨index, rfl, le_rfl, hmem, fun k hk hkn ↦ by omega⟩

/-- A fresh name is the base if that is free, and else the first numbered name that is. -/
theorem freshName_cases (base : String) (taken : List String) :
    (freshName base taken = base ∧ base ∉ taken) ∨
      (base ∈ taken ∧ ∃ n : Nat, freshName base taken = base ++ toString n ∧
        base ++ toString n ∉ taken ∧ ∀ k < n, base ++ toString k ∈ taken) := by
  rw [freshName]
  split
  · rename_i hmem
    obtain ⟨n, hname, -, hfresh, hbelow⟩ := exists_numberedName base taken 0
    exact .inr ⟨hmem, n, hname, hfresh, fun k hk ↦ hbelow k (Nat.zero_le k) hk⟩
  · rename_i hmem
    exact .inl ⟨rfl, hmem⟩

theorem freshName_not_mem (base : String) (taken : List String) :
    freshName base taken ∉ taken := by
  rcases freshName_cases base taken with ⟨hname, hfresh⟩ | ⟨-, n, hname, hfresh, -⟩
  · rwa [hname]
  · rwa [hname]

/-- A fresh name is fresh when more names are taken, if it is not among them. -/
theorem freshName_eq_of_subset {base : String} {taken taken' : List String}
    (hsubset : taken ⊆ taken') (hfree : freshName base taken ∉ taken') :
    freshName base taken' = freshName base taken := by
  rcases freshName_cases base taken with ⟨hname, -⟩ | ⟨hbase, n, hname, -, hbelow⟩
  · rw [hname] at hfree ⊢
    rw [freshName, if_neg hfree]
  · rw [hname] at hfree
    rcases freshName_cases base taken' with ⟨-, hbase'⟩ | ⟨-, n', hname', hfree', hbelow'⟩
    · exact absurd (hsubset hbase) hbase'
    · -- each number below the one that is found was taken
      rcases Nat.lt_trichotomy n n' with hlt | rfl | hlt
      · exact absurd (hbelow' n hlt) hfree
      · rw [hname, hname']
      · exact absurd (hsubset (hbelow n' hlt)) hfree'

/-- Only as many numbers can be taken as there are names taken besides the base. -/
theorem lt_card_of_taken {base : String} {taken : Finset String} {n : Nat} (hbase : base ∈ taken)
    (hbelow : ∀ k < n, base ++ toString k ∈ taken) : n < taken.card := by
  have hinj : Function.Injective fun k : Nat ↦ base ++ toString k := fun _ _ ↦ numbered_inj
  have hsubset : insert base ((Finset.range n).image fun k ↦ base ++ toString k) ⊆ taken := by
    refine Finset.insert_subset hbase fun name hname ↦ ?_
    obtain ⟨k, hk, rfl⟩ := Finset.mem_image.1 hname
    exact hbelow k (Finset.mem_range.1 hk)
  have hnot : base ∉ (Finset.range n).image fun k ↦ base ++ toString k := by
    intro hname
    obtain ⟨k, -, hk⟩ := Finset.mem_image.1 hname
    have hlength := congrArg String.length hk
    simp at hlength
  have hcard := Finset.card_le_card hsubset
  rwa [Finset.card_insert_of_notMem hnot, Finset.card_image_of_injective _ hinj,
    Finset.card_range] at hcard

/-- The name for a base while some names are taken: the base if it is free, and else the base with
the smallest number behind it that makes a free name. That number is below the number of names
taken. -/
inductive Named (taken : Finset String) (base : String) : String → Prop
  | free (hfree : base ∉ taken) : Named taken base base
  | numbered (n : Nat) (hbase : base ∈ taken) (hfree : base ++ toString n ∉ taken)
      (hleast : ∀ k < n, base ++ toString k ∈ taken) (hlt : n < taken.card) :
      Named taken base (base ++ toString n)

theorem named_freshName (base : String) (taken : List String) :
    Named taken.toFinset base (freshName base taken) := by
  rcases freshName_cases base taken with ⟨hname, hfree⟩ | ⟨hbase, n, hname, hfree, hbelow⟩
  · rw [hname]
    exact .free fun h ↦ hfree (List.mem_toFinset.1 h)
  · have hbase := List.mem_toFinset.2 hbase
    have hleast (k : Nat) (hk : k < n) := List.mem_toFinset.2 (hbelow k hk)
    rw [hname]
    exact .numbered n hbase (fun h ↦ hfree (List.mem_toFinset.1 h)) hleast
      (lt_card_of_taken hbase hleast)

/-! ### Names for several bases -/

section

variable {taken bases : List String} {name : String}

theorem length_freshNames (taken bases : List String) :
    (freshNames taken bases).1.length = bases.length := by
  induction bases generalizing taken with
  | nil => rfl
  | cons base bases ih => exact congrArg (· + 1) (ih (freshName base taken :: taken))

/-- The names taken in the end are those taken before and those chosen. -/
theorem toFinset_freshNames (taken bases : List String) :
    (freshNames taken bases).2.toFinset = taken.toFinset ∪ (freshNames taken bases).1.toFinset := by
  induction bases generalizing taken with
  | nil => exact (Finset.union_empty _).symm
  | cons base bases ih =>
    rw [freshNames]
    dsimp only
    rw [ih, List.toFinset_cons, List.toFinset_cons, Finset.insert_union, Finset.union_insert]

theorem not_mem_of_mem_freshNames (h : name ∈ (freshNames taken bases).1) : name ∉ taken := by
  induction bases generalizing taken with
  | nil => cases h
  | cons base bases ih =>
    rcases List.mem_cons.1 h with rfl | h
    · exact freshName_not_mem base taken
    · exact fun htaken ↦ ih h (List.mem_cons_of_mem _ htaken)

theorem nodup_freshNames (taken bases : List String) : (freshNames taken bases).1.Nodup := by
  induction bases generalizing taken with
  | nil => exact .nil
  | cons base bases ih =>
    exact List.nodup_cons.2 ⟨fun h ↦ not_mem_of_mem_freshNames h List.mem_cons_self, ih _⟩

/-- Each name is chosen while the names in front of it are taken as well. -/
theorem named_of_getElem? {base : String} {i : Nat} (hbase : bases[i]? = some base)
    (hname : (freshNames taken bases).1[i]? = some name) :
    Named (taken.toFinset ∪ ((freshNames taken bases).1.take i).toFinset) base name := by
  induction bases generalizing taken i with
  | nil => cases hbase
  | cons first bases ih =>
    cases i with
    | zero =>
      obtain rfl := Option.some.inj hbase
      obtain rfl := Option.some.inj hname
      have hnamed := named_freshName first taken
      rwa [List.take_zero, List.toFinset_nil, Finset.union_empty]
    | succ i =>
      have hnamed := @ih (freshName first taken :: taken) _ hbase hname
      rw [List.toFinset_cons, Finset.insert_union] at hnamed
      rw [freshNames, List.take_succ_cons, List.toFinset_cons, Finset.union_insert]
      exact hnamed

end

/-- Bases that are given names one after another get different names that were not taken before,
each of them the first that was free at the time, and only these names are taken in addition. -/
theorem freshNames_named (taken bases : List String) :
    let (names, final) := freshNames taken bases
    names.length = bases.length ∧ names.Nodup ∧ (∀ name ∈ names, name ∉ taken) ∧
      (∀ i base name, bases[i]? = some base → names[i]? = some name →
        Named (taken.toFinset ∪ (names.take i).toFinset) base name) ∧
      final.toFinset = taken.toFinset ∪ names.toFinset :=
  ⟨length_freshNames taken bases, nodup_freshNames taken bases,
    fun _ ↦ not_mem_of_mem_freshNames, fun _ _ _ ↦ named_of_getElem?,
    toFinset_freshNames taken bases⟩

-- a numbered name of one base can be that of another
example : (freshNames ["a", "a1"] ["a1", "a", "a"]).1 = ["a10", "a0", "a2"] := by cbv

end ShaderLink
