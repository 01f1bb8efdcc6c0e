import Mathlib.Computability.Language
import ShaderLink.Text.Basic

/-!
# Longest prefixes

A rule that reads a text from the left lets each of its parts go on as long as it can. If the parts
are languages, this finds the longest prefix of the text that is made of one word of each, as long
as no part goes on with a character that the next one starts with (`Text.Longest.mul`). It cannot
pay to stop a part early then, because no word of the next one stands where it stops.

So two things matter about a language: with which characters its words start (`Text.StartsIn`), and
with which none of its words goes on to a longer one (`Text.StopsAt`).
-/

namespace ShaderLink

namespace Text

open scoped Computability

variable {L M : Language Char} {p q : Char → Bool} {s s' m t u rest : Text} {c : Char}

/-! ### Languages -/

/-- The texts of one character of a class. -/
def oneOf (p : Char → Bool) : Language Char :=
  {s | ∃ c, p c = true ∧ s = [c]}

/-- The texts of one of some characters. -/
def anyOf (cs : List Char) : Language Char :=
  oneOf fun c ↦ decide (c ∈ cs)

/-- The nonempty texts of characters of a class. -/
def someOf (p : Char → Bool) : Language Char :=
  oneOf p * (oneOf p)∗

/-- The words of a language, and the empty text. -/
def optional (L : Language Char) : Language Char :=
  1 + L

theorem singleton_mem_oneOf (h : p c = true) : [c] ∈ oneOf p :=
  ⟨c, h, rfl⟩

theorem nil_notMem_oneOf : [] ∉ oneOf p :=
  fun ⟨_, _, h⟩ ↦ nomatch h

/-- Any number of characters of a class are the texts of such characters. -/
theorem mem_kstar_oneOf : s ∈ (oneOf p)∗ ↔ ∀ c ∈ s, p c = true := by
  rw [Language.mem_kstar]
  constructor
  · rintro ⟨words, rfl, hwords⟩ c hc
    obtain ⟨word, hword, hmem⟩ := List.mem_flatten.1 hc
    obtain ⟨d, hd, rfl⟩ := hwords word hword
    rwa [List.mem_singleton.1 hmem]
  · intro hs
    refine ⟨s.map fun c ↦ [c], by rw [← List.flatMap_def, List.flatMap_singleton'], ?_⟩
    rintro word hword
    obtain ⟨c, hc, rfl⟩ := List.mem_map.1 hword
    exact singleton_mem_oneOf (hs c hc)

theorem mem_someOf : s ∈ someOf p ↔ s ≠ [] ∧ ∀ c ∈ s, p c = true := by
  rw [someOf, Language.mem_mul]
  constructor
  · rintro ⟨first, ⟨c, hc, rfl⟩, more, hmore, rfl⟩
    exact ⟨List.cons_ne_nil c more, List.forall_mem_cons.2 ⟨hc, mem_kstar_oneOf.1 hmore⟩⟩
  · rintro ⟨hne, hs⟩
    obtain ⟨c, more, rfl⟩ := List.exists_cons_of_ne_nil hne
    obtain ⟨hc, hmore⟩ := List.forall_mem_cons.1 hs
    exact ⟨[c], singleton_mem_oneOf hc, more, mem_kstar_oneOf.2 hmore, rfl⟩

/-- A character is one of some or of some others. -/
theorem anyOf_append (cs ds : List Char) : anyOf (cs ++ ds) = anyOf cs + anyOf ds := by
  ext s
  constructor
  · rintro ⟨c, hc, rfl⟩
    rcases List.mem_append.1 (of_decide_eq_true hc) with hc | hc
    · exact .inl (singleton_mem_oneOf (decide_eq_true hc))
    · exact .inr (singleton_mem_oneOf (decide_eq_true hc))
  · rintro (⟨c, hc, rfl⟩ | ⟨c, hc, rfl⟩)
    · exact singleton_mem_oneOf (decide_eq_true (List.mem_append_left ds (of_decide_eq_true hc)))
    · exact singleton_mem_oneOf (decide_eq_true (List.mem_append_right cs (of_decide_eq_true hc)))

theorem nil_notMem_someOf : [] ∉ someOf p :=
  fun h ↦ (mem_someOf.1 h).1 rfl

/-- A word of two parts is not empty if its first part is not. -/
theorem nil_notMem_mul (h : [] ∉ L) : [] ∉ L * M := by
  intro hnil
  obtain ⟨s, hs, m, -, heq⟩ := Language.mem_mul.1 hnil
  exact h ((List.append_eq_nil_iff.1 heq).1 ▸ hs)

theorem nil_notMem_anyOf_mul {cs : List Char} : [] ∉ anyOf cs * L :=
  nil_notMem_mul nil_notMem_oneOf

theorem nil_notMem_add (hL : [] ∉ L) (hM : [] ∉ M) : [] ∉ L + M :=
  fun h ↦ h.elim hL hM

/-! ### The first characters of words -/

/-- The words of the language start with characters of the class. -/
def StartsIn (L : Language Char) (p : Char → Bool) : Prop :=
  ∀ c u, c :: u ∈ L → p c = true

namespace StartsIn

theorem any (L : Language Char) : StartsIn L fun _ ↦ true :=
  fun _ _ _ ↦ rfl

theorem oneOf (h : ∀ c, p c = true → q c = true) : StartsIn (oneOf p) q := by
  rintro c u ⟨d, hd, heq⟩
  rw [(List.cons.inj heq).1]
  exact h d hd

theorem anyOf {cs : List Char} (h : cs.all p = true) : StartsIn (anyOf cs) p :=
  .oneOf fun c hc ↦ List.all_eq_true.1 h c (of_decide_eq_true hc)

/-- Nonempty runs start with a character of their class. -/
theorem someOf (h : ∀ c, p c = true → q c = true) : StartsIn (someOf p) q :=
  fun c _ hmem ↦ h c ((mem_someOf.1 hmem).2 c List.mem_cons_self)

/-- If both parts start in the class, words of two parts do, also where the first part is empty. -/
theorem mul (hL : StartsIn L p) (hM : StartsIn M p) : StartsIn (L * M) p := by
  intro c u hmem
  obtain ⟨s, hs, m, hm, heq⟩ := Language.mem_mul.1 hmem
  cases s with
  | nil => exact hM c u (heq ▸ hm)
  | cons d s => exact (List.cons.inj heq).1 ▸ hL d s hs

/-- What follows words that are not empty does not matter. -/
theorem mul_left (hL : StartsIn L p) (hnil : [] ∉ L) : StartsIn (L * M) p := by
  intro c u hmem
  obtain ⟨s, hs, m, -, heq⟩ := Language.mem_mul.1 hmem
  cases s with
  | nil => exact absurd hs hnil
  | cons d s => exact (List.cons.inj heq).1 ▸ hL d s hs

theorem anyOf_mul {cs : List Char} (h : cs.all p = true) : StartsIn (Text.anyOf cs * L) p :=
  (anyOf h).mul_left nil_notMem_oneOf

/-- A choice starts in the class if both sides do. -/
theorem add (hL : StartsIn L p) (hM : StartsIn M p) : StartsIn (L + M) p :=
  fun c u hmem ↦ hmem.elim (hL c u) (hM c u)

theorem optional (h : StartsIn L p) : StartsIn (optional L) p :=
  fun c u hmem ↦ hmem.elim nofun (h c u)

end StartsIn

/-! ### The characters at which words stop -/

/-- No word of the language goes on to a longer one with a character of the class. -/
def StopsAt (L : Language Char) (p : Char → Bool) : Prop :=
  ∀ s c u, s ∈ L → s ++ c :: u ∈ L → p c = false

namespace StopsAt

/-- All words have the same length. -/
theorem oneOf : StopsAt (oneOf p) q := by
  rintro s c u ⟨d, -, rfl⟩ ⟨d', -, heq⟩
  cases (List.cons.inj heq).2

/-- A run goes on with characters of its class only. -/
theorem kstar (h : ∀ c, p c = true → q c = false) : StopsAt (Text.oneOf p)∗ q :=
  fun _ c _ _ hmem ↦
    h c (mem_kstar_oneOf.1 hmem c (List.mem_append_right _ List.mem_cons_self))

theorem someOf (h : ∀ c, p c = true → q c = false) : StopsAt (someOf p) q :=
  fun _ c _ _ hmem ↦
    h c ((mem_someOf.1 hmem).2 c (List.mem_append_right _ List.mem_cons_self))

/-- The first parts of two words are the same, unless one of them goes on where the second part of
the other starts. -/
theorem mul (hstop : StopsAt L p) (hstart : StartsIn M p) (hL : StopsAt L q) (hM : StopsAt M q) :
    StopsAt (L * M) q := by
  intro w c v hw hmore
  obtain ⟨s, hs, m, hm, rfl⟩ := Language.mem_mul.1 hw
  obtain ⟨s', hs', m', hm', heq⟩ := Language.mem_mul.1 hmore
  rw [List.append_assoc, List.append_eq_append_iff] at heq
  rcases heq with ⟨extra, rfl, rfl⟩ | ⟨extra, rfl, heq⟩
  · cases extra with
    | nil => exact hM m c v hm hm'
    | cons d extra =>
      have hd := hstop s' d extra hs' hs
      rw [hstart d _ hm'] at hd
      cases hd
  · cases extra with
    | nil => exact hM m c v hm (heq ▸ hm')
    | cons d extra =>
      have hd := hstop s d extra hs hs'
      cases m with
      | nil => exact (List.cons.inj heq).1 ▸ hL s d extra hs hs'
      | cons e m =>
        rw [← (List.cons.inj heq).1, hstart e m hm] at hd
        cases hd

/-- The empty text goes on with what the words of the language start with. -/
theorem optional (h : StopsAt L q) (hstart : StartsIn L p) (hpq : ∀ c, p c = true → q c = false) :
    StopsAt (optional L) q := by
  rintro s c u hs (hmore | hmore)
  · cases (List.append_eq_nil_iff.1 hmore).2
  · rcases hs with rfl | hs
    · exact hpq c (hstart c u hmore)
    · exact h s c u hs hmore

end StopsAt

/-! ### Longest prefixes -/

/-- The text starts with no word of the language. -/
def Lacks (L : Language Char) (t : Text) : Prop :=
  ∀ s ∈ L, ¬s <+: t

/-- The text is the longest word of the language that it starts with, and a rest. -/
structure Longest (L : Language Char) (t s rest : Text) : Prop where
  eq : t = s ++ rest
  mem : s ∈ L
  length_le : ∀ s' ∈ L, s' <+: t → s'.length ≤ s.length

namespace Lacks

/-- The first character tells that no word stands here. -/
theorem of_head? (hstart : StartsIn L p) (hnil : [] ∉ L) (ht : t.head?.any p = false) :
    Lacks L t := by
  rintro s hs ⟨rest, rfl⟩
  cases s with
  | nil => exact hnil hs
  | cons c s =>
    have hc : p c = false := ht
    rw [hstart c s hs] at hc
    cases hc

theorem anyOf {cs : List Char} (h : t.head?.any (fun c ↦ decide (c ∈ cs)) = false) :
    Lacks (anyOf cs) t :=
  of_head? (.oneOf fun _ ↦ id) nil_notMem_oneOf h

theorem add (hL : Lacks L t) (hM : Lacks M t) : Lacks (L + M) t :=
  fun s hs ↦ hs.elim (hL s) (hM s)

/-- Where the first part is missing, the whole is. -/
theorem mul_left (h : Lacks L t) : Lacks (L * M) t := by
  rintro w hw ⟨rest, rfl⟩
  obtain ⟨s, hs, m, -, rfl⟩ := Language.mem_mul.1 hw
  exact h s hs ⟨m ++ rest, (List.append_assoc s m rest).symm⟩

/-- Where no word is found, it is left out. -/
theorem longest_optional (h : Lacks L t) : Longest (optional L) t [] t where
  eq := rfl
  mem := .inl rfl
  length_le s hs hpre := by
    rcases hs with rfl | hs
    · exact Nat.le_refl _
    · exact absurd hpre (h s hs)

end Lacks

namespace Longest

/-- The longest word stands at the start of the text. -/
theorem isPrefix (h : Longest L t s rest) : s <+: t :=
  ⟨rest, h.eq.symm⟩

theorem not_lacks (h : Longest L t s rest) : ¬Lacks L t :=
  fun hlacks ↦ hlacks s h.mem h.isPrefix

/-- There is only one longest word. -/
theorem unique {s' rest' : Text} (h : Longest L t s rest) (h' : Longest L t s' rest') :
    s = s' ∧ rest = rest' := by
  have hle := h.length_le s' h'.mem h'.isPrefix
  have hge := h'.length_le s h.mem h.isPrefix
  exact List.append_inj (h.eq.symm.trans h'.eq) (by omega)

/-- Of one character there is no longer word. -/
theorem oneOf (h : p c = true) (t : Text) : Longest (oneOf p) (c :: t) [c] t where
  eq := rfl
  mem := singleton_mem_oneOf h
  length_le := by
    rintro s ⟨d, -, rfl⟩ -
    exact Nat.le_refl _

theorem anyOf {cs : List Char} (h : c ∈ cs) (t : Text) : Longest (anyOf cs) (c :: t) [c] t :=
  oneOf (decide_eq_true h) t

/-- Where a word is found, it is longer than none. -/
theorem optional (h : Longest L t s rest) : Longest (optional L) t s rest where
  eq := h.eq
  mem := .inr h.mem
  length_le s' hs' hpre := by
    rcases hs' with rfl | hs'
    · exact Nat.zero_le _
    · exact h.length_le s' hs' hpre

/-- Where one side of a choice is missing, the other side decides. -/
theorem add_left (h : Longest L t s rest) (hM : Lacks M t) : Longest (L + M) t s rest where
  eq := h.eq
  mem := .inl h.mem
  length_le s' hs' hpre := hs'.elim (fun hs' ↦ h.length_le s' hs' hpre)
    fun hs' ↦ absurd hpre (hM s' hs')

theorem add_right (h : Longest M t s rest) (hL : Lacks L t) : Longest (L + M) t s rest := by
  rw [add_comm]
  exact h.add_left hL

/-- What is missing does not matter. -/
theorem optional_add_right (h : Longest (Text.optional M) t s rest) (hL : Lacks L t) :
    Longest (Text.optional (L + M)) t s rest := by
  rw [Text.optional, add_left_comm]
  exact h.add_right hL

theorem optional_add_left (h : Longest (Text.optional L) t s rest) (hM : Lacks M t) :
    Longest (Text.optional (L + M)) t s rest := by
  rw [add_comm]
  exact h.optional_add_right hM

/-- A text that starts with a word of one language starts with none of another whose words start
with other characters. -/
theorem lacks_of_starts (h : Longest L t s rest) (hL : StartsIn L p) (hM : StartsIn M q)
    (hpq : ∀ c, p c = true → q c = false) (hnil : [] ∉ L) (hnil' : [] ∉ M) : Lacks M t := by
  refine .of_head? hM hnil' ?_
  have hs := h.mem
  rw [h.eq]
  cases s with
  | nil => exact absurd hs hnil
  | cons c s => exact hpq c (hL c s hs)

/-- A word that is followed by one of the next language is the longest, unless the next one is
empty. -/
theorem eq_or_nil (h : Longest L t s u) (hstop : StopsAt L p) (hstart : StartsIn M p)
    (hs' : s' ∈ L) (hm : m ∈ M) (ht : t = s' ++ (m ++ rest)) :
    (s' = s ∧ m ++ rest = u) ∨ (m = [] ∧ s'.length ≤ s.length) := by
  have hle := h.length_le s' hs' ⟨m ++ rest, ht.symm⟩
  have heq : s' ++ (m ++ rest) = s ++ u := ht.symm.trans h.eq
  obtain ⟨extra, rfl⟩ : s' <+: s :=
    List.prefix_of_prefix_length_le ⟨_, heq⟩ (List.prefix_append s u) hle
  rw [List.append_assoc, List.append_cancel_left_eq] at heq
  cases extra with
  | nil => exact .inl ⟨(List.append_nil s').symm, heq⟩
  | cons c extra =>
    cases m with
    | nil => exact .inr ⟨rfl, hle⟩
    | cons d m =>
      have hc := hstop s' c extra hs' h.mem
      rw [← (List.cons.inj heq).1, hstart d m hm] at hc
      cases hc

/-- Greed is right for two parts, if the first does not go on with what the second starts with. -/
theorem mul (h : Longest L t s u) (hM : Longest M u m rest) (hstop : StopsAt L p)
    (hstart : StartsIn M p) : Longest (L * M) t (s ++ m) rest where
  eq := by rw [h.eq, hM.eq, List.append_assoc]
  mem := Language.append_mem_mul h.mem hM.mem
  length_le w hw hpre := by
    obtain ⟨s', hs', m', hm', rfl⟩ := Language.mem_mul.1 hw
    obtain ⟨rest', ht⟩ := hpre
    rw [List.append_assoc] at ht
    rw [List.length_append, List.length_append]
    rcases h.eq_or_nil hstop hstart hs' hm' ht.symm with ⟨rfl, hu⟩ | ⟨rfl, hle⟩
    · exact Nat.add_le_add_left (hM.length_le m' hm' ⟨rest', hu⟩) _
    · exact Nat.le_trans hle (Nat.le_add_right _ _)

/-- If the second part is missing behind the longest first one, it is missing altogether. -/
theorem lacks_mul (h : Longest L t s u) (hM : Lacks M u) (hstop : StopsAt L p)
    (hstart : StartsIn M p) : Lacks (L * M) t := by
  rintro w hw ⟨rest', ht⟩
  obtain ⟨s', hs', m', hm', rfl⟩ := Language.mem_mul.1 hw
  rw [List.append_assoc] at ht
  rcases h.eq_or_nil hstop hstart hs' hm' ht.symm with ⟨-, hu⟩ | ⟨rfl, -⟩
  · exact hM m' hm' ⟨rest', hu⟩
  · exact hM [] hm' List.nil_prefix

end Longest

end Text

end ShaderLink
