import Mathlib.Data.List.Nodup
import ShaderLink.OrderedMap

/-!
# Ordered maps as lists of pairs

No key stands twice, so a pair is in the list exactly if look-up finds it. With this, what is said
of look-up can be used where a map is gone through as a list.
-/

namespace ShaderLink

namespace OrderedMap

variable {κ α : Type} [DecidableEq κ] {m : OrderedMap κ α} {k l : κ} {a b : α}

/-- No key stands twice, so look-up finds whatever the key is paired with. -/
theorem get?_eq_some_iff : m.get? k = some a ↔ (k, a) ∈ m.toList := by
  rw [get?, Option.map_eq_some_iff]
  constructor
  · rintro ⟨⟨l, b⟩, hfind, rfl⟩
    have hl : l = k := by simpa using List.find?_some hfind
    exact hl ▸ List.mem_of_find?_eq_some hfind
  · intro hmem
    obtain ⟨e, hfind⟩ : ∃ e, m.toList.find? (fun e ↦ decide (e.1 = k)) = some e := by
      rw [← Option.isSome_iff_exists, List.find?_isSome]
      exact ⟨(k, a), hmem, by simp⟩
    have he : e.1 = k := by simpa using List.find?_some hfind
    have heq := List.inj_on_of_nodup_map m.nodup_keys (List.mem_of_find?_eq_some hfind) hmem he
    exact ⟨e, hfind, by rw [heq]⟩

theorem mem_keys_of_get? (h : m.get? k = some a) : k ∈ m.keys :=
  mem_keys_iff.2 (by rw [h]; rfl)

theorem get?_eq_none_iff : m.get? k = none ↔ k ∉ m.keys := by
  rw [mem_keys_iff, Bool.not_eq_true, Option.isSome_eq_false_iff, Option.isNone_iff_eq_none]

/-- Look-up in a map made from a list finds only what the list pairs with the key, and something if
there is any. -/
theorem get?_ofList (es : List (κ × α)) (k : κ) :
    (ofList es).get? k = ((es.filter fun e ↦ e.1 = k).getLast?).map Prod.snd := by
  -- pairs that come later win over those in front and over what the map had
  have hfoldl (m : OrderedMap κ α) : (es.foldl (fun m e ↦ m.insert e.1 e.2) m).get? k =
      (((es.filter fun e ↦ e.1 = k).getLast?).map Prod.snd).or (m.get? k) := by
    induction es generalizing m with
    | nil => rfl
    | cons e es ih =>
      rw [List.foldl_cons, ih, get?_insert]
      by_cases he : e.1 = k
      · rw [List.filter_cons_of_pos (by simpa using he), if_pos he.symm, List.getLast?_cons]
        cases (es.filter fun e ↦ e.1 = k).getLast? <;> rfl
      · rw [List.filter_cons_of_neg (by simpa using he), if_neg fun h ↦ he h.symm]
  rw [ofList, hfoldl, get?_empty, Option.or_none]

/-- What look-up finds in a map made from a list was paired with the key. -/
theorem mem_of_get?_ofList {es : List (κ × α)} (h : (ofList es).get? k = some a) : (k, a) ∈ es := by
  rw [get?_ofList] at h
  obtain ⟨e, he, rfl⟩ := Option.map_eq_some_iff.1 h
  obtain ⟨hmem, hk⟩ := List.mem_filter.1 (List.mem_of_getLast? he)
  rwa [← of_decide_eq_true hk]

/-- A key that is only paired with one value has this value. -/
theorem get?_ofList_of_unique {es : List (κ × α)} (h : (k, a) ∈ es)
    (hunique : ∀ b, (k, b) ∈ es → b = a) : (ofList es).get? k = some a := by
  cases hget : (ofList es).get? k with
  | some b => rw [hunique b (mem_of_get?_ofList hget)]
  | none =>
    rw [get?_ofList, Option.map_eq_none_iff, List.getLast?_eq_none_iff] at hget
    exact absurd (List.mem_filter.2 ⟨h, by simp⟩) (hget ▸ List.not_mem_nil)

/-- A key that no pair has is not in the map. -/
theorem get?_ofList_eq_none {es : List (κ × α)} (h : k ∉ es.map Prod.fst) :
    (ofList es).get? k = none := by
  cases hget : (ofList es).get? k with
  | some a => exact absurd (List.mem_map_of_mem (mem_of_get?_ofList hget)) h
  | none => rfl

/-- A key that some pair has is in the map. -/
theorem exists_get?_ofList {es : List (κ × α)} (h : k ∈ es.map Prod.fst) :
    ∃ a, (ofList es).get? k = some a := by
  obtain ⟨e, he, rfl⟩ := List.mem_map.1 h
  have hne : (es.filter fun e' ↦ e'.1 = e.1) ≠ [] :=
    List.ne_nil_of_mem (List.mem_filter.2 ⟨he, decide_eq_true rfl⟩)
  exact ⟨_, by rw [get?_ofList, List.getLast?_eq_some_getLast hne, Option.map_some]⟩

/-- A new key goes to the end. -/
theorem toList_insert_of_not_mem (h : k ∉ m.keys) (a : α) :
    (m.insert k a).toList = m.toList ++ [(k, a)] := by
  have hinto (es : List (κ × α)) (h : k ∉ es.map Prod.fst) :
      insertInto k a es = es ++ [(k, a)] := by
    induction es with
    | nil => rfl
    | cons e es ih =>
      obtain ⟨hne, hes⟩ := not_or.1 (mt List.mem_cons.2 h)
      rw [insertInto, if_neg (Ne.symm hne), ih hes, List.cons_append]
  exact hinto m.toList h

/-- A map made from a list in which no key stands twice is this list. -/
theorem toList_ofList {es : List (κ × α)} (h : (es.map Prod.fst).Nodup) :
    (ofList es).toList = es := by
  have hfoldl (m : OrderedMap κ α) (hnodup : (m.keys ++ es.map Prod.fst).Nodup) :
      (es.foldl (fun m e ↦ m.insert e.1 e.2) m).toList = m.toList ++ es := by
    clear h
    induction es generalizing m with
    | nil => exact (List.append_nil _).symm
    | cons e es ih =>
      have hnew : e.1 ∉ m.keys := fun hmem ↦
        (List.nodup_append.1 hnodup).2.2 _ hmem _ List.mem_cons_self rfl
      have hinsert := toList_insert_of_not_mem hnew e.2
      rw [List.foldl_cons, ih, hinsert, List.append_assoc]
      · rfl
      · rw [keys, hinsert, List.map_append, List.append_assoc]
        exact hnodup
  exact hfoldl empty h

omit [DecidableEq κ] in
/-- Places of pairs tell their keys apart. -/
theorem place_inj {place place' : Nat} (h : m.toList[place]? = some (k, a))
    (h' : m.toList[place']? = some (k, b)) : place = place' := by
  have hkey : m.keys[place]? = some k := by
    rw [keys, List.getElem?_map, h]
    rfl
  have hkey' : m.keys[place']? = some k := by
    rw [keys, List.getElem?_map, h']
    rfl
  have hlt := (List.getElem?_eq_some_iff.1 hkey).1
  exact (List.getElem?_inj hlt m.nodup_keys).1 (hkey.trans hkey'.symm)

/-- What is at a place of a modified map was there before, only the value of the key has changed. -/
theorem getElem?_modify {place place' : Nat} {f : α → α} (h : m.toList[place]? = some (k, a))
    (h' : (m.modify k f).toList[place']? = some (l, b)) :
    (place' = place ∧ l = k ∧ b = f a) ∨ (place' ≠ place ∧ m.toList[place']? = some (l, b)) := by
  simp only [modify, List.getElem?_map, Option.map_eq_some_iff] at h'
  obtain ⟨⟨l', b'⟩, hget, heq⟩ := h'
  obtain ⟨rfl, rfl⟩ := Prod.mk.inj heq
  dsimp only at hget ⊢
  split
  · rename_i hkey
    subst hkey
    obtain rfl := place_inj hget h
    obtain ⟨-, rfl⟩ := Prod.mk.inj (Option.some.inj (hget.symm.trans h))
    exact .inl ⟨rfl, rfl, rfl⟩
  · rename_i hkey
    refine .inr ⟨?_, hget⟩
    rintro rfl
    exact hkey (Prod.mk.inj (Option.some.inj (hget.symm.trans h))).1

theorem mem_values_of_get? (h : m.get? k = some a) : a ∈ m.values :=
  List.mem_map.2 ⟨(k, a), get?_eq_some_iff.1 h, rfl⟩

end OrderedMap

end ShaderLink
