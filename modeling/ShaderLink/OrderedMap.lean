/-!
# Ordered maps

An ordered map is a list of keys with their values in which no key stands twice. A new key goes to
the end, and a new value for an old key goes to the place of the old value, so the order is the one
in which the keys came first.
-/

namespace ShaderLink

/-- A finite map that keeps its keys in the order in which they came. -/
structure OrderedMap (κ α : Type) where
  toList : List (κ × α)
  nodup_keys : (toList.map Prod.fst).Nodup

namespace OrderedMap

variable {κ α : Type}

/-- The map without keys. -/
def empty : OrderedMap κ α :=
  ⟨[], .nil⟩

/-- The keys in order. -/
def keys (m : OrderedMap κ α) : List κ :=
  m.toList.map Prod.fst

/-- The values in the order of their keys. -/
def values (m : OrderedMap κ α) : List α :=
  m.toList.map Prod.snd

/-- The number of keys. -/
def size (m : OrderedMap κ α) : Nat :=
  m.toList.length

variable [DecidableEq κ]

/-- The value of a key. -/
def get? (m : OrderedMap κ α) (k : κ) : Option α :=
  (m.toList.find? fun e ↦ e.1 = k).map Prod.snd

/-! ### Changing one key -/

/-- A list of pairs in which `a` stands for the value of `k`, or at the end if `k` has none. -/
def insertInto (k : κ) (a : α) : List (κ × α) → List (κ × α)
  | [] => [(k, a)]
  | (l, b) :: es => if l = k then (k, a) :: es else (l, b) :: insertInto k a es

/-- Only a key that has no value yet changes the keys, and it goes to the end. -/
theorem map_fst_insertInto (k : κ) (a : α) (es : List (κ × α)) :
    (insertInto k a es).map Prod.fst =
      if k ∈ es.map Prod.fst then es.map Prod.fst else es.map Prod.fst ++ [k] := by
  induction es with
  | nil => simp [insertInto]
  | cons e es ih =>
    by_cases h : e.1 = k
    · simp [insertInto, h]
    · have : ¬k = e.1 := fun h' ↦ h h'.symm
      by_cases h' : k ∈ es.map Prod.fst <;> simp_all [insertInto]

/-- Sets the value of a key. -/
def insert (m : OrderedMap κ α) (k : κ) (a : α) : OrderedMap κ α where
  toList := insertInto k a m.toList
  nodup_keys := by
    rw [map_fst_insertInto]
    split
    · exact m.nodup_keys
    · rename_i h
      exact List.nodup_append.2 ⟨m.nodup_keys, by simp, fun x hx y hy ↦ by
        rw [List.mem_singleton.1 hy]
        exact fun hxy ↦ h (hxy ▸ hx)⟩

/-- Takes a key out. -/
def erase (m : OrderedMap κ α) (k : κ) : OrderedMap κ α where
  toList := m.toList.filter fun e ↦ e.1 ≠ k
  nodup_keys := m.nodup_keys.sublist (List.filter_sublist.map _)

/-- Changes the value of a key that is there. -/
def modify (m : OrderedMap κ α) (k : κ) (f : α → α) : OrderedMap κ α where
  toList := m.toList.map fun e ↦ (e.1, if e.1 = k then f e.2 else e.2)
  nodup_keys := by
    rw [List.map_map]
    exact m.nodup_keys

/-- The map of a list of pairs, of which later ones count. -/
def ofList (es : List (κ × α)) : OrderedMap κ α :=
  es.foldl (fun m e ↦ m.insert e.1 e.2) empty

/-! ### Looking keys up -/

/-- The keys are what has a value. -/
theorem mem_keys_iff {m : OrderedMap κ α} {k : κ} : k ∈ m.keys ↔ (m.get? k).isSome := by
  simp [keys, get?]

@[simp] theorem get?_empty (k : κ) : (empty : OrderedMap κ α).get? k = none :=
  rfl

/-- A value that is set is found under its key, and the other keys keep theirs. -/
theorem get?_insert (m : OrderedMap κ α) (k l : κ) (a : α) :
    (m.insert k a).get? l = if l = k then some a else m.get? l := by
  simp only [get?, insert]
  induction m.toList with
  | nil => by_cases h : k = l <;> simp [insertInto, h, eq_comm]
  | cons e es ih =>
    by_cases h : e.1 = k <;> by_cases h' : e.1 = l <;> simp_all [insertInto, eq_comm]

/-- A key that was taken out has no value, and the other keys keep theirs. -/
theorem get?_erase (m : OrderedMap κ α) (k l : κ) :
    (m.erase k).get? l = if l = k then none else m.get? l := by
  simp only [get?, erase]
  induction m.toList with
  | nil => simp
  | cons e es ih =>
    simp only [ne_eq, decide_not] at ih
    by_cases h : e.1 = k <;> by_cases h' : e.1 = l <;> by_cases h'' : l = k <;>
      simp_all

/-- A change reaches the value of its key only, and gives no value to a key that has none. -/
theorem get?_modify (m : OrderedMap κ α) (k l : κ) (f : α → α) :
    (m.modify k f).get? l = if l = k then (m.get? l).map f else m.get? l := by
  simp only [get?, modify]
  induction m.toList with
  | nil => simp
  | cons e es ih =>
    by_cases h : e.1 = l <;> by_cases h' : l = k <;> simp_all

/-- A value for an old key leaves the keys as they are. -/
theorem keys_insert (m : OrderedMap κ α) (k : κ) (a : α) :
    (m.insert k a).keys = if k ∈ m.keys then m.keys else m.keys ++ [k] :=
  map_fst_insertInto k a m.toList

@[simp] theorem keys_modify (m : OrderedMap κ α) (k : κ) (f : α → α) :
    (m.modify k f).keys = m.keys := by
  simp [keys, modify]

end OrderedMap

end ShaderLink
