/-!
# Fresh names

Every linked declaration needs a name of its own. A name that is free is kept, and one that is taken
gets the smallest number behind it that makes it free.
-/

namespace ShaderLink

/-- The first of `base0`, `base1`, …, counted from `index` on, that is not among the names taken. A
name found taken is crossed out before the search goes on, so the names run out. -/
def numberedName (base : String) (taken : List String) (index : Nat) : String :=
  if h : base ++ toString index ∈ taken then
    numberedName base (taken.erase (base ++ toString index)) (index + 1)
  else
    base ++ toString index
termination_by taken.length
decreasing_by
  have := List.length_pos_of_mem h
  rw [List.length_erase_of_mem h]
  omega

/-- The name to use for `base`. -/
def freshName (base : String) (taken : List String) : String :=
  if base ∈ taken then numberedName base taken 0 else base

/-- Names for several bases, one after another, and all names then taken. -/
def freshNames (taken : List String) : List String → List String × List String
  | [] => ([], taken)
  | base :: bases =>
    let name := freshName base taken
    let (names, taken) := freshNames (name :: taken) bases
    (name :: names, taken)

end ShaderLink
