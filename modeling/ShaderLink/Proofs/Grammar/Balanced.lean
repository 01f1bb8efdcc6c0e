import ShaderLink.Proofs.Grammar.Item
import ShaderLink.Proofs.Grammar.Reading
import ShaderLink.Proofs.Scope.Environment

/-!
# Blocks are balanced

The events of a declaration open and close blocks in pairs. The grammar has no other way: it makes a
block of what it reads between two braces, and everything that it holds back is a declaration.
-/

namespace ShaderLink

namespace Parser

variable {t : Text} {c' : Cursor}

theorem eventClosed_balanced : EventClosed fun _ events _ ↦ Event.Balanced events where
  refl _ := .nil
  trans h h' := h.append h'
  skip _ := .nil
  read _ := .nil
  declare _ _ _ := .plain nofun nofun
  block h := h.block
  member _ := .plain nofun nofun
  reference _ _ _ := .plain nofun nofun

/-- The events of what a text declares are balanced. -/
theorem balanced_of_items {steps : Nat} {all : List Item} {e : Effort}
    (h : items.run steps t = (.accepted all c', e)) :
    ∀ d ∈ all.filterMap Item.decl?, Event.Balanced d.events := by
  intro d hd
  obtain ⟨c₁, c₂, -, hdecl⟩ := exists_unmarkedDecl_of_items h d hd
  obtain ⟨marks, rest, c₃, heq, hmarks, c₄, c₅, -, -, hrest⟩ :=
    eventClosed_balanced.unmarkedDecl hdecl
  rw [heq]
  exact hmarks.append hrest

end Parser

theorem Event.Balanced.cons {e : Event} {events : List Event} (hopen : e ≠ .openBlock)
    (hclose : e ≠ .closeBlock) (h : Event.Balanced events) : Event.Balanced (e :: events) :=
  (Event.Balanced.plain hopen hclose).append h

/-- What a body leaves is balanced, if what is pending is. -/
theorem Reading.Body.balanced {closer previous : String} {mode : Parser.BodyMode}
    {pending events : List Event} {ts : List Token} {roles : List (Token × Reading.Role)}
    (h : Reading.Body closer mode previous pending ts roles events)
    (hpending : Event.Balanced pending) :
    Event.Balanced events := by
  induction h with
  | close => exact hpending
  | statement _ _ _ ih => exact hpending.append (ih .nil)
  | block _ _ _ _ ihinside ih =>
    simpa using (ihinside .nil).block.append (ih hpending)
  | group _ _ _ _ _ ihinside ih => exact (ihinside .nil).append (ih hpending)
  | «attribute» _ _ _ _ _ ih => exact ih hpending
  | arguments _ _ _ _ _ _ ihinside ih =>
    refine Event.Balanced.append ?_ (ih hpending)
    split
    · exact ihinside .nil
    · exact .nil
  | member _ _ _ _ ih => exact ih hpending
  | dot _ _ _ _ ih => exact ih hpending
  | loop _ _ _ _ _ _ ihheader ihinside ih =>
    simpa using ((ihheader .nil).append (ihinside .nil)).block.append (ih hpending)
  | declare _ _ _ _ ih => exact ih (hpending.append (.plain nofun nofun))
  | template _ _ _ _ _ _ _ ih => exact ih (hpending.append (.plain nofun nofun))
  | keyword _ _ _ _ _ ih => exact ih hpending
  | parameter _ _ _ ih => exact .cons nofun nofun (ih hpending)
  | reference _ _ _ _ ih => exact .cons nofun nofun (ih hpending)
  | other _ _ _ ih => exact ih hpending

end ShaderLink
