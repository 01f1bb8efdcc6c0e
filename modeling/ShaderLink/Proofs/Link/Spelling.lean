import ShaderLink.Proofs.Link.Inherited
import ShaderLink.Proofs.Module.Chain

/-!
# Names in the linked text are identifiers

Declarations have identifiers as names, and not reserved ones. An identifier with a number behind it
is one, and it is not reserved. So only a generator can bring in a name that is none.
-/

namespace ShaderLink

theorem Text.IsIdentifier.append {s t : Text} (hs : s.IsIdentifier)
    (ht : ∀ c ∈ t, isIdentifierRest c = true) : IsIdentifier (s ++ t) :=
  ⟨hs.1.append t, List.forall_mem_append.2 ⟨hs.2, ht⟩⟩

/-- A numbered identifier is an identifier. -/
theorem isIdentifier_numbered {base : String} (h : Text.IsIdentifier base.toList) (n : Nat) :
    Text.IsIdentifier (base ++ toString n).toList := by
  rw [String.toList_append, Nat.toString_eq_repr, Nat.toList_repr]
  refine h.append fun c hc ↦ ?_
  have hdigit := Nat.isDigit_of_mem_toDigits (by decide) (by decide) hc
  simp only [isIdentifierRest, Char.isAlphanum, hdigit, Bool.or_true, Bool.true_or]

/-- A numbered name is a name, because no reserved word ends with a digit. -/
theorem isName_numbered {base : String} (h : Text.IsName base.toList) (n : Nat) :
    Text.IsName (base ++ toString n).toList := by
  refine ⟨isIdentifier_numbered h.1 n, Bool.eq_false_iff.2 fun hkeyword ↦ ?_⟩
  have hkeywords : ∀ word ∈ keywords, word.toList.getLast?.any Char.isDigit = false := by decide
  rw [String.ofList_toList, isKeyword, List.contains_iff_mem] at hkeyword
  have hlast := hkeywords _ hkeyword
  rw [String.toList_append, Nat.toString_eq_repr, Nat.toList_repr, List.getLast?_append,
    List.getLast?_eq_some_getLast Nat.toDigits_ne_nil, Option.some_or] at hlast
  have hdigit : (Nat.toDigits 10 n).getLast Nat.toDigits_ne_nil |>.isDigit :=
    Nat.isDigit_of_mem_toDigits (by decide) (by decide) (List.getLast_mem _)
  rw [Option.any_some, hdigit] at hlast
  cases hlast

namespace LinkJob

variable {job : LinkJob} {l : Linkage} {key : InstanceKey} {name : String} {m : Module} {d : Decl}
  {args : Args} {reference : Reference}

theorem nameOf_decl {module : ModulePath} {index : Nat}
    (hdecl : job.decl? module index = some (m, d)) : job.nameOf (.decl module index) = d.name := by
  rw [nameOf, hdecl]
  rfl

/-- What a reference means is a declaration that exists, or a generator. -/
theorem target_of_referenceKey? (hjob : job.Sound)
    (hm : job.registry.module? m.path = some m)
    (h : job.referenceKey? l m args reference = some key) :
    (∃ module index m' d', key.target = .decl module index ∧
      job.decl? module index = some (m', d')) ∨
    ∃ module name, key.target = .generator module name := by
  rw [referenceKey?] at h
  split at h
  · rename_i binding hbinding
    rw [boundKey?] at h
    split at h
    · obtain ⟨⟨index, d'⟩, hfind, rfl⟩ := Option.map_eq_some_iff.1 h
      have hd := Module.mem_decls_iff.1 (List.mem_of_find?_eq_some hfind)
      exact .inl ⟨m.path, index, m, d', rfl, by simp [decl?, hm, hd]⟩
    · cases h
  · split at h
    · cases h
    · split at h
      · rename_i target exportPath given hfound
        obtain rfl := Option.some.inj h
        cases target with
        | decl module index =>
          obtain ⟨m', d', hdecl, -⟩ := exported_of_resolution hjob.built hfound
          exact .inl ⟨module, index, m', d', rfl, hdecl⟩
        | generator module name => exact .inr ⟨module, name, rfl⟩
      · cases h

/-- What holds of the names of declarations, and of a numbered name if it holds of the name, holds
of the names of instances. -/
theorem WellNamed.holds_name {P : Text → Prop} (h : job.WellNamed l)
    (hname : l.name? key = some name) (hroot : ∀ d ∈ job.root.decls, P d.2.name.toList)
    (hbase : P (job.nameOf key.target).toList)
    (hnumbered : ∀ n : Nat, P (job.nameOf key.target ++ toString n).toList) : P name.toList := by
  rcases h.named key name hname with hstart | hfresh
  · obtain ⟨d, hd, -, rfl⟩ := start_name?_mem hstart
    exact hroot d hd
  · rcases hfresh.first with rfl | ⟨n, rfl, -⟩
    · exact hbase
    · exact hnumbered n

/-- The name of an instance is an identifier if its target has one as name. -/
theorem WellNamed.isIdentifier (h : job.WellNamed l) (hname : l.name? key = some name)
    (hroot : ∀ d ∈ job.root.decls, Text.IsIdentifier d.2.name.toList)
    (hbase : Text.IsIdentifier (job.nameOf key.target).toList) :
    Text.IsIdentifier name.toList :=
  h.holds_name hname hroot hbase (isIdentifier_numbered hbase)

/-- The declarations of modules that are found have names that are not reserved. -/
theorem isName_of_decl? (hjob : job.Sound) {module : ModulePath} {index : Nat}
    (hdecl : job.decl? module index = some (m, d)) : Text.IsName d.name.toList := by
  obtain ⟨hm, hd⟩ := decl?_eq_some hdecl
  obtain ⟨options, file, source, hparse⟩ := hjob.built.parsed hm
  obtain ⟨front, gs, back, hchain⟩ :=
    Module.exists_chain hparse (List.mem_of_getElem? (Module.mem_elements_of_decl? hd))
  exact hchain.isName

theorem isName_of_mem_decls (hjob : job.Sound) {e : Nat × Decl} (he : e ∈ job.root.decls) :
    Text.IsName e.2.name.toList := by
  have hdecl : job.decl? job.root.path e.1 = some (job.root, e.2) := by
    simp [decl?, hjob.root, Module.mem_decls_iff.1 he]
  exact isName_of_decl? hjob hdecl

/-- The name of an instance of a declaration is not reserved. -/
theorem Valid.isName_decl (h : job.Valid l) (hjob : job.Sound) {module : ModulePath}
    {index : Nat} (htarget : key.target = .decl module index)
    (hdecl : job.decl? module index = some (m, d)) (hname : l.name? key = some name) :
    Text.IsName name.toList := by
  have hbase : Text.IsName (job.nameOf key.target).toList := by
    rw [htarget, nameOf_decl hdecl]
    exact isName_of_decl? hjob hdecl
  exact h.wellNamed.holds_name hname (fun d hd ↦ isName_of_mem_decls hjob hd) hbase
    (isName_numbered hbase)

/-- The name of an instance of a declaration is an identifier. -/
theorem Valid.isIdentifier_decl (h : job.Valid l) (hjob : job.Sound) {module : ModulePath}
    {index : Nat} (htarget : key.target = .decl module index)
    (hdecl : job.decl? module index = some (m, d)) (hname : l.name? key = some name) :
    Text.IsIdentifier name.toList :=
  (h.isName_decl hjob htarget hdecl hname).1

/-- The name of an instance of a generator is an identifier if that of the generator is one. -/
theorem Valid.isIdentifier_generator (h : job.Valid l) (hjob : job.Sound) {module : ModulePath}
    {base : String} (htarget : key.target = .generator module base)
    (hbase : Text.IsIdentifier base.toList) (hname : l.name? key = some name) :
    Text.IsIdentifier name.toList := by
  refine h.wellNamed.isIdentifier hname (fun d hd ↦ ?_) ?_
  · exact (isName_of_mem_decls hjob hd).1
  · rwa [htarget]

end LinkJob

end ShaderLink
