import ShaderLink.Proofs.Link.Failure

/-!
# The worklist

Linking visits the instances in the order in which they were reached, and visits reach further ones.
`job.After n l` says that `l` is the linkage after `n` visits. No more than one linkage is, and it
grows with the number of visits.

A number of visits is enough if the linkage after them has no more instances than that. Then more
visits make no difference, and nor do they when a visit fails (`LinkJob.after_or_stops`). So linking
runs out of visits only as long as there are instances that wait for theirs.
-/

namespace ShaderLink

namespace LinkJob

/-- The linkage after a number of visits. The import map of the root is made before the first. -/
inductive After (job : LinkJob) : Nat → Linkage → Prop
  | start {imports : ImportMap} {l : Linkage}
    (h : (job.importMapOf job.root).Runs job.start imports l) : After job 0 l
  | visit {n : Nat} {l l' : Linkage} {key : InstanceKey} {i : Instance} {u : Unit}
    (h : After job n l) (hget : l.instances.toList[n]? = some (key, i))
    (hrun : (job.visit key i.name).Runs l u l') : After job (n + 1) l'

/-- However many more visits there may be, closing the linkage has this answer. If it is an error,
some module is blocked. -/
structure Stops (job : LinkJob) (n : Nat) (answer : Except LinkError Linkage) : Prop where
  close_eq : ∀ more, n ≤ more → job.close more = answer
  blocked : ∀ e, answer = .error e → ∃ m, job.registry.module? m.path = some m ∧ job.Blocked m e

variable {job : LinkJob} {l l' : Linkage} {m n bound : Nat} {e : LinkError}
  {answer : Except LinkError Linkage}

theorem Stops.ne_unfinished (h : job.Stops n answer) : answer ≠ .error .unfinished := by
  intro heq
  obtain ⟨m, -, hblocked⟩ := h.blocked _ heq
  exact hblocked.ne_unfinished rfl

theorem run_visitFrom_zero (job : LinkJob) (n : Nat) (l : Linkage) : (job.visitFrom n 0).run l =
    if n < l.instances.size then .error .unfinished else .ok ((), l) := by
  rw [visitFrom, StateT.run_bind]
  change (if n < l.instances.size then throw .unfinished else pure () : Linking Unit).run l = _
  split <;> rfl

theorem run_visitFrom_succ (job : LinkJob) (n bound : Nat) (l : Linkage) :
    (job.visitFrom n (bound + 1)).run l =
      match l.instances.toList[n]? with
      | none => .ok ((), l)
      | some (key, i) => (job.visit key i.name).run l >>= fun r ↦
        (job.visitFrom (n + 1) bound).run r.2 := by
  rw [visitFrom, StateT.run_bind]
  change ((match l.instances.toList[n]? with
    | none => _
    | some (key, i) => _ : Linking Unit).run l) = _
  cases l.instances.toList[n]? <;> rfl

namespace After

theorem unique (h : job.After n l) (h' : job.After n l') : l = l' := by
  induction h generalizing l' with
  | start hrun =>
    cases h' with
    | start hrun' => exact (Prod.mk.inj (Except.ok.inj (hrun.symm.trans hrun'))).2
  | visit _ hget hrun ih =>
    cases h' with
    | visit h' hget' hrun' =>
      obtain rfl := ih h'
      obtain ⟨rfl, rfl⟩ := Prod.mk.inj (Option.some.inj (hget.symm.trans hget'))
      exact (Prod.mk.inj (Except.ok.inj (hrun.symm.trans hrun'))).2

/-- The instances visited are settled, and the others wait. -/
theorem visited (h : job.After n l) (hjob : job.Sound) : job.Visited l n ∧ job.start.Grows l := by
  induction h with
  | start hrun =>
    obtain ⟨hvalid, hextends, -⟩ := keeps_importMapOf hjob.root _ _ _ hrun (valid_start job)
    exact ⟨(visited_start job).extends (Nat.zero_le _) hvalid hextends, hextends.grows⟩
  | visit _ hget hrun ih =>
    obtain ⟨hvisited, hgrows⟩ := ih.1.visit hjob hget hrun
    exact ⟨hvisited, ih.2.trans hgrows⟩

/-- More visits let the linkage grow. -/
theorem grows (hjob : job.Sound) (h : job.After m l) (h' : job.After n l') (hle : m ≤ n) :
    l.Grows l' := by
  induction h' generalizing l with
  | start hrun =>
    obtain rfl := Nat.le_zero.1 hle
    rw [h.unique (.start hrun)]
    exact .refl _
  | @visit n _ _ _ _ _ h' hget hrun ih =>
    rcases Nat.le_or_eq_of_le_succ hle with hle | rfl
    · exact (ih h hle).trans ((h'.visited hjob).1.visit hjob hget hrun).2
    · rw [h.unique (.visit h' hget hrun)]
      exact .refl _

/-- Closing the linkage goes on from the visits made. -/
theorem close_add (h : job.After n l) (more : Nat) :
    job.close (n + more) = ((job.visitFrom n more).run l).map Prod.snd := by
  induction h generalizing more with
  | @start imports l hrun =>
    have hrun : (job.importMapOf job.root).run job.start = .ok (imports, l) := hrun
    rw [close, StateT.run_bind, hrun, Nat.zero_add]
    change ((job.visitFrom 0 more).run l).bind (fun r ↦ .ok r.2) = _
    cases (job.visitFrom 0 more).run l <;> rfl
  | @visit n l l' key i u _ hget hrun ih =>
    have hrun : (job.visit key i.name).run l = .ok (u, l') := hrun
    rw [Nat.add_assoc, Nat.add_comm 1 more, ih, run_visitFrom_succ, hget]
    dsimp only
    rw [hrun]
    rfl

/-- When no instance waits, linking has come to an end. -/
theorem stops (h : job.After n l) (hle : l.instances.size ≤ n) : job.Stops n (.ok l) := by
  refine ⟨fun more hmore ↦ ?_, fun e heq ↦ nomatch heq⟩
  obtain ⟨more, rfl⟩ := Nat.exists_eq_add_of_le hmore
  rw [h.close_add]
  have hrun : (job.visitFrom n more).run l = .ok ((), l) := by
    cases more with
    | zero => rw [run_visitFrom_zero, if_neg (Nat.not_lt.2 hle)]
    | succ more => rw [run_visitFrom_succ, List.getElem?_eq_none hle]
  rw [hrun]
  rfl

/-- As long as an instance waits, linking runs out of visits. -/
theorem close_eq_unfinished (h : job.After n l) (hlt : n < l.instances.size) :
    job.close n = .error .unfinished := by
  have hclose := h.close_add 0
  rw [Nat.add_zero, run_visitFrom_zero, if_pos hlt] at hclose
  exact hclose

/-- Visits that come to an end from here on end after some number of visits. -/
theorem of_visitFrom (h : job.After n l) {bound : Nat} {u : Unit}
    (hrun : (job.visitFrom n bound).Runs l u l') :
    ∃ m, job.After m l' ∧ m ≤ n + bound ∧ l'.instances.size ≤ m := by
  induction bound generalizing n l with
  | zero =>
    rw [visitFrom] at hrun
    obtain ⟨l₁, l₂, hget, hrest⟩ := hrun.bind
    obtain ⟨rfl, rfl⟩ := hget.get
    split at hrest
    · exact hrest.not_throw.elim
    · rename_i hle
      obtain ⟨-, rfl⟩ := hrest.pure
      exact ⟨n, h, Nat.le_add_right n 0, Nat.le_of_not_lt hle⟩
  | succ bound ih =>
    rw [visitFrom] at hrun
    obtain ⟨l₁, l₂, hget, hrest⟩ := hrun.bind
    obtain ⟨rfl, rfl⟩ := hget.get
    split at hrest
    · rename_i hnone
      obtain ⟨-, rfl⟩ := hrest.pure
      exact ⟨n, h, Nat.le_add_right n _, List.getElem?_eq_none_iff.1 hnone⟩
    · rename_i key i hsome
      obtain ⟨v, l₁, hvisit, hrest⟩ := hrest.bind
      obtain ⟨m, hafter, hle, hsize⟩ := ih (h.visit hsome hvisit) hrest
      exact ⟨m, hafter, by omega, hsize⟩

end After

/-- A linkage that linking comes to an end with is that after some number of visits, and no instance
waits in it. -/
theorem after_of_close {bound : Nat} (h : job.close bound = .ok l) :
    ∃ n, job.After n l ∧ n ≤ bound ∧ l.instances.size ≤ n := by
  obtain ⟨⟨u, l'⟩, hrun, heq⟩ := Except.bind_eq_ok.1 h
  obtain rfl := Except.ok.inj heq
  obtain ⟨imports, l₁, himports, hvisits⟩ := Linking.Runs.bind hrun
  obtain ⟨n, hafter, hle, hsize⟩ := (After.start himports).of_visitFrom hvisits
  exact ⟨n, hafter, by omega, hsize⟩

/-- Closing the linkage fails as the first visit that does. -/
theorem stops_of_error (h : job.After n l) (hjob : job.Sound) {key : InstanceKey} {i : Instance}
    (hget : l.instances.toList[n]? = some (key, i))
    (herror : (job.visit key i.name).run l = .error e) :
    job.Stops (n + 1) (.error e) := by
  obtain ⟨module, index, m, d, -, hdecl, hblocked⟩ :=
    exists_blocked_of_visit hjob (h.visited hjob).1.valid herror
  refine ⟨fun more hmore ↦ ?_, fun e' heq ↦ ⟨m, hjob.module?_path (decl?_eq_some hdecl).1, ?_⟩⟩
  · obtain ⟨more, rfl⟩ := Nat.exists_eq_add_of_le hmore
    rw [Nat.add_assoc, Nat.add_comm 1 more, h.close_add, run_visitFrom_succ, hget]
    dsimp only
    rw [herror]
    rfl
  · rwa [← Except.error.inj heq]

/-- There is a linkage after any number of visits, unless fewer are enough. -/
theorem after_or_stops (hjob : job.Sound) (n : Nat) :
    (∃ l, job.After n l) ∨ ∃ answer, job.Stops n answer := by
  induction n with
  | zero =>
    cases hrun : (job.importMapOf job.root).run job.start with
    | ok r => exact .inl ⟨r.2, .start hrun⟩
    | error e =>
      have hblocked := failsBy_importMapOf job.root job.start e (valid_start job) hrun
      refine .inr ⟨.error e, fun more _ ↦ ?_, fun e' heq ↦ ⟨job.root, hjob.root, ?_⟩⟩
      · rw [close, StateT.run_bind, hrun]
        rfl
      · rwa [← Except.error.inj heq]
  | succ n ih =>
    rcases ih with ⟨l, h⟩ | ⟨answer, hstops⟩
    · cases hget : l.instances.toList[n]? with
      | none =>
        have hstops := h.stops (List.getElem?_eq_none_iff.1 hget)
        exact .inr ⟨_, fun more hmore ↦ hstops.close_eq more (by omega), hstops.blocked⟩
      | some found =>
        obtain ⟨key, i⟩ := found
        cases hrun : (job.visit key i.name).run l with
        | ok r => exact .inl ⟨r.2, .visit h hget hrun⟩
        | error e => exact .inr ⟨_, stops_of_error h hjob hget hrun⟩
    · exact .inr ⟨answer, fun more hmore ↦ hstops.close_eq more (by omega), hstops.blocked⟩

/-- Linking that does not run out of visits has come to an end. -/
theorem stops_of_close (hjob : job.Sound) (h : job.close bound ≠ .error .unfinished) :
    job.Stops bound (job.close bound) := by
  rcases after_or_stops hjob bound with ⟨l, hafter⟩ | ⟨answer, hstops⟩
  · have hstops := hafter.stops (Nat.le_of_not_lt fun hlt ↦ h (hafter.close_eq_unfinished hlt))
    rwa [hstops.close_eq bound le_rfl]
  · rwa [hstops.close_eq bound le_rfl]

/-- No more visits are made than are enough. -/
theorem After.le_of_stops (h : job.After n l) (hstops : job.Stops m answer) : n ≤ m := by
  cases h with
  | start => exact Nat.zero_le m
  | @visit n l _ _ _ _ h hget _ =>
    refine Nat.succ_le_of_lt (Nat.lt_of_not_le fun hle ↦ hstops.ne_unfinished ?_)
    rw [← hstops.close_eq n hle]
    exact h.close_eq_unfinished (List.getElem?_eq_some_iff.1 hget).1

end LinkJob

end ShaderLink
