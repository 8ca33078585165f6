import PeerCall.Proofs.World.Runs

/-! # What is done in a run

The streams that were opened, the invocations that were noted and the calls that were completed, each
with the task that did it (`World.ledger`). All of it can be told by looking at the world before and
after each step, whatever the tasks are. What every step keeps, together with what it adds to the
ledger, holds after a run (`World.ledger_induct`). -/

namespace PeerCall

inductive Deed
  /-- A stream for the call of a task, on which it may be exchanged from now on. -/
  | opened (task link : Nat)
  /-- An invocation by a task that answers on a link, or by one that does not. -/
  | invoked (task : Nat) (link? : Option Nat) (n : Note)
  | completed (task : Nat) (c : Call)

/-- The link on which a task exchanges its call. -/
def Task.stream? : Task → Option Nat
  | .call _ (.exchanging link _) => some link
  | _ => none

namespace World

/-- The link on which the task at a place answers. -/
def answers? (w : World) (i : Nat) : Option Nat :=
  match w.tasks[i]? with
  | some (.respond _ link _) => some link
  | _ => none

/-- The call that the task at a place completes from one world to the next. -/
def completed? (w w' : World) (i : Nat) : Option Call :=
  match w.tasks[i]?, w'.tasks[i]? with
  | some (.call _ (.delivering c)), some .ended => some c
  | _, _ => none

/-- The link on which the task at a place exchanges its call in the next world, and not yet in
one. -/
def opened? (w w' : World) (i : Nat) : Option Nat :=
  match w.tasks[i]?.bind Task.stream? with
  | some _ => none
  | none => w'.tasks[i]?.bind Task.stream?

/-- What the task at a place does from one world to the next. -/
def deeds (w w' : World) (i : Nat) : List Deed :=
  (w.opened? w' i).toList.map (.opened i) ++
    (w'.notes.drop w.notes.length).map (.invoked i (w.answers? i)) ++
      (w.completed? w' i).toList.map (.completed i)

/-- What a move does from one world to the next. -/
def movesDeeds (w w' : World) : Move → List Deed
  | .step i => w.deeds w' i
  | .clock _ => []
  | .fire _ => []

/-- All that is done in a run. -/
def ledger : List Move → World → List Deed
  | [], _ => []
  | mv :: moves, w =>
    match w.move? mv with
    | none => []
    | some w' => w.movesDeeds w' mv ++ ledger moves w'

/-! ## Reading a ledger -/

/-- The links on which a task has opened a stream. -/
def linksOf (k : Nat) (ds : List Deed) : List Nat :=
  ds.filterMap fun
    | .opened i link => if i = k then some link else none
    | _ => none

/-- The invocations at the end of a link. -/
def invokedAt (link : Nat) (ds : List Deed) : List Note :=
  ds.filterMap fun
    | .invoked _ link? n => if link? = some link then some n else none
    | _ => none

/-- The invocations that a task has made of the local server. -/
def invokedBy (k : Nat) (ds : List Deed) : List Note :=
  ds.filterMap fun
    | .invoked i none n => if i = k then some n else none
    | _ => none

/-- The calls that a task has completed. -/
def callsOf (k : Nat) (ds : List Deed) : List Call :=
  ds.filterMap fun
    | .completed i c => if i = k then some c else none
    | _ => none

/-- The invocations for the call of a task: those that it made itself, and those at the far ends of
its streams. -/
def invokedFor (k : Nat) (ds : List Deed) : List Note :=
  invokedBy k ds ++ (linksOf k ds).flatMap (invokedAt · ds)

section

variable (ds ds' : List Deed) {w w' : World} {i k link : Nat}

@[simp] theorem linksOf_append : linksOf k (ds ++ ds') = linksOf k ds ++ linksOf k ds' :=
  List.filterMap_append

@[simp] theorem invokedAt_append :
    invokedAt link (ds ++ ds') = invokedAt link ds ++ invokedAt link ds' :=
  List.filterMap_append

@[simp] theorem invokedBy_append :
    invokedBy k (ds ++ ds') = invokedBy k ds ++ invokedBy k ds' :=
  List.filterMap_append

@[simp] theorem callsOf_append : callsOf k (ds ++ ds') = callsOf k ds ++ callsOf k ds' :=
  List.filterMap_append

theorem invokedFor_of_unopened {ds : List Deed} (h : linksOf k ds = []) :
    invokedFor k ds = invokedBy k ds := by
  rw [invokedFor, h]
  exact List.append_nil _

private theorem filterMap_none (as : List α) : as.filterMap (fun _ => (none : Option β)) = [] :=
  List.filterMap_eq_nil_iff.mpr fun _ _ => rfl

theorem linksOf_deeds : linksOf k (w.deeds w' i) =
    if i = k then (w.opened? w' i).toList else [] := by
  rw [deeds]
  generalize w'.notes.drop w.notes.length = notes
  by_cases h : i = k <;>
    simp only [linksOf, List.filterMap_append, List.filterMap_map, Function.comp_def, h, ↓reduceIte,
      List.filterMap_some, filterMap_none, List.append_nil]

theorem invokedAt_deeds : invokedAt link (w.deeds w' i) =
    if w.answers? i = some link then w'.notes.drop w.notes.length else [] := by
  rw [deeds]
  generalize w'.notes.drop w.notes.length = notes
  by_cases h : w.answers? i = some link <;>
    simp only [invokedAt, List.filterMap_append, List.filterMap_map, Function.comp_def, h,
      ↓reduceIte, List.filterMap_some, filterMap_none, List.append_nil, List.nil_append]

theorem invokedBy_deeds : invokedBy k (w.deeds w' i) =
    if i = k ∧ w.answers? i = none then w'.notes.drop w.notes.length else [] := by
  rw [deeds]
  generalize w'.notes.drop w.notes.length = notes
  cases w.answers? i with
  | some link =>
    simp only [invokedBy, List.filterMap_append, List.filterMap_map, Function.comp_def,
      filterMap_none, List.append_nil, reduceCtorEq, and_false, ↓reduceIte]
  | none =>
    by_cases h : i = k <;>
      simp only [invokedBy, List.filterMap_append, List.filterMap_map, Function.comp_def, h, true_and,
        false_and, ↓reduceIte, List.filterMap_some, filterMap_none, List.append_nil, List.nil_append]

theorem callsOf_deeds : callsOf k (w.deeds w' i) =
    if i = k then (w.completed? w' i).toList else [] := by
  rw [deeds]
  generalize w'.notes.drop w.notes.length = notes
  by_cases h : i = k <;>
    simp only [callsOf, List.filterMap_append, List.filterMap_map, Function.comp_def, h, ↓reduceIte,
      List.filterMap_some, filterMap_none, List.append_nil, List.nil_append]

end

/-! ## Runs in parts -/

variable {moves moves' : List Move} {w w' : World}

theorem run?_cons (h : run? (mv :: moves) w = some w') :
    ∃ w₁, w.move? mv = some w₁ ∧ run? moves w₁ = some w' := by
  rw [run?] at h
  split at h
  · cases h
  · exact ⟨_, ‹_›, h⟩

theorem run?_append (h : run? moves w = some w') :
    run? (moves ++ moves') w = run? moves' w' := by
  induction moves generalizing w with
  | nil =>
    cases h
    rfl
  | cons mv moves ih =>
    obtain ⟨w₁, hw, h⟩ := run?_cons h
    rw [List.cons_append, run?, hw]
    exact ih h

theorem ledger_append (h : run? moves w = some w') :
    ledger (moves ++ moves') w = ledger moves w ++ ledger moves' w' := by
  induction moves generalizing w with
  | nil =>
    cases h
    rfl
  | cons mv moves ih =>
    obtain ⟨w₁, hw, h⟩ := run?_cons h
    rw [List.cons_append, ledger, ledger, hw]
    simp only [ih h, List.append_assoc]

private theorem ledger_induct_from {P : List Deed → World → Prop}
    (hstep : ∀ ds w i w', Move.step i ∈ moves → P ds w → w.step? i = some w' →
      P (ds ++ w.deeds w' i) w')
    (hlater : ∀ ds w m, P ds w → w.moment.Before m → P ds { w with moment := m })
    (hP : P ds w) (h : run? moves w = some w') : P (ds ++ ledger moves w) w' := by
  induction moves generalizing ds w with
  | nil =>
    cases h
    rwa [ledger, List.append_nil]
  | cons mv moves ih =>
    have hrest ds w i w' (hi : Move.step i ∈ moves) := hstep ds w i w' (List.mem_cons_of_mem _ hi)
    obtain ⟨w₁, hw, h⟩ := run?_cons h
    rw [ledger, hw]
    simp only [← List.append_assoc]
    refine ih hrest ?_ h
    cases mv with
    | step i => exact hstep ds w i w₁ List.mem_cons_self hP hw
    | clock now =>
      rw [movesDeeds, List.append_nil]
      simp only [move?] at hw
      split at hw
      · rename_i hle
        cases hw
        exact hlater ds w _ hP ⟨hle, fun _ => id⟩
      · cases hw
    | fire t =>
      rw [movesDeeds, List.append_nil]
      cases hw
      exact hlater ds w _ hP ⟨Nat.le_refl _, fun _ => List.mem_cons_of_mem t⟩

/-- What every step keeps, with what it adds to the ledger, and what time does not undo, holds after
a run. -/
theorem ledger_induct {P : List Deed → World → Prop}
    (hstep : ∀ ds w i w', Move.step i ∈ moves → P ds w → w.step? i = some w' →
      P (ds ++ w.deeds w' i) w')
    (hlater : ∀ ds w m, P ds w → w.moment.Before m → P ds { w with moment := m })
    (hP : P [] w) (h : run? moves w = some w') : P (ledger moves w) w' :=
  ledger_induct_from hstep hlater hP h

theorem before_of_run? (h : run? moves w = some w') : w.moment.Before w'.moment :=
  ledger_induct (P := fun _ w' => w.moment.Before w'.moment)
    (fun _ _ _ _ _ hP hs => hP.trans (before_of_step? hs)) (fun _ _ _ hP hb => hP.trans hb)
    (.refl _) h

end World

end PeerCall
