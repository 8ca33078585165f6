import PeerCall.Proofs.World.Calls

/-! # Whose streams are whose

Only a call that dials, or that has written its handshake, opens a stream (`World.Steps.opener`). So
a call opens one stream at most, and goes on with that one (`World.Opened.step`). No two tasks have
opened the same, and nobody else holds the end of who has opened it (`World.Streams.step`). -/

namespace PeerCall

/-- The streams that a call has opened, as it stands. -/
def CallTask.Opened (links : List Nat) : CallTask → Prop
  | dialing .. => links = []
  | connecting _ => links = []
  | greeting .. => links = []
  | exchanging link _ => links = [link]
  | _ => links.length ≤ 1

theorem CallTask.Opened.length {links : List Nat} {c : CallTask} (h : c.Opened links) :
    links.length ≤ 1 := by
  cases c with
  | dialing | connecting | greeting =>
    cases h
    exact Nat.zero_le _
  | exchanging =>
    cases h
    exact Nat.le_refl _
  | _ => exact h

namespace World

variable {w w' : World} {moves : List Move} {ds : List Deed} {i k n link channel : Nat}

/-- Who opens a stream has dialed and gets a link, or has written its handshake on the link that it
holds. -/
inductive Opener (w : World) (i link : Nat) : Prop
  | dialing {channel call codec host protocol}
    (ht : w.tasks[i]? = some (.call channel (.dialing call codec host protocol)))
    (hl : link = w.links.length)
  | greeting {channel g} (ht : w.tasks[i]? = some (.call channel (.greeting link g)))

/-- Who holds no link exchanges no call. -/
theorem stream?_of_end? {t : Task} (h : t.end? = none) : t.stream? = none := by
  cases t with
  | call channel c => cases c <;> first | rfl | cases h
  | _ => rfl

theorem opened?_eq_some (h : w.opened? w' i = some link) :
    (∀ channel x, w.tasks[i]? ≠ some (.call channel (.exchanging link x))) ∧
      ∃ channel x, w'.tasks[i]? = some (.call channel (.exchanging link x)) := by
  unfold opened? at h
  split at h
  · cases h
  · rename_i hn
    refine ⟨fun channel x ht => ?_, ?_⟩
    · rw [ht] at hn
      cases hn
    · obtain ⟨t, ht, hs⟩ := Option.bind_eq_some_iff.mp h
      unfold Task.stream? at hs
      split at hs <;> cases hs
      exact ⟨_, _, ht⟩

theorem Steps.opener (h : Steps w i w') (ho : w.opened? w' i = some link) : w.Opener i link := by
  obtain ⟨hnot, channel, x, ht'⟩ := opened?_eq_some ho
  rcases h.exchanger ht' with ⟨x₀, ht⟩ | ⟨_, _, _, _, ht, -, hl, -⟩ | ⟨g, ht, -⟩
  · exact absurd ht (hnot _ _)
  · exact .dialing ht hl
  · exact .greeting ht

/-- Who opens no stream stands as one who has opened what it had opened. -/
theorem Steps.opened {c c' : CallTask} {links : List Nat} (h : Steps w i w')
    (hn : w.opened? w' i = none) (ht : w.tasks[i]? = some (.call channel c))
    (ht' : w'.tasks[i]? = some (.call channel c')) (hc : c.Opened links) : c'.Opened links := by
  have hi := (List.getElem?_eq_some_iff.mp ht).1
  have hset {t : Task} : (w.tasks.set i t)[i]? = some t := List.getElem?_set_self hi
  have hstream (hs : (Task.call channel c).stream? = none) :
      (Task.call channel c').stream? = none := by
    rwa [opened?, ht, ht', Option.bind_some, hs] at hn
  cases h with
  | dialed ht₀ =>
    cases ht.symm.trans ht₀
    cases hset.symm.trans ht'
    cases hstream rfl
  | connecting ht₀ =>
    cases ht.symm.trans ht₀
    cases hset.symm.trans ht'
    exact hc
  | connected ht₀ =>
    cases ht.symm.trans ht₀
    cases (getElem?_setTask_connect hi).symm.trans ht'
    exact hc
  | @greeted _ _ _ _ p _ ht₀ =>
    cases ht.symm.trans ht₀
    cases hset.symm.trans ht'
    rcases p with _ | (_ | _)
    · exact hc
    · exact hc.length
    · cases hstream rfl
  | @exchanged _ _ _ _ p _ ht₀ =>
    cases ht.symm.trans ht₀
    cases hset.symm.trans ht'
    cases p with
    | more => exact hc
    | done => exact hc.length
  | @sending _ _ _ _ sent ht₀ =>
    cases ht.symm.trans ht₀
    have hsame := hset.symm.trans ht'
    cases sent <;> cases hsame
    exact hc
  | stopped ht₀ | refused ht₀ | unentered ht₀ | entered ht₀ | serving ht₀ | returned ht₀ =>
    cases ht.symm.trans ht₀
    cases hset.symm.trans ht'
    exact hc.length
  | crashed => cases hset.symm.trans ht'
  | responded ht₀ | accepted ht₀ | turnedAway ht₀ | played ht₀ | closed ht₀ | scripted ht₀
  | timed ht₀ | fired ht₀ => cases ht.symm.trans ht₀

/-! ## One call -/

/-- A call has opened one stream at most, and goes on with that one. -/
structure Opened (w : World) (k : Nat) (ds : List Deed) : Prop where
  once : (linksOf k ds).length ≤ 1
  task : ∀ channel c, w.tasks[k]? = some (.call channel c) → c.Opened (linksOf k ds)

theorem Opener.unopened (h : w.Opener k link) (ho : w.Opened k ds) : linksOf k ds = [] := by
  cases h with
  | dialing ht | greeting ht => exact ho.task _ _ ht

theorem Opened.step (h : w.Opened k ds) (hs : w.Steps i w') :
    w'.Opened k (ds ++ w.deeds w' i) := by
  by_cases hi : i = k
  case neg =>
    have hsame : linksOf k (ds ++ w.deeds w' i) = linksOf k ds := by
      rw [linksOf_append, linksOf_deeds, if_neg hi, List.append_nil]
    refine ⟨hsame ▸ h.once, fun channel c hc => hsame ▸ h.task channel c ?_⟩
    obtain ⟨c₀, hc₀⟩ := hs.caller hc
    rw [hc₀, ← hs.task hc₀ (Ne.symm hi), hc]
  subst hi
  have hlinks : linksOf i (ds ++ w.deeds w' i) = linksOf i ds ++ (w.opened? w' i).toList := by
    rw [linksOf_append, linksOf_deeds, if_pos rfl]
  cases ho : w.opened? w' i with
  | none =>
    rw [ho, Option.toList_none, List.append_nil] at hlinks
    refine ⟨hlinks ▸ h.once, fun channel c hc => hlinks ▸ ?_⟩
    obtain ⟨c₀, hc₀⟩ := hs.caller hc
    exact hs.opened ho hc₀ hc (h.task channel c₀ hc₀)
  | some link =>
    rw [ho, (hs.opener ho).unopened h, Option.toList_some, List.nil_append] at hlinks
    refine ⟨hlinks ▸ Nat.le_refl 1, fun channel c hc => ?_⟩
    obtain ⟨-, channel', x, ht'⟩ := opened?_eq_some ho
    cases ht'.symm.trans hc
    exact hlinks

/-! ## All calls -/

/-- A call has opened streams only on links that were made since there were so many. Each of these
was opened by one task, and nobody else holds its end. -/
structure Streams (n k : Nat) (ds : List Deed) (w : World) : Prop where
  inOrder : w.InOrder
  grown : n ≤ w.links.length
  there : ∀ j, ∀ link ∈ linksOf j ds, link < w.links.length
  held : ∀ link, w.Holds k link .left → n ≤ link
  new : ∀ link ∈ linksOf k ds, n ≤ link
  single : ∀ j link, n ≤ link → w.Holds j link .left → w.Sole j link
  sole : ∀ j link, n ≤ link → link ∈ linksOf j ds → w.Sole j link
  apart : ∀ i j link, n ≤ link → link ∈ linksOf i ds → link ∈ linksOf j ds → i = j

theorem Streams.later (h : w.Streams n k ds) (m : Moment) : Streams n k ds { w with moment := m } :=
  { h with inOrder := h.inOrder.later m }

theorem Streams.step (h : Streams n k ds w) (hs : w.Steps i w') :
    Streams n k (ds ++ w.deeds w' i) w' := by
  have hw' := hs.inOrder h.inOrder
  -- What somebody has opened was opened before, or is opened with this step.
  have hcases {j link : Nat} (hm : link ∈ linksOf j (ds ++ w.deeds w' i)) :
      link ∈ linksOf j ds ∨ j = i ∧ w.opened? w' i = some link := by
    rw [linksOf_append] at hm
    refine (List.mem_append.mp hm).imp_right fun hm => ?_
    rw [linksOf_deeds] at hm
    split at hm
    · rename_i hi
      exact ⟨hi.symm, Option.mem_toList.mp hm⟩
    · cases hm
  have hheld {link : Nat} (ho : w.opened? w' i = some link) : w'.Holds i link .left := by
    obtain ⟨-, channel, x, ht⟩ := opened?_eq_some ho
    exact ⟨_, ht, rfl⟩
  have hnew {link : Nat} (hh : w'.Holds k link .left) : n ≤ link := by
    rcases hs.holds hh with hh | ⟨rfl, -⟩ | ⟨hs, -⟩
    · exact h.held link hh
    · exact h.grown
    · cases hs
  have hsingle {j link : Nat} (hn : n ≤ link) (hh : w'.Holds j link .left) : w'.Sole j link := by
    rcases hs.holds hh with hh | ⟨rfl, -, ⟨-, rfl⟩ | ⟨hs, -⟩⟩ | ⟨hs, -⟩
    · exact hs.sole (h.single j link hn hh) (h.inOrder.held _ _ _ hh)
    · exact hs.sole_opened h.inOrder
    · cases hs
    · cases hs
  -- Who opens a stream with this step is nobody else who has opened it.
  have hapart {j link : Nat} (hn : n ≤ link) (hm : link ∈ linksOf j ds)
      (ho : w.opened? w' i = some link) : i = j := by
    cases hs.opener ho with
    | dialing _ hl => exact absurd (h.there j link hm) (hl ▸ Nat.lt_irrefl _)
    | greeting ht => exact h.sole j link hn hm i ⟨_, ht, rfl⟩
  exact {
    inOrder := hw'
    grown := Nat.le_trans h.grown hs.length_links
    there := fun j link hm => by
      rcases hcases hm with hm | ⟨-, ho⟩
      · exact Nat.lt_of_lt_of_le (h.there j link hm) hs.length_links
      · exact hw'.held _ _ _ (hheld ho)
    held := fun link hh => hnew hh
    new := fun link hm => by
      rcases hcases hm with hm | ⟨rfl, ho⟩
      · exact h.new link hm
      · exact hnew (hheld ho)
    single := fun j link hn hh => hsingle hn hh
    sole := fun j link hn hm => by
      rcases hcases hm with hm | ⟨rfl, ho⟩
      · exact hs.sole (h.sole j link hn hm) (h.there j link hm)
      · exact hsingle hn (hheld ho)
    apart := fun j j' link hn hm hm' => by
      rcases hcases hm with hold | ⟨rfl, ho⟩
      · rcases hcases hm' with hold' | ⟨rfl, ho⟩
        · exact h.apart j j' link hn hold hold'
        · exact (hapart hn hold ho).symm
      · rcases hcases hm' with hold' | ⟨rfl, -⟩
        · exact hapart hn hold' ho
        · rfl }

/-- Whatever is done in a run, a task that holds no link at first has streams of its own. -/
theorem streams_of_run? (hw : w.InOrder) (hk : ∀ link, ¬ w.Holds k link .left)
    (hrun : run? moves w = some w') : Streams w.links.length k (ledger moves w) w' := by
  refine ledger_induct (P := Streams w.links.length k)
    (fun _ _ _ _ _ hP hs => hP.step (steps_of_step? hs)) (fun _ _ m hP _ => hP.later m) ?_ hrun
  exact {
    inOrder := hw
    grown := Nat.le_refl _
    there := fun _ _ hm => by cases hm
    held := fun link hh => absurd hh (hk link)
    new := fun _ hm => by cases hm
    single := fun j link hn hh => absurd (hw.held j link _ hh) (Nat.not_lt_of_le hn)
    sole := fun _ _ _ hm => by cases hm
    apart := fun _ _ _ _ hm => by cases hm }

theorem opened_of_taskOf {client : Client} {call : Call} {c : CallTask}
    (h : taskOf client call = .ok c) : c.Opened [] := by
  unfold taskOf at h
  split at h <;> cases h
  · exact Nat.zero_le _
  · rfl

/-- A call that was started opens one stream at most, and goes on with that one. -/
theorem opened_of_run? (ht : w.tasks[k]? = some (.call channel c)) (hc : c.Opened [])
    (hrun : run? moves w = some w') : w'.Opened k (ledger moves w) := by
  refine ledger_induct (P := fun ds w => w.Opened k ds)
    (fun _ _ _ _ _ hP hs => hP.step (steps_of_step? hs)) (fun _ _ _ hP _ => ⟨hP.once, hP.task⟩) ?_
    hrun
  refine ⟨Nat.zero_le _, fun channel' c' hc' => ?_⟩
  cases ht.symm.trans hc'
  exact hc

end World

end PeerCall
