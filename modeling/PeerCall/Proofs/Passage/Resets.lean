import PeerCall.Proofs.Passage

/-! # How a reader learns of a reset

A read that asks for at least one byte is told of a reset only where the writer has also ended the
stream and all that it wrote was read. Then that is the last there is to learn: nothing more is ever
accepted or read (`Passage.Spent.run`). A read that asks for nothing is told as soon as the writer was
reset, whatever is still under way (`Passage.told_by_empty_read`). Main statement:
`Passage.reset_told_of_run`. -/

namespace PeerCall.Passage

variable {w : Passage} {s s' : Side} {a : Act} {capacity : Nat}

/-! ## What a read is told -/

namespace Kept

/-- A read that asks for nothing looks at nothing but the reset. -/
theorem answer_read_zero (h : w.Kept capacity) (hs : ¬w.Did s .drop) :
    w.answer s (.read 0) =
      if w.link.wasReset.get s.other then .failed .reset else .read [] := by
  rw [h.answer_eq hs, Act.on, Link.read?_zero]
  split <;> rfl

/-- An end that is still there finds the other's direction shut just where the other end has shut it
down or is gone. -/
theorem shut_other_iff (h : w.Kept capacity) (hs : ¬w.Did s .drop) :
    w.link.shut s.other = true ↔ w.Did s.other .shutdown ∨ w.Did s.other .drop := by
  rw [h.shut s.other, Side.other_other, or_iff_left hs]

theorem read_reset_iff (h : w.Kept capacity) (hs : ¬w.Did s .drop) (hn : 0 < n) :
    w.answer s (.read n) = .failed .reset ↔ w.Did s.other .reset ∧
      w.received s = w.accepted s.other ∧ (w.Did s.other .shutdown ∨ w.Did s.other .drop) := by
  have hflow := h.flow_eq_nil_iff s.other
  rw [Side.other_other] at hflow
  rw [h.answer_read hs hn, ← h.wasReset, ← hflow, ← h.shut_other_iff hs]
  split
  case isTrue hne => exact iff_of_false nofun fun hc => hne hc.2.1
  case isFalse hnil =>
    have hnil := Classical.not_not.mp hnil
    split
    case isFalse hopen => exact iff_of_false nofun fun hc => hopen hc.2.2
    case isTrue hshut =>
      split
      case isTrue hr => exact iff_of_true rfl ⟨hr, hnil, hshut⟩
      case isFalse hr => exact iff_of_false nofun fun hc => hr hc.1

theorem read_zero_reset_iff (h : w.Kept capacity) (hs : ¬w.Did s .drop) :
    w.answer s (.read 0) = .failed .reset ↔ w.Did s.other .reset := by
  rw [h.answer_read_zero hs, ← h.wasReset]
  split
  case isTrue hr => exact iff_of_true rfl hr
  case isFalse hr => exact iff_of_false nofun hr

end Kept

/-! ## Nothing more to come -/

/-- Nothing can be written by the other end any more, and all that it wrote was read. -/
structure Spent (w : Passage) (s : Side) : Prop where
  shut : w.Did s.other .shutdown ∨ w.Did s.other .drop
  drained : w.received s = w.accepted s.other

theorem Did.act {p : Parting} (h : w.Did s p) (s' : Side) (a : Act) : (w.act s' a).Did s p :=
  List.mem_append_left _ h

/-- A direction that was shut accepts nothing. -/
theorem Kept.accepted_act (h : w.Kept capacity) (hshut : w.link.shut s = true) (s' : Side)
    (a : Act) : (w.act s' a).accepted s = w.accepted s := by
  suffices hnone : Entry.accepted s ⟨s', a, w.answer s' a⟩ = [] by
    rw [accepted, act, List.flatMap_append, List.flatMap_singleton, hnone, List.append_nil]
    rfl
  by_cases hs : s' = s
  case neg => cases a <;> cases w.answer s' _ <;> simp [Entry.accepted, hs]
  subst hs
  by_cases hgone : w.Did s' .drop
  · have hanswer : w.answer s' a = .gone := if_pos ((h.gone s').mpr hgone)
    rw [hanswer]
    cases a <;> rfl
  cases a with
  | write bs =>
    by_cases hb : bs = []
    · cases w.answer s' _ <;> simp [Entry.accepted, hb]
    · rw [h.answer_write hgone hb, if_pos hshut]
      split <;> rfl
  | _ => rfl

/-- What is spent stays so. -/
theorem Spent.act (h : w.Spent s) (hw : w.Kept capacity) (s' : Side) (a : Act) :
    (w.act s' a).Spent s ∧ (w.act s' a).received s = w.received s := by
  have hshut : w.link.shut s.other = true := (hw.shut s.other).mpr (h.shut.imp_right .inl)
  have haccepted := hw.accepted_act hshut s' a
  have hbytes := (hw.step (acts_of_act w s' a)).bytes s.other
  rw [Side.other_other] at hbytes
  have hreceived : (w.act s' a).received s = w.received s := by
    -- it got at least what it had got, and cannot have got more than was accepted
    obtain ⟨more, hmore⟩ : w.received s <+: (w.act s' a).received s := by
      rw [received, received, Passage.act, List.flatMap_append]
      exact List.prefix_append ..
    have hall : (w.act s' a).accepted s.other =
        (w.act s' a).received s ++ (w.act s' a).link.flow s.other := hbytes
    rw [haccepted, ← h.drained, ← hmore, List.append_assoc, List.self_eq_append_right] at hall
    rw [← hmore, (List.append_eq_nil_iff.mp hall).1, List.append_nil]
  refine ⟨⟨h.shut.imp (·.act s' a) (·.act s' a), ?_⟩, hreceived⟩
  rw [hreceived, haccepted, h.drained]

theorem Spent.run (h : w.Spent s) (hw : w.Kept capacity) (acts : List (Side × Act)) :
    (w.run acts).Spent s ∧ (w.run acts).received s = w.received s := by
  induction acts generalizing w with
  | nil => exact ⟨h, rfl⟩
  | cons c acts ih =>
    obtain ⟨hspent, hreceived⟩ := h.act hw c.1 c.2
    obtain ⟨hspent', hreceived'⟩ := ih hspent (hw.step (acts_of_act w c.1 c.2))
    exact ⟨hspent', hreceived'.trans hreceived⟩

/-! ## Whatever the ends do -/

/-- Whatever the two ends of a fresh link do, an end that reads is told of a reset just where the
other end was reset and, if at least one byte is asked for, has ended its direction as well and all of
its bytes were read. So no such read is told while bytes are waiting, and once one is told there
will never be another byte: what was read until then is all that the other end ever gets accepted. -/
theorem reset_told_of_run (capacity : Nat) (acts : List (Side × Act)) (s : Side) (n : Nat) :
    let w := (ofCapacity capacity).run acts
    (w.answer s (.read n) = .failed .reset ↔ ¬w.Did s .drop ∧ w.Did s.other .reset ∧
      (0 < n → w.received s = w.accepted s.other ∧
        (w.Did s.other .shutdown ∨ w.Did s.other .drop))) ∧
    (0 < n → w.answer s (.read n) = .failed .reset → ∀ later,
      (w.run later).received s = w.received s ∧
        (w.run later).accepted s.other = w.received s) := by
  intro w
  have hw : w.Kept capacity := (kept_ofCapacity capacity).run acts
  have htold : w.answer s (.read n) = .failed .reset ↔ ¬w.Did s .drop ∧ w.Did s.other .reset ∧
      (0 < n → w.received s = w.accepted s.other ∧
        (w.Did s.other .shutdown ∨ w.Did s.other .drop)) := by
    by_cases hs : w.Did s .drop
    · have hgone : w.answer s (.read n) = .gone := if_pos ((hw.gone s).mpr hs)
      rw [hgone]
      exact iff_of_false nofun fun hc => hc.1 hs
    rcases Nat.eq_zero_or_pos n with rfl | hn
    · rw [hw.read_zero_reset_iff hs]
      exact ⟨fun hr => ⟨hs, hr, nofun⟩, fun hc => hc.2.1⟩
    · rw [hw.read_reset_iff hs hn]
      exact ⟨fun ⟨hr, hd⟩ => ⟨hs, hr, fun _ => hd⟩, fun hc => ⟨hc.2.1, hc.2.2 hn⟩⟩
  refine ⟨htold, fun hn hreset later => ?_⟩
  obtain ⟨hdrained, hshut⟩ := (htold.mp hreset).2.2 hn
  obtain ⟨hspent, hreceived⟩ := Spent.run ⟨hshut, hdrained⟩ hw later
  exact ⟨hreceived, hspent.drained.symm.trans hreceived⟩

/-- The left end says something and leaves in anger. -/
def outburst : List (Side × Act) :=
  [(.left, .write [1, 2]), (.left, .part .reset), (.left, .part .drop)]

/-- Once the right end has read what was said it is told of the reset, and that is all for ever. -/
theorem reset_told_behind_bytes :
    let w := (ofCapacity 4).run (outburst ++ [(.right, .read 8)])
    w.answer .right (.read 8) = .failed .reset ∧
      ∀ later, (w.run later).received .right = [1, 2] := by
  have htold : ((ofCapacity 4).run (outburst ++ [(.right, .read 8)])).answer .right (.read 8) =
      .failed .reset := by decide
  obtain ⟨-, hlast⟩ := reset_told_of_run 4 (outburst ++ [(.right, .read 8)]) .right 8
  exact ⟨htold, fun later => (hlast (by decide) htold later).1.trans (by decide)⟩

/-- But if it asks for nothing it is told at once, while all that was said is still there to be
read. -/
theorem told_by_empty_read :
    let w := (ofCapacity 4).run outburst
    w.answer .right (.read 0) = .failed .reset ∧ w.received .right = [] ∧
      w.accepted .left = [1, 2] ∧ w.answer .right (.read 8) = .read [1, 2] := by
  decide

end PeerCall.Passage
