import PeerCall.Proofs.Speech

/-! # Passages

Both ends of a fresh link make calls in any order, and each call is entered with what it was told in
a log. From the log alone one can tell which bytes each direction accepted and which came out of it,
and how each end was left. The log agrees with the link at every moment (`Passage.Kept`), so nothing
is lost, doubled or put in another order. One direction does not depend on the bytes of the other: a
log without the calls that only concern the other direction is the log of the calls that are left
(`Passage.told_run`). Main statement: `Passage.faithful_of_run`. -/

namespace PeerCall

theorem Side.self_or_other (s s' : Side) : s' = s ∨ s' = s.other := by
  cases s <;> cases s' <;> simp [other]

namespace Passage

/-! ## Calls and what they are told -/

/-- A call that an end of a link can make. -/
inductive Act
  | read (n : Nat)
  | write (bs : Bytes)
  | flush
  | part (p : Parting)
  deriving DecidableEq

/-- What a call is told. -/
inductive Notice
  | read (bs : Bytes)
  | wrote (n : Nat)
  | done
  | failed (e : IoError)
  /-- There is nothing to tell yet. -/
  | waits
  /-- The end was dropped before. -/
  | gone
  deriving DecidableEq

/-- What is told of an operation on a link, and the link after it. -/
def tell (told : α → Notice) (l : Link) : Option (Except IoError α × Link) → Notice × Link
  | none => (.waits, l)
  | some (.error e, l) => (.failed e, l)
  | some (.ok a, l) => (told a, l)

/-- A call of an end on the link. -/
def Act.on (s : Side) (l : Link) : Act → Notice × Link
  | read n => tell .read l (l.read? s n)
  | write bs => tell .wrote l (l.write? s bs)
  | flush => (.done, l)
  | part p => (.done, p.act s l)

/-- Whether the end is gone after a call. -/
def Act.drops : Act → Bool
  | part .drop => true
  | _ => false

/-- A line of the log. -/
structure Entry where
  side : Side
  act : Act
  notice : Notice
  deriving DecidableEq

namespace Entry

/-- The bytes of an end that the link took in a call. -/
def accepted (s : Side) : Entry → Bytes
  | ⟨s', .write bs, .wrote n⟩ => if s' = s then bs.take n else []
  | _ => []

/-- The bytes that an end got in a call. -/
def received (s : Side) : Entry → Bytes
  | ⟨s', .read _, .read bs⟩ => if s' = s then bs else []
  | _ => []

end Entry

/-- Whether a call has to do with the bytes that the end `s` sends: where it writes them, ends them,
or the other end reads them, and where either end resets or drops the link. -/
def Act.concerns (s s' : Side) : Act → Bool
  | read _ => s' = s.other
  | write _ => s' = s
  | flush => false
  | part .shutdown => s' = s
  | part _ => true

end Passage

/-- A link, which ends of it are gone, and all calls so far. -/
structure Passage where
  link : Link
  gone : Sides Bool := ⟨false, false⟩
  log : List Passage.Entry := []

namespace Passage

/-- A fresh link on which nothing was done yet. -/
def ofCapacity (capacity : Nat) : Passage := { link := .ofCapacity capacity }

/-- What a call would be told now. -/
def answer (w : Passage) (s : Side) (a : Act) : Notice :=
  if w.gone.get s then .gone else (a.on s w.link).1

/-- An end makes a call. An end that is gone changes nothing. -/
def act (w : Passage) (s : Side) (a : Act) : Passage where
  link := if w.gone.get s then w.link else (a.on s w.link).2
  gone := if a.drops then w.gone.set s true else w.gone
  log := w.log ++ [⟨s, a, w.answer s a⟩]

/-- The ends make calls in any order. -/
def run (w : Passage) : List (Side × Act) → Passage
  | [] => w
  | (s, a) :: acts => (w.act s a).run acts

/-- All bytes of an end that the link took. -/
def accepted (w : Passage) (s : Side) : Bytes := w.log.flatMap (Entry.accepted s)

/-- All bytes that an end got. -/
def received (w : Passage) (s : Side) : Bytes := w.log.flatMap (Entry.received s)

/-- An end has shut its direction down, or was reset or dropped. -/
def Did (w : Passage) (s : Side) (p : Parting) : Prop := ⟨s, .part p, .done⟩ ∈ w.log

instance (w : Passage) (s : Side) (p : Parting) : Decidable (w.Did s p) :=
  inferInstanceAs (Decidable (_ ∈ _))

/-- The part of the log that concerns the bytes of an end. -/
def told (w : Passage) (s : Side) : List Entry := w.log.filter fun e => e.act.concerns s e.side

/-- The calls that concern the bytes of an end. -/
def about (s : Side) (acts : List (Side × Act)) : List (Side × Act) :=
  acts.filter fun c => c.2.concerns s c.1

/-! ## What a call does -/

/-- A call that moves no bytes and ends nothing. -/
inductive Idle : Act → Notice → Prop
  | gone {a} : Idle a .gone
  | waits {a} : Idle a .waits
  | failed {a e} : Idle a (.failed e)
  | flush : Idle .flush .done
  | nothingRead {n} : Idle (.read n) (.read [])
  | nothingWritten {bs} : Idle (.write bs) (.wrote 0)

/-- What a call can do. -/
inductive Acts (w : Passage) (s : Side) : Act → Notice → Link → Prop
  | idle {a notice} (h : Idle a notice) (hd : a.drops = true → w.gone.get s = true) :
    Acts w s a notice w.link
  | takes {n} : Acts w s (.read n) (.read ((w.link.flow s.other).take n)) (w.link.take s n)
  | puts {bs n} (hfit : (w.link.flow s).length + n ≤ w.link.bound s) :
    Acts w s (.write bs) (.wrote n) (w.link.put s (bs.take n))
  | parts {p} : Acts w s (.part p) .done (p.act s w.link)

variable {w v : Passage} {s s' : Side} {a : Act} {notice : Notice} {link : Link} {capacity : Nat}

theorem acts_read (w : Passage) (s : Side) (n : Nat) :
    w.Acts s (.read n) (Act.on s w.link (.read n)).1 (Act.on s w.link (.read n)).2 := by
  rw [Act.on]
  rcases Nat.eq_zero_or_pos n with rfl | hn
  · rw [Link.read?_zero]
    split
    · exact .idle .failed nofun
    · exact .idle .nothingRead nofun
  rw [Link.read?_eq _ _ hn]
  split
  · exact .takes
  split
  · split
    · exact .idle .failed nofun
    · exact .idle .nothingRead nofun
  · exact .idle .waits nofun

theorem acts_write (w : Passage) (s : Side) (bs : Bytes) :
    w.Acts s (.write bs) (Act.on s w.link (.write bs)).1 (Act.on s w.link (.write bs)).2 := by
  rw [Act.on]
  by_cases hb : bs = []
  · rw [hb, Link.write?_nil]
    split
    · exact .idle .failed nofun
    split
    · exact .idle .failed nofun
    · exact .idle .nothingWritten nofun
  rw [Link.write?_eq _ _ hb]
  split
  · exact .idle .failed nofun
  split
  · exact .idle .failed nofun
  split
  · exact .idle .waits nofun
  · apply Acts.puts
    omega

theorem acts_of_act (w : Passage) (s : Side) (a : Act) :
    w.Acts s a (w.answer s a) (w.act s a).link := by
  by_cases hg : w.gone.get s
  · have hlink : (w.act s a).link = w.link := if_pos hg
    rw [answer, if_pos hg, hlink]
    exact .idle .gone fun _ => hg
  have hlink : (w.act s a).link = (a.on s w.link).2 := if_neg hg
  rw [answer, if_neg hg, hlink]
  cases a with
  | read n => exact w.acts_read s n
  | write bs => exact w.acts_write s bs
  | flush => exact .idle .flush nofun
  | part p => exact .parts

/-! ## The log tells the link -/

/-- What the log of a passage has to do with its link. -/
structure Kept (capacity : Nat) (w : Passage) : Prop where
  bytes : ∀ s, w.accepted s = w.received s.other ++ w.link.flow s
  bound : ∀ s, w.link.bound s = capacity
  room : ∀ s, (w.link.flow s).length ≤ capacity
  wasReset : ∀ s, w.link.wasReset.get s = true ↔ w.Did s .reset
  gone : ∀ s, w.gone.get s = true ↔ w.Did s .drop
  shut : ∀ s, w.link.shut s = true ↔ w.Did s .shutdown ∨ w.Did s .drop ∨ w.Did s.other .drop

theorem kept_ofCapacity (capacity : Nat) : (ofCapacity capacity).Kept capacity where
  bytes s := by simp [ofCapacity, accepted, received]
  bound s := by simp [ofCapacity]
  room s := by simp [ofCapacity]
  wasReset s := by simp [ofCapacity, Did]
  gone s := by cases s <;> simp [ofCapacity, Did, Sides.get]
  shut s := by simp [ofCapacity, Did]

/-- The passage after a call of which all is known. -/
def after (w : Passage) (s : Side) (a : Act) (notice : Notice) (link : Link) : Passage where
  link := link
  gone := if a.drops then w.gone.set s true else w.gone
  log := w.log ++ [⟨s, a, notice⟩]

@[simp] theorem link_after : (w.after s a notice link).link = link := rfl

@[simp] theorem accepted_after : (w.after s a notice link).accepted s' =
    w.accepted s' ++ Entry.accepted s' ⟨s, a, notice⟩ := by
  simp [accepted, after]

@[simp] theorem received_after : (w.after s a notice link).received s' =
    w.received s' ++ Entry.received s' ⟨s, a, notice⟩ := by
  simp [received, after]

@[simp] theorem did_after {p : Parting} : (w.after s a notice link).Did s' p ↔
    w.Did s' p ∨ (s' = s ∧ .part p = a ∧ .done = notice) := by
  simp [Did, after]

@[simp] theorem gone_after : (w.after s a notice link).gone.get s' =
    (w.gone.get s' || (a.drops && decide (s' = s))) := by
  cases a with
  | part p => cases p <;> cases s <;> cases s' <;> simp [after, Act.drops, Sides.get, Sides.set]
  | _ => simp [after, Act.drops]

namespace Idle

theorem accepted_eq (h : Idle a notice) : Entry.accepted s' ⟨s, a, notice⟩ = [] := by
  cases h <;> simp [Entry.accepted]

theorem received_eq (h : Idle a notice) : Entry.received s' ⟨s, a, notice⟩ = [] := by
  cases h <;> simp [Entry.received]

theorem not_part {p : Parting} (h : Idle a notice) : ¬(.part p = a ∧ .done = notice) := by
  rintro ⟨rfl, rfl⟩
  cases h

end Idle

/-- What is under way from an end grows by what the link takes of it. -/
theorem Acts.flow_self (h : w.Acts s a notice link) :
    link.flow s = w.link.flow s ++ Entry.accepted s ⟨s, a, notice⟩ := by
  cases h with
  | idle hi => rw [hi.accepted_eq, List.append_nil]
  | takes | puts | parts => simp [Entry.accepted]

/-- A call that ends nothing need only account for the bytes. -/
theorem Kept.moved (h : w.Kept capacity) (hn : ∀ p, ¬(.part p = a ∧ .done = notice))
    (hd : a.drops = true → w.gone.get s = true) (hbound : ∀ s', link.bound s' = w.link.bound s')
    (hshut : ∀ s', link.shut s' = w.link.shut s') (hreset : link.wasReset = w.link.wasReset)
    (hbytes : ∀ s', (w.after s a notice link).accepted s' =
      (w.after s a notice link).received s'.other ++ link.flow s')
    (hroom : ∀ s', (link.flow s').length ≤ capacity) :
    (w.after s a notice link).Kept capacity := by
  have hdid (s' : Side) (p : Parting) : (w.after s a notice link).Did s' p ↔ w.Did s' p := by
    rw [did_after]
    exact or_iff_left fun h => hn p h.2
  refine ⟨hbytes, fun s' => (hbound s').trans (h.bound s'), hroom, fun s' => ?_, fun s' => ?_,
    fun s' => ?_⟩
  · rw [link_after, hreset, hdid]
    exact h.wasReset s'
  · have hgone : (w.after s a notice link).gone.get s' = w.gone.get s' := by
      rw [gone_after, Bool.or_eq_left_iff_imp]
      intro hs
      rw [Bool.and_eq_true, decide_eq_true_iff] at hs
      rw [hs.2]
      exact hd hs.1
    rw [hgone, hdid]
    exact h.gone s'
  · rw [link_after, hshut, hdid, hdid, hdid]
    exact h.shut s'

/-- A call keeps the log true to the link. -/
theorem Kept.step (h : w.Kept capacity) (ha : w.Acts s a notice link) :
    (w.after s a notice link).Kept capacity := by
  cases ha with
  | idle hi hd =>
    apply h.moved (fun _ => hi.not_part) hd (fun _ => rfl) (fun _ => rfl) rfl
    · intro s'
      rw [accepted_after, received_after, hi.accepted_eq, hi.received_eq, List.append_nil,
        List.append_nil]
      exact h.bytes s'
    · exact h.room
  | @takes n =>
    refine h.moved nofun nofun (fun _ => Link.bound_take ..) (fun _ => Link.shut_take ..) rfl ?_ ?_
    · intro s'
      rw [accepted_after, received_after, h.bytes s', Link.flow_take]
      obtain rfl | rfl := s.self_or_other s'
      · simp [Entry.accepted, Entry.received]
      · simp [Entry.accepted, Entry.received]
    · intro s'
      rw [Link.flow_take]
      split
      · exact h.room s'
      · exact Nat.le_trans (List.length_drop ▸ Nat.sub_le ..) (h.room s')
  | @puts bs n hfit =>
    refine h.moved nofun nofun (fun _ => Link.bound_put ..) (fun _ => Link.shut_put ..) rfl ?_ ?_
    · intro s'
      rw [accepted_after, received_after, h.bytes s', Link.flow_put]
      obtain rfl | rfl := s.self_or_other s'
      · simp [Entry.accepted, Entry.received]
      · simp [Entry.accepted, Entry.received]
    · intro s'
      rw [Link.flow_put]
      split
      · rename_i hs
        subst hs
        rw [List.length_append, List.length_take]
        have := h.bound s'
        omega
      · exact h.room s'
  | @parts p =>
    constructor
    · intro s'
      rw [accepted_after, received_after, link_after, Parting.flow_act, h.bytes s']
      simp [Entry.accepted, Entry.received]
    · intro s'
      rw [link_after, Parting.bound_act, h.bound s']
    · intro s'
      rw [link_after, Parting.flow_act]
      exact h.room s'
    · intro s'
      rw [link_after, did_after, ← h.wasReset s']
      cases p <;> simp [Parting.act, or_comm]
    · intro s'
      rw [gone_after, did_after, Bool.or_eq_true, h.gone s']
      cases p <;> simp [Act.drops]
    · intro s'
      have hs := h.shut s'
      obtain rfl | rfl := s.self_or_other s'
      · cases p <;> simp [Parting.act, hs]
      · cases p <;> simp [Parting.act, hs]

theorem Kept.run (h : w.Kept capacity) (acts : List (Side × Act)) :
    (w.run acts).Kept capacity := by
  induction acts generalizing w with
  | nil => exact h
  | cons c acts ih => exact ih (h.step (acts_of_act w c.1 c.2))

/-! ## What the ends can rely on -/

/-- What the log of a passage says about both directions, and what the next call of an end will be
told. -/
structure Faithful (capacity : Nat) (w : Passage) : Prop where
  /-- What came out of a direction is a front of what went in. -/
  inOrder : ∀ s, w.received s.other <+: w.accepted s
  bounded : ∀ s, (w.accepted s).length ≤ (w.received s.other).length + capacity
  /-- While there are bytes to be read, a read brings the next of them. -/
  delivers : ∀ s n, 0 < n → ¬w.Did s .drop → w.received s ≠ w.accepted s.other →
    ∃ bs, bs ≠ [] ∧ bs.length ≤ n ∧ w.answer s (.read n) = .read bs ∧
      w.received s ++ bs <+: w.accepted s.other
  endsCleanly : ∀ s n, 0 < n → (w.answer s (.read n) = .read [] ↔
    ¬w.Did s .drop ∧ w.received s = w.accepted s.other ∧
      (w.Did s.other .shutdown ∨ w.Did s.other .drop) ∧ ¬w.Did s.other .reset)
  tellsReset : ∀ s bs, bs ≠ [] → ¬w.Did s .drop →
    (w.answer s (.write bs) = .failed .reset ↔ w.Did s.other .reset)
  tellsBroken : ∀ s bs, bs ≠ [] → ¬w.Did s .drop →
    (w.answer s (.write bs) = .failed .brokenPipe ↔
      ¬w.Did s.other .reset ∧ (w.Did s .shutdown ∨ w.Did s.other .drop))
  /-- A write that is not refused waits while the direction is full, and else puts a front of its
  bytes on their way. -/
  accepts : ∀ s bs, bs ≠ [] → ¬w.Did s .drop → ¬w.Did s.other .reset → ¬w.Did s .shutdown →
    ¬w.Did s.other .drop →
    (w.accepted s).length = (w.received s.other).length + capacity ∧
        w.answer s (.write bs) = .waits ∨
      ∃ n, 0 < n ∧ n ≤ bs.length ∧ w.answer s (.write bs) = .wrote n ∧
        (w.accepted s).length + n ≤ (w.received s.other).length + capacity

namespace Kept

theorem answer_eq (h : w.Kept capacity) (hs : ¬w.Did s .drop) (a : Act) :
    w.answer s a = (a.on s w.link).1 :=
  if_neg (mt (h.gone s).mp hs)

theorem flow_eq_nil_iff (h : w.Kept capacity) (s : Side) :
    w.link.flow s = [] ↔ w.received s.other = w.accepted s := by
  rw [h.bytes s]
  exact List.self_eq_append_right.symm

theorem length_accepted (h : w.Kept capacity) (s : Side) :
    (w.accepted s).length = (w.received s.other).length + (w.link.flow s).length := by
  rw [h.bytes s, List.length_append]

/-- An end that is still there can write no more just where it has shut its direction down or the
other end is gone. -/
theorem shut_iff (h : w.Kept capacity) (hs : ¬w.Did s .drop) :
    w.link.shut s = true ↔ w.Did s .shutdown ∨ w.Did s.other .drop := by
  rw [h.shut s, or_iff_right hs]

theorem answer_read (h : w.Kept capacity) (hs : ¬w.Did s .drop) (hn : 0 < n) :
    w.answer s (.read n) =
      if w.link.flow s.other ≠ [] then .read ((w.link.flow s.other).take n)
      else if w.link.shut s.other then
        if w.link.wasReset.get s.other then .failed .reset else .read []
      else .waits := by
  rw [h.answer_eq hs, Act.on, Link.read?_eq _ _ hn]
  split
  · rfl
  split
  · split <;> rfl
  · rfl

theorem answer_write (h : w.Kept capacity) (hs : ¬w.Did s .drop) (hb : bs ≠ []) :
    w.answer s (.write bs) =
      if w.link.wasReset.get s.other then .failed .reset
      else if w.link.shut s then .failed .brokenPipe
      else if w.link.bound s ≤ (w.link.flow s).length then .waits
      else .wrote (min (w.link.bound s - (w.link.flow s).length) bs.length) := by
  rw [h.answer_eq hs, Act.on, Link.write?_eq _ _ hb]
  split
  · rfl
  split
  · rfl
  · split <;> rfl

theorem faithful (h : w.Kept capacity) : w.Faithful capacity where
  inOrder s := ⟨w.link.flow s, (h.bytes s).symm⟩
  bounded s := by
    have := h.room s
    rw [h.length_accepted s]
    omega
  delivers s n hn hs hne := by
    have hf : w.link.flow s.other ≠ [] := by
      rwa [Ne, h.flow_eq_nil_iff, Side.other_other]
    refine ⟨_, Bytes.take_ne_nil hn hf, List.length_take_le .., ?_, ?_⟩
    · rw [h.answer_read hs hn, if_pos hf]
    · rw [h.bytes s.other, Side.other_other, List.prefix_append_right_inj]
      exact List.take_prefix ..
  endsCleanly s n hn := by
    by_cases hs : w.Did s .drop
    · have hgone : w.answer s (.read n) = .gone := if_pos ((h.gone s).mpr hs)
      simp [hgone, hs]
    · have hshut := h.shut s.other
      have hf := h.flow_eq_nil_iff s.other
      rw [Side.other_other, or_iff_left hs] at hshut
      rw [Side.other_other] at hf
      rw [h.answer_read hs hn, ← hf, ← hshut, ← h.wasReset]
      split
      case isTrue hne =>
        have ht := Bytes.take_ne_nil hn hne
        exact iff_of_false (fun he => ht (Notice.read.inj he)) fun hc => hne hc.2.1
      case isFalse hnil =>
        split
        case isTrue hend =>
          split
          case isTrue hr => exact iff_of_false nofun fun hc => hc.2.2.2 hr
          case isFalse hr => exact iff_of_true rfl ⟨hs, Classical.not_not.mp hnil, hend, hr⟩
        case isFalse hopen => exact iff_of_false nofun fun hc => hopen hc.2.2.1
  tellsReset s bs hb hs := by
    rw [h.answer_write hs hb, ← h.wasReset]
    split
    case isTrue hr => exact iff_of_true rfl hr
    case isFalse hr =>
      refine iff_of_false ?_ hr
      split
      · exact nofun
      · split <;> exact nofun
  tellsBroken s bs hb hs := by
    rw [h.answer_write hs hb, ← h.wasReset, ← h.shut_iff hs]
    split
    case isTrue hr => exact iff_of_false nofun fun hc => hc.1 hr
    case isFalse hr =>
      split
      case isTrue hshut => exact iff_of_true rfl ⟨hr, hshut⟩
      case isFalse hopen =>
        refine iff_of_false ?_ fun hc => hopen hc.2
        split <;> exact nofun
  accepts s bs hb hs hr hshut hdrop := by
    have hopen : ¬w.link.shut s := fun hc => ((h.shut_iff hs).mp hc).elim hshut hdrop
    have hroom := h.room s
    have hbound := h.bound s
    have hpos := List.length_pos_iff.mpr hb
    rw [h.answer_write hs hb, if_neg (mt (h.wasReset s.other).mp hr), if_neg hopen,
      h.length_accepted s]
    by_cases hfull : w.link.bound s ≤ (w.link.flow s).length
    · left
      rw [if_pos hfull]
      exact ⟨by omega, rfl⟩
    · right
      rw [if_neg hfull]
      refine ⟨_, ?_, ?_, rfl, ?_⟩ <;> omega

end Kept

/-! ## One direction alone -/

/-- Two passages in which the direction that `s` writes stands alike. -/
structure Alike (s : Side) (w v : Passage) : Prop where
  outgoing : w.link.outgoing s = v.link.outgoing s
  wasReset : w.link.wasReset = v.link.wasReset
  gone : w.gone = v.gone
  told : w.told s = v.told s

theorem told_act (w : Passage) (s s' : Side) (a : Act) : (w.act s' a).told s =
    w.told s ++ if a.concerns s s' then [⟨s', a, w.answer s' a⟩] else [] := by
  rw [told, told, act, List.filter_append, List.filter_cons, List.filter_nil]

private theorem Link.outgoing_drop {l : Link} :
    (l.drop s').outgoing s = (l.outgoing s).close := by
  cases s <;> cases s' <;> rfl

/-- A call that concerns a direction sees no more of the link than that direction and the resets. -/
theorem Act.on_alike {l m : Link} (ha : a.concerns s s' = true)
    (ho : l.outgoing s = m.outgoing s) (hr : l.wasReset = m.wasReset) :
    (a.on s' l).1 = (a.on s' m).1 ∧ (a.on s' l).2.outgoing s = (a.on s' m).2.outgoing s ∧
      (a.on s' l).2.wasReset = (a.on s' m).2.wasReset := by
  cases a with
  | read n =>
    obtain rfl : s' = s.other := of_decide_eq_true ha
    have hin : l.incoming s.other = m.incoming s.other := by
      rwa [Link.incoming, Link.incoming, Side.other_other]
    simp only [Act.on, Link.read?, hin, hr]
    cases (m.incoming s.other).read? n with
    | none => exact ⟨rfl, ho, hr⟩
    | some r =>
      dsimp only
      split
      · exact ⟨rfl, ho, hr⟩
      · exact ⟨rfl, by simp [tell, Link.outgoing], rfl⟩
  | write bs =>
    obtain rfl : s' = s := of_decide_eq_true ha
    simp only [Act.on, Link.write?, ho, hr]
    split
    · exact ⟨rfl, ho, hr⟩
    · rcases (m.outgoing s').write? bs with _ | e | r
      · exact ⟨rfl, ho, hr⟩
      · exact ⟨rfl, ho, hr⟩
      · exact ⟨rfl, by simp [tell, Link.outgoing], rfl⟩
  | flush => cases ha
  | part p =>
    refine ⟨rfl, ?_, ?_⟩
    · cases p with
      | shutdown =>
        obtain rfl : s' = s := of_decide_eq_true ha
        simp only [Act.on, Parting.act, Link.shutdown, ho]
        simp [Link.outgoing]
      | reset => exact ho
      | drop => simp only [Act.on, Parting.act, Link.outgoing_drop, ho]
    · cases p with
      | reset => simp only [Act.on, Parting.act, Link.reset, hr]
      | shutdown => exact hr
      | drop => exact hr

/-- A call that does not concern a direction leaves it as it is. -/
theorem Act.on_spares {l : Link} (ha : a.concerns s s' = false) :
    (a.on s' l).2.outgoing s = l.outgoing s ∧ (a.on s' l).2.wasReset = l.wasReset ∧
      a.drops = false := by
  cases a with
  | read n =>
    obtain rfl : s' = s := (s.self_or_other s').resolve_right (of_decide_eq_false ha)
    cases h : l.read? s' n with
    | none =>
      rw [Act.on, h]
      exact ⟨rfl, rfl, rfl⟩
    | some r =>
      have hlink : (Act.on s' l (.read n)).2 = l.take s' n := by
        rw [Act.on, h, ← Link.link_of_read? h]
        rcases r with ⟨_ | _, _⟩ <;> rfl
      rw [hlink]
      exact ⟨by simp [Link.take, Link.outgoing], rfl, rfl⟩
  | write bs =>
    obtain rfl : s' = s.other := (s.self_or_other s').resolve_left (of_decide_eq_false ha)
    simp only [Act.on, Link.write?]
    split
    · exact ⟨rfl, rfl, rfl⟩
    · rcases (l.outgoing s.other).write? bs with _ | e | r
      · exact ⟨rfl, rfl, rfl⟩
      · exact ⟨rfl, rfl, rfl⟩
      · exact ⟨by simp [tell, Link.outgoing], rfl, rfl⟩
  | flush => exact ⟨rfl, rfl, rfl⟩
  | part p =>
    cases p with
    | shutdown =>
      obtain rfl : s' = s.other := (s.self_or_other s').resolve_left (of_decide_eq_false ha)
      exact ⟨by simp [Act.on, Parting.act, Link.shutdown, Link.outgoing], rfl, rfl⟩
    | reset => cases ha
    | drop => cases ha

namespace Alike

theorem act (h : w.Alike s v) (ha : a.concerns s s' = true) :
    (w.act s' a).Alike s (v.act s' a) := by
  obtain ⟨hnotice, hout, hreset⟩ := Act.on_alike ha h.outgoing h.wasReset
  have hanswer : w.answer s' a = v.answer s' a := by rw [answer, answer, h.gone, hnotice]
  constructor
  · simp only [Passage.act, h.gone]
    split
    · exact h.outgoing
    · exact hout
  · simp only [Passage.act, h.gone]
    split
    · exact h.wasReset
    · exact hreset
  · simp only [Passage.act, h.gone]
  · rw [told_act, told_act, h.told, hanswer]

theorem skip (h : w.Alike s v) (ha : a.concerns s s' = false) : (w.act s' a).Alike s v := by
  obtain ⟨hout, hreset, hdrops⟩ := Act.on_spares (l := w.link) ha
  constructor
  · simp only [Passage.act]
    split
    · exact h.outgoing
    · exact hout.trans h.outgoing
  · simp only [Passage.act]
    split
    · exact h.wasReset
    · exact hreset.trans h.wasReset
  · rw [Passage.act, hdrops]
    exact h.gone
  · rw [told_act, ha]
    exact (List.append_nil _).trans h.told

/-- The calls that do not concern a direction can be left out. -/
theorem run (h : w.Alike s v) (acts : List (Side × Act)) :
    (w.run acts).Alike s (v.run (about s acts)) := by
  induction acts generalizing w v with
  | nil => exact h
  | cons c acts ih =>
    cases hc : c.2.concerns s c.1 with
    | true =>
      rw [about, List.filter_cons, if_pos hc]
      exact ih (h.act hc)
    | false =>
      rw [about, List.filter_cons, if_neg (ne_true_of_eq_false hc)]
      exact ih (h.skip hc)

end Alike

/-- What is told about a direction is what would be told if nothing else was done. -/
theorem told_run (w : Passage) (s : Side) (acts : List (Side × Act)) :
    (w.run acts).told s = (w.run (about s acts)).told s :=
  (Alike.run ⟨rfl, rfl, rfl, rfl⟩ acts).told

theorem Entry.accepted_eq_nil {e : Entry} (h : e.act.concerns s e.side = false) :
    e.accepted s = [] := by
  unfold accepted
  split
  · exact if_neg (of_decide_eq_false h)
  · rfl

/-- The bytes that a direction accepted show in what is told about it. -/
theorem accepted_eq (w : Passage) (s : Side) :
    w.accepted s = (w.told s).flatMap (Entry.accepted s) := by
  rw [accepted, told]
  induction w.log with
  | nil => rfl
  | cons e log ih =>
    rw [List.flatMap_cons, List.filter_cons, ih]
    cases hc : e.act.concerns s e.side with
    | true => rfl
    | false => rw [Entry.accepted_eq_nil hc]; rfl

/-- Whatever the two ends of a fresh link do, what comes out of each direction is a front of what it
accepted, and no more than the capacity is under way. While bytes are under way a read brings the
next of them, and a clean end is read just where all was read, the writer has shut its direction
down or is gone, and was not reset. A write is refused for a reset of the other end, else because
its own direction was ended from either end, and never otherwise: it puts a front of its bytes on
their way, or waits while there is no room. What one direction accepts is the same whatever is done
that concerns only the other. -/
theorem faithful_of_run (capacity : Nat) (acts : List (Side × Act)) :
    ((ofCapacity capacity).run acts).Faithful capacity ∧
      ∀ s acts', about s acts' = about s acts →
        ((ofCapacity capacity).run acts').told s = ((ofCapacity capacity).run acts).told s ∧
        ((ofCapacity capacity).run acts').accepted s =
          ((ofCapacity capacity).run acts).accepted s := by
  refine ⟨((kept_ofCapacity capacity).run acts).faithful, ?_⟩
  intro s acts' h
  have htold : ((ofCapacity capacity).run acts').told s =
      ((ofCapacity capacity).run acts).told s := by
    rw [told_run, h, ← told_run]
  refine ⟨htold, ?_⟩
  rw [accepted_eq, accepted_eq, htold]

/-- The left end writes more than there is room for and leaves in anger, while the right end writes
too and reads on. -/
def quarrel : List (Side × Act) :=
  [(.left, .write [1, 2, 3]), (.right, .write [9]), (.left, .write [3]), (.right, .read 1),
    (.left, .part .reset), (.left, .part .drop), (.right, .read 4), (.right, .read 4),
    (.right, .write [5])]

/-- The same without the word of the right end. -/
def rebuke : List (Side × Act) := quarrel.eraseIdx 1

theorem faithful_reset_while_writing :
    ((ofCapacity 2).run quarrel).Faithful 2 ∧
    ((ofCapacity 2).run quarrel).log.map Entry.notice =
      [.wrote 2, .wrote 1, .waits, .read [1], .done, .done, .read [2], .failed .reset,
        .failed .reset] ∧
    ((ofCapacity 2).run rebuke).told .left = ((ofCapacity 2).run quarrel).told .left ∧
    ((ofCapacity 2).run rebuke).accepted .left = [1, 2] := by
  obtain ⟨hfaithful, halone⟩ := faithful_of_run 2 quarrel
  obtain ⟨htold, haccepted⟩ := halone .left rebuke (by decide)
  exact ⟨hfaithful, by decide, htold, haccepted.trans (by decide)⟩

end Passage

end PeerCall
