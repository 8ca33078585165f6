import PeerCall.Link

/-! # Traffic on a link

What an operation at one end does to the bytes that are under way in each direction. A read takes a
front off what comes in (`Link.take`), a write puts a front of what is written behind what goes out
(`Link.put`), and giving an end up shuts both directions and keeps what is under way. -/

namespace PeerCall.Link

/-! ## What is under way -/

/-- The bytes that an end wrote and the other has not read. -/
def flow (l : Link) (s : Side) : Bytes := (l.outgoing s).held

/-- Whether an end can write no more. -/
def shut (l : Link) (s : Side) : Bool := (l.outgoing s).closed

/-- How many bytes of an end may be under way. -/
def bound (l : Link) (s : Side) : Nat := (l.outgoing s).capacity

/-- The link after an end has read the next `n` bytes. -/
def take (s : Side) (n : Nat) (l : Link) : Link :=
  { l with pipes := l.pipes.set s.other { l.incoming s with held := (l.flow s.other).drop n } }

/-- The link after an end has written these bytes. -/
def put (s : Side) (bs : Bytes) (l : Link) : Link :=
  { l with pipes := l.pipes.set s { l.outgoing s with held := l.flow s ++ bs } }

variable (l : Link) (s s' : Side)

@[simp] theorem flow_take : (l.take s n).flow s' =
    if s' = s then l.flow s' else (l.flow s').drop n := by
  cases s <;> cases s' <;> rfl

@[simp] theorem shut_take : (l.take s n).shut s' = l.shut s' := by
  cases s <;> cases s' <;> rfl

@[simp] theorem bound_take : (l.take s n).bound s' = l.bound s' := by
  cases s <;> cases s' <;> rfl

@[simp] theorem wasReset_take : (l.take s n).wasReset = l.wasReset := rfl

@[simp] theorem flow_put : (l.put s bs).flow s' =
    if s' = s then l.flow s' ++ bs else l.flow s' := by
  cases s <;> cases s' <;> rfl

@[simp] theorem shut_put : (l.put s bs).shut s' = l.shut s' := by
  cases s <;> cases s' <;> rfl

@[simp] theorem bound_put : (l.put s bs).bound s' = l.bound s' := by
  cases s <;> cases s' <;> rfl

@[simp] theorem wasReset_put : (l.put s bs).wasReset = l.wasReset := rfl

@[simp] theorem take_zero : l.take s 0 = l := by
  obtain ⟨⟨p, q⟩, r⟩ := l
  cases s <;> rfl

/-- Reading leaves less under way, if anything is read. -/
theorem length_flow_take_lt {l : Link} {s : Side} (h : (l.flow s.other).take n ≠ []) :
    ((l.take s n).flow s.other).length < (l.flow s.other).length := by
  have hf : l.flow s.other ≠ [] := fun hf => h (by rw [hf, List.take_nil])
  have hn : n ≠ 0 := fun hn => h (by rw [hn, List.take_zero])
  rw [flow_take, if_neg (Side.other_ne s), List.length_drop]
  exact Nat.sub_lt (List.length_pos_iff.mpr hf) (Nat.pos_of_ne_zero hn)

@[simp] theorem put_nil : l.put s [] = l := by
  obtain ⟨⟨p, q⟩, r⟩ := l
  cases s <;> simp [put, flow, outgoing, Sides.get, Sides.set]

/-! ## Giving an end up -/

@[simp] theorem flow_shutdown : (l.shutdown s).flow s' = l.flow s' := by
  cases s <;> cases s' <;> rfl

@[simp] theorem shut_shutdown : (l.shutdown s).shut s' = if s' = s then true else l.shut s' := by
  cases s <;> cases s' <;> rfl

@[simp] theorem bound_shutdown : (l.shutdown s).bound s' = l.bound s' := by
  cases s <;> cases s' <;> rfl

@[simp] theorem wasReset_shutdown : (l.shutdown s).wasReset = l.wasReset := rfl

@[simp] theorem flow_reset : (l.reset s).flow s' = l.flow s' := rfl

@[simp] theorem shut_reset : (l.reset s).shut s' = l.shut s' := rfl

@[simp] theorem bound_reset : (l.reset s).bound s' = l.bound s' := rfl

@[simp] theorem wasReset_reset : (l.reset s).wasReset.get s' =
    if s' = s then true else l.wasReset.get s' := by
  cases s <;> cases s' <;> rfl

@[simp] theorem flow_drop : (l.drop s).flow s' = l.flow s' := by
  cases s <;> cases s' <;> rfl

@[simp] theorem shut_drop : (l.drop s).shut s' = true := by
  cases s <;> cases s' <;> rfl

@[simp] theorem bound_drop : (l.drop s).bound s' = l.bound s' := by
  cases s <;> cases s' <;> rfl

@[simp] theorem wasReset_drop : (l.drop s).wasReset = l.wasReset := rfl

@[simp] theorem flow_abort : (l.abort s).flow s' = l.flow s' := flow_drop ..

@[simp] theorem shut_abort : (l.abort s).shut s' = true := shut_drop ..

@[simp] theorem bound_abort : (l.abort s).bound s' = l.bound s' := bound_drop ..

@[simp] theorem wasReset_abort : (l.abort s).wasReset.get s' =
    if s' = s then true else l.wasReset.get s' := wasReset_reset ..

@[simp] theorem flow_finish : (l.finish s).flow s' = l.flow s' :=
  (flow_drop ..).trans (flow_shutdown ..)

@[simp] theorem shut_finish : (l.finish s).shut s' = true := shut_drop ..

@[simp] theorem bound_finish : (l.finish s).bound s' = l.bound s' :=
  (bound_drop ..).trans (bound_shutdown ..)

@[simp] theorem wasReset_finish : (l.finish s).wasReset = l.wasReset := rfl

/-! ## A fresh link -/

@[simp] theorem flow_ofCapacity : (ofCapacity n).flow s = [] := by cases s <;> rfl

@[simp] theorem shut_ofCapacity : (ofCapacity n).shut s = false := by cases s <;> rfl

@[simp] theorem bound_ofCapacity : (ofCapacity n).bound s = n := by cases s <;> rfl

@[simp] theorem wasReset_ofCapacity : (ofCapacity n).wasReset.get s = false := by cases s <;> rfl

/-! ## Reading and writing -/

variable {l s} {l' : Link}

private theorem set_incoming : { l with pipes := l.pipes.set s.other (l.incoming s) } = l := by
  obtain ⟨⟨p, q⟩, r⟩ := l
  cases s <;> rfl

private theorem set_outgoing : { l with pipes := l.pipes.set s (l.outgoing s) } = l := by
  obtain ⟨⟨p, q⟩, r⟩ := l
  cases s <;> rfl

/-- A read brings the next bytes, or finds the end: then nothing is under way, and the other end
can write no more. -/
theorem read?_cases (h : l.read? s n = some (r, l')) (hn : 0 < n) :
    ((l.flow s.other).take n ≠ [] ∧ r = .ok ((l.flow s.other).take n) ∧ l' = l.take s n) ∨
      (l.flow s.other = [] ∧ l.shut s.other = true ∧ l' = l ∧
        r = if l.wasReset.get s.other then .error .reset else .ok []) := by
  have hin : l.incoming s = l.outgoing s.other := rfl
  unfold read? at h
  rw [hin] at h
  simp only [Pipe.read?, Nat.ne_of_gt hn, if_false, List.isEmpty_iff] at h
  by_cases hf : (l.outgoing s.other).held = []
  · right
    rw [if_pos hf] at h
    by_cases hc : (l.outgoing s.other).closed
    · simp only [hc, if_true, List.isEmpty_nil, Bool.true_and] at h
      refine ⟨hf, hc, ?_⟩
      split at h
      · rename_i hr
        cases h
        exact ⟨rfl, (if_pos hr).symm⟩
      · rename_i hr
        cases h
        exact ⟨set_incoming, (if_neg hr).symm⟩
    · simp [hc] at h
  · left
    have ht : (l.flow s.other).take n ≠ [] := Bytes.take_ne_nil hn hf
    simp only [if_neg hf, Bool.and_eq_true] at h
    rw [if_neg fun hr => ht (List.isEmpty_iff.mp hr.1)] at h
    cases h
    exact ⟨ht, rfl, rfl⟩

/-- Whatever a read brings, it takes at most so many bytes off what comes in. -/
theorem link_of_read? (h : l.read? s n = some (r, l')) : l' = l.take s n := by
  rcases Nat.eq_zero_or_pos n with rfl | hn
  · have h0 : (l.incoming s).read? 0 = some ([], l.incoming s) := if_pos rfl
    rw [read?, h0] at h
    rw [take_zero]
    simp only at h
    split at h
    · cases h
      rfl
    · cases h
      exact set_incoming
  · rcases read?_cases h hn with ⟨_, _, hl⟩ | ⟨hf, _, hl, _⟩
    · exact hl
    · have : l.take s n = { l with pipes := l.pipes.set s.other (l.incoming s) } := by
        rw [take, hf, List.drop_nil, ← hf]
        rfl
      rw [hl, this, set_incoming]

/-- A reader waits while nothing is under way and the other end can still write. -/
theorem read?_eq_none (h : l.read? s n = none) : l.flow s.other = [] ∧ l.shut s.other = false := by
  unfold read? Pipe.read? at h
  split at h
  · rename_i hp
    split at hp
    · cases hp
    · split at hp
      · rename_i hf
        split at hp
        · cases hp
        · rename_i hc
          exact ⟨List.isEmpty_iff.mp hf, Bool.not_eq_true _ ▸ hc⟩
      · cases hp
  · split at h <;> cases h

/-- A write puts a front of the bytes on their way, or is refused: if the other end was reset, and
else if the end can write no more. -/
theorem write?_cases (h : l.write? s bs = some (r, l')) (hb : bs ≠ []) :
    (∃ n, 0 < n ∧ n ≤ bs.length ∧ r = .ok n ∧ l' = l.put s (bs.take n)) ∨
      (l' = l ∧ (l.wasReset.get s.other = true ∧ r = .error .reset ∨
        l.shut s = true ∧ r = .error .brokenPipe)) := by
  unfold write? at h
  split at h
  · rename_i hr
    cases h
    exact .inr ⟨rfl, .inl ⟨hr, rfl⟩⟩
  · unfold Pipe.write? at h
    rw [if_neg (fun h => hb (List.isEmpty_iff.mp h))] at h
    by_cases hc : (l.outgoing s).closed
    · simp only [hc, if_true, Option.some.injEq, Prod.mk.injEq] at h
      exact .inr ⟨h.2.symm, .inr ⟨hc, h.1.symm⟩⟩
    · by_cases hr : (l.outgoing s).room = 0
      · simp [hc, hr] at h
      · rw [if_neg hc, if_neg hr] at h
        simp only [Option.some.injEq, Prod.mk.injEq] at h
        refine .inl ⟨_, ?_, List.length_take ▸ Nat.min_le_right .., h.1.symm, ?_⟩
        · rw [List.length_take]
          exact Nat.lt_min.mpr ⟨Nat.pos_of_ne_zero hr, List.length_pos_iff.mpr hb⟩
        · have ht : bs.take (bs.take (l.outgoing s).room).length = bs.take (l.outgoing s).room := by
            simp [List.take_eq_take_iff]
          rw [← h.2, ht]
          rfl

/-- A write that is not refused puts as many of the bytes on their way as it tells. -/
theorem write?_eq_ok (h : l.write? s bs = some (.ok n, l')) :
    n ≤ bs.length ∧ l' = l.put s (bs.take n) := by
  by_cases hb : bs = []
  · subst hb
    rw [List.take_nil, put_nil]
    unfold write? at h
    split at h
    · cases h
    · split at h
      · cases h
      · cases h
      · rename_i hp
        unfold Pipe.write? at hp
        split at hp
        · cases hp
        · cases hp
          cases h
          exact ⟨Nat.le_refl 0, set_outgoing⟩
  · rcases write?_cases h hb with ⟨k, _, hk, he, hl⟩ | ⟨_, ⟨_, he⟩ | ⟨_, he⟩⟩
    · cases he
      exact ⟨hk, hl⟩
    · cases he
    · cases he

/-- A write that is refused leaves the link as it is. -/
theorem eq_of_write?_error (h : l.write? s bs = some (.error e, l')) : l' = l := by
  unfold write? at h
  split at h
  · cases h
    rfl
  · split at h <;> cases h
    rfl

/-- A write of the next bytes puts the first of them on their way. -/
theorem write?_take_eq_ok {bs : Bytes} (h : l.write? s (bs.take n) = some (.ok k, l')) :
    l' = l.put s (bs.take k) := by
  obtain ⟨hk, rfl⟩ := write?_eq_ok h
  rw [List.take_take, Nat.min_eq_left (Nat.le_trans hk (List.length_take ▸ Nat.min_le_left ..))]

/-- A writer waits while the other end was not reset, it can write itself, and there is no room. -/
theorem write?_eq_none (h : l.write? s bs = none) :
    l.bound s ≤ (l.flow s).length ∧ l.shut s = false := by
  unfold write? Pipe.write? at h
  split at h
  · cases h
  · split at h
    · rename_i hp
      split at hp
      · cases hp
      · rename_i hc
        split at hp
        · cases hp
        · split at hp
          · rename_i hr
            exact ⟨Nat.le_of_sub_eq_zero hr, Bool.not_eq_true _ ▸ hc⟩
          · cases hp
    · cases h
    · cases h

/-! ## In full -/

/-- What a read of something brings: the next bytes if there are any, else the end, if the other end
can write no more. -/
theorem read?_eq (l : Link) (s : Side) (hn : 0 < n) : l.read? s n =
    if l.flow s.other ≠ [] then some (.ok ((l.flow s.other).take n), l.take s n)
    else if l.shut s.other then some (if l.wasReset.get s.other then .error .reset else .ok [], l)
    else none := by
  cases h : l.read? s n with
  | none =>
    obtain ⟨hf, hs⟩ := read?_eq_none h
    simp [hf, hs]
  | some r =>
    obtain ⟨r, l'⟩ := r
    rcases read?_cases h hn with ⟨ht, rfl, rfl⟩ | ⟨hf, hs, rfl, rfl⟩
    · rw [if_pos fun hf => ht (by rw [hf, List.take_nil])]
    · rw [if_neg (not_not_intro hf), if_pos hs]

/-- Where the other end can write no more, a read finds the bytes that are left, and after these the
reset or the end. -/
theorem read?_of_shut (hs : l.shut s.other = true) (hn : 0 < n) :
    ∃ l', l.read? s n = some (if l.flow s.other = [] ∧ l.wasReset.get s.other = true then
      .error .reset else .ok ((l.flow s.other).take n), l') := by
  rw [read?_eq l s hn, hs, if_pos rfl]
  by_cases hf : l.flow s.other = []
  · rw [if_neg (not_not_intro hf), hf, List.take_nil]
    exact ⟨l, by simp⟩
  · rw [if_pos hf, if_neg fun h => hf h.1]
    exact ⟨_, rfl⟩

/-- A read of nothing never waits, and tells a reset at once. -/
theorem read?_zero (l : Link) (s : Side) : l.read? s 0 =
    some (if l.wasReset.get s.other then .error .reset else .ok [], l) := by
  have h : (l.incoming s).read? 0 = some ([], l.incoming s) := if_pos rfl
  rw [read?, h]
  by_cases hr : l.wasReset.get s.other
  · simp [hr]
  · simp [hr, set_incoming]

/-- What a write of something is told: whether it is refused, that it has to wait for room, or how
much of it fits. -/
theorem write?_eq (l : Link) (s : Side) (hb : bs ≠ []) : l.write? s bs =
    if l.wasReset.get s.other then some (.error .reset, l)
    else if l.shut s then some (.error .brokenPipe, l)
    else if l.bound s ≤ (l.flow s).length then none
    else
      let n := min (l.bound s - (l.flow s).length) bs.length
      some (.ok n, l.put s (bs.take n)) := by
  have hroom : (l.outgoing s).room = 0 ↔ l.bound s ≤ (l.flow s).length := Nat.sub_eq_zero_iff_le
  have hclosed : (l.outgoing s).closed = l.shut s := rfl
  unfold write? Pipe.write?
  rw [if_neg (mt List.isEmpty_iff.mp hb), hclosed]
  by_cases hr : l.wasReset.get s.other
  · rw [if_pos hr, if_pos hr]
  · rw [if_neg hr, if_neg hr]
    by_cases hs : l.shut s
    · rw [if_pos hs, if_pos hs]
    · rw [if_neg hs, if_neg hs]
      by_cases hfull : l.bound s ≤ (l.flow s).length
      · rw [if_pos (hroom.mpr hfull), if_pos hfull]
      · rw [if_neg (mt hroom.mp hfull), if_neg hfull]
        dsimp only
        rw [List.length_take, ← List.take_eq_take_min]
        rfl

/-- A write of nothing does not wait for room. -/
theorem write?_nil (l : Link) (s : Side) : l.write? s [] =
    some (if l.wasReset.get s.other then .error .reset
      else if l.shut s then .error .brokenPipe else .ok 0, l) := by
  have hclosed : (l.outgoing s).closed = l.shut s := rfl
  unfold write? Pipe.write?
  rw [hclosed]
  by_cases hr : l.wasReset.get s.other
  · simp [hr]
  · by_cases hs : l.shut s
    · simp [hr, hs]
    · simp [hr, hs, set_outgoing]

end PeerCall.Link
