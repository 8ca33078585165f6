import PeerCall.Proofs.Frame.Writing

/-! # What stays in the send buffer

A buffer never holds more than `Frame.bufferSize` bytes, whatever is done with it
(`SendBuffer.Sound.step`). Chores that fit behind what it holds are put there in one step, which
does not touch the link (`SendBuffer.step?_of_fits`). -/

namespace PeerCall.SendBuffer

/-! ## The size of the buffer -/

/-- A buffer within its size. One that has nothing to send counts nothing as gone. -/
structure Sound (b : SendBuffer) : Prop where
  small : b.moved + b.unsent.length ≤ Frame.bufferSize
  unmoved : b.unsent = [] → b.moved = 0

variable {b b' : SendBuffer} {cs : List Chore} {l l' : Link} {s : Side}

theorem sound_empty : Sound {} := ⟨Nat.zero_le _, fun _ => rfl⟩

theorem Sound.settle (h : b.Sound) (cs : List Chore) : (b.settle cs).2.Sound := by
  induction cs generalizing b with
  | nil => exact h
  | cons c cs ih =>
    cases c with
    | fail e => exact h
    | flush =>
      rw [SendBuffer.settle]
      split
      · exact ih h
      · exact h
    | put bs =>
      rw [SendBuffer.settle]
      split
      · exact ih h
      · split
        · exact h
        · rename_i hn
          have hfits : ¬ b.overfills bs = true := fun ho => hn (by simp [ho])
          rw [overfills_iff] at hfits
          refine ih ⟨?_, fun he => h.unmoved (List.append_eq_nil_iff.mp he).1⟩
          simp only [List.length_append]
          omega

theorem Sound.push (h : b.Sound) (hp : b.push? s l = some (r, b', l')) : b'.Sound := by
  unfold push? at hp
  split at hp
  · cases hp
  · cases hp
    exact ⟨by have := h.small; simp only; omega, fun _ => rfl⟩
  · rename_i hw
    cases hp
    have hle := (Link.write?_eq_ok hw).1
    split
    · exact sound_empty
    · rename_i hne
      refine ⟨?_, fun he => absurd (List.isEmpty_iff.mpr he) hne⟩
      have := h.small
      simp only [List.length_drop]
      omega

theorem Sound.pushThen (h : b.Sound) (hp : b.pushThen? s cs l = some (p, b', l')) : b'.Sound := by
  unfold pushThen? at hp
  split at hp
  · cases hp
  · rename_i hpush
    cases hp
    exact h.push hpush
  · rename_i hpush
    cases hp
    exact (h.push hpush).settle cs

/-- No step makes the buffer outgrow its size. -/
theorem Sound.step (h : b.Sound) (hs : b.step? s cs l = some (p, b', l')) : b'.Sound := by
  have hset := h.settle cs
  unfold step? at hs
  split at hs
  · rename_i bs cs₁ b₁ hx
    rw [hx] at hset
    split at hs
    · exact hset.pushThen hs
    · split at hs
      · cases hs
      · cases hs
        exact hset
      · rename_i n l₁ hw
        cases hs
        exact hset.settle (.put (bs.drop n) :: cs₁)
  · rename_i hx
    rw [hx] at hset
    exact hset.pushThen hs
  · rename_i hx
    rw [hx] at hset
    cases hs
    exact hset

/-! ## What fits -/

/-- Chores that put bytes in pieces below the buffer's size, and flush nothing. -/
structure Modest (cs : List Chore) : Prop where
  unflushed : .flush ∉ cs
  small : ∀ bs, .put bs ∈ cs → bs.length < Frame.bufferSize

theorem Modest.tail {c : Chore} (h : Modest (c :: cs)) : Modest cs where
  unflushed hf := h.unflushed (List.mem_cons_of_mem _ hf)
  small bs hb := h.small bs (List.mem_cons_of_mem _ hb)

/-- What fits behind the bytes in the buffer is put there. -/
theorem settle_of_fits (hc : Modest cs)
    (hfit : b.moved + b.unsent.length + (Chore.bytes cs).length ≤ Frame.bufferSize) :
    ∃ result, b.settle cs = (.done result, { b with unsent := b.unsent ++ Chore.bytes cs }) := by
  induction cs generalizing b with
  | nil => exact ⟨_, by rw [Chore.bytes, List.append_nil]; rfl⟩
  | cons c cs ih =>
    cases c with
    | fail e => exact ⟨_, by rw [Chore.bytes, List.append_nil]; rfl⟩
    | flush => exact absurd List.mem_cons_self hc.unflushed
    | put bs =>
      rw [Chore.bytes, List.length_append] at hfit
      rw [settle, Chore.bytes]
      by_cases hbs : bs = []
      · subst hbs
        exact ih hc.tail (by simpa using hfit)
      · have hover : ¬ b.overfills bs = true := by
          rw [overfills_iff]
          omega
        have hreach : ¬ bs.reaches Frame.bufferSize = true := by
          rw [Bytes.reaches_iff]
          exact Nat.not_le_of_lt (hc.small bs List.mem_cons_self)
        rw [if_neg fun he => hbs (List.isEmpty_iff.mp he), if_neg (by simp [hover, hreach]),
          ← List.append_assoc]
        refine ih hc.tail ?_
        simp only [List.length_append]
        omega

/-- Chores that fit behind the bytes in the buffer are done at once, and nothing is sent. -/
theorem step?_of_fits (hc : Modest cs)
    (hfit : b.moved + b.unsent.length + (Chore.bytes cs).length ≤ Frame.bufferSize) (s : Side)
    (l : Link) : ∃ result, b.step? s cs l =
      some (.done result, { b with unsent := b.unsent ++ Chore.bytes cs }, l) := by
  obtain ⟨result, hr⟩ := settle_of_fits hc hfit
  exact ⟨result, by rw [step?, hr]⟩

end PeerCall.SendBuffer
