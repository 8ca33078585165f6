import PeerCall.Frame
import PeerCall.Proofs.Traffic

/-! # Writing frames

A list of chores amounts to the bytes it writes (`Chore.bytes`), or to those before the first chore
that fails. Whatever goes through the buffer and whatever past it, each step of writing puts a front
of the bytes that are left on their way (`SendBuffer.turn_of_step?`). -/

namespace PeerCall

namespace Chore

/-! ## What chores amount to -/

/-- The bytes that chores write, up to the first chore that fails. -/
def bytes : List Chore → Bytes
  | [] => []
  | put bs :: cs => bs ++ bytes cs
  | flush :: cs => bytes cs
  | fail _ :: _ => []

/-- The first failure among chores. -/
def fault? : List Chore → Option StreamError
  | [] => none
  | fail e :: _ => some e
  | _ :: cs => fault? cs

/-- Chores that end in a flush. -/
def Flushed (cs : List Chore) : Prop := cs.getLast? = some .flush

theorem flushed_cons {c : Chore} {cs : List Chore} :
    Flushed (c :: cs) ↔ cs = [] ∧ c = .flush ∨ Flushed cs := by
  cases cs with
  | nil => simp [Flushed]
  | cons d cs => simp [Flushed, List.getLast?_cons]

theorem flushed_put {cs : List Chore} : Flushed (put bs :: cs) ↔ Flushed cs := by
  simp [flushed_cons]

theorem flushed_append (cs : List Chore) : Flushed (cs ++ [.flush]) := by
  simp [Flushed]

theorem bytes_append {cs : List Chore} (h : fault? cs = none) (ds : List Chore) :
    bytes (cs ++ ds) = bytes cs ++ bytes ds := by
  induction cs with
  | nil => rfl
  | cons c cs ih =>
    cases c with
    | put bs => simp only [List.cons_append, bytes, ih h, List.append_assoc]
    | flush => exact ih h
    | fail e => cases h

theorem fault?_append {cs : List Chore} (h : fault? cs = none) (ds : List Chore) :
    fault? (cs ++ ds) = fault? ds := by
  induction cs with
  | nil => rfl
  | cons c cs ih =>
    cases c with
    | put | flush => exact ih h
    | fail e => cases h

theorem frame_of_le {p : Bytes} (h : p.length ≤ Frame.maxSize) :
    bytes (frame p) = Frame.bytes p ∧ fault? (frame p) = none := by
  rw [frame, if_neg (Nat.not_lt.mpr h)]
  exact ⟨by simp [bytes, Frame.bytes], rfl⟩

/-- What could not be encoded, or is too large, writes nothing at all. -/
theorem bytes_encoded (r : Except StreamError Bytes) :
    (∃ p, r = .ok p ∧ p.length ≤ Frame.maxSize ∧ bytes (encoded r) = Frame.bytes p ∧
      fault? (encoded r) = none) ∨ ∃ e, encoded r = [.fail e] := by
  cases r with
  | error e => exact .inr ⟨e, rfl⟩
  | ok p =>
    by_cases hp : p.length ≤ Frame.maxSize
    · exact .inl ⟨p, rfl, hp, frame_of_le hp⟩
    · exact .inr ⟨_, if_pos (Nat.lt_of_not_le hp)⟩

end Chore

namespace SendBuffer

/-! ## Doing what needs no link -/

/-- A buffer that has to be sent, or passed by, before the first of these chores is done. -/
def Stuck (b : SendBuffer) : List Chore → Prop
  | .put bs :: _ => bs ≠ [] ∧ (b.overfills bs = true ∨ bs.reaches Frame.bufferSize = true)
  | .flush :: _ => b.unsent ≠ []
  | _ => False

/-- What doing as much as needs no link comes to. -/
inductive Settled (b : SendBuffer) (cs : List Chore) :
    Progress (List Chore) (Except StreamError Unit) × SendBuffer → Prop
  | more {cs' b'} (hs : b'.Stuck cs')
    (h : b.unsent ++ Chore.bytes cs = b'.unsent ++ Chore.bytes cs')
    (hf : Chore.fault? cs' = Chore.fault? cs) (hl : Chore.Flushed cs → Chore.Flushed cs') :
    Settled b cs (.more cs', b')
  | done {b'} (h : b.unsent ++ Chore.bytes cs = b'.unsent) (hf : Chore.fault? cs = none)
    (hl : Chore.Flushed cs → b'.unsent = []) : Settled b cs (.done (.ok ()), b')
  | failed {e b'} (hf : Chore.fault? cs = some e) : Settled b cs (.done (.error e), b')

private theorem Settled.cons {b b₁ : SendBuffer} {c : Chore} {cs : List Chore}
    (h : Settled b₁ cs r) (hb : b.unsent ++ Chore.bytes (c :: cs) = b₁.unsent ++ Chore.bytes cs)
    (hf : Chore.fault? (c :: cs) = Chore.fault? cs)
    (hl : Chore.Flushed (c :: cs) → cs = [] ∧ b₁.unsent = [] ∨ Chore.Flushed cs) :
    Settled b (c :: cs) r := by
  cases h with
  | more hs h hf' hl' =>
    refine .more hs (hb.trans h) (hf'.trans hf.symm) fun hc => ?_
    rcases hl hc with ⟨rfl, hn⟩ | hc
    · rename_i cs' b'
      -- nothing is left to be stuck in
      cases cs' with
      | nil => exact hs.elim
      | cons d ds =>
        cases d with
        | put bs =>
          rw [hn] at h
          exact absurd (List.append_eq_nil_iff.mp (List.append_eq_nil_iff.mp h.symm).2).1 hs.1
        | flush =>
          rw [hn] at h
          exact absurd (List.append_eq_nil_iff.mp h.symm).1 hs
        | fail e => exact hs.elim
    · exact hl' hc
  | done h hf' hl' =>
    refine .done (hb.trans h) (hf.trans hf') fun hc => ?_
    rcases hl hc with ⟨rfl, hn⟩ | hc
    · rw [hn] at h
      exact h.symm
    · exact hl' hc
  | failed hf' => exact .failed (hf.trans hf')

theorem settled (b : SendBuffer) (cs : List Chore) : Settled b cs (b.settle cs) := by
  induction cs generalizing b with
  | nil => exact .done (List.append_nil _) rfl (fun h => by simp [Chore.Flushed] at h)
  | cons c cs ih =>
    cases c with
    | fail e => exact .failed rfl
    | flush =>
      rw [settle]
      split
      · rename_i hb
        have hn := List.isEmpty_iff.mp hb
        refine (ih b).cons rfl rfl fun hc => ?_
        exact (Chore.flushed_cons.mp hc).imp (fun h => ⟨h.1, hn⟩) id
      · rename_i hb
        exact .more (fun hn => hb (List.isEmpty_iff.mpr hn)) rfl rfl id
    | put bs =>
      rw [settle]
      split
      · rename_i hb
        have hn := List.isEmpty_iff.mp hb
        refine (ih b).cons (by simp [Chore.bytes, hn]) rfl fun hc => ?_
        exact .inr (Chore.flushed_put.mp hc)
      · rename_i hb
        split
        · rename_i ho
          have hne : bs ≠ [] := fun hn => hb (List.isEmpty_iff.mpr hn)
          exact .more ⟨hne, (Bool.or_eq_true ..).mp ho⟩ rfl rfl id
        · refine (ih _).cons (by simp [Chore.bytes]) rfl fun hc => ?_
          exact .inr (Chore.flushed_put.mp hc)

theorem Stuck.ne_nil {b : SendBuffer} {cs : List Chore} (h : b.Stuck cs) :
    b.unsent ++ Chore.bytes cs ≠ [] := by
  intro hn
  have hn := List.append_eq_nil_iff.mp hn
  cases cs with
  | nil => exact h
  | cons c cs =>
    cases c with
    | put bs => exact h.1 (List.append_eq_nil_iff.mp hn.2).1
    | flush => exact h hn.1
    | fail e => exact h

/-! ## Writing to a link -/

/-- What a step of writing can do. In each case the bytes that went on their way and those that are
left are, in this order, those that were left before. -/
inductive Turn (s : Side) (b : SendBuffer) (cs : List Chore) (l : Link) :
    Progress (List Chore) (Except StreamError Unit) → SendBuffer → Link → Prop
  | more {cs' b' piece} (hp : piece ≠ [])
    (h : b.unsent ++ Chore.bytes cs = piece ++ (b'.unsent ++ Chore.bytes cs'))
    (hm : b'.unsent ++ Chore.bytes cs' ≠ []) (hf : Chore.fault? cs' = Chore.fault? cs)
    (hl : Chore.Flushed cs → Chore.Flushed cs') : Turn s b cs l (.more cs') b' (l.put s piece)
  | done {b' piece} (h : b.unsent ++ Chore.bytes cs = piece ++ b'.unsent)
    (hf : Chore.fault? cs = none) (hl : Chore.Flushed cs → b'.unsent = []) :
    Turn s b cs l (.done (.ok ())) b' (l.put s piece)
  | failed {e b' piece rest} (h : b.unsent ++ Chore.bytes cs = piece ++ rest)
    (hf : Chore.fault? cs = some e) : Turn s b cs l (.done (.error e)) b' (l.put s piece)
  | refused {e b'} (hm : b.unsent ++ Chore.bytes cs ≠ [])
    (he : l.wasReset.get s.other = true ∧ e = .reset ∨ l.shut s = true ∧ e = .brokenPipe) :
    Turn s b cs l (.done (.error (.io e))) b' l

/-- After a piece went on its way, what needs no link is done. -/
private theorem Settled.turn {b b₁ : SendBuffer} {cs cs₁ : List Chore}
    (hs : Settled b₁ cs₁ (p, b')) (hp : piece ≠ [])
    (h : b.unsent ++ Chore.bytes cs = piece ++ (b₁.unsent ++ Chore.bytes cs₁))
    (hf : Chore.fault? cs₁ = Chore.fault? cs) (hl : Chore.Flushed cs → Chore.Flushed cs₁) :
    Turn s b cs l p b' (l.put s piece) := by
  cases hs with
  | more hs h' hf' hl' =>
    exact .more hp (h' ▸ h) hs.ne_nil (hf'.trans hf) fun hc => hl' (hl hc)
  | done h' hf' hl' => exact .done (h' ▸ h) (hf.symm.trans hf') fun hc => hl' (hl hc)
  | failed hf' => exact .failed h (hf.symm.trans hf')

private theorem turn_of_pushThen? {b b₁ : SendBuffer} {cs cs₁ : List Chore} (hn : b₁.unsent ≠ [])
    (hb : b.unsent ++ Chore.bytes cs = b₁.unsent ++ Chore.bytes cs₁)
    (hf : Chore.fault? cs₁ = Chore.fault? cs) (hl : Chore.Flushed cs → Chore.Flushed cs₁)
    (h : b₁.pushThen? s cs₁ l = some (p, b', l')) : Turn s b cs l p b' l' := by
  unfold pushThen? push? at h
  rcases hw : l.write? s b₁.unsent with _ | ⟨r, l₁⟩
  · simp [hw] at h
  · rw [hw] at h
    rcases Link.write?_cases hw hn with ⟨n, hpos, hle, rfl, rfl⟩ | ⟨rfl, he⟩
    · simp only at h
      have hsent : b.unsent ++ Chore.bytes cs =
          b₁.unsent.take n ++ (b₁.unsent.drop n ++ Chore.bytes cs₁) := by
        rw [hb, ← List.append_assoc, List.take_append_drop]
      have hpiece : b₁.unsent.take n ≠ [] := Bytes.take_ne_nil hpos hn
      cases h
      refine (settled _ _).turn hpiece ?_ hf hl
      split
      · rename_i hd
        rw [hsent, List.isEmpty_iff.mp hd]
      · exact hsent
    · have hm : b.unsent ++ Chore.bytes cs ≠ [] := by
        rw [hb]
        exact fun h => hn (List.append_eq_nil_iff.mp h).1
      rcases he with ⟨hr, rfl⟩ | ⟨hr, rfl⟩
      · cases h
        exact .refused hm (.inl ⟨hr, rfl⟩)
      · cases h
        exact .refused hm (.inr ⟨hr, rfl⟩)

/-- Bytes that pass the buffer by find it empty. -/
private theorem unsent_eq_nil {b : SendBuffer}
    (hs : b.overfills bs = true ∨ bs.reaches Frame.bufferSize = true)
    (h : ¬ (!b.unsent.isEmpty && b.overfills bs) = true) : b.unsent = [] := by
  by_cases hb : b.unsent.isEmpty
  · exact List.isEmpty_iff.mp hb
  · have ho : ¬ b.overfills bs = true := by simpa [hb] using h
    have hr := Bytes.reaches_iff.mp (hs.resolve_left ho)
    rw [overfills_iff] at ho
    exact List.length_eq_zero_iff.mp (by omega)

theorem turn_of_step? {b : SendBuffer} {cs : List Chore}
    (h : b.step? s cs l = some (p, b', l')) : Turn s b cs l p b' l' := by
  have hset := settled b cs
  unfold step? at h
  rcases hx : b.settle cs with ⟨p₁, b₁⟩
  rw [hx] at hset h
  cases hset with
  | done hb hf hl =>
    cases h
    have hd : Turn s b cs l _ b' (l.put s []) := .done hb hf hl
    rwa [Link.put_nil] at hd
  | failed hf =>
    cases h
    have hd : Turn s b cs l _ b' (l.put s []) := .failed (List.nil_append _).symm hf
    rwa [Link.put_nil] at hd
  | more hs hb hf hl =>
    rename_i cs₁
    match cs₁, hs with
    | .flush :: cs₁, hs => exact turn_of_pushThen? hs hb hf hl h
    | .put bs :: cs₁, hs =>
      simp only at h
      split at h
      · rename_i hc
        have hn : b₁.unsent ≠ [] := fun hn => by simp [hn] at hc
        exact turn_of_pushThen? hn hb hf hl h
      · rename_i hc
        have hn := unsent_eq_nil hs.2 hc
        rcases hw : l.write? s bs with _ | ⟨r, l₁⟩
        · simp [hw] at h
        · rw [hw] at h
          rcases Link.write?_cases hw hs.1 with ⟨n, hpos, hle, rfl, rfl⟩ | ⟨rfl, he⟩
          · cases h
            have hpiece : bs.take n ≠ [] := Bytes.take_ne_nil hpos hs.1
            refine (settled b₁ (.put (bs.drop n) :: cs₁)).turn hpiece ?_ hf fun hc => ?_
            · rw [hb, hn, Chore.bytes, Chore.bytes, List.nil_append, List.nil_append,
                ← List.append_assoc, List.take_append_drop]
            · exact Chore.flushed_put.mpr (Chore.flushed_put.mp (hl hc))
          · have hm : b.unsent ++ Chore.bytes cs ≠ [] := hb ▸ hs.ne_nil
            rcases he with ⟨hr, rfl⟩ | ⟨hr, rfl⟩
            · cases h
              exact .refused hm (.inl ⟨hr, rfl⟩)
            · cases h
              exact .refused hm (.inr ⟨hr, rfl⟩)

theorem Turn.link {b : SendBuffer} (h : Turn s b cs l p b' l') : ∃ piece, l' = l.put s piece := by
  cases h with
  | more | done | failed => exact ⟨_, rfl⟩
  | refused => exact ⟨[], (Link.put_nil ..).symm⟩

/-- A writer that waits does so in the middle of a write. -/
theorem write?_of_step?_eq_none {b : SendBuffer} {cs : List Chore} (h : b.step? s cs l = none) :
    ∃ bs, l.write? s bs = none := by
  have hpush {b : SendBuffer} {cs : List Chore} (h : b.pushThen? s cs l = none) :
      ∃ bs, l.write? s bs = none := by
    unfold pushThen? push? at h
    rcases hw : l.write? s b.unsent with _ | ⟨r, l₁⟩
    · exact ⟨b.unsent, hw⟩
    · cases r <;> simp [hw] at h
  unfold step? at h
  split at h
  · split at h
    · exact hpush h
    · split at h
      · exact ⟨_, ‹_›⟩
      · cases h
      · cases h
  · exact hpush h
  · cases h

/-- There is no room at an end that can write. -/
structure Waits (s : Side) (l : Link) : Prop where
  full : l.bound s ≤ (l.flow s).length
  unshut : l.shut s = false

theorem step?_eq_none {b : SendBuffer} {cs : List Chore} (h : b.step? s cs l = none) :
    Waits s l := by
  obtain ⟨bs, hw⟩ := write?_of_step?_eq_none h
  exact ⟨(Link.write?_eq_none hw).1, (Link.write?_eq_none hw).2⟩

end SendBuffer

end PeerCall
