import PeerCall.Exchange
import PeerCall.Proofs.Frame.Reading
import PeerCall.Proofs.Frame.Writing
import PeerCall.Responder
import PeerCall.Script

/-! # What an end can do to its link

Whoever holds an end of a link takes a front off what comes in and puts something behind what goes
out, and takes back neither a reset nor the end of a direction (`Link.Acted`). The reset of the
other end is not its to change. So it is for calls, responders and scripted peers alike. -/

namespace PeerCall

/-- What a link may become by the doing of one end. -/
structure Link.Acted (s : Side) (l l' : Link) : Prop where
  bound : ∀ s', l'.bound s' = l.bound s'
  reads : l'.flow s.other <:+ l.flow s.other
  writes : l.flow s <+: l'.flow s
  shut : ∀ s', l.shut s' = true → l'.shut s' = true
  wasReset : l.wasReset.get s = true → l'.wasReset.get s = true
  spares : l'.wasReset.get s.other = l.wasReset.get s.other

namespace Link

variable {l l' l'' : Link} {s : Side}

theorem Acted.refl (s : Side) (l : Link) : l.Acted s l :=
  ⟨fun _ => rfl, List.suffix_refl _, List.prefix_refl _, fun _ => id, id, rfl⟩

theorem Acted.trans (h : l.Acted s l') (h' : l'.Acted s l'') : l.Acted s l'' where
  bound s' := (h'.bound s').trans (h.bound s')
  reads := h'.reads.trans h.reads
  writes := h.writes.trans h'.writes
  shut s' hs := h'.shut s' (h.shut s' hs)
  wasReset hr := h'.wasReset (h.wasReset hr)
  spares := h'.spares.trans h.spares

theorem acted_take (s : Side) (n : Nat) (l : Link) : l.Acted s (l.take s n) where
  bound s' := bound_take ..
  reads := by
    rw [flow_take, if_neg (Side.other_ne s)]
    exact List.drop_suffix ..
  writes := by simp
  shut s' hs := (shut_take ..).trans hs
  wasReset := id
  spares := rfl

theorem acted_put (s : Side) (bs : Bytes) (l : Link) : l.Acted s (l.put s bs) where
  bound s' := bound_put ..
  reads := by simp
  writes := by simp
  shut s' hs := (shut_put ..).trans hs
  wasReset := id
  spares := rfl

theorem acted_shutdown (s : Side) (l : Link) : l.Acted s (l.shutdown s) where
  bound s' := bound_shutdown ..
  reads := by simp
  writes := by simp
  shut s' hs := by simp [hs]
  wasReset := id
  spares := rfl

theorem acted_reset (s : Side) (l : Link) : l.Acted s (l.reset s) where
  bound s' := bound_reset ..
  reads := by simp
  writes := by simp
  shut s' hs := (shut_reset ..).trans hs
  wasReset _ := by simp
  spares := by simp

theorem acted_drop (s : Side) (l : Link) : l.Acted s (l.drop s) where
  bound s' := bound_drop ..
  reads := by simp
  writes := by simp
  shut s' _ := shut_drop ..
  wasReset := id
  spares := rfl

theorem acted_abort (s : Side) (l : Link) : l.Acted s (l.abort s) :=
  (acted_reset s l).trans (acted_drop s _)

theorem acted_finish (s : Side) (l : Link) : l.Acted s (l.finish s) :=
  (acted_shutdown s l).trans (acted_drop s _)

theorem acted_of_read? (h : l.read? s n = some (r, l')) : l.Acted s l' :=
  link_of_read? h ▸ acted_take ..

theorem acted_of_write? (h : l.write? s bs = some (r, l')) : l.Acted s l' := by
  cases r with
  | ok n =>
    obtain ⟨-, rfl⟩ := write?_eq_ok h
    exact acted_put ..
  | error e => exact eq_of_write?_error h ▸ .refl ..

end Link

/-! ## Frames -/

theorem FrameReader.acted_of_step? {r : FrameReader}
    (h : r.step? s unread l = some (p, unread', l')) : l.Acted s l' := by
  unfold step? at h
  split at h
  · split at h
    · cases h
    · rename_i hl
      cases h
      exact Link.acted_of_read? hl
    · rename_i hl
      have hacted := Link.acted_of_read? hl
      split at h <;> cases h <;> exact hacted
  · cases h
    exact .refl ..

theorem SendBuffer.acted_of_step? {b : SendBuffer} {cs : List Chore}
    (h : b.step? s cs l = some (p, b', l')) : l.Acted s l' := by
  obtain ⟨piece, rfl⟩ := (turn_of_step? h).link
  exact Link.acted_put ..

/-! ## Tasks -/

theorem Exchange.acted_of_step? {x : Exchange} (h : x.step? m l = some (p, l')) :
    l.Acted .left l' := by
  unfold step? at h
  split at h
  · cases h
    exact Link.acted_abort ..
  · split at h
    · split at h
      · cases h
      · rename_i hs
        cases h
        exact SendBuffer.acted_of_step? hs
      · rename_i hs
        cases h
        exact (SendBuffer.acted_of_step? hs).trans (Link.acted_abort ..)
      · rename_i hs
        cases h
        exact SendBuffer.acted_of_step? hs
    · split at h
      · cases h
      · rename_i hs
        cases h
        exact FrameReader.acted_of_step? hs
      · rename_i hs
        cases h
        exact (FrameReader.acted_of_step? hs).trans (Link.acted_abort ..)
      · rename_i hs
        have hacted := FrameReader.acted_of_step? hs
        split at h <;> cases h
        · exact hacted.trans (Link.acted_abort ..)
        · exact hacted
    · split at h
      · cases h
      · rename_i hs
        cases h
        exact FrameReader.acted_of_step? hs
      · rename_i hs
        have hacted := FrameReader.acted_of_step? hs
        split at h <;> cases h
        · exact hacted.trans (Link.acted_finish ..)
        · exact hacted.trans (Link.acted_abort ..)
      · rename_i hs
        have hacted := FrameReader.acted_of_step? hs
        simp only [takeReply, Option.some.injEq] at h
        split at h
        · cases h
          exact hacted.trans (Link.acted_finish ..)
        · split at h <;> cases h
          · exact hacted.trans (Link.acted_finish ..)
          · exact hacted.trans (Link.acted_abort ..)

theorem Responder.acted_of_step? {r : Responder} (h : r.step? m l = some turn) :
    l.Acted .right turn.link := by
  unfold step? at h
  split at h
  · split at h
    · cases h
    · rename_i hs
      cases h
      exact FrameReader.acted_of_step? hs
    · rename_i hs
      cases h
      exact (FrameReader.acted_of_step? hs).trans (Link.acted_abort ..)
    · rename_i hs
      have hacted := FrameReader.acted_of_step? hs
      split at h <;> cases h
      · exact hacted.trans (Link.acted_abort ..)
      · exact hacted
  · split at h
    · cases h
    · rename_i hs
      cases h
      exact FrameReader.acted_of_step? hs
    · rename_i hs
      cases h
      exact (FrameReader.acted_of_step? hs).trans (Link.acted_abort ..)
    · rename_i hs
      cases h
      exact FrameReader.acted_of_step? hs
  · split at h
    · cases h
    · cases h
      exact .refl ..
    · cases h
      exact Link.acted_drop ..
    · cases h
      exact .refl ..
  · split at h
    · cases h
    · rename_i hs
      cases h
      exact SendBuffer.acted_of_step? hs
    · rename_i hs
      cases h
      exact (SendBuffer.acted_of_step? hs).trans (Link.acted_abort ..)
    · rename_i hs
      cases h
      exact (SendBuffer.acted_of_step? hs).trans (Link.acted_finish ..)
  · cases h
  · cases h

theorem Transfer.acted_of_step? {t : Transfer} (h : t.step? s l = some (p, l')) :
    l.Acted s l' := by
  have hread {n failed next} (h : readThen s n l failed next = some (p, l')) : l.Acted s l' := by
    unfold readThen at h
    split at h
    · cases h
    · rename_i hl
      cases h
      exact Link.acted_of_read? hl
    · rename_i hl
      cases h
      exact Link.acted_of_read? hl
  cases t with
  | write bs =>
    rw [step?] at h
    split at h
    · cases h
      exact .refl ..
    · split at h
      · cases h
      · rename_i hl
        cases h
        exact Link.acted_of_write? hl
      · rename_i hl
        cases h
        exact Link.acted_of_write? hl
  | writeSome bs =>
    rw [step?] at h
    split at h
    · cases h
    · rename_i hl
      cases h
      exact Link.acted_of_write? hl
    · rename_i hl
      cases h
      exact Link.acted_of_write? hl
  | readExact missing newestFirst =>
    rw [step?] at h
    split at h
    · cases h
      exact .refl ..
    · exact hread h
  | read | readToEnd | readFrame => exact hread h

theorem Script.acted_of_step? {s s' : Script} (h : s.step? m l = some (s', l')) :
    l.Acted s.side l' ∧ s'.side = s.side := by
  unfold step? at h
  split at h
  · cases h
  · split at h
    · unfold stepTransfer? at h
      split at h
      · cases h
      · rename_i ht
        cases h
        exact ⟨Transfer.acted_of_step? ht, rfl⟩
      · rename_i ht
        cases h
        exact ⟨Transfer.acted_of_step? ht, rfl⟩
    · cases h
      exact ⟨Link.acted_drop .., rfl⟩
    · cases h
      exact ⟨.refl .., rfl⟩
    · cases h
      exact ⟨Link.acted_shutdown .., rfl⟩
    · cases h
      exact ⟨Link.acted_abort .., rfl⟩
    · cases h
      exact ⟨.refl .., rfl⟩
    · split at h
      · cases h
        exact ⟨.refl .., rfl⟩
      · split at h <;> cases h
        exact ⟨.refl .., rfl⟩

end PeerCall
