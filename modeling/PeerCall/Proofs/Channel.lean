import Mathlib.Data.List.Nodup
import PeerCall.Channel

/-! # Laws of channels

All that sending can make of a channel (`Channel.Sent`). A permit is free, or was given to somebody
who waits, or is taken by a value in the queue (`Channel.permits`); nobody waits for a permit while
one is free (`Channel.Orderly`), so a channel on which nothing moves has nobody in line
(`Channel.Orderly.asking_eq_nil`). -/

namespace PeerCall.Channel

variable {c c' : Channel α} {i j : Nat} {a : α} {sent : Bool}

/-- What a step of sending can make of a channel. -/
inductive Sent (i : Nat) (a : α) (c : Channel α) : Bool → Channel α → Prop
  | unheard (hr : c.receiving = false) (hg : i ∉ c.granted) : Sent i a c true c.dropSender
  | forgone (hr : c.receiving = false) (hg : i ∈ c.granted) :
    Sent i a c true { c with free := c.free + 1, granted := c.granted.erase i }.dropSender
  | granted (hr : c.receiving = true) (hg : i ∈ c.granted) :
    Sent i a c true { c with queue := c.queue ++ [a], granted := c.granted.erase i }
  | taken (hr : c.receiving = true) (hg : i ∉ c.granted) (hw : i ∉ c.waiting) (hf : c.free ≠ 0) :
    Sent i a c true { c with queue := c.queue ++ [a], free := c.free - 1 }
  | lined (hr : c.receiving = true) (hg : i ∉ c.granted) (hw : i ∉ c.waiting) (hf : c.free = 0) :
    Sent i a c false { c with waiting := c.waiting ++ [i] }

theorem sent_of_send? (h : c.send? i a = some (sent, c')) : c.Sent i a sent c' := by
  unfold send? at h
  split at h
  · rename_i hr
    rw [Bool.not_eq_true'] at hr
    cases h
    by_cases hg : i ∈ c.granted
    · rw [if_pos (by simpa using hg)]
      exact .forgone hr hg
    · rw [if_neg (by simpa using hg), List.erase_of_not_mem hg]
      exact .unheard hr hg
  · rename_i hr
    rw [Bool.not_eq_true', Bool.not_eq_false] at hr
    split at h
    · rename_i hg
      cases h
      exact .granted hr (by simpa using hg)
    · rename_i hg
      split at h
      · cases h
      · rename_i hw
        unfold reserve? at h
        by_cases hf : c.free = 0
        · rw [if_pos (by simp [hf])] at h
          cases h
          exact .lined hr (by simpa using hg) (by simpa using hw) hf
        · rw [if_neg (by simp [hf, hr])] at h
          cases h
          exact .taken hr (by simpa using hg) (by simpa using hw) hf

/-- A sender that can take no step stands in line for a permit. -/
theorem send?_eq_none (h : c.send? i a = none) :
    c.receiving = true ∧ i ∈ c.waiting ∧ i ∉ c.granted := by
  unfold send? at h
  split at h
  · cases h
  · rename_i hr
    split at h
    · cases h
    · rename_i hg
      split at h
      · rename_i hw
        exact ⟨by simpa using hr, by simpa using hw, by simpa using hg⟩
      · split at h <;> cases h

/-- The permits that there are, but for those that users keep. -/
def permits (c : Channel α) : Nat := c.free + c.granted.length + c.queue.length

/-- Those that stand in line, or were given a permit and have not sent yet. -/
def asking (c : Channel α) : List Nat := c.waiting ++ c.granted

/-- Nobody waits while a permit is free, or where nobody receives. -/
structure Orderly (c : Channel α) : Prop where
  idle : c.waiting ≠ [] → c.free = 0
  nodup : c.asking.Nodup
  closed : c.receiving = false → c.queue = [] ∧ c.waiting = []

/-! ## Sending -/

theorem Sent.receiving (h : c.Sent i a sent c') : c'.receiving = c.receiving := by
  cases h <;> rfl

theorem Sent.permits (h : c.Sent i a sent c') : c'.permits = c.permits := by
  cases h with
  | unheard | lined => rfl
  | forgone hr hg =>
    have := List.length_erase_of_mem hg
    have := List.length_pos_of_mem hg
    simp only [Channel.permits, dropSender]
    omega
  | granted hr hg =>
    have := List.length_erase_of_mem hg
    have := List.length_pos_of_mem hg
    simp only [Channel.permits, List.length_append, List.length_singleton]
    omega
  | taken hr hg hw hf =>
    simp only [Channel.permits, List.length_append, List.length_singleton]
    omega

/-- What is sent goes behind what is there, if anybody receives. -/
theorem Sent.queue (h : c.Sent i a sent c') :
    c'.queue = if c.receiving ∧ sent then c.queue ++ [a] else c.queue := by
  cases h with
  | unheard hr | forgone hr => simp [hr, dropSender]
  | granted hr | taken hr | lined hr => simp [hr]

/-- A value that is sent counts as a sender in place of who sent it. -/
theorem Sent.senders (h : c.Sent i a sent c') :
    c'.senders = if c.receiving then c.senders else c.senders - 1 := by
  cases h with
  | unheard hr | forgone hr => simp [hr, dropSender]
  | granted hr | taken hr | lined hr => simp [hr]

/-- Who has sent does not ask any more, and who has not does. -/
theorem Sent.mem_asking (h : c.Sent i a sent c') (hc : c.Orderly) :
    j ∈ c'.asking ↔ if sent then j ∈ c.asking ∧ j ≠ i else j ∈ c.asking ∨ j = i := by
  have hnodup := List.nodup_append.mp hc.nodup
  have hgranted (hg : i ∈ c.granted) : j ∈ c.waiting → j ≠ i :=
    fun hj => hnodup.2.2 j hj i hg
  cases h with
  | unheard hr hg =>
    have hw := (hc.closed hr).2
    simp only [asking, dropSender, hw, List.nil_append, if_true]
    exact ⟨fun hj => ⟨hj, fun he => hg (he ▸ hj)⟩, And.left⟩
  | forgone hr hg | granted hr hg =>
    simp only [asking, dropSender, List.mem_append, hnodup.2.1.mem_erase_iff, if_true]
    constructor
    · rintro (hj | ⟨hne, hj⟩)
      · exact ⟨.inl hj, hgranted hg hj⟩
      · exact ⟨.inr hj, hne⟩
    · rintro ⟨hj | hj, hne⟩
      · exact .inl hj
      · exact .inr ⟨hne, hj⟩
  | taken hr hg hw =>
    simp only [asking, List.mem_append, if_true]
    refine ⟨fun hj => ⟨hj, ?_⟩, And.left⟩
    rintro rfl
    exact hj.elim hw hg
  | lined hr hg hw =>
    simp only [asking, List.mem_append, List.mem_singleton, Bool.false_eq_true, if_false]
    exact or_right_comm

theorem Sent.orderly (h : c.Sent i a sent c') (hc : c.Orderly) : c'.Orderly := by
  have hnodup := List.nodup_append.mp hc.nodup
  have herase : (c.waiting ++ c.granted.erase i).Nodup :=
    hc.nodup.sublist (List.Sublist.append_left List.erase_sublist _)
  cases h with
  | unheard hr hg => exact ⟨hc.idle, hc.nodup, hc.closed⟩
  | forgone hr hg =>
    exact ⟨fun hw => absurd (hc.closed hr).2 hw, herase, hc.closed⟩
  | granted hr hg => exact ⟨hc.idle, herase, fun hf => absurd (hr.symm.trans hf) (by decide)⟩
  | taken hr hg hw hf =>
    refine ⟨fun hne => absurd (hc.idle hne) hf, hc.nodup, fun hf => ?_⟩
    cases hr.symm.trans hf
  | lined hr hg hw hf =>
    refine ⟨fun _ => hf, ?_, fun hf => absurd (hr.symm.trans hf) (by decide)⟩
    refine List.nodup_append.mpr ⟨?_, hnodup.2.1, ?_⟩
    · refine List.nodup_append.mpr ⟨hnodup.1, List.nodup_singleton i, ?_⟩
      rintro j hj k (_ | ⟨_, ⟨⟩⟩) rfl
      exact hw hj
    · intro j hj k hk hjk
      subst hjk
      rcases List.mem_append.mp hj with hj | hj
      · exact hnodup.2.2 j hj j hk rfl
      · exact hg (List.mem_singleton.mp hj ▸ hk)

/-! ## Giving permits back -/

theorem orderly_ofCapacity (capacity senders : Nat) :
    (ofCapacity capacity senders : Channel α).Orderly :=
  ⟨fun h => absurd rfl h, List.nodup_nil, nofun⟩

theorem permits_release (c : Channel α) : c.release.permits = c.permits + 1 := by
  unfold release
  split
  · simp only [permits, List.length_append, List.length_singleton]
    omega
  · simp only [permits]
    omega

/-- A permit that is given back is given to somebody in line, who asks as before. -/
theorem asking_release (c : Channel α) : c.release.asking.Perm c.asking := by
  unfold release
  split
  · rename_i k rest hw
    rw [asking, asking, hw, ← List.append_assoc]
    exact List.perm_append_singleton ..
  · exact .refl _

theorem Orderly.release (h : c.Orderly) : c.release.Orderly := by
  refine ⟨?_, (asking_release c).nodup_iff.mpr h.nodup, ?_⟩ <;> unfold Channel.release <;> split
  · rename_i hw
    exact fun _ => h.idle (hw ▸ List.cons_ne_nil _ _)
  · rename_i hw
    exact fun hne => absurd hw hne
  · rename_i hw
    exact fun hr => absurd (hw.symm.trans (h.closed hr).2) (List.cons_ne_nil _ _)
  · exact h.closed

@[simp] theorem queue_release (c : Channel α) : c.release.queue = c.queue := by
  unfold release
  split <;> rfl

@[simp] theorem senders_release (c : Channel α) : c.release.senders = c.senders := by
  unfold release
  split <;> rfl

@[simp] theorem receiving_release (c : Channel α) : c.release.receiving = c.receiving := by
  unfold release
  split <;> rfl

/-! ## Receiving -/

/-- The first in the queue is received, and its permit is given back. -/
theorem receive_eq_received (h : c.receive = (.received a, c')) :
    ∃ rest, c.queue = a :: rest ∧ c' = { c with queue := rest }.release := by
  unfold receive at h
  split at h
  · rename_i hq
    cases h
    exact ⟨_, hq, rfl⟩
  · split at h <;> cases h

/-- The end of a channel is told once it is empty and nobody can send any more. -/
theorem receive_eq_ended_iff : c.receive.1 = .ended ↔ c.queue = [] ∧ c.senders = 0 := by
  unfold receive
  split
  · rename_i hq
    simp [hq]
  · rename_i hq
    by_cases hs : c.senders = 0 <;> simp [hq, hs]

theorem Orderly.dequeue (h : c.Orderly) (hq : c.queue = a :: rest) :
    ({ c with queue := rest }.release : Channel α).Orderly := by
  refine Orderly.release ⟨h.idle, h.nodup, fun hr => ?_⟩
  have hnil := (h.closed hr).1
  rw [hq] at hnil
  cases hnil

/-- A permit that is kept is taken from those that there are. -/
theorem reserve?_eq_some (h : c.reserve? = some c') :
    c.free ≠ 0 ∧ c' = { c with free := c.free - 1 } := by
  unfold reserve? at h
  split at h
  · cases h
  · rename_i hn
    cases h
    exact ⟨fun hf => hn (by simp [hf]), rfl⟩

/-- Where nothing is in the queue, no permit is kept and none of those that ask can send, nobody
asks. -/
theorem Orderly.asking_eq_nil (h : c.Orderly) (hq : c.queue = []) (hp : c.permits ≠ 0)
    (hs : ∀ k ∈ c.asking, ∃ a, c.send? k a = none) : c.asking = [] := by
  have hg : c.granted = [] := by
    refine List.eq_nil_iff_forall_not_mem.mpr fun k hk => ?_
    obtain ⟨a, ha⟩ := hs k (List.mem_append_right _ hk)
    exact (send?_eq_none ha).2.2 hk
  have hw : c.waiting = [] := by
    by_contra hne
    have hfree := h.idle hne
    exact hp (by rw [permits, hfree, hg, hq]; rfl)
  rw [asking, hw, hg]
  rfl

end PeerCall.Channel
