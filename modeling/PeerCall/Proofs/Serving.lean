import PeerCall.Responder

/-! # What a server returns

Work that is given all the time it needs comes to one end (`Work.result?`); a context that is done
may cut a wait short, and then the end is the context's error (`Work.Returns`). Every step of an
invocation is one towards such an end. -/

namespace PeerCall

theorem CallError.message_ne_of_isCancellation {e : CallError} (h : e.isCancellation = true) :
    e.message ≠ "" := by
  cases e with
  | cancelled | deadlineExceeded => decide
  | _ => cases h

namespace Work

/-- What work returns if no wait is cut short, or `none` if it does not return. -/
def result? : Work → Option (Option CallError × Option Bytes)
  | finish error reply => some (error, reply)
  | pause _ _ next => next.result?
  | crash => none
  | never => none

/-- What work may return. A wait that heeds the context may end early. -/
inductive Returns : Work → Option CallError → Option Bytes → Prop
  | finish {error reply} : Returns (.finish error reply) error reply
  | wait {ms heeding next error reply} (h : Returns next error reply) :
    Returns (.pause ms heeding next) error reply
  | cut {ms next e} (he : e.isCancellation = true) : Returns (.pause ms true next) (some e) none

/-- Work whose response has no text was not cut short. -/
theorem Returns.result?_eq {w : Work} (h : w.Returns error reply)
    (ht : Responder.responseText error = "") : w.result? = some (error, reply) := by
  induction h with
  | finish => rfl
  | wait _ ih => exact ih ht
  | cut he => exact absurd ht (CallError.message_ne_of_isCancellation he)

end Work

theorem Context.isCancellation_of_verdict {c : Context} (h : c.verdict m = some e) :
    e.isCancellation = true := by
  unfold verdict at h
  split at h
  · cases h
    rfl
  · split at h
    · split at h
      · cases h
        rfl
      · cases h
    · cases h

namespace Serving

variable {v v' : Serving}

/-- A step that goes on begins a wait or ends one. -/
theorem more_of_step? (h : v.step? m = some (.more v')) : v'.context = v.context ∧
    (v'.work = v.work ∧ v.wake = none ∧ v'.wake.isSome = true ∨
      v'.wake = none ∧ ∃ ms heeding, v.work = .pause ms heeding v'.work) := by
  unfold step? at h
  split at h
  · cases h
  · cases h
  · cases h
  · rename_i ms heeding next hw
    split at h
    · cases h
    · split at h
      · rename_i hn
        cases h
        exact ⟨rfl, .inl ⟨rfl, hn, rfl⟩⟩
      · split at h
        · cases h
          exact ⟨rfl, .inr ⟨rfl, ms, heeding, hw⟩⟩
        · cases h

theorem returned_of_step? (h : v.step? m = some (.done (.returned error reply))) :
    v.work = .finish error reply ∨ ∃ ms next e, v.work = .pause ms true next ∧
      v.context.verdict m = some e ∧ error = some e ∧ reply = none := by
  unfold step? at h
  split at h
  · rename_i hw
    cases h
    exact .inl hw
  · cases h
  · cases h
  · rename_i ms heeding next hw
    split at h
    · rename_i e he
      cases h
      cases heeding with
      | true => exact .inr ⟨ms, next, e, hw, he, rfl, rfl⟩
      | false => cases he
    · split at h
      · cases h
      · split at h <;> cases h

theorem crashed_of_step? (h : v.step? m = some (.done .crashed)) : v.work = .crash := by
  unfold step? at h
  split at h
  · cases h
  · assumption
  · cases h
  · split at h
    · cases h
    · split at h
      · cases h
      · split at h <;> cases h

/-- An invocation waits for good, or for its time. -/
theorem step?_eq_none (h : v.step? m = none) :
    v.work = .never ∨ ∃ t, v.wake = some t ∧ m.now < t := by
  unfold step? at h
  split at h
  · cases h
  · cases h
  · exact .inl ‹_›
  · split at h
    · cases h
    · split at h
      · cases h
      · rename_i t ht
        split at h
        · cases h
        · exact .inr ⟨t, ht, Nat.lt_of_not_le ‹_›⟩

/-- No wait lasts for good. -/
theorem not_waiting_always (v : Serving)
    (h : ∀ now, start ≤ now → ∃ t, v.wake = some t ∧ now < t) : False := by
  obtain ⟨t, ht, hlt⟩ := h start (Nat.le_refl _)
  obtain ⟨t', ht', hlt'⟩ := h t (Nat.le_of_lt hlt)
  cases ht.symm.trans ht'
  exact Nat.lt_irrefl _ hlt'

/-- What a step returns is what the work may return. -/
theorem returns_of_step? (h : v.step? m = some (.done (.returned error reply))) :
    v.work.Returns error reply := by
  rcases returned_of_step? h with hw | ⟨ms, next, e, hw, hv, rfl, rfl⟩
  · rw [hw]
    exact .finish
  · rw [hw]
    exact .cut (Context.isCancellation_of_verdict hv)

/-- What the rest of the work may return, the work may return. -/
theorem returns_of_more (h : v.step? m = some (.more v')) (hr : v'.work.Returns error reply) :
    v.work.Returns error reply := by
  rcases (more_of_step? h).2 with ⟨hw, _⟩ | ⟨_, ms, heeding, hw⟩
  · exact hw ▸ hr
  · rw [hw]
    exact .wait hr

theorem result?_of_more (h : v.step? m = some (.more v')) : v'.work.result? = v.work.result? := by
  rcases (more_of_step? h).2 with ⟨hw, _⟩ | ⟨_, ms, heeding, hw⟩
  · rw [hw]
  · rw [hw]
    rfl

/-- How many steps of waiting lie ahead. -/
def waits (v : Serving) : Nat := 2 * v.work.pauses + if v.wake.isSome then 0 else 1

theorem waits_of_more (h : v.step? m = some (.more v')) : v'.waits < v.waits := by
  rcases (more_of_step? h).2 with ⟨hw, hn, hs⟩ | ⟨hn, ms, heeding, hw⟩
  · simp [waits, hw, hn, hs]
  · have : v'.waits = 2 * v'.work.pauses + 1 := by simp [waits, hn]
    rw [this, waits, hw, Work.pauses]
    omega

end Serving

end PeerCall
