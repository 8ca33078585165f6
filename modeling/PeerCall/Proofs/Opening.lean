import PeerCall.Opening
import PeerCall.Proofs.Acting

/-! # Opening a stream to an address

What the two halves of an opening do, each by itself. An attempt waits as long as there is no answer
and its time is not up (`Attempt.outcome?_eq_none_iff`). What a greeting has written and what it has
still to write are together the handshake, and when it ends early it marks nothing as failed
(`Greeting.Moves`). -/

namespace PeerCall

/-! ## Connecting -/

theorem Endpoint.outcome?_eq_none_iff {e : Endpoint} {elapsed : Nat} :
    e.outcome? elapsed = none ↔ ∀ ms, e.takes? = some ms → elapsed < ms := by
  cases e <;> simp [outcome?, takes?]

/-- An attempt waits for an answer, and not for longer than it may. -/
theorem Attempt.outcome?_eq_none_iff {a : Attempt} {m : Moment} {e : Endpoint} :
    a.outcome? m e = none ↔ (∀ ms, e.takes? = some ms → m.now - a.since < ms) ∧
      ∀ t, a.timeout = some t → m.now - a.since < t := by
  rw [← Endpoint.outcome?_eq_none_iff, outcome?]
  cases e.outcome? (m.now - a.since) with
  | some o => simp
  | none => cases a.timeout <;> simp

/-- What may come of an attempt at what there is at its address. -/
inductive Attempt.Yields (a : Attempt) : Endpoint → Outcome → Prop
  | failed {ms e} : Yields a (.fails ms e) (.failed (.io e))
  | connected {ms capacity owner actions} :
    Yields a (.answers ms capacity owner actions) (.connected capacity owner actions)
  | late {e t} (ht : a.timeout = some t) (hl : ∀ ms, e.takes? = some ms → t < ms) :
    Yields a e (.failed Handshake.lateConnection)

theorem Attempt.yields_of_outcome? {a : Attempt} {m : Moment} {e : Endpoint} {o : Outcome}
    (h : a.outcome? m e = some o) : a.Yields e o := by
  rw [outcome?] at h
  cases he : e.outcome? (m.now - a.since) with
  | some o' =>
    rw [he] at h
    cases h
    cases e with
    | fails | answers =>
      simp only [Endpoint.outcome?] at he
      split at he <;> cases he
      constructor
    | hangs => cases he
  | none =>
    rw [he] at h
    dsimp only at h
    split at h <;> cases h
    obtain ⟨t, ht, hle⟩ := (Option.any_eq_true ..).mp ‹_›
    exact .late ht fun ms hms =>
      Nat.lt_of_le_of_lt (of_decide_eq_true hle) (Endpoint.outcome?_eq_none_iff.mp he ms hms)

/-- An attempt that waits is looked at again in time, however long nobody looks. -/
theorem Attempt.alarm_of_outcome? {a : Attempt} {m m' : Moment} {e : Endpoint}
    (hsince : a.since ≤ m.now) (hn : a.outcome? m e = none) (ho : a.outcome? m' e ≠ none) :
    ∃ t ∈ a.alarms e, m.now < t ∧ t ≤ m'.now := by
  rw [outcome?_eq_none_iff] at hn
  rw [Ne, outcome?_eq_none_iff, Classical.not_and_iff_not_or_not] at ho
  -- what has come to be due, counted from the beginning of the attempt
  obtain ⟨ms, hms, hbefore, hafter⟩ : ∃ ms ∈ a.timeout.toList ++ e.takes?.toList,
      m.now - a.since < ms ∧ ms ≤ m'.now - a.since := by
    rcases ho with ho | ho
    · obtain ⟨ms, ht, hle⟩ : ∃ ms, e.takes? = some ms ∧ ms ≤ m'.now - a.since := by simpa using ho
      exact ⟨ms, by simp [ht], hn.1 ms ht, hle⟩
    · obtain ⟨t, ht, hle⟩ : ∃ t, a.timeout = some t ∧ t ≤ m'.now - a.since := by simpa using ho
      exact ⟨t, by simp [ht], hn.2 t ht, hle⟩
  refine ⟨a.since + ms, ?_, by omega, by omega⟩
  exact List.mem_append_right _ (List.mem_map_of_mem hms)

/-! ## Writing the handshake -/

namespace Greeting

variable {g : Greeting} {m : Moment} {l l' : Link} {p : Progress Greeting (Except Call Exchange)}

/-- What a step of a greeting can do. -/
inductive Moves (m : Moment) (g : Greeting) (l : Link) :
    Progress Greeting (Except Call Exchange) → Link → Prop
  | stopped {e} (hv : g.call.context.verdict m = some e) :
    Moves m g l (.done (.error (g.call.fail e))) (l.drop .left)
  | written {piece unsent} (hv : g.call.context.verdict m = none)
    (hu : g.unsent.flatten = piece ++ unsent.flatten) :
    Moves m g l (.more { g with unsent }) (l.put .left piece)
  | failed {e} (hv : g.call.context.verdict m = none) (he : e = .reset ∨ e = .brokenPipe) :
    Moves m g l (.done (.error (g.call.fail (.connection g.call.dest (.io e))))) (l.drop .left)
  | opened (hv : g.call.context.verdict m = none) (hu : g.unsent = []) :
    Moves m g l (.done (.ok (.ofCall g.codec g.call))) l

theorem moves_of_step? (h : g.step? m l = some (p, l')) : g.Moves m l p l' := by
  unfold step? at h
  cases hv : g.call.context.verdict m with
  | some e =>
    rw [hv] at h
    cases h
    exact .stopped hv
  | none =>
    rw [hv] at h
    dsimp only at h
    split at h
    · rename_i hu
      cases h
      exact .opened hv hu
    · rename_i rest hu
      cases h
      have hmore : g.Moves m l (.more { g with unsent := rest }) (l.put .left []) :=
        .written hv (by rw [hu]; rfl)
      rwa [Link.put_nil] at hmore
    · rename_i bs rest hne hu
      split at h
      · cases h
      · rename_i hw
        cases h
        rcases Link.write?_cases hw hne with ⟨_, _, _, he, _⟩ | ⟨rfl, ⟨-, he⟩ | ⟨-, he⟩⟩
        · cases he
        · exact .failed hv (.inl (Except.error.inj he))
        · exact .failed hv (.inr (Except.error.inj he))
      · rename_i n _ hw
        cases h
        obtain ⟨-, rfl⟩ := Link.write?_eq_ok hw
        refine .written hv ?_
        rw [hu, List.flatten_cons, List.flatten_cons, ← List.append_assoc, List.take_append_drop]

/-- A greeting waits only for room. -/
theorem waits_of_step? (h : g.step? m l = none) : g.call.context.verdict m = none ∧
    l.bound .left ≤ (l.flow .left).length ∧ l.shut .left = false := by
  unfold step? at h
  split at h
  · cases h
  · refine ⟨‹_›, ?_⟩
    split at h
    · cases h
    · cases h
    · split at h
      · exact Link.write?_eq_none ‹_›
      · cases h
      · cases h

theorem acted_of_step? (h : g.step? m l = some (p, l')) : l.Acted .left l' := by
  cases moves_of_step? h with
  | stopped | failed => exact Link.acted_drop ..
  | written => exact Link.acted_put ..
  | opened => exact .refl ..

end Greeting

end PeerCall
