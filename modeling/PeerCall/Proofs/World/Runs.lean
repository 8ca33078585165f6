import PeerCall.World

/-! # Runs of the world

Any order in which tasks take steps, time passes and tokens are fired (`World.run?`). What every
move keeps holds after a run (`World.run?_induct`). In a run no context ever becomes less done than
it was (`World.before_of_step?`, `Context.verdict_of_before`). -/

namespace PeerCall

/-! ## Moments -/

namespace Moment

/-- Time has not gone back since a moment, and what was fired stays so. -/
structure Before (m m' : Moment) : Prop where
  now : m.now ≤ m'.now
  fired : ∀ t ∈ m.fired, t ∈ m'.fired

theorem Before.refl (m : Moment) : m.Before m := ⟨Nat.le_refl _, fun _ h => h⟩

theorem Before.trans {m₁ m₂ m₃ : Moment} (h : m₁.Before m₂) (h' : m₂.Before m₃) : m₁.Before m₃ :=
  ⟨Nat.le_trans h.now h'.now, fun t ht => h'.fired t (h.fired t ht)⟩

theorem Before.isCancelled {m m' : Moment} (h : m.Before m') (hc : m.isCancelled t = true) :
    m'.isCancelled t = true := by
  obtain ⟨f, hf, ht⟩ := List.any_eq_true.mp hc
  exact List.any_eq_true.mpr ⟨f, h.fired f hf, ht⟩

end Moment

/-- A context that is not done was not done before. -/
theorem Context.verdict_of_before {c : Context} {m m' : Moment} (h : m.Before m')
    (hv : c.verdict m' = none) : c.verdict m = none := by
  unfold verdict at hv ⊢
  split at hv
  · cases hv
  · rename_i hc
    rw [if_neg fun hm => hc (h.isCancelled hm)]
    split at hv
    · split at hv
      · cases hv
      · rename_i hlt
        exact if_neg fun hle => hlt (Nat.le_trans hle h.now)
    · rfl

/-- Whether a token is one of the first `n` that were made, or was derived from one. -/
def Token.isMade (n : Nat) (t : Token) : Bool := t.path.getLast?.any (· < n)

/-- A token that is not made yet is not fired. -/
theorem Moment.isCancelled_root {m : Moment} (h : ∀ t ∈ m.fired, t.isMade n = true) :
    m.isCancelled (.root n) = false := by
  rw [isCancelled, List.any_eq_false]
  intro t ht hu
  have hm := h t ht
  obtain ⟨path⟩ := t
  simp only [Token.isUnder, Token.root, List.isSuffixOf_iff_suffix] at hu
  rcases List.suffix_cons_iff.mp hu with rfl | hnil
  · simp [Token.isMade] at hm
  · rw [List.suffix_nil] at hnil
    subst hnil
    simp [Token.isMade] at hm

theorem Moment.verdict_root {m : Moment} (h : ∀ t ∈ m.fired, t.isMade n = true) :
    Context.verdict ⟨.root n, none⟩ m = none := by
  simp [Context.verdict, isCancelled_root h]

namespace World

/-! ## Steps -/

variable {w w' : World}

theorem moment_of_stepCall? (h : w.stepCall? i channel c = some (c', w')) :
    w'.moment = w.moment := by
  cases c with
  | dialing call codec host protocol =>
    cases h
    split
    · rfl
    · split
      · split <;> rfl
      · split <;> rfl
  | connecting a =>
    obtain ⟨⟨c, w₁⟩, hc, he⟩ := Option.map_eq_some_iff.mp h
    cases he
    unfold stepConnecting? at hc
    split at hc
    · cases hc
      rfl
    · split at hc <;> cases hc <;> rfl
  | greeting link g =>
    simp only [stepCall?] at h
    split at h
    · cases h
    · split at h <;> cases h <;> rfl
  | exchanging link x =>
    simp only [stepCall?] at h
    split at h
    · cases h
    · split at h <;> cases h <;> rfl
  | entering call codec peer site =>
    cases h
    split
    · rfl
    · split <;> rfl
  | serving call codec v =>
    simp only [stepCall?] at h
    split at h <;> cases h <;> rfl
  | delivering call =>
    simp only [stepCall?] at h
    split at h
    · cases h
    · split at h <;> cases h
      rfl

/-- A step leaves the time alone, and takes nothing back that was fired. -/
theorem before_of_step? (h : w.step? i = some w') : w.moment.Before w'.moment := by
  suffices w'.moment = w.moment ∨ ∃ t, w'.moment = w.moment.fire t by
    rcases this with hm | ⟨t, hm⟩
    · exact hm ▸ .refl _
    · exact hm ▸ ⟨Nat.le_refl _, fun _ => List.mem_cons_of_mem t⟩
  rw [step?] at h
  split at h
  · cases h
  · cases h
  · split at h
    · cases h
    · rename_i hc
      have hm := moment_of_stepCall? hc
      cases h
      exact .inl hm
    · rename_i hc
      have hm := moment_of_stepCall? hc
      cases h
      exact .inl hm
  · split at h
    · cases h
    · split at h
      · cases h
      · rename_i turn _
        cases h
        cases turn.invoked <;> exact .inl rfl
  · split at h
    · rename_i a network _
      cases h
      unfold takeIn
      split
      · split <;> exact .inl rfl
      · exact .inl rfl
    · cases h
    · cases h
      exact .inl rfl
    · cases h
      exact .inl rfl
  · split at h
    · cases h
    · split at h
      · cases h
      · cases h
        exact .inl rfl
  · split at h
    · cases h
      exact .inl rfl
    · split at h
      · cases h
        exact .inr ⟨_, rfl⟩
      · cases h

/-- The channel of one call, which holds the call once that is handed back. -/
def handedOn (c? : Option Call) : Channel Call :=
  match c? with
  | some c => { queue := [c], free := 0, senders := 1 }
  | none => { free := 1, senders := 1 }

/-- A call that is done goes to its channel. -/
theorem step?_delivering (ht : w.tasks[i]? = some (.call channel (.delivering c)))
    (hc : w.channels[channel]? = some (handedOn none)) :
    w.step? i = some { w with
      channels := w.channels.set channel (handedOn (some c))
      tasks := w.tasks.set i .ended } := by
  rw [step?, ht]
  simp only [stepCall?, hc]
  rfl

/-- Starting a call puts its task behind those that there are. -/
theorem go_eq {client : Client} {call : Call} (h : taskOf client call = .ok c) :
    w.go client call = .ok (w.channels.length, { w with
      channels := w.channels ++ [handedOn none]
      tasks := w.tasks ++ [.call w.channels.length c] }) := by
  have hcap : (w.addChannel 1 0).2.hasCapacity w.channels.length = true := by
    simp [addChannel, hasCapacity, Channel.ofCapacity]
  have hch : (w.channels ++ [Channel.ofCapacity 1 0]).modify w.channels.length Channel.addSender =
      w.channels ++ [handedOn none] := by
    rw [List.modify_eq_take_cons_drop (by simp)]
    simp [Channel.ofCapacity, Channel.addSender, handedOn]
  have hstart : (w.addChannel 1 0).2.goWith client call w.channels.length = .ok { w with
      channels := w.channels ++ [handedOn none]
      tasks := w.tasks ++ [.call w.channels.length c] } := by
    rw [goWith, if_pos hcap, start, h]
    simp only [addChannel, modifyChannel, hch, spawn]
  simp only [go]
  rw [show (w.addChannel 1 0).1 = w.channels.length from rfl, hstart]

/-! ## Runs -/

inductive Move
  /-- The task at a place takes a step. -/
  | step (i : Nat)
  | clock (now : Nat)
  | fire (t : Token)
  deriving Repr, DecidableEq

/-- Whether a move is a step of a task. -/
def Move.isStep : Move → Bool
  | step _ => true
  | _ => false

def atTime (w : World) (now : Nat) : World := { w with moment := { w.moment with now } }

def move? (w : World) : Move → Option World
  | .step i => w.step? i
  | .clock now => if w.moment.now ≤ now then some (w.atTime now) else none
  | .fire t => some (w.fire t)

def run? : List Move → World → Option World
  | [], w => some w
  | mv :: moves, w =>
    match w.move? mv with
    | none => none
    | some w => run? moves w

/-- The calls that wait on a channel. -/
def delivered (w : World) (channel : Nat) : List Call :=
  match w.channels[channel]? with
  | none => []
  | some ch => ch.queue

theorem delivered_handedOn (channels : List (Channel Call))
    (hw : w.channels = channels ++ [handedOn c?]) (hn : channel = channels.length) :
    w.delivered channel = c?.toList := by
  subst hn
  rw [delivered, hw, List.getElem?_concat_length]
  cases c? <;> rfl

/-- No task can take a step, however much time passes. -/
def AtRest (w : World) : Prop := ∀ now i, w.moment.now ≤ now → (w.atTime now).step? i = none

variable {moves : List Move}

private theorem induct_of_subset {P : Nat → World → Prop}
    (hstep : ∀ n w i w', P n w → w.step? i = some w' → P (n + 1) w')
    (hclock : ∀ n w now, P n w → w.moment.now ≤ now → P n (w.atTime now))
    (hfire : ∀ n w t, P n w → Move.fire t ∈ moves → P n (w.fire t))
    (hsub : rest ⊆ moves) (hP : P n w) (h : run? rest w = some w') :
    P (n + rest.countP Move.isStep) w' := by
  induction rest generalizing n w with
  | nil =>
    cases h
    exact hP
  | cons mv rest ih =>
    obtain ⟨hmv, hrest⟩ := List.cons_subset.mp hsub
    rw [run?] at h
    split at h
    · cases h
    · rename_i w₁ hw
      cases mv with
      | step i =>
        rw [List.countP_cons_of_pos rfl, Nat.add_comm _ 1, ← Nat.add_assoc]
        exact ih hrest (hstep n w i w₁ hP hw) h
      | clock now =>
        rw [List.countP_cons_of_neg (by simp [Move.isStep])]
        simp only [move?] at hw
        split at hw
        · rename_i hle
          cases hw
          exact ih hrest (hclock n w now hP hle) h
        · cases hw
      | fire t =>
        rw [List.countP_cons_of_neg (by simp [Move.isStep])]
        cases hw
        exact ih hrest (hfire n w t hP hmv) h

/-- What every move keeps, counting the steps, holds after a run. -/
theorem run?_induct {P : Nat → World → Prop}
    (hstep : ∀ n w i w', P n w → w.step? i = some w' → P (n + 1) w')
    (hclock : ∀ n w now, P n w → w.moment.now ≤ now → P n (w.atTime now))
    (hfire : ∀ n w t, P n w → Move.fire t ∈ moves → P n (w.fire t))
    (hP : P 0 w) (h : run? moves w = some w') : P (moves.countP Move.isStep) w' := by
  have hlast := induct_of_subset hstep hclock hfire (List.Subset.refl _) hP h
  rwa [Nat.zero_add] at hlast

end World

end PeerCall
