import Mathlib.Data.List.DropRight
import PeerCall.Proofs.World.Runs

/-! # Observing a context

A context is derived from a fresh one by any chain of deadlines, timeouts, clones and child tokens,
while time passes and tokens are fired. With a child token it begins anew, so the deadlines given
before are left behind (`Context.deadline_derive`). It can be asked for its verdict, waited for, and
raced against, which are three pieces of code; they say the same at every moment
(`Context.done?_eq`, `Context.race_of_verdict`, `Context.race_of_none`). A wait is woken as soon as
there is something to tell (`Vigil.Alert`), and what was told once stays so but for a deadline that
is overtaken by a cancellation, or that is left behind (`Context.verdict_of_cancelled`,
`Context.lasts`). Main statement: `Context.observed_of_events`. -/

namespace PeerCall

/-! ## Tokens -/

/-- A token is another one, or the other was derived from it. -/
inductive Token.Ancestor (a : Token) : Token → Prop
  | refl : Ancestor a a
  | child {t} (i : Nat) (h : Ancestor a t) : Ancestor a (t.child i)

theorem Token.isUnder_iff {t a : Token} : t.isUnder a = true ↔ a.Ancestor t := by
  rw [isUnder, List.isSuffixOf_iff_suffix]
  constructor
  · rintro ⟨is, h⟩
    obtain ⟨path⟩ := t
    dsimp only at h
    subst h
    -- one more child for every number that stands before the path of the ancestor
    induction is with
    | nil => exact .refl
    | cons i is ih => exact .child i ih
  · intro h
    induction h with
    | refl => exact List.suffix_refl _
    | child i _ ih => exact ih.trans (List.suffix_cons ..)

theorem Moment.isCancelled_iff {m : Moment} {t : Token} :
    m.isCancelled t = true ↔ ∃ a ∈ m.fired, a.Ancestor t := by
  rw [isCancelled, List.any_eq_true]
  exact exists_congr fun a => and_congr_right fun _ => Token.isUnder_iff

/-! ## What happens -/

namespace Moment

/-- Something that contexts may notice. -/
inductive Event
  | advance (ms : Nat)
  | cancel (t : Token)
  deriving DecidableEq

def after (m : Moment) : Event → Moment
  | .advance ms => { m with now := m.now + ms }
  | .cancel t => m.fire t

/-- The moment after some events. -/
def run (m : Moment) : List Event → Moment
  | [] => m
  | e :: es => (m.after e).run es

variable {m : Moment}

theorem before_after (m : Moment) (e : Event) : m.Before (m.after e) := by
  cases e with
  | advance ms => exact ⟨Nat.le_add_right .., fun _ h => h⟩
  | cancel t => exact ⟨Nat.le_refl _, fun _ => List.mem_cons_of_mem t⟩

theorem before_run (m : Moment) (es : List Event) : m.Before (m.run es) := by
  induction es generalizing m with
  | nil => exact .refl m
  | cons e es ih => exact (before_after m e).trans (ih _)

theorem mem_fired_run {es : List Event} {t : Token} :
    t ∈ (m.run es).fired ↔ t ∈ m.fired ∨ .cancel t ∈ es := by
  induction es generalizing m with
  | nil => simp [run]
  | cons e es ih =>
    rw [run, ih]
    cases e with
    | advance ms => simp [after]
    | cancel a => simp [after, fire, or_assoc, or_left_comm]

end Moment

/-! ## Chains of derivations -/

namespace Context

/-- A way to derive a context from another. -/
inductive Derivation
  | withDeadline (deadline : Nat)
  /-- The moment is that at which the timeout is given. -/
  | withTimeout (m : Moment) (ms : Nat)
  | clone
  /-- Begins anew on the `i`-th token derived from the current one. -/
  | child (i : Nat)

namespace Derivation

def apply (c : Context) : Derivation → Context
  | withDeadline d => c.withDeadline d
  | withTimeout m ms => c.withTimeout m ms
  | clone => c
  | child i => ofToken (c.token.child i)

def isChild : Derivation → Bool
  | child _ => true
  | _ => false

/-- The deadline that is applied. -/
def deadline? : Derivation → Option Nat
  | withDeadline d => some d
  | withTimeout m ms => some (m.now + ms)
  | _ => none

/-- The deadlines that were applied along a chain and are not left behind: those since the last
child token. -/
def deadlines (ds : List Derivation) : List Nat :=
  (ds.rtakeWhile (!·.isChild)).filterMap deadline?

theorem deadlines_concat (ds : List Derivation) (d : Derivation) :
    deadlines (ds ++ [d]) = if d.isChild then [] else deadlines ds ++ d.deadline?.toList := by
  rw [deadlines, List.rtakeWhile_concat]
  cases d.isChild with
  | true => rfl
  | false =>
    rw [Bool.not_false, if_pos rfl, List.filterMap_append, deadlines]
    rfl

end Derivation

/-- The context at the end of a chain. -/
def derive (c : Context) (ds : List Derivation) : Context := ds.foldl Derivation.apply c

variable {c : Context} {m m' : Moment}

theorem derive_concat (c : Context) (ds : List Derivation) (d : Derivation) :
    c.derive (ds ++ [d]) = d.apply (c.derive ds) := List.foldl_concat ..

/-- A deadline that is added counts like any other. -/
private theorem deadline_withDeadline {applied : List Nat} (h : c.deadline = applied.min?)
    (d : Nat) : (c.withDeadline d).deadline = (applied ++ [d]).min? := by
  rw [withDeadline, h]
  cases applied with
  | nil => rfl
  | cons e applied =>
    rw [List.cons_append, List.min?_cons', List.min?_cons', List.foldl_concat]
    rfl

/-- The deadline at the end of a chain is the earliest of those that are not left behind. -/
theorem deadline_derive (c : Context) (ds : List Derivation) : (c.derive ds).deadline =
    ((if ds.any Derivation.isChild then [] else c.deadline.toList) ++
      Derivation.deadlines ds).min? := by
  induction ds using List.reverseRecOn with
  | nil => cases h : c.deadline <;> simp [derive, Derivation.deadlines, h]
  | append_singleton ds d ih =>
    have hadd (d : Nat) : ((c.derive ds).withDeadline d).deadline =
        ((if ds.any Derivation.isChild then [] else c.deadline.toList) ++
          (Derivation.deadlines ds ++ [d])).min? := by
      rw [← List.append_assoc]
      exact deadline_withDeadline ih d
    rw [derive_concat, Derivation.deadlines_concat, List.any_append, List.any_cons, List.any_nil,
      Bool.or_false]
    cases d with
    | withDeadline d => exact (Bool.or_false _).symm ▸ hadd d
    | withTimeout m ms => exact (Bool.or_false _).symm ▸ hadd (m.now + ms)
    | clone => exact (Bool.or_false _).symm ▸ (List.append_nil (Derivation.deadlines ds)).symm ▸ ih
    | child i => exact (Bool.or_true _).symm ▸ rfl

/-- A token knows all that were its ancestors before. -/
theorem ancestor_derive {a : Token} (h : a.Ancestor c.token) (ds : List Derivation) :
    a.Ancestor (c.derive ds).token := by
  induction ds using List.reverseRecOn with
  | nil => exact h
  | append_singleton ds d ih =>
    rw [derive_concat]
    cases d with
    | child i => exact .child i ih
    | _ => exact ih

/-- Along a chain a deadline stays in force, or one that is as early is given again after the last
child token. -/
def Derivation.Carries (ds : List Derivation) (d : Nat) : Prop :=
  (∀ i, .child i ∉ ds) ∨ ∃ d' ∈ deadlines ds, d' ≤ d

private theorem exists_min?_le {xs : List Nat} {x : Nat} (h : x ∈ xs) :
    ∃ a, xs.min? = some a ∧ a ≤ x := by
  cases ha : xs.min? with
  | none => cases List.min?_eq_none_iff.mp ha ▸ h
  | some a => exact ⟨a, rfl, (List.min?_eq_some_iff.mp ha).2 x h⟩

/-- A deadline that is carried along is not put off. -/
theorem deadline_derive_le {d : Nat} {ds : List Derivation} (h : c.deadline = some d)
    (hc : Derivation.Carries ds d) : ∃ d', (c.derive ds).deadline = some d' ∧ d' ≤ d := by
  rw [deadline_derive]
  rcases hc with hnone | ⟨d', hd', hle⟩
  · have hany : ds.any Derivation.isChild = false := by
      rw [List.any_eq_false]
      intro e he hchild
      cases e with
      | child i => exact hnone i he
      | _ => cases hchild
    apply exists_min?_le
    simp [hany, h]
  · obtain ⟨a, ha, hle'⟩ := exists_min?_le (List.mem_append_right
      (if ds.any Derivation.isChild then [] else c.deadline.toList) hd')
    exact ⟨a, ha, Nat.le_trans hle' hle⟩

/-! ## Verdicts -/

/-- How a context can stand, with the verdict that tells it. -/
inductive Standing (c : Context) (m : Moment) : Option CallError → Prop
  | cancelled (hc : m.isCancelled c.token = true) : Standing c m (some .cancelled)
  | overdue (hc : ¬m.isCancelled c.token = true) (hd : ∃ d, c.deadline = some d ∧ d ≤ m.now) :
    Standing c m (some .deadlineExceeded)
  | pending (hc : ¬m.isCancelled c.token = true)
    (hd : ¬∃ d, c.deadline = some d ∧ d ≤ m.now) : Standing c m none

theorem standing (c : Context) (m : Moment) : c.Standing m (c.verdict m) := by
  unfold verdict
  split
  case isTrue hc => exact .cancelled hc
  case isFalse hc =>
    cases hd : c.deadline with
    | none => exact .pending hc (by rw [hd]; rintro ⟨_, he, -⟩; cases he)
    | some d =>
      dsimp only
      split
      case isTrue hle => exact .overdue hc ⟨d, hd, hle⟩
      case isFalse hlt =>
        refine .pending hc ?_
        rintro ⟨d', hd', hle⟩
        cases hd.symm.trans hd'
        exact hlt hle

theorem verdict_eq_cancelled_iff :
    c.verdict m = some .cancelled ↔ m.isCancelled c.token = true := by
  have h := c.standing m
  generalize c.verdict m = v at h ⊢
  cases h with
  | cancelled hc => exact iff_of_true rfl hc
  | overdue hc => exact iff_of_false nofun hc
  | pending hc => exact iff_of_false nofun hc

theorem verdict_eq_deadlineExceeded_iff : c.verdict m = some .deadlineExceeded ↔
    ¬m.isCancelled c.token = true ∧ ∃ d, c.deadline = some d ∧ d ≤ m.now := by
  have h := c.standing m
  generalize c.verdict m = v at h ⊢
  cases h with
  | cancelled hc => exact iff_of_false nofun fun h => h.1 hc
  | overdue hc hd => exact iff_of_true rfl ⟨hc, hd⟩
  | pending _ hd => exact iff_of_false nofun fun h => hd h.2

theorem verdict_eq_none_iff : c.verdict m = none ↔
    ¬m.isCancelled c.token = true ∧ ¬∃ d, c.deadline = some d ∧ d ≤ m.now := by
  have h := c.standing m
  generalize c.verdict m = v at h ⊢
  cases h with
  | cancelled hc => exact iff_of_false nofun fun h => h.1 hc
  | overdue _ hd => exact iff_of_false nofun fun h => h.2 hd
  | pending hc hd => exact iff_of_true rfl ⟨hc, hd⟩

/-- The wait ends just where there is a verdict, and with it. -/
theorem done?_eq (c : Context) (m : Moment) : c.done? m = c.verdict m := by
  unfold done? verdict
  cases c.deadline with
  | none => rfl
  | some d => rfl

theorem race_of_verdict {σ α : Type} {e : CallError} (h : c.verdict m = some e)
    (work : σ → Option α × σ) (f : σ) : c.race m work f = (some (.error e), f) := by
  rw [race, done?_eq, h]

theorem race_of_none {σ α : Type} (h : c.verdict m = none) (work : σ → Option α × σ) (f : σ) :
    c.race m work f = ((work f).1.map .ok, (work f).2) := by
  rw [race, done?_eq, h]

/-- Once there is a verdict there is one: the same, or a cancellation in the place of a deadline. -/
def Lasts (v v' : Option CallError) : Prop :=
  ∀ e, v = some e → v' = some e ∨ e = .deadlineExceeded ∧ v' = some .cancelled

/-- What was cancelled is so for ever, and so is all that is derived from it. -/
theorem verdict_of_cancelled (h : m.Before m') (hc : c.verdict m = some .cancelled)
    (ds : List Derivation) : (c.derive ds).verdict m' = some .cancelled := by
  obtain ⟨a, ha, hac⟩ := Moment.isCancelled_iff.mp (verdict_eq_cancelled_iff.mp hc)
  exact verdict_eq_cancelled_iff.mpr
    (Moment.isCancelled_iff.mpr ⟨a, h.fired a ha, ancestor_derive hac ds⟩)

/-- A verdict lasts on whatever is derived without leaving the deadline behind. -/
theorem lasts {ds : List Derivation} (h : m.Before m')
    (hc : ∀ d, c.deadline = some d → Derivation.Carries ds d) :
    Lasts (c.verdict m) ((c.derive ds).verdict m') := by
  have hnow := c.standing m
  generalize hv : c.verdict m = v at hnow ⊢
  intro e he
  cases hnow with
  | cancelled =>
    cases he
    exact .inl (verdict_of_cancelled h hv ds)
  | overdue _ hd =>
    cases he
    by_cases hcancelled : m'.isCancelled (c.derive ds).token
    · exact .inr ⟨rfl, verdict_eq_cancelled_iff.mpr hcancelled⟩
    · obtain ⟨d, hd, hle⟩ := hd
      obtain ⟨d', hd', hle'⟩ := deadline_derive_le hd (hc d hd)
      have hreached : d' ≤ m'.now := Nat.le_trans hle' (Nat.le_trans hle h.now)
      exact .inl (verdict_eq_deadlineExceeded_iff.mpr ⟨hcancelled, d', hd', hreached⟩)
  | pending => cases he

end Context

/-! ## Waiting -/

/-- What a wait comes to that is looked at in these moments, until a look brings something. -/
def awaited {σ ρ : Type} (look : Moment → σ → Option ρ × σ) : List Moment → σ → Option ρ × σ
  | [], f => (none, f)
  | m :: ms, f =>
    match look m f with
    | (some r, f) => (some r, f)
    | (none, f) => awaited look ms f

namespace Context

/-- A wait for the end of a context ends with the first look that finds a verdict. -/
theorem awaited_done (c : Context) (looks : List Moment) :
    awaited (fun m u => (c.done? m, u)) looks () = (looks.findSome? c.verdict, ()) := by
  induction looks with
  | nil => rfl
  | cons m looks ih =>
    rw [awaited, done?_eq, List.findSome?_cons]
    cases c.verdict m with
    | none => exact ih
    | some e => rfl

/-- Work under a context is looked at as it would be alone, until a look finds a verdict. -/
theorem awaited_race {σ α : Type} (c : Context) (work : σ → Option α × σ) (looks : List Moment)
    (f : σ) : awaited (fun m => c.race m work) looks f =
      match awaited (fun _ => work) (looks.takeWhile fun m => (c.verdict m).isNone) f with
      | (some a, f) => (some (.ok a), f)
      | (none, f) => ((looks.findSome? c.verdict).map .error, f) := by
  induction looks generalizing f with
  | nil => rfl
  | cons m looks ih =>
    rw [awaited, List.findSome?_cons, List.takeWhile_cons]
    cases hv : c.verdict m with
    | some e => rw [race_of_verdict hv]; rfl
    | none =>
      rw [race_of_none hv, Option.isNone_none, if_pos rfl, awaited]
      rcases work f with ⟨_ | a, f⟩
      · exact ih f
      · rfl

end Context

/-- Somebody who waits for a context: the moments of the looks so far, and whether there is to be
another look. -/
structure Vigil where
  moment : Moment
  looks : List Moment := []
  woken : Bool := false

namespace Vigil

inductive Move
  | event (e : Moment.Event)
  | look

/-- Whether an event that leads to a moment wakes those that wait for the context: a token tells
all that wait for it or for one derived from it, and the alarm goes off when its time has come. -/
def rouses (c : Context) (m : Moment) : Moment.Event → Bool
  | .advance _ => c.deadline.any (· ≤ m.now)
  | .cancel t => c.token.isUnder t

def move (c : Context) (v : Vigil) : Move → Vigil
  | .event e =>
    let m := v.moment.after e
    { v with moment := m, woken := v.woken || (!v.looks.isEmpty && rouses c m e) }
  | .look => { v with looks := v.looks ++ [v.moment], woken := false }

def run (c : Context) (v : Vigil) : List Move → Vigil
  | [] => v
  | mv :: moves => (v.move c mv).run c moves

/-- Who has looked and found nothing is woken just when there is a verdict. -/
def Alert (c : Context) (v : Vigil) : Prop :=
  v.looks ≠ [] → v.looks.findSome? c.verdict = none → (v.woken = true ↔ c.verdict v.moment ≠ none)

variable {c : Context} {m : Moment} {v : Vigil}

theorem rouses_iff (h : c.verdict m = none) (e : Moment.Event) :
    rouses c (m.after e) e = true ↔ c.verdict (m.after e) ≠ none := by
  obtain ⟨hc, hd⟩ := Context.verdict_eq_none_iff.mp h
  rw [Ne, Context.verdict_eq_none_iff, Classical.not_and_iff_not_or_not, Classical.not_not,
    Classical.not_not]
  cases e with
  | advance ms =>
    have hsame : (m.after (.advance ms)).isCancelled c.token = m.isCancelled c.token := rfl
    rw [hsame, or_iff_right hc, rouses, Option.any_eq_true]
    simp only [decide_eq_true_eq]
  | cancel t =>
    have hfire : (m.after (.cancel t)).isCancelled c.token =
        (c.token.isUnder t || m.isCancelled c.token) := rfl
    have hnow : (m.after (.cancel t)).now = m.now := rfl
    rw [hfire, hnow, or_iff_left hd, Bool.or_eq_true, or_iff_left hc, rouses]

theorem Alert.step (h : v.Alert c) (mv : Move) : (v.move c mv).Alert c := by
  intro hlooks hnone
  cases mv with
  | look =>
    -- nothing can have happened since this very look
    rw [move, List.findSome?_append, Option.or_eq_none_iff] at hnone
    have hv : c.verdict v.moment = none := by simpa using hnone.2
    simp [move, hv]
  | event e =>
    have hwoken := h hlooks hnone
    have hempty : v.looks.isEmpty = false := List.isEmpty_eq_false_iff.mpr hlooks
    cases hv : c.verdict v.moment with
    | none =>
      have hasleep : v.woken = false := Bool.eq_false_iff.mpr fun hw => hwoken.mp hw hv
      rw [move, hasleep, hempty]
      exact rouses_iff hv e
    | some r =>
      have hawake : v.woken = true := hwoken.mpr (hv ▸ Option.some_ne_none r)
      have hlater : c.verdict (v.moment.after e) ≠ none := fun hn =>
        Option.some_ne_none r (hv.symm.trans
          (Context.verdict_of_before (Moment.before_after v.moment e) hn))
      simp [move, hawake, hlater]

theorem Alert.run (h : v.Alert c) (moves : List Move) : (v.run c moves).Alert c := by
  induction moves generalizing v with
  | nil => exact h
  | cons mv moves ih => exact ih (h.step mv)

end Vigil

/-! ## All observers -/

namespace Context

/-- What the observers of a context say at a moment, where it is known whether it was cancelled. -/
structure Observed (c : Context) (m : Moment) (wasCancelled : Prop) : Prop where
  cancelled : c.verdict m = some .cancelled ↔ wasCancelled
  overdue : c.verdict m = some .deadlineExceeded ↔
    ¬wasCancelled ∧ ∃ d, c.deadline = some d ∧ d ≤ m.now
  pending : c.verdict m = none ↔ ¬wasCancelled ∧ ¬∃ d, c.deadline = some d ∧ d ≤ m.now
  done : c.done? m = c.verdict m
  /-- Work is not even looked at once there is a verdict. -/
  refused : ∀ {σ α : Type} (work : σ → Option α × σ) (f : σ) (e : CallError),
    c.verdict m = some e → c.race m work f = (some (.error e), f)
  ready : ∀ {σ α : Type} (work : σ → Option α × σ) (f : σ) (a : α),
    (c.race m work f).1 = some (.ok a) → c.verdict m = none ∧ (work f).1 = some a

/-- What comes of waiting for a context, and of work under it. -/
structure Awaited (c : Context) (v : Vigil) : Prop where
  alert : v.Alert c
  done : awaited (fun m u => (c.done? m, u)) v.looks () = (v.looks.findSome? c.verdict, ())
  race : ∀ {σ α : Type} (work : σ → Option α × σ) (f : σ),
    awaited (fun m => c.race m work) v.looks f =
      match awaited (fun _ => work) (v.looks.takeWhile fun m => (c.verdict m).isNone) f with
      | (some a, f) => (some (.ok a), f)
      | (none, f) => ((v.looks.findSome? c.verdict).map .error, f)

theorem observed (c : Context) (m : Moment) : c.Observed m (m.isCancelled c.token = true) where
  cancelled := verdict_eq_cancelled_iff
  overdue := verdict_eq_deadlineExceeded_iff
  pending := verdict_eq_none_iff
  done := done?_eq c m
  refused work f e h := race_of_verdict h work f
  ready work f a h := by
    cases hv : c.verdict m with
    | some e =>
      rw [race_of_verdict hv] at h
      cases h
    | none =>
      rw [race_of_none hv, Option.map_eq_some_iff] at h
      obtain ⟨b, hb, he⟩ := h
      cases he
      exact ⟨rfl, hb⟩

/-- Whatever a context is derived by, and whatever happens: its deadline is the earliest of those
that were applied since the last child token; it is cancelled just when its token or an ancestor
was, and else overdue just when its deadline is reached; who waits for it is woken as soon as that
is so, and is told with the next look; work under it is looked at only before. Once it is cancelled
it stays so, and so is all that is derived from it. Once it is overdue it stays so or is cancelled,
and so does all that is derived from it without leaving the deadline behind. -/
theorem observed_of_events (t : Token) (ds : List Derivation) (es : List Moment.Event) :
    let c := (ofToken t).derive ds
    let m := Moment.run {} es
    c.deadline = (Derivation.deadlines ds).min? ∧
    c.Observed m (∃ a, .cancel a ∈ es ∧ a.Ancestor c.token) ∧
    (∀ moves, c.Awaited (Vigil.run c ⟨m, [], false⟩ moves)) ∧
    ∀ ds' es',
      (c.verdict m = some .cancelled → (c.derive ds').verdict (m.run es') = some .cancelled) ∧
      ((∀ d, c.deadline = some d → Derivation.Carries ds' d) →
        Lasts (c.verdict m) ((c.derive ds').verdict (m.run es'))) := by
  intro c m
  refine ⟨?_, ?_, ?_, ?_⟩
  · have hfresh : (ofToken t).deadline.toList = [] := rfl
    rw [deadline_derive, hfresh, ite_self, List.nil_append]
  · have hcancelled : m.isCancelled c.token = true ↔ ∃ a, .cancel a ∈ es ∧ a.Ancestor c.token := by
      rw [Moment.isCancelled_iff]
      apply exists_congr
      intro a
      rw [Moment.mem_fired_run, or_iff_right (List.not_mem_nil)]
    rw [← hcancelled]
    exact observed c m
  · intro moves
    exact ⟨Vigil.Alert.run (fun hlooks => absurd rfl hlooks) moves, awaited_done c _,
      fun work => awaited_race c work _⟩
  · intro ds' es'
    have hlater := Moment.before_run m es'
    exact ⟨fun hc => verdict_of_cancelled hlater hc ds', lasts hlater⟩

/-- A context that is overdue, and one on a child of its token, which has none of the deadlines that
were applied and is not done. -/
theorem deadline_left_behind :
    let c := (ofToken (.root 0)).derive [.withDeadline 5]
    let m := Moment.run {} [.advance 5]
    (c.derive [.child 0]).deadline ≠
        ([Derivation.withDeadline 5, .child 0].filterMap Derivation.deadline?).min? ∧
      c.verdict m = some .deadlineExceeded ∧ (c.derive [.child 0]).verdict m = none ∧
      ¬ Lasts (c.verdict m) ((c.derive [.child 0]).verdict m) := by
  refine ⟨by decide, rfl, rfl, fun h => ?_⟩
  rcases h .deadlineExceeded rfl with h | ⟨-, h⟩ <;> cases h

/-- A cancellation and a deadline come at one moment, in which the work is ready too. -/
example : Context.race ⟨(Token.root 0).child 1, some 5⟩ ⟨5, [.root 0]⟩
      (fun n => (some "ready", n + 1)) 0 = (some (.error .cancelled), 0) := rfl

end Context

end PeerCall
