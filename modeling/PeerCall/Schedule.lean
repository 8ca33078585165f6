import PeerCall.World

/-! # Schedules

One order in which the tasks of a world run. A task runs until it has to wait. Tasks that have just
been started or that can go on after a wait stand in line behind those that already do; of several
that can go on at once, because the clock has moved or a token has fired, the one that came to its
wait first is first. One task, the user's, is not in the world; it is asked after so many turns,
when no other can run, and first after the clock has moved. The clock moves to the next alarm when
nothing else is left to do. -/

namespace PeerCall

/-- A task that runs or waits. -/
structure Schedule.Turn where
  task : Nat
  /-- How many steps had been taken when the task came to the stage that it is in. To be woken and
  to wait on for the same thing changes nothing about that. -/
  since : Nat
  deriving Repr, DecidableEq, Inhabited

/-- A task in line: one that has just been started, or one that goes on. -/
inductive Schedule.Candidate
  | fresh (task : Nat)
  | woken (t : Turn)
  deriving Repr, DecidableEq, Inhabited

/-- A world, the tasks that are to run, and those that wait, longest first. -/
structure Schedule where
  world : World := {}
  ready : List Schedule.Candidate := []
  waiting : List Schedule.Turn := []
  /-- How many tasks have been put in line so far. -/
  started : Nat := 0
  steps : Nat := 0

namespace Schedule

/-- More steps than any session takes. -/
def patience : Nat := 1000000000000

/-- How many tasks have their turn before the user is asked again. -/
def round : Nat := 61

/-- Puts a task among others that wait, behind those that came to their wait no later. -/
def place (t : Turn) : List Turn → List Turn
  | [] => [t]
  | u :: us => if u.since ≤ t.since then u :: place t us else t :: u :: us

theorem mem_place {t u : Turn} {us : List Turn} : u ∈ place t us ↔ u = t ∨ u ∈ us := by
  induction us with
  | nil => rw [place, List.mem_singleton, List.mem_nil_iff, or_false]
  | cons v us ih =>
    rw [place]
    split
    · rw [List.mem_cons, List.mem_cons, ih, or_left_comm]
    · rw [List.mem_cons]

theorem pairwise_place (t : Turn) {us : List Turn} (h : us.Pairwise (·.since ≤ ·.since)) :
    (place t us).Pairwise (·.since ≤ ·.since) := by
  induction us with
  | nil => exact List.pairwise_singleton ..
  | cons v us ih =>
    rw [List.pairwise_cons] at h
    rw [place]
    split
    · refine List.pairwise_cons.mpr ⟨fun u hu => ?_, ih h.2⟩
      rcases mem_place.mp hu with rfl | hu
      · assumption
      · exact h.1 u hu
    · have ht : t.since ≤ v.since := by omega
      refine List.pairwise_cons.mpr ⟨fun u hu => ?_, List.pairwise_cons.mpr h⟩
      rcases List.mem_cons.mp hu with rfl | hu
      · exact ht
      · exact Nat.le_trans ht (h.1 u hu)

/-- Puts in line the tasks that were started and those that no longer have to wait. -/
def notice (s : Schedule) : Schedule :=
  let fresh := (List.range (s.world.tasks.length - s.started)).map (.fresh <| s.started + ·)
  let (woken, waiting) := s.waiting.partition fun t => (s.world.step? t.task).isSome
  { s with
    ready := s.ready ++ fresh ++ woken.map .woken
    waiting
    started := s.world.tasks.length }

/-- Changes the world from outside. -/
def update (s : Schedule) (w : World) : Schedule := { s with world := w }.notice

/-- The turn of a task in line. One that has just been started comes to its first stage in it. -/
def turn (s : Schedule) : Candidate → Turn
  | .fresh i => ⟨i, s.steps⟩
  | .woken t => t

/-- Takes a step of a task, which turns the world into another. -/
def advanceTask (t : Turn) (w : World) (s : Schedule) : Turn × Schedule :=
  let since := if w.stage t.task = s.world.stage t.task then t.since else s.steps + 1
  ({ t with since }, { s with steps := s.steps + 1 }.update w)

/-- Runs a task until it has to wait or is over, at most `fuel` steps. -/
def runTask (t : Turn) : (fuel : Nat) → Schedule → Schedule
  | 0, s => s
  | fuel + 1, s =>
    match s.world.step? t.task with
    | none => { s with waiting := place t s.waiting }
    | some w =>
      let (t, s) := s.advanceTask t w
      runTask t fuel s

/-- Gives tasks their turn until all wait, at most `turns` of them. -/
def run : (turns : Nat) → Schedule → Schedule
  | 0, s => s
  | turns + 1, s =>
    match s.ready with
    | [] => s
    | t :: ready => run turns (runTask (s.turn t) patience { s with ready })

/-- The first alarm that is still to come, of the tasks that wait and of the user. -/
def nextAlarm? (s : Schedule) (alarms : List Nat) : Option Nat :=
  ((s.waiting.flatMap (s.world.alarms ·.task) ++ alarms).filter (s.world.moment.now < ·)).min?

def moveClock (s : Schedule) (now : Nat) : Schedule :=
  s.update { s.world with moment := { s.world.moment with now } }

/-- Waits until something is there to take, and asks for it at most `fuel` times. Hands back what
was taken. -/
def awaitFor (poll : World → Option (α × World)) (alarms : List Nat) :
    (fuel : Nat) → Schedule → Option α × Schedule
  | 0, s => (none, s)
  | fuel + 1, s =>
    match poll s.world with
    | some (a, w) => (some a, s.update w)
    | none =>
      let s := s.notice
      if s.ready.isEmpty then
        match s.nextAlarm? alarms with
        | none => (none, s)
        | some t => awaitFor poll alarms fuel (s.moveClock t)
      else awaitFor poll alarms fuel (s.run round)

/-- Waits until something is there to take, for at most `limit` milliseconds. -/
def await (s : Schedule) (limit : Nat) (poll : World → Option (α × World)) (alarms : List Nat) :
    Option α × Schedule :=
  let last := s.world.moment.now + limit
  let pollOrEnd (w : World) : Option (Option α × World) :=
    match poll w with
    | some (a, w) => some (some a, w)
    | none => if last ≤ w.moment.now then some (none, w) else none
  let (r, s) := awaitFor pollOrEnd (last :: alarms) patience s
  (r.join, s)

/-- Waits for some milliseconds. -/
def sleep (s : Schedule) (ms : Nat) : Schedule :=
  (s.await ms (fun _ => (none : Option (Unit × World))) []).2

end Schedule

end PeerCall
