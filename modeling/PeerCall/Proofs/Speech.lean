import PeerCall.Proofs.Frame.Reading
import PeerCall.Proofs.Frame.Writing
import PeerCall.Session.Streams

/-! # Speeches

One end of a link has some jobs to do and then leaves in one of a few ways; the other end reads one
frame after the other. Each does what it does in steps that touch the link once at most, and a run is
any order of such steps. Whatever the order, every step brings the speech nearer to its end
(`Speech.work_lt_of_moves`), and it comes to rest only when the listener has all it wanted
(`Speech.Sound.wishes_of_atRest`). -/

namespace PeerCall

open Session.Streams (Purpose Answer)

/-! ## The two ends -/

/-- A piece of work of the end that speaks. -/
inductive Job
  /-- Chores on a framed stream. -/
  | framed (chores : List Chore)
  /-- A plain operation, past the buffer. -/
  | plain (t : Transfer)

/-- What an end does to its link on leaving. -/
inductive Parting
  | shutdown | reset | drop
  deriving Repr, DecidableEq

/-- How an end leaves. -/
inductive Farewell
  | shutdown | drop | close | reset
  deriving Repr, DecidableEq

namespace Farewell

/-- What is done on leaving, one after the other. -/
def partings : Farewell → List Parting
  | shutdown => [.shutdown]
  | drop => [.drop]
  | close => [.shutdown, .drop]
  | reset => [.reset, .drop]

/-- How the stream ends for the other end. -/
def ending : Farewell → Ending
  | reset => .reset
  | _ => .clean

end Farewell

/-- Whether nothing can be written any more afterwards. -/
def Parting.shuts : Parting → Bool
  | reset => false
  | _ => true

def Parting.act (s : Side) : Parting → Link → Link
  | shutdown => Link.shutdown s
  | reset => Link.reset s
  | drop => Link.drop s

/-- One step of a job, with the buffer of the framed stream. -/
def Job.step? (s : Side) (b : SendBuffer) (l : Link) :
    Job → Option (Progress Job (Except StreamError Unit) × SendBuffer × Link)
  | framed cs =>
    match b.step? s cs l with
    | none => none
    | some (.more cs, b, l) => some (.more (framed cs), b, l)
    | some (.done result, b, l) => some (.done result, b, l)
  | plain t =>
    match t.step? s l with
    | none => none
    | some (.more t, l) => some (.more (plain t), b, l)
    | some (.done (.ok _), l) => some (.done (.ok ()), b, l)
    | some (.done (.error e), l) => some (.done (.error (.io e)), b, l)

/-- The end that speaks: its jobs, of which the first is under way, what it does on leaving, and the
results of the jobs that are done. -/
structure Speaker where
  jobs : List Job
  partings : List Parting
  buffer : SendBuffer := {}
  results : List (Except StreamError Unit) := []

/-- One step of the end that speaks. It leaves when all its jobs are done. -/
def Speaker.step? (s : Side) (sp : Speaker) (l : Link) : Option (Speaker × Link) :=
  match sp.jobs with
  | job :: jobs =>
    match job.step? s sp.buffer l with
    | none => none
    | some (.more job, buffer, l) => some ({ sp with jobs := job :: jobs, buffer }, l)
    | some (.done result, buffer, l) =>
      some ({ sp with jobs, buffer, results := sp.results ++ [result] }, l)
  | [] =>
    match sp.partings with
    | [] => none
    | p :: partings => some ({ sp with partings }, p.act s l)

/-- The end that listens: what it wants of the frames to come, and its answers from those that
came. -/
structure Listener where
  codec : Codec
  wishes : List Purpose
  reader : FrameReader := .start
  unread : Bytes := []
  answers : List Answer := []

/-- One step of the end that listens. -/
def Listener.step? (s : Side) (li : Listener) (l : Link) : Option (Listener × Link) :=
  match li.wishes with
  | [] => none
  | wish :: wishes =>
    match li.reader.step? s li.unread l with
    | none => none
    | some (.more reader, unread, l) => some ({ li with reader, unread }, l)
    | some (.done result, unread, l) =>
      some ({ li with wishes, reader := .start, unread
                      answers := li.answers ++ [wish.answer li.codec result] }, l)

/-- Both ends, the link between them, and all bytes that the speaker has put on it. -/
structure Speech where
  speaker : Speaker
  link : Link
  listener : Listener
  sent : Bytes

namespace Speech

inductive Move
  | speak
  | listen
  /-- The last job is abandoned, wherever it stands. -/
  | giveUp
  deriving Repr, DecidableEq

/-- One move. The listener stands at the side `s`. -/
def move? (s : Side) (w : Speech) : Move → Option Speech
  | .speak =>
    match w.speaker.step? s.other w.link with
    | none => none
    | some (speaker, link) =>
      let piece := (link.flow s.other).drop (w.link.flow s.other).length
      some { w with speaker, link, sent := w.sent ++ piece }
  | .listen =>
    match w.listener.step? s w.link with
    | none => none
    | some (listener, link) => some { w with link, listener }
  | .giveUp =>
    match w.speaker.jobs with
    | [_] => some { w with speaker := { w.speaker with jobs := [] } }
    | _ => none

def run? (s : Side) : List Move → Speech → Option Speech
  | [], w => some w
  | mv :: moves, w =>
    match w.move? s mv with
    | none => none
    | some w => run? s moves w

/-- Neither end can do anything. -/
def AtRest (s : Side) (w : Speech) : Prop :=
  w.speaker.step? s.other w.link = none ∧ w.listener.step? s w.link = none

/-- A speech over a fresh link. -/
def ofJobs (codec : Codec) (capacity : Nat) (jobs : List Job) (farewell : Farewell)
    (wishes : List Purpose) : Speech where
  speaker := { jobs, partings := farewell.partings }
  link := .ofCapacity capacity
  listener := { codec, wishes }
  sent := []

end Speech

/-! ## Jobs -/

namespace Job

/-- The bytes that a job has still to write. -/
def bytes : Job → Bytes
  | framed cs => Chore.bytes cs
  | plain (.write bs) => bs
  | plain _ => []

/-- What a job comes to on a link that nobody else breaks. -/
def outcome : Job → Except StreamError Unit
  | framed cs =>
    match Chore.fault? cs with
    | none => .ok ()
    | some e => .error e
  | plain _ => .ok ()

/-- A job that leaves nothing in the buffer. -/
def Flushes : Job → Prop
  | framed cs => Chore.Flushed cs
  | plain _ => False

/-- A job, plain or not, that writes all it has to, or fails before it writes anything. -/
inductive Clear : Bool → Job → Prop
  | framed {cs} (h : Chore.fault? cs = none) : Clear false (.framed cs)
  | failing {e} : Clear false (.framed [.fail e])
  | plain {bs} : Clear true (.plain (.write bs))

/-- What a step of a job can do that puts `piece` on the link. -/
inductive Turn (isPlain : Bool) (b : SendBuffer) (job : Job) (piece : Bytes) :
    Progress Job (Except StreamError Unit) → SendBuffer → Prop
  | more {job' b'} (hc : job'.Clear isPlain) (hp : piece ≠ [])
    (h : b.unsent ++ job.bytes = piece ++ (b'.unsent ++ job'.bytes))
    (ho : job'.outcome = job.outcome) (hf : job.Flushes → job'.Flushes)
    (hb : isPlain = true → b'.unsent = []) : Turn isPlain b job piece (.more job') b'
  | done {b'} (h : b.unsent ++ job.bytes = piece ++ b'.unsent)
    (hf : job.Flushes → b'.unsent = []) (hb : isPlain = true → b'.unsent = []) :
    Turn isPlain b job piece (.done job.outcome) b'

variable {s : Side} {b b' : SendBuffer} {l l' : Link} {job : Job} {isPlain : Bool}

private theorem turn_of_chores {cs : List Chore} (hcs : Chore.fault? cs = none)
    (hr : l.wasReset.get s.other = false) (hs : l.shut s = false)
    (h : (framed cs).step? s b l = some (p, b', l')) :
    ∃ piece, l' = l.put s piece ∧ (framed cs).Turn false b piece p b' := by
  have hout {cs' : List Chore} (hf : Chore.fault? cs' = none) :
      (framed cs').outcome = .ok () := by rw [outcome, hf]
  simp only [step?] at h
  split at h
  · cases h
  · rename_i hstep
    cases h
    cases SendBuffer.turn_of_step? hstep with
    | more hp h hm hf hl =>
      have hcs' := hf.trans hcs
      exact ⟨_, rfl, .more (.framed hcs') hp h ((hout hcs').trans (hout hcs).symm) hl nofun⟩
  · rename_i hstep
    cases h
    cases SendBuffer.turn_of_step? hstep with
    | done h hf hl =>
      rw [← hout hcs]
      exact ⟨_, rfl, .done h hl nofun⟩
    | failed h hf => cases hcs.symm.trans hf
    | refused hm he =>
      rcases he with ⟨he, -⟩ | ⟨he, -⟩
      · cases hr.symm.trans he
      · cases hs.symm.trans he

private theorem turn_of_write {bs : Bytes} (hb : b.unsent = [])
    (hr : l.wasReset.get s.other = false) (hs : l.shut s = false)
    (h : (plain (.write bs)).step? s b l = some (p, b', l')) :
    ∃ piece, l' = l.put s piece ∧ (plain (.write bs)).Turn true b piece p b' := by
  by_cases hbs : bs = []
  · subst hbs
    cases h
    exact ⟨[], (Link.put_nil ..).symm, .done (List.append_nil _) nofun fun _ => hb⟩
  · simp only [step?, Transfer.step?, if_neg fun he => hbs (List.isEmpty_iff.mp he)] at h
    rcases hw : l.write? s bs with _ | ⟨r, l₁⟩
    · simp [hw] at h
    · rw [hw] at h
      rcases Link.write?_cases hw hbs with ⟨n, hpos, hle, rfl, rfl⟩ | ⟨rfl, ⟨he, -⟩ | ⟨he, -⟩⟩
      · cases h
        have hpiece : bs.take n ≠ [] := Bytes.take_ne_nil hpos hbs
        refine ⟨_, rfl, .more .plain hpiece ?_ rfl nofun fun _ => hb⟩
        simp only [bytes, hb, List.nil_append, List.take_append_drop]
      · cases hr.symm.trans he
      · cases hs.symm.trans he

/-- If nobody else breaks the link, a step of a job puts a piece on it. -/
theorem turn_of_step? (hc : job.Clear isPlain) (hb : isPlain = true → b.unsent = [])
    (hr : l.wasReset.get s.other = false) (hs : l.shut s = false)
    (h : job.step? s b l = some (p, b', l')) :
    ∃ piece, l' = l.put s piece ∧ job.Turn isPlain b piece p b' := by
  cases hc with
  | framed hcs => exact turn_of_chores hcs hr hs h
  | failing =>
    cases h
    exact ⟨[], (Link.put_nil ..).symm,
      .done (List.append_nil _) (fun hf => by simp [Flushes, Chore.Flushed] at hf) nofun⟩
  | plain => exact turn_of_write (hb rfl) hr hs h

/-- A job waits for room only. -/
theorem step?_eq_none (hc : job.Clear isPlain) (h : job.step? s b l = none) :
    SendBuffer.Waits s l := by
  cases hc with
  | framed | failing =>
    simp only [step?] at h
    split at h
    · exact SendBuffer.step?_eq_none ‹_›
    · cases h
    · cases h
  | @plain bs =>
    simp only [step?, Transfer.step?] at h
    split at h
    · rename_i hstep
      split at hstep
      · cases hstep
      · split at hstep
        · rename_i hw
          exact ⟨(Link.write?_eq_none hw).1, (Link.write?_eq_none hw).2⟩
        · cases hstep
        · cases hstep
    all_goals cases h

end Job

/-! ## Leaving -/

/-- How far a speaker has left: it has done the partings in `gone`, after all of its jobs. -/
structure Speaker.Leaves (f : Farewell) (gone : List Parting) (s : Side) (sp : Speaker)
    (l : Link) : Prop where
  partings : gone ++ sp.partings = f.partings
  shut : l.shut s = gone.any Parting.shuts
  wasReset : l.wasReset.get s = gone.any (!·.shuts)
  busy : sp.jobs ≠ [] → gone = []

namespace Speaker.Leaves

variable {f : Farewell} {gone : List Parting} {s : Side} {sp : Speaker} {l : Link}

/-- Once an end can write no more, the other end can tell how it has left. -/
theorem wasReset_of_shut (h : sp.Leaves f gone s l) (hs : l.shut s = true) :
    l.wasReset.get s = f.ending.isReset := by
  have hp := h.partings
  have hshut := h.shut.symm.trans hs
  rw [h.wasReset]
  -- no farewell resets a stream that it has shut before
  rcases gone with _ | ⟨p, _ | ⟨q, gone⟩⟩
  · cases hshut
  · cases f <;> simp_all [Farewell.partings, Farewell.ending, Ending.isReset, Parting.shuts]
  · cases f <;> simp_all [Farewell.partings, Farewell.ending, Ending.isReset, Parting.shuts]

theorem jobs_of_shut (h : sp.Leaves f gone s l) (hs : l.shut s = true) : sp.jobs = [] := by
  by_cases hj : sp.jobs = []
  · exact hj
  · rw [h.shut, h.busy hj] at hs
    cases hs

/-- An end that has left can write no more. -/
theorem shut_of_gone (h : sp.Leaves f gone s l) (hp : sp.partings = []) : l.shut s = true := by
  have hgone := h.partings
  rw [hp, List.append_nil] at hgone
  rw [h.shut, hgone]
  cases f <;> rfl

theorem part {p : Parting} {partings : List Parting} (h : sp.Leaves f gone s l)
    (hj : sp.jobs = []) (hp : sp.partings = p :: partings) :
    { sp with partings }.Leaves f (gone ++ [p]) s (p.act s l) where
  partings := by rw [← h.partings, hp, List.append_assoc]; rfl
  shut := by
    rw [List.any_append, ← h.shut]
    cases p <;> simp [Parting.act, Parting.shuts]
  wasReset := by
    rw [List.any_append, ← h.wasReset]
    cases p <;> simp [Parting.act, Parting.shuts]
  busy hne := absurd hj hne

end Speaker.Leaves

@[simp] theorem Parting.flow_act (p : Parting) (s s' : Side) (l : Link) :
    (p.act s l).flow s' = l.flow s' := by
  cases p <;> simp [act]

@[simp] theorem Parting.bound_act (p : Parting) (s s' : Side) (l : Link) :
    (p.act s l).bound s' = l.bound s' := by
  cases p <;> simp [act]

@[simp] theorem Parting.wasReset_act_other (p : Parting) (s : Side) (l : Link) :
    (p.act s.other l).wasReset.get s = l.wasReset.get s := by
  cases p <;> simp [act]

/-! ## Steps of a sound speech -/

/-- What every speech keeps. -/
structure Speech.Sound (s : Side) (isPlain : Bool) (f : Farewell) (w : Speech) : Prop where
  leaves : ∃ gone, w.speaker.Leaves f gone s.other w.link
  clear : ∀ job ∈ w.speaker.jobs, job.Clear isPlain
  unbuffered : isPlain = true → w.speaker.buffer.unsent = []
  reader : w.listener.reader.Sound
  listens : w.link.wasReset.get s = false
  room : 0 < w.link.bound s.other

namespace Speech

/-- What a move can do to a sound speech. -/
inductive Moves (s : Side) (isPlain : Bool) (w : Speech) : Move → Speech → Prop
  | works {job job' jobs b piece} (hj : w.speaker.jobs = job :: jobs)
    (hs : w.link.shut s.other = false)
    (ht : job.Turn isPlain w.speaker.buffer piece (.more job') b) :
    Moves s isPlain w .speak
      { w with
        speaker := { w.speaker with jobs := job' :: jobs, buffer := b }
        link := w.link.put s.other piece
        sent := w.sent ++ piece }
  | ends {job jobs result b piece} (hj : w.speaker.jobs = job :: jobs)
    (hs : w.link.shut s.other = false)
    (ht : job.Turn isPlain w.speaker.buffer piece (.done result) b) :
    Moves s isPlain w .speak
      { w with
        speaker := { w.speaker with jobs, buffer := b, results := w.speaker.results ++ [result] }
        link := w.link.put s.other piece
        sent := w.sent ++ piece }
  | parts {p partings} (hj : w.speaker.jobs = []) (hp : w.speaker.partings = p :: partings) :
    Moves s isPlain w .speak
      { w with speaker := { w.speaker with partings }, link := p.act s.other w.link }
  | abandons {job} (hj : w.speaker.jobs = [job]) :
    Moves s isPlain w .giveUp { w with speaker := { w.speaker with jobs := [] } }
  | reads {wish wishes reader unread l} (hw : w.listener.wishes = wish :: wishes)
    (ht : w.listener.reader.Turn s w.listener.unread w.link (.more reader) unread l) :
    Moves s isPlain w .listen { w with listener := { w.listener with reader, unread }, link := l }
  | hears {wish wishes result unread l} (hw : w.listener.wishes = wish :: wishes)
    (ht : w.listener.reader.Turn s w.listener.unread w.link (.done result) unread l) :
    Moves s isPlain w .listen
      { w with
        listener := { w.listener with
          wishes, unread
          reader := .start
          answers := w.listener.answers ++ [wish.answer w.listener.codec result] }
        link := l }

variable {s : Side} {isPlain : Bool} {f : Farewell} {w w' : Speech} {mv : Move}

/-- An end that has a job left can write. -/
theorem Sound.unshut_of_jobs (hw : w.Sound s isPlain f) (hj : w.speaker.jobs = job :: jobs) :
    w.link.shut s.other = false := by
  obtain ⟨gone, hleaves⟩ := hw.leaves
  cases hs : w.link.shut s.other with
  | false => rfl
  | true => cases hj.symm.trans (hleaves.jobs_of_shut hs)

theorem moves_of_move? (hw : w.Sound s isPlain f) (h : w.move? s mv = some w') :
    w.Moves s isPlain mv w' := by
  cases mv with
  | speak =>
    simp only [move?] at h
    split at h
    · cases h
    · rename_i sp l hsp
      cases h
      unfold Speaker.step? at hsp
      split at hsp
      · rename_i job jobs hj
        have hs := hw.unshut_of_jobs hj
        have hr : w.link.wasReset.get s.other.other = false := by
          rw [Side.other_other]
          exact hw.listens
        have hc := hw.clear job (hj ▸ List.mem_cons_self)
        have hflow (piece : Bytes) : ((w.link.put s.other piece).flow s.other).drop
            (w.link.flow s.other).length = piece := by
          simp
        split at hsp
        · cases hsp
        · rename_i hstep
          obtain ⟨piece, rfl, ht⟩ := Job.turn_of_step? hc hw.unbuffered hr hs hstep
          cases hsp
          rw [hflow]
          exact .works hj hs ht
        · rename_i hstep
          obtain ⟨piece, rfl, ht⟩ := Job.turn_of_step? hc hw.unbuffered hr hs hstep
          cases hsp
          rw [hflow]
          exact .ends hj hs ht
      · rename_i hj
        split at hsp
        · cases hsp
        · rename_i hp
          cases hsp
          rw [Parting.flow_act, List.drop_length, List.append_nil]
          exact .parts hj hp
  | listen =>
    simp only [move?] at h
    split at h
    · cases h
    · rename_i hli
      cases h
      unfold Listener.step? at hli
      split at hli
      · cases hli
      · rename_i hwish
        split at hli
        · cases hli
        · rename_i hstep
          cases hli
          exact .reads hwish (FrameReader.turn_of_step? hw.reader hstep)
        · rename_i hstep
          cases hli
          exact .hears hwish (FrameReader.turn_of_step? hw.reader hstep)
  | giveUp =>
    simp only [move?] at h
    split at h
    · rename_i hj
      cases h
      exact .abandons hj
    · cases h

private theorem Sound.put {speaker : Speaker} {sent piece : Bytes} (hw : w.Sound s isPlain f)
    (hj : w.speaker.jobs ≠ []) (hp : speaker.partings = w.speaker.partings)
    (hc : ∀ job ∈ speaker.jobs, job.Clear isPlain)
    (hb : isPlain = true → speaker.buffer.unsent = []) :
    Sound s isPlain f { w with speaker, link := w.link.put s.other piece, sent } where
  leaves := by
    obtain ⟨gone, h⟩ := hw.leaves
    obtain rfl := h.busy hj
    exact ⟨[], ⟨hp ▸ h.partings, by simpa using h.shut, by simpa using h.wasReset,
      fun _ => rfl⟩⟩
  clear := hc
  unbuffered := hb
  reader := hw.reader
  listens := by simpa using hw.listens
  room := by simpa using hw.room

private theorem Sound.take {listener : Listener} (hw : w.Sound s isPlain f)
    (hr : listener.reader.Sound) (n : Nat) :
    Sound s isPlain f { w with listener, link := w.link.take s n } where
  leaves := by
    obtain ⟨gone, h⟩ := hw.leaves
    exact ⟨gone, ⟨h.partings, by simpa using h.shut, by simpa using h.wasReset, h.busy⟩⟩
  clear := hw.clear
  unbuffered := hw.unbuffered
  reader := hr
  listens := by simpa using hw.listens
  room := by simpa using hw.room

theorem Sound.step (hw : w.Sound s isPlain f) (h : w.Moves s isPlain mv w') :
    w'.Sound s isPlain f := by
  cases h with
  | works hj hs ht =>
    cases ht with
    | more hc hp h ho hf hb =>
      apply hw.put
      · simp [hj]
      · rfl
      · intro job hm
        rcases List.mem_cons.mp hm with rfl | hm
        · exact hc
        · exact hw.clear job (hj ▸ List.mem_cons_of_mem _ hm)
      · exact hb
  | ends hj hs ht =>
    cases ht with
    | done h hf hb =>
      apply hw.put
      · simp [hj]
      · rfl
      · exact fun job hm => hw.clear job (hj ▸ List.mem_cons_of_mem _ hm)
      · exact hb
  | parts hj hp =>
    obtain ⟨gone, h⟩ := hw.leaves
    exact ⟨⟨_, h.part hj hp⟩, hw.clear, hw.unbuffered, hw.reader, by simpa using hw.listens,
      by simpa using hw.room⟩
  | abandons hj =>
    obtain ⟨gone, h⟩ := hw.leaves
    exact ⟨⟨gone, ⟨h.partings, h.shut, h.wasReset, fun hne => absurd rfl hne⟩⟩, nofun,
      hw.unbuffered, hw.reader, hw.listens, hw.room⟩
  | reads hwish ht =>
    obtain ⟨n, rfl⟩ := ht.link
    exact hw.take ht.sound_of_more n
  | hears hwish ht =>
    obtain ⟨n, rfl⟩ := ht.link
    exact hw.take FrameReader.sound_start n

theorem sound_ofJobs {codec : Codec} {jobs : List Job} {wishes : List Purpose}
    (hc : ∀ job ∈ jobs, job.Clear isPlain) (hcap : 0 < capacity) :
    (ofJobs codec capacity jobs f wishes).Sound s isPlain f where
  leaves := ⟨[], ⟨rfl, by simp [ofJobs], by simp [ofJobs], fun _ => rfl⟩⟩
  clear := hc
  unbuffered _ := rfl
  reader := FrameReader.sound_start
  listens := by simp [ofJobs]
  room := by simpa [ofJobs] using hcap

/-! ## Coming to rest -/

/-- How much there is still to do. A byte that is not yet on its way counts twice, since it is to be
sent and to be read. -/
def work (s : Side) (w : Speech) : Nat :=
  2 * (w.speaker.buffer.unsent ++ w.speaker.jobs.flatMap Job.bytes).length +
    w.speaker.jobs.length + w.speaker.partings.length + (w.link.flow s.other).length +
    w.listener.wishes.length

theorem work_lt_of_moves (h : w.Moves s isPlain mv w') : w'.work s < w.work s := by
  cases h with
  | works hj hs ht =>
    cases ht with
    | more hc hp h ho hf hb =>
      have hlen := congrArg List.length h
      have hpos := List.length_pos_iff.mpr hp
      simp only [work, hj, List.flatMap_cons, List.length_append, List.length_cons, Link.flow_put,
        if_true] at hlen ⊢
      omega
  | ends hj hs ht =>
    cases ht with
    | done h hf hb =>
      have hlen := congrArg List.length h
      simp only [work, hj, List.flatMap_cons, List.length_append, List.length_cons, Link.flow_put,
        if_true] at hlen ⊢
      omega
  | parts hj hp =>
    simp only [work, hp, Parting.flow_act, List.length_cons]
    omega
  | abandons hj =>
    simp only [work, hj, List.flatMap_cons, List.flatMap_nil, List.length_append, List.length_cons,
      List.length_nil]
    omega
  | reads hwish ht =>
    have := ht.flow_lt_of_more
    simp only [work]
    omega
  | hears hwish ht =>
    obtain ⟨n, rfl⟩ := ht.link
    simp only [work, hwish, Link.flow_take, if_neg (Side.other_ne s), List.length_drop,
      List.length_cons]
    omega

/-- While the listener wants more, one of the two can do something. -/
theorem Sound.wishes_of_atRest (hw : w.Sound s isPlain f) (h : w.AtRest s) :
    w.listener.wishes = [] := by
  obtain ⟨hspeak, hlisten⟩ := h
  cases hwish : w.listener.wishes with
  | nil => rfl
  | cons wish wishes =>
    -- a listener that waits has found the link empty and open: a job has room, and the speaker has
    -- not left yet
    obtain ⟨gone, hleaves⟩ := hw.leaves
    have hwait : w.listener.reader.Waits s w.listener.unread w.link := by
      unfold Listener.step? at hlisten
      rw [hwish] at hlisten
      simp only at hlisten
      split at hlisten
      · exact FrameReader.step?_eq_none hw.reader ‹_›
      all_goals cases hlisten
    unfold Speaker.step? at hspeak
    split at hspeak
    · rename_i job jobs hj
      split at hspeak
      · rename_i hstep
        have hfull := (Job.step?_eq_none (hw.clear job (hj ▸ List.mem_cons_self)) hstep).full
        rw [hwait.dry] at hfull
        exact absurd hw.room (Nat.not_lt.mpr hfull)
      all_goals cases hspeak
    · split at hspeak
      · rename_i hp
        cases hwait.unshut.symm.trans (hleaves.shut_of_gone hp)
      · cases hspeak

/-- Every speech can come to rest without anything being abandoned. -/
theorem Sound.exists_atRest (hw : w.Sound s isPlain f) :
    ∃ moves w', run? s moves w = some w' ∧ w'.AtRest s ∧ .giveUp ∉ moves := by
  induction hn : w.work s using Nat.strongRecOn generalizing w with
  | ind n ih =>
    subst hn
    have hgo (mv : Move) (hmv : mv ≠ .giveUp) (h : w.move? s mv ≠ none) :
        ∃ moves w', run? s moves w = some w' ∧ w'.AtRest s ∧ .giveUp ∉ moves := by
      obtain ⟨w₁, h⟩ := Option.ne_none_iff_exists'.mp h
      have hm := moves_of_move? hw h
      obtain ⟨moves, w', hrun, hrest, hgive⟩ := ih _ (work_lt_of_moves hm) (hw.step hm) rfl
      refine ⟨mv :: moves, w', ?_, hrest, ?_⟩
      · rw [run?, h]
        exact hrun
      · exact fun hmem => hgive ((List.mem_cons.mp hmem).resolve_left hmv.symm)
    cases hspeak : w.speaker.step? s.other w.link with
    | some r => exact hgo .speak nofun (by simp [move?, hspeak])
    | none =>
      cases hlisten : w.listener.step? s w.link with
      | some r => exact hgo .listen nofun (by simp [move?, hlisten])
      | none => exact ⟨[], w, rfl, ⟨hspeak, hlisten⟩, nofun⟩

end Speech

end PeerCall
