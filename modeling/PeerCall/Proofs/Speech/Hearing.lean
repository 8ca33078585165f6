import PeerCall.Proofs.Frame.Parsing
import PeerCall.Proofs.Speech

/-! # What is said and what is heard

The bytes that were sent, those in the buffer and those of the jobs that are left are, in this order,
the bytes of all jobs (`Speaker.Saying`), and a job that flushes is done only when nothing before it is
left behind (`Speaker.Said`). What the listener will answer depends on nothing but the bytes sent in
all and the way they end (`Speech.Heard`). Every step keeps both. -/

namespace PeerCall

open Session.Streams (Purpose Answer)

/-- The answers to wishes, one after the other, of a stream of just these bytes. -/
def Frame.answers (codec : Codec) (wishes : List Purpose) (ending : Ending) (bs : Bytes) :
    List Answer :=
  List.zipWith (Purpose.answer codec) wishes (reads ending wishes.length bs)

theorem Frame.answers_cons {codec : Codec} {wish : Purpose} {wishes : List Purpose}
    (h : read ending bs = (result, rest)) :
    answers codec (wish :: wishes) ending bs =
      wish.answer codec result :: answers codec wishes ending rest := by
  rw [answers, List.length_cons, reads, h]
  rfl

private theorem zipWith_take_length (f : α → β → γ) (xs : List α) (ys : List β) :
    List.zipWith f xs (ys.take xs.length) = List.zipWith f xs ys := by
  have hle : (List.zipWith f xs ys).length ≤ xs.length := by
    rw [List.length_zipWith]
    exact Nat.min_le_left ..
  rw [← List.take_of_length_le hle, List.take_zipWith, List.take_length]

/-- The answers to all that can be read, and from then on to the end. -/
theorem Frame.answers_eq (codec : Codec) (wishes : List Purpose) (ending : Ending) (bs : Bytes) :
    answers codec wishes ending bs = List.zipWith (Purpose.answer codec) wishes
      (parse ending bs ++ List.replicate wishes.length (.error ending.error)) := by
  rw [answers, reads_eq_take (Nat.le_succ _), zipWith_take_length]

/-- The answers where the end of the stream is one between frames. -/
theorem Frame.answers_of_parse {ending : Ending} {results : List (Except StreamError Bytes)}
    (h : parse ending bs = results ++ [.error ending.error]) (codec : Codec)
    (wishes : List Purpose) :
    answers codec wishes ending bs = List.zipWith (Purpose.answer codec) wishes
      (results ++ List.replicate wishes.length (.error ending.error)) := by
  cases wishes with
  | nil => rfl
  | cons wish wishes =>
    rw [answers, List.length_cons, reads_eq_take (Nat.le_refl _), h, List.append_assoc,
      List.singleton_append, ← List.replicate_succ, ← List.length_cons, zipWith_take_length]

/-- The answers that a listener will have when it has heard these bytes and their ending. -/
def Listener.foreseen (li : Listener) (ending : Ending) (bs : Bytes) : List Answer :=
  li.answers ++ Frame.answers li.codec li.wishes ending (li.reader.taken ++ li.unread ++ bs)

namespace Speech

variable {s : Side} {isPlain : Bool} {f : Farewell} {w w' : Speech} {mv : Move}
  {codec : Codec} {wishes : List Purpose} {jobs : List Job} {lost : Prop}

/-! ## Hearing -/

/-- A stream on which `todo` can still come before it ends in this way. -/
def MayEnd (s : Side) (w : Speech) (ending : Ending) (todo : Bytes) : Prop :=
  w.link.shut s.other = true → todo = [] ∧ w.link.wasReset.get s.other = ending.isReset

/-- A listener that answers as one does who hears all at once. -/
structure Heard (s : Side) (codec : Codec) (wishes : List Purpose) (w : Speech) : Prop where
  sameCodec : w.listener.codec = codec
  foreseen : ∀ ending todo, w.MayEnd s ending todo →
    w.listener.foreseen ending (w.link.flow s.other ++ todo) =
      Frame.answers codec wishes ending (w.sent ++ todo)

theorem heard_ofJobs : (ofJobs codec capacity jobs f wishes).Heard s codec wishes where
  sameCodec := rfl
  foreseen ending todo _ := by
    simp [ofJobs, Listener.foreseen, FrameReader.taken_start]

private theorem Heard.put {speaker : Speaker} {piece : Bytes} (hh : w.Heard s codec wishes)
    (hs : w.link.shut s.other = false) :
    Heard s codec wishes
      { w with speaker, link := w.link.put s.other piece, sent := w.sent ++ piece } where
  sameCodec := hh.sameCodec
  foreseen ending todo _ := by
    have h := hh.foreseen ending (piece ++ todo) fun hs' => by cases hs.symm.trans hs'
    rw [Link.flow_put, if_pos rfl, List.append_assoc, List.append_assoc]
    exact h

theorem Heard.step (hw : w.Sound s isPlain f) (hh : w.Heard s codec wishes)
    (h : w.Moves s isPlain mv w') : w'.Heard s codec wishes := by
  cases h with
  | works hj hs ht => exact hh.put hs
  | ends hj hs ht => exact hh.put hs
  | @parts p partings hj hp =>
    refine ⟨hh.sameCodec, fun ending todo hend => ?_⟩
    rw [Parting.flow_act]
    refine hh.foreseen ending todo fun hs => ?_
    -- a stream that had ended before ends in the same way now
    obtain ⟨gone, hleaves⟩ := hw.leaves
    have hleaves' := hleaves.part hj hp
    have hs' : (p.act s.other w.link).shut s.other = true := by
      rw [hleaves'.shut, List.any_append, ← hleaves.shut, hs]
      rfl
    obtain ⟨ht, hr⟩ := hend hs'
    exact ⟨ht, by rw [hleaves.wasReset_of_shut hs, ← hr, hleaves'.wasReset_of_shut hs']⟩
  | abandons hj => exact ⟨hh.sameCodec, hh.foreseen⟩
  | reads hwish ht =>
    refine ⟨hh.sameCodec, fun ending todo hend => ?_⟩
    obtain ⟨n, rfl⟩ := ht.link
    rw [← hh.foreseen ending todo (by simpa [MayEnd] using hend)]
    simp only [Listener.foreseen, ht.bytes_of_more todo]
  | hears hwish ht =>
    refine ⟨hh.sameCodec, fun ending todo hend => ?_⟩
    have hread : w.MayEnd s ending todo → _ := ht.read_of_done
    obtain ⟨n, rfl⟩ := ht.link
    have hend : w.MayEnd s ending todo := by simpa [MayEnd] using hend
    rw [← hh.foreseen ending todo hend]
    rw [Listener.foreseen, Listener.foreseen, hwish, Frame.answers_cons (hread hend)]
    simp only [FrameReader.taken_start, List.nil_append, List.append_assoc, List.singleton_append]

end Speech

/-! ## Saying -/

/-- Jobs of which the first may be half done. -/
inductive Job.Resumes : List Job → List Job → Prop
  | nil : Resumes [] []
  | cons {job job' jobs} (ho : job'.outcome = job.outcome) (hf : job.Flushes → job'.Flushes) :
    Resumes (job' :: jobs) (job :: jobs)

theorem Job.resumes_refl (jobs : List Job) : Resumes jobs jobs := by
  cases jobs with
  | nil => exact .nil
  | cons job jobs => exact .cons rfl id

namespace Speaker

/-- A speaker that has done the jobs in `before` and goes on with those in `after`. -/
structure Saying (jobs before after : List Job) (sp : Speaker) (sent : Bytes) : Prop where
  split : jobs = before ++ after
  results : sp.results = before.map Job.outcome
  resumes : Job.Resumes sp.jobs after
  bytes : sent ++ (sp.buffer.unsent ++ sp.jobs.flatMap Job.bytes) = jobs.flatMap Job.bytes

/-- What was said of the jobs, be they done or given up. -/
structure Said (jobs : List Job) (sp : Speaker) (sent : Bytes) : Prop where
  results : sp.results <+: jobs.map Job.outcome
  front : sent <+: jobs.flatMap Job.bytes
  flushed : ∀ k job, jobs[k]? = some job → job.Flushes → k < sp.results.length →
    (jobs.take (k + 1)).flatMap Job.bytes <+: sent

/-- How a speaker stands that has given a job up only if `lost`. -/
structure Told (jobs : List Job) (lost : Prop) (sp : Speaker) (sent : Bytes) : Prop where
  said : sp.Said jobs sent
  goes : (∃ before after, sp.Saying jobs before after sent) ∨ lost ∧ sp.jobs = []

variable {sp : Speaker} {sent : Bytes} {jobs before after rest : List Job} {job : Job}
  {lost : Prop}

theorem told_start {partings : List Parting} : Told jobs lost { jobs, partings } [] where
  said := ⟨List.nil_prefix, List.nil_prefix, fun _ _ _ _ hk => absurd hk (Nat.not_lt_zero _)⟩
  goes := .inl ⟨[], jobs, rfl, rfl, Job.resumes_refl jobs, rfl⟩

/-- The job that is under way, as it was at first. -/
private theorem Told.saying (h : sp.Told jobs lost sent) (hj : sp.jobs = job :: rest) :
    ∃ before job₀, sp.Saying jobs before (job₀ :: rest) sent ∧ job.outcome = job₀.outcome ∧
      (job₀.Flushes → job.Flushes) := by
  rcases h.goes with ⟨before, after, h⟩ | ⟨-, hn⟩
  · have hr := h.resumes
    rw [hj] at hr
    cases hr with
    | cons ho hf => exact ⟨before, _, h, ho, hf⟩
  · cases hj.symm.trans hn

theorem Told.works {job' : Job} {b : SendBuffer} (h : sp.Told jobs lost sent)
    (hj : sp.jobs = job :: rest) (ht : job.Turn isPlain sp.buffer piece (.more job') b) :
    Told jobs lost { sp with jobs := job' :: rest, buffer := b } (sent ++ piece) := by
  obtain ⟨before, job₀, hsay, ho, hf⟩ := h.saying hj
  cases ht with
  | more hc hp hpiece ho' hf' hb =>
    have hbytes : sent ++ piece ++ (b.unsent ++ (job' :: rest).flatMap Job.bytes) =
        jobs.flatMap Job.bytes := by
      rw [← hsay.bytes, hj, List.flatMap_cons, List.flatMap_cons, ← List.append_assoc _ job.bytes,
        hpiece]
      simp only [List.append_assoc]
    refine ⟨⟨h.said.results, ⟨_, hbytes⟩, fun k j hk hj hlt => ?_⟩, .inl ⟨before, job₀ :: rest, ?_⟩⟩
    · exact (h.said.flushed k j hk hj hlt).trans (List.prefix_append ..)
    · exact ⟨hsay.split, hsay.results, .cons (ho'.trans ho) (hf' ∘ hf), hbytes⟩

theorem Told.ends {b : SendBuffer} (h : sp.Told jobs lost sent) (hj : sp.jobs = job :: rest)
    (ht : job.Turn isPlain sp.buffer piece (.done result) b) :
    Told jobs lost { sp with jobs := rest, buffer := b, results := sp.results ++ [result] }
      (sent ++ piece) := by
  obtain ⟨before, job₀, hsay, ho, hf⟩ := h.saying hj
  cases ht with
  | done hpiece hf' hb =>
    have hbytes : sent ++ piece ++ (b.unsent ++ rest.flatMap Job.bytes) =
        jobs.flatMap Job.bytes := by
      rw [← hsay.bytes, hj, List.flatMap_cons, ← List.append_assoc _ job.bytes, hpiece]
      simp only [List.append_assoc]
    have hsplit : jobs = (before ++ [job₀]) ++ rest := by
      rw [hsay.split, List.append_assoc]
      rfl
    have hresults : sp.results ++ [job.outcome] = (before ++ [job₀]).map Job.outcome := by
      rw [hsay.results, ho, List.map_append]
      rfl
    refine ⟨⟨?_, ⟨_, hbytes⟩, fun k j hk hj hlt => ?_⟩, .inl ⟨before ++ [job₀], rest, ?_⟩⟩
    · rw [hsplit, List.map_append, ← hresults]
      exact List.prefix_append ..
    · by_cases hlt' : k < sp.results.length
      · exact (h.said.flushed k j hk hj hlt').trans (List.prefix_append ..)
      · -- the job that is done now: all before it is sent, and so is all of it
        have hk' : k = before.length := by
          have hlen := congrArg List.length hsay.results
          rw [List.length_map] at hlen
          rw [List.length_append, List.length_singleton] at hlt
          omega
        subst hk'
        have hjob : job₀ = j := by
          rw [hsay.split, List.getElem?_append_right (Nat.le_refl _), Nat.sub_self] at hk
          exact Option.some.inj hk
        have hlen : (before ++ [job₀]).length = before.length + 1 := List.length_append ..
        rw [hsplit, List.flatMap_append, hf' (hf (hjob ▸ hj)), List.nil_append] at hbytes
        rw [hsplit, ← hlen, List.take_left]
        exact ⟨[], (List.append_nil _).trans (List.append_cancel_right hbytes).symm⟩
    · exact ⟨hsplit, hresults, Job.resumes_refl rest, hbytes⟩

end Speaker

namespace Speech

variable {s : Side} {isPlain : Bool} {w w' : Speech} {mv : Move} {jobs : List Job} {lost : Prop}

theorem told_step (hh : w.speaker.Told jobs lost w.sent) (h : w.Moves s isPlain mv w')
    (hmv : mv = .giveUp → lost) : w'.speaker.Told jobs lost w'.sent := by
  cases h with
  | works hj hs ht => exact hh.works hj ht
  | ends hj hs ht => exact hh.ends hj ht
  | parts hj hp =>
    refine ⟨⟨hh.said.results, hh.said.front, hh.said.flushed⟩, hh.goes.imp ?_ id⟩
    rintro ⟨before, after, h⟩
    exact ⟨before, after, h.split, h.results, h.resumes, h.bytes⟩
  | abandons hj => exact ⟨⟨hh.said.results, hh.said.front, hh.said.flushed⟩, .inr ⟨hmv rfl, rfl⟩⟩
  | reads | hears => exact hh

/-! ## Runs -/

/-- All that a run keeps of a speech. -/
structure Kept (s : Side) (isPlain : Bool) (f : Farewell) (codec : Codec) (wishes : List Purpose)
    (jobs : List Job) (lost : Prop) (w : Speech) : Prop where
  sound : w.Sound s isPlain f
  heard : w.Heard s codec wishes
  told : w.speaker.Told jobs lost w.sent

variable {f : Farewell} {codec : Codec} {wishes : List Purpose} {moves : List Move}

theorem Kept.of_run? (hw : w.Kept s isPlain f codec wishes jobs lost)
    (h : run? s moves w = some w') (hmoves : .giveUp ∈ moves → lost) :
    w'.Kept s isPlain f codec wishes jobs lost ∧ moves.length + w'.work s ≤ w.work s := by
  induction moves generalizing w with
  | nil =>
    cases h
    exact ⟨hw, by simp⟩
  | cons mv moves ih =>
    rw [run?] at h
    split at h
    · cases h
    · rename_i w₁ hmv
      have hm := moves_of_move? hw.sound hmv
      have hw₁ : w₁.Kept s isPlain f codec wishes jobs lost :=
        ⟨hw.sound.step hm, hw.heard.step hw.sound hm,
          told_step hw.told hm fun he => hmoves (he ▸ List.mem_cons_self)⟩
      obtain ⟨hw', hle⟩ := ih hw₁ h fun hm => hmoves (List.mem_cons_of_mem _ hm)
      have := work_lt_of_moves hm
      rw [List.length_cons]
      exact ⟨hw', by omega⟩

theorem kept_of_run? {capacity : Nat} (hc : ∀ job ∈ jobs, job.Clear isPlain) (hcap : 0 < capacity)
    (hrun : run? s moves (ofJobs codec capacity jobs f wishes) = some w)
    (hmoves : .giveUp ∈ moves → lost) : w.Kept s isPlain f codec wishes jobs lost ∧
      moves.length ≤ 2 * (jobs.flatMap Job.bytes).length + jobs.length + f.partings.length +
        wishes.length := by
  have hstart : (ofJobs codec capacity jobs f wishes).Kept s isPlain f codec wishes jobs lost :=
    ⟨sound_ofJobs hc hcap, heard_ofJobs, Speaker.told_start⟩
  obtain ⟨hw, hwork⟩ := hstart.of_run? hrun hmoves
  simp only [work, ofJobs, Link.flow_ofCapacity, List.nil_append, List.length_nil,
    Nat.add_zero] at hwork
  exact ⟨hw, by omega⟩

/-- The answers so far are a front of those that the whole stream gives, and all of them once the
speech is at rest. -/
theorem Kept.answers (hw : w.Kept s isPlain f codec wishes jobs lost)
    (hend : w.MayEnd s ending todo) :
    w.listener.answers <+: Frame.answers codec wishes ending (w.sent ++ todo) ∧
      (w.AtRest s →
        w.listener.answers = Frame.answers codec wishes ending (w.sent ++ todo)) := by
  rw [← hw.heard.foreseen ending todo hend]
  refine ⟨List.prefix_append .., fun hrest => ?_⟩
  rw [Listener.foreseen, hw.sound.wishes_of_atRest hrest, Frame.answers, List.zipWith_nil_left,
    List.append_nil]

/-! ## Speeches that are not given up -/

/-- Jobs after which nothing is left in the buffer. -/
def Emptying (isPlain : Bool) (jobs : List Job) : Prop :=
  isPlain = true ∨ ∃ job, jobs.getLast? = some job ∧ job.Flushes

/-- What is not sent is left, in the buffer or in the jobs. -/
theorem Kept.bytes (hw : w.Kept s isPlain f codec wishes jobs False) :
    w.sent ++ (w.speaker.buffer.unsent ++ w.speaker.jobs.flatMap Job.bytes) =
      jobs.flatMap Job.bytes := by
  obtain ⟨before, after, h⟩ := hw.told.goes.resolve_right nofun
  exact h.bytes

/-- A speaker that has left has done all of its jobs. -/
theorem Kept.results_of_shut (hw : w.Kept s isPlain f codec wishes jobs False)
    (hs : w.link.shut s.other = true) : w.speaker.results = jobs.map Job.outcome := by
  obtain ⟨before, after, h⟩ := hw.told.goes.resolve_right nofun
  obtain ⟨gone, hleaves⟩ := hw.sound.leaves
  have hr := h.resumes
  rw [hleaves.jobs_of_shut hs] at hr
  cases hr
  rw [h.results, h.split, List.append_nil]

theorem Kept.sent_of_shut (hw : w.Kept s isPlain f codec wishes jobs False)
    (he : Emptying isPlain jobs) (hs : w.link.shut s.other = true) :
    w.sent = jobs.flatMap Job.bytes := by
  rcases he with hplain | ⟨job, hlast, hflush⟩
  · obtain ⟨gone, hleaves⟩ := hw.sound.leaves
    have hb := hw.bytes
    rwa [hw.sound.unbuffered hplain, hleaves.jobs_of_shut hs, List.flatMap_nil, List.nil_append,
      List.append_nil] at hb
  · rw [List.getLast?_eq_getElem?] at hlast
    have hlen : jobs.length - 1 < jobs.length := (List.getElem?_eq_some_iff.mp hlast).1
    have hall := hw.told.said.flushed _ job hlast hflush (by simpa [hw.results_of_shut hs] using hlen)
    rw [Nat.sub_add_cancel (Nat.one_le_of_lt hlen), List.take_length] at hall
    exact hw.told.said.front.eq_of_length_le hall.length_le

/-- What is left can still come before the stream ends as it is going to. -/
theorem Kept.mayEnd (hw : w.Kept s isPlain f codec wishes jobs False)
    (he : Emptying isPlain jobs) :
    w.MayEnd s f.ending (w.speaker.buffer.unsent ++ w.speaker.jobs.flatMap Job.bytes) := by
  intro hs
  obtain ⟨gone, hleaves⟩ := hw.sound.leaves
  refine ⟨?_, hleaves.wasReset_of_shut hs⟩
  have hb := hw.bytes
  rw [hw.sent_of_shut he hs] at hb
  exact List.append_right_eq_self.mp hb

/-- The answers are those to the bytes of all jobs. -/
theorem Kept.answers_of_jobs (hw : w.Kept s isPlain f codec wishes jobs False)
    (he : Emptying isPlain jobs) :
    w.listener.answers <+: Frame.answers codec wishes f.ending (jobs.flatMap Job.bytes) ∧
      (w.AtRest s →
        w.listener.answers = Frame.answers codec wishes f.ending (jobs.flatMap Job.bytes)) := by
  rw [← hw.bytes]
  exact hw.answers (hw.mayEnd he)

end Speech

end PeerCall
