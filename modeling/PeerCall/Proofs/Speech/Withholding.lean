import PeerCall.Proofs.Frame.Buffering
import PeerCall.Proofs.Speech.Delivery

/-! # Frames that are not flushed

What becomes of frames that are written to a framed stream and not flushed. As long as they fit into
the send buffer together, lengths included, nothing of them goes out, and a listener on a stream
that is then reset gets the frames before the last flush and the reset; if they do not fit, some of
their bytes go out unasked (`Speech.withheld_of_run?`). -/

namespace PeerCall

open Session.Streams (Purpose Answer)

/-! ## Operations that do not flush -/

namespace Operation

variable {codec : Codec} {op : Operation}

private theorem modest_frame {p : Bytes}
    (hfit : (Chore.bytes (Chore.frame p)).length ≤ Frame.bufferSize) :
    SendBuffer.Modest (Chore.frame p) := by
  rw [Chore.frame] at hfit ⊢
  split
  · exact ⟨by simp, by simp⟩
  · rename_i hn
    rw [if_neg hn] at hfit
    simp only [Chore.bytes, List.append_nil, List.length_append, Frame.length_header] at hfit
    refine ⟨by simp, fun bs hb => ?_⟩
    simp only [List.mem_cons, Chore.put.injEq, List.not_mem_nil, or_false] at hb
    rcases hb with rfl | rfl
    · rw [Frame.length_header]
      decide
    · omega

/-- An operation that is no flush puts its frame behind what is buffered, if it fits there. -/
theorem modest_chores (hop : op ≠ .flush)
    (hfit : (Chore.bytes (op.chores codec)).length ≤ Frame.bufferSize) :
    SendBuffer.Modest (op.chores codec) := by
  cases op with
  | flush => exact absurd rfl hop
  | writeFrame p => exact modest_frame hfit
  | encode d =>
    rw [chores] at hfit ⊢
    cases he : codec.encode d.schema d.value with
    | ok p =>
      rw [he] at hfit
      exact modest_frame hfit
    | error e => exact ⟨by simp [Chore.encoded], by simp [Chore.encoded]⟩

/-- What an operation writes that is no flush stays in the buffer, if it fits there. -/
theorem step?_job_of_fits {b : SendBuffer} (hop : op ≠ .flush)
    (hfit : b.moved + b.unsent.length + (op.job codec).bytes.length ≤ Frame.bufferSize)
    (s : Side) (l : Link) : ∃ result, (op.job codec).step? s b l =
      some (.done result, { b with unsent := b.unsent ++ (op.job codec).bytes }, l) := by
  have hfit' : (Chore.bytes (op.chores codec)).length ≤ Frame.bufferSize :=
    Nat.le_trans (Nat.le_add_left ..) hfit
  obtain ⟨result, hr⟩ := SendBuffer.step?_of_fits (modest_chores hop hfit') hfit s l
  exact ⟨result, by simp only [job, Job.step?, hr, Job.bytes]⟩

end Operation

/-! ## Speeches that withhold something -/

namespace Speech

variable {s : Side} {f : Farewell} {codec : Codec} {wishes : List Purpose} {w w' : Speech}
  {before after : List Operation}

/-- A move leaves the buffer within its size. -/
theorem buffer_sound_of_move? (hb : w.speaker.buffer.Sound) (h : w.move? s mv = some w') :
    w'.speaker.buffer.Sound := by
  cases mv with
  | speak =>
    simp only [move?, Speaker.step?, Job.step?] at h
    grind [SendBuffer.Sound.step]
  | listen =>
    simp only [move?] at h
    split at h <;> cases h
    exact hb
  | giveUp =>
    simp only [move?] at h
    split at h <;> cases h
    exact hb

/-- How a speech stands whose operations `after` stay in the buffer: those before them are under
way, the last of them a flush, or they are done, and all that they wrote is sent. -/
inductive Withholds (codec : Codec) (before after : List Operation) (w : Speech) : Prop
  | flushing (jobs : List Job) (hj : w.speaker.jobs = jobs ++ after.map (Operation.job codec))
    (he : Emptying false jobs) : Withholds codec before after w
  | holding (held : List Operation) {rest} (ha : after = held ++ rest)
    (hj : w.speaker.jobs = rest.map (Operation.job codec))
    (hb : w.speaker.buffer = ⟨(Operation.payloads codec held).flatMap Frame.bytes, 0⟩)
    (hs : w.sent = (Operation.payloads codec before).flatMap Frame.bytes) :
    Withholds codec before after w

/-- All that a run keeps of such a speech. -/
structure Reserved (s : Side) (f : Farewell) (codec : Codec) (wishes : List Purpose)
    (before after : List Operation) (w : Speech) : Prop where
  kept : w.Kept s false f codec wishes ((before ++ after).map (Operation.job codec)) False
  buffer : w.speaker.buffer.Sound
  withholds : .flush ∉ after →
    ((Operation.payloads codec after).flatMap Frame.bytes).length ≤ Frame.bufferSize →
    w.Withholds codec before after

/-- What is sent, what is in the buffer and what the jobs have still to write is all there is. -/
theorem Reserved.bytes (h : w.Reserved s f codec wishes before after) :
    w.sent ++ (w.speaker.buffer.unsent ++ w.speaker.jobs.flatMap Job.bytes) =
      (Operation.payloads codec before).flatMap Frame.bytes ++
        (Operation.payloads codec after).flatMap Frame.bytes := by
  rw [h.kept.bytes, Operation.bytes_jobs, Operation.payloads_append, List.flatMap_append]

private theorem Emptying.ne_nil {jobs : List Job} (h : Emptying false jobs) : jobs ≠ [] := by
  obtain ⟨job, hlast, -⟩ := h.resolve_left nofun
  rintro rfl
  cases hlast

private theorem Emptying.resume {job job' : Job} {jobs : List Job}
    (h : Emptying false (job :: jobs)) (hf : job.Flushes → job'.Flushes) :
    Emptying false (job' :: jobs) := by
  obtain ⟨last, hlast, hflush⟩ := h.resolve_left nofun
  cases jobs with
  | nil =>
    cases hlast
    exact .inr ⟨job', rfl, hf hflush⟩
  | cons next jobs => exact .inr ⟨last, by simpa [List.getLast?_cons] using hlast, hflush⟩

private theorem Emptying.tail {job : Job} {jobs : List Job} (h : Emptying false (job :: jobs)) :
    jobs = [] ∧ job.Flushes ∨ Emptying false jobs := by
  obtain ⟨last, hlast, hflush⟩ := h.resolve_left nofun
  cases jobs with
  | nil =>
    cases hlast
    exact .inl ⟨rfl, hflush⟩
  | cons next jobs => exact .inr (.inr ⟨last, by simpa [List.getLast?_cons] using hlast, hflush⟩)

/-- What a flush leaves behind is an empty buffer, and then all before it is sent. -/
private theorem holding_of_flushed
    (hbytes : w.sent ++ (w.speaker.buffer.unsent ++ w.speaker.jobs.flatMap Job.bytes) =
      (Operation.payloads codec before).flatMap Frame.bytes ++
        (Operation.payloads codec after).flatMap Frame.bytes)
    (hb : w.speaker.buffer.Sound) (hn : w.speaker.buffer.unsent = [])
    (hj : w.speaker.jobs = after.map (Operation.job codec)) : w.Withholds codec before after := by
  have hbuffer : w.speaker.buffer = ⟨[], 0⟩ := by
    have hm := hb.unmoved hn
    revert hn hm
    cases w.speaker.buffer
    rintro rfl rfl
    rfl
  refine .holding [] rfl hj hbuffer ?_
  rw [hn, hj, Operation.bytes_jobs] at hbytes
  exact List.append_cancel_right hbytes

/-- A speech that withholds what its jobs wrote lets the next job put its frame behind that. -/
private theorem holding_of_speak {held rest : List Operation} {op : Operation}
    (ha : after = held ++ op :: rest) (hafter : .flush ∉ after)
    (hfit : ((Operation.payloads codec after).flatMap Frame.bytes).length ≤ Frame.bufferSize)
    (hj : w.speaker.jobs = (op :: rest).map (Operation.job codec))
    (hb : w.speaker.buffer = ⟨(Operation.payloads codec held).flatMap Frame.bytes, 0⟩)
    (hs : w.sent = (Operation.payloads codec before).flatMap Frame.bytes)
    (hm : w.move? s .speak = some w') : w'.Withholds codec before after := by
  have hop : op ≠ .flush := by
    rintro rfl
    exact hafter (by simp [ha])
  have hroom : w.speaker.buffer.moved + w.speaker.buffer.unsent.length +
      (op.job codec).bytes.length ≤ Frame.bufferSize := by
    have hrest : op :: rest = [op] ++ rest := rfl
    rw [ha, Operation.payloads_append, List.flatMap_append, List.length_append, hrest,
      Operation.payloads_append, List.flatMap_append, List.length_append,
      ← Operation.bytes_job] at hfit
    rw [hb]
    simp only
    omega
  obtain ⟨result, hstep⟩ := Operation.step?_job_of_fits hop hroom s.other w.link
  simp only [move?, Speaker.step?, hj, List.map_cons, hstep, List.drop_length, List.append_nil,
    Option.some.injEq] at hm
  subst hm
  refine .holding (held ++ [op]) (by simp [ha]) rfl ?_ hs
  rw [hb, Operation.payloads_append, List.flatMap_append, Operation.bytes_job]

theorem Withholds.step (h : w.Withholds codec before after) (hw : w.Sound s false f)
    (hb' : w'.speaker.buffer.Sound)
    (hbytes' : w'.sent ++ (w'.speaker.buffer.unsent ++ w'.speaker.jobs.flatMap Job.bytes) =
      (Operation.payloads codec before).flatMap Frame.bytes ++
        (Operation.payloads codec after).flatMap Frame.bytes)
    (hafter : .flush ∉ after)
    (hfit : ((Operation.payloads codec after).flatMap Frame.bytes).length ≤ Frame.bufferSize)
    (hmv : mv ≠ .giveUp) (hm : w.move? s mv = some w') : w'.Withholds codec before after := by
  have hmoves := moves_of_move? hw hm
  cases h with
  | flushing jobs hj he =>
    obtain ⟨job, jobs, rfl⟩ := List.exists_cons_of_ne_nil he.ne_nil
    rw [List.cons_append] at hj
    cases hmoves with
    | works hj' hs ht =>
      cases hj.symm.trans hj'
      cases ht with
      | more hc hp hpiece ho hf => exact .flushing (_ :: jobs) rfl (he.resume hf)
    | ends hj' hs ht =>
      cases hj.symm.trans hj'
      cases ht with
      | done hpiece hf =>
        rcases he.tail with ⟨rfl, hflush⟩ | he
        · exact holding_of_flushed hbytes' hb' (hf hflush) rfl
        · exact .flushing _ rfl he
    | parts hj' => cases hj.symm.trans hj'
    | abandons => exact absurd rfl hmv
    | reads | hears => exact .flushing _ hj he
  | @holding held rest ha hj hb hs =>
    cases mv with
    | giveUp => exact absurd rfl hmv
    | listen => cases hmoves <;> exact .holding held ha hj hb hs
    | speak =>
      cases rest with
      | cons op rest => exact holding_of_speak ha hafter hfit hj hb hs hm
      | nil =>
        cases hmoves with
        | parts hj' hp => exact .holding held ha hj hb hs
        | works hj' | ends hj' => cases hj.symm.trans hj'

/-! ## Runs -/

theorem reserved_ofJobs {capacity : Nat} (hcap : 0 < capacity)
    (hbefore : before = [] ∨ before.getLast? = some .flush) :
    (ofJobs codec capacity ((before ++ after).map (Operation.job codec)) f wishes).Reserved s f
      codec wishes before after where
  kept := by
    refine ⟨sound_ofJobs (fun job hj => ?_) hcap, heard_ofJobs, Speaker.told_start⟩
    obtain ⟨op, -, rfl⟩ := List.mem_map.mp hj
    exact op.clear_job codec
  buffer := SendBuffer.sound_empty
  withholds _ _ := by
    rcases hbefore with rfl | hlast
    · exact .holding [] rfl rfl rfl rfl
    · refine .flushing (before.map (Operation.job codec)) (by simp [ofJobs]) (.inr ?_)
      exact ⟨.framed [.flush], by rw [List.getLast?_map, hlast]; rfl, rfl⟩

theorem Reserved.step (h : w.Reserved s f codec wishes before after) (hmv : mv ≠ .giveUp)
    (hm : w.move? s mv = some w') : w'.Reserved s f codec wishes before after := by
  have hmoves := moves_of_move? h.kept.sound hm
  have hkept : w'.Kept s false f codec wishes _ False :=
    ⟨h.kept.sound.step hmoves, h.kept.heard.step h.kept.sound hmoves,
      told_step h.kept.told hmoves hmv⟩
  have hbuffer := buffer_sound_of_move? h.buffer hm
  have hbytes := hkept.bytes
  rw [Operation.bytes_jobs, Operation.payloads_append, List.flatMap_append] at hbytes
  exact ⟨hkept, hbuffer, fun hafter hfit =>
    (h.withholds hafter hfit).step h.kept.sound hbuffer hbytes hafter hfit hmv hm⟩

theorem Reserved.of_run? {moves : List Move} (h : w.Reserved s f codec wishes before after)
    (hmoves : .giveUp ∉ moves) (hrun : run? s moves w = some w') :
    w'.Reserved s f codec wishes before after := by
  induction moves generalizing w with
  | nil =>
    cases hrun
    exact h
  | cons mv moves ih =>
    rw [run?] at hrun
    split at hrun
    · cases hrun
    · rename_i w₁ hm
      refine ih (h.step (fun he => hmoves (he ▸ List.mem_cons_self)) hm) ?_ hrun
      exact fun hmem => hmoves (List.mem_cons_of_mem _ hmem)

/-! ## What goes out -/

/-- Nothing but what was flushed goes out of what fits into the buffer. -/
theorem Withholds.sent_prefix (h : w.Withholds codec before after)
    (hbytes : w.sent ++ (w.speaker.buffer.unsent ++ w.speaker.jobs.flatMap Job.bytes) =
      (Operation.payloads codec before).flatMap Frame.bytes ++
        (Operation.payloads codec after).flatMap Frame.bytes) :
    w.sent <+: (Operation.payloads codec before).flatMap Frame.bytes := by
  cases h with
  | flushing jobs hj he =>
    rw [hj, List.flatMap_append, Operation.bytes_jobs, ← List.append_assoc,
      ← List.append_assoc] at hbytes
    exact ⟨_, by simpa using List.append_cancel_right hbytes⟩
  | holding held ha hj hb hs => exact hs ▸ List.prefix_rfl

/-- When all operations are done, all that was flushed has gone out. -/
theorem Withholds.sent_of_jobs (h : w.Withholds codec before after) (hj : w.speaker.jobs = []) :
    w.sent = (Operation.payloads codec before).flatMap Frame.bytes := by
  cases h with
  | flushing jobs hj' he =>
    exact absurd (List.append_eq_nil_iff.mp (hj'.symm.trans hj)).1 he.ne_nil
  | holding held ha hj' hb hs => exact hs

/-- What does not fit into the buffer goes out in part, asked for or not. -/
theorem Reserved.sent_of_overfull (h : w.Reserved s f codec wishes before after)
    (hj : w.speaker.jobs = [])
    (hover : Frame.bufferSize < ((Operation.payloads codec after).flatMap Frame.bytes).length) :
    ∃ piece, piece ≠ [] ∧
      w.sent = (Operation.payloads codec before).flatMap Frame.bytes ++ piece := by
  have hbytes := h.bytes
  rw [hj, List.flatMap_nil, List.append_nil] at hbytes
  have hlen := congrArg List.length hbytes
  have hsmall := h.buffer.small
  simp only [List.length_append] at hlen
  have hlt : ((Operation.payloads codec before).flatMap Frame.bytes).length < w.sent.length := by
    omega
  obtain ⟨piece, hpiece⟩ :=
    List.prefix_of_prefix_length_le ⟨_, rfl⟩ ⟨_, hbytes⟩ (Nat.le_of_lt hlt)
  refine ⟨piece, fun hn => ?_, hpiece.symm⟩
  rw [← hpiece, hn, List.append_nil] at hlt
  exact Nat.lt_irrefl _ hlt

/-- As long as the frames after the last flush fit into the buffer together, nothing of them goes
out, and a listener on a stream that is then reset gets the frames before that flush, and then
nothing but the reset. If they do not fit, bytes of them have gone out by the time all is written.
-/
theorem withheld_of_run? {moves : List Move} (codec : Codec) (before after : List Operation)
    (wishes : List Purpose) (capacity : Nat) (hcap : 0 < capacity)
    (hbefore : before = [] ∨ before.getLast? = some .flush) (hafter : .flush ∉ after)
    (hmoves : .giveUp ∉ moves)
    (hrun : run? s moves (ofJobs codec capacity ((before ++ after).map (Operation.job codec)) .reset
      wishes) = some w) :
    let flushed := Operation.payloads codec before
    let unflushed := (Operation.payloads codec after).flatMap Frame.bytes
    let answers := List.zipWith (Purpose.answer codec) wishes
      (flushed.map .ok ++ List.replicate wishes.length (.error (.io .reset)))
    (unflushed.length ≤ Frame.bufferSize →
      w.sent <+: flushed.flatMap Frame.bytes ∧ w.listener.answers <+: answers ∧
      (w.AtRest s → w.listener.answers = answers)) ∧
    (w.speaker.jobs = [] →
      (unflushed.length ≤ Frame.bufferSize → w.sent = flushed.flatMap Frame.bytes) ∧
      (Frame.bufferSize < unflushed.length →
        ∃ piece, piece ≠ [] ∧ w.sent = flushed.flatMap Frame.bytes ++ piece)) ∧
    ∃ more w', run? s more w = some w' ∧ w'.AtRest s ∧ .giveUp ∉ more := by
  dsimp only
  have hw : w.Reserved s .reset codec wishes before after :=
    (reserved_ofJobs hcap hbefore).of_run? hmoves hrun
  refine ⟨fun hfit => ?_, fun hj => ⟨fun hfit => ?_, hw.sent_of_overfull hj⟩,
    hw.kept.sound.exists_atRest⟩
  · have hholds := hw.withholds hafter hfit
    obtain ⟨todo, htodo⟩ := hholds.sent_prefix hw.bytes
    have hend : w.MayEnd s .reset todo := by
      intro hs
      obtain ⟨gone, hleaves⟩ := hw.kept.sound.leaves
      rw [hholds.sent_of_jobs (hleaves.jobs_of_shut hs)] at htodo
      exact ⟨List.append_right_eq_self.mp htodo, hleaves.wasReset_of_shut hs⟩
    have hanswers := hw.kept.answers hend
    rw [htodo, answers_frames fun _ => Operation.le_of_mem_payloads] at hanswers
    exact ⟨⟨todo, htodo⟩, hanswers⟩
  · exact (hw.withholds hafter hfit).sent_of_jobs hj

/-- A frame that is flushed for itself. -/
def opening : List Operation := [.writeFrame [7], .flush]

/-- Two frames, and between them a value that cannot be encoded. -/
def reticence : List Operation := [.writeFrame [8], .encode ⟨.refusal, "no"⟩, .writeFrame []]

/-- The listener gets the frame that was flushed, and then the reset. -/
theorem withheld_unflushed_frame :
    ∃ moves w, run? .right moves
        (ofJobs .standard 4 ((opening ++ reticence).map (Operation.job .standard)) .reset
          [.payload, .payload]) = some w ∧
      w.sent = [0, 0, 0, 1, 7] ∧ w.listener.answers = [.bytes [7], .streamError (.io .reset)] := by
  have hrun : run? .right
      [.speak, .speak, .listen, .speak, .speak, .speak, .speak, .speak, .speak, .listen, .listen]
      (ofJobs .standard 4 ((opening ++ reticence).map (Operation.job .standard)) .reset
        [.payload, .payload]) = some _ := rfl
  have hfit : ((Operation.payloads .standard reticence).flatMap Frame.bytes).length ≤
      Frame.bufferSize := by decide
  have h := withheld_of_run? .standard opening reticence [.payload, .payload] 4 (by decide)
    (.inr rfl) (by simp [reticence]) (by decide) hrun
  exact ⟨_, _, hrun, (h.2.1 rfl).1 hfit, (h.1 hfit).2.2 ⟨rfl, rfl⟩⟩

/-- A payload that is just as long as the buffer. -/
def ramble : Bytes := List.replicate 8192 0

/-- Nothing is flushed, and when the frame is written a part of it has gone out. -/
theorem leaked_buffer_sized_payload :
    ∃ moves w, .giveUp ∉ moves ∧
      run? .right moves (ofJobs .standard 65536
        ([.writeFrame ramble].map (Operation.job .standard)) .reset [.payload, .payload]) = some w ∧
      w.speaker.jobs = [] ∧ w.sent ≠ [] := by
  have hlen : ramble.length = 8192 := List.length_replicate
  have hle : ramble.length ≤ Frame.maxSize := hlen ▸ (by decide)
  have hpayloads : Operation.payloads .standard [.writeFrame ramble] = [ramble] := by
    rw [Operation.payloads, List.flatMap_singleton, Operation.written, Operation.admitted,
      if_neg (Nat.not_lt.mpr hle)]
    rfl
  have hstart : Reserved .right .reset .standard [.payload, .payload] [] [.writeFrame ramble]
      (ofJobs .standard 65536 ([.writeFrame ramble].map (Operation.job .standard)) .reset
        [.payload, .payload]) := reserved_ofJobs (by decide) (.inl rfl)
  obtain ⟨moves, w, hrun, hrest, hmoves⟩ := hstart.kept.sound.exists_atRest
  have hw := hstart.of_run? hmoves hrun
  have hshut : w.link.shut Side.right.other = true := by
    have hbytes : (([] ++ [Operation.writeFrame ramble]).map (Operation.job .standard)).flatMap
        Job.bytes = [ramble].flatMap Frame.bytes := by
      rw [Operation.bytes_jobs, List.nil_append, hpayloads]
    exact hw.kept.shut_of_atRest (by simpa using hle) hbytes hrest (by decide)
  obtain ⟨gone, hleaves⟩ := hw.kept.sound.leaves
  have hj := hleaves.jobs_of_shut hshut
  have hover : Frame.bufferSize <
      ((Operation.payloads .standard [.writeFrame ramble]).flatMap Frame.bytes).length := by
    rw [hpayloads, List.flatMap_singleton, Frame.bytes, List.length_append, Frame.length_header,
      hlen]
    decide
  obtain ⟨piece, hpiece, hsent⟩ := hw.sent_of_overfull hj hover
  exact ⟨moves, w, hmoves, hrun, hj, hsent ▸ hpiece⟩

end Speech

end PeerCall
