import PeerCall.Proofs.Speech.Hearing

/-! # Delivery of frames

What a listener is answered by a speaker on a framed stream. If the speaker closes its stream after
its operations, the listener gets the payloads of those that succeeded and then the end
(`Speech.delivered_of_run?`). If it resets its stream, the listener gets the first few of them, at
least those that were flushed, and then the reset (`Speech.broken_of_run?`). -/

namespace PeerCall

open Session.Streams (Purpose Answer)

/-! ## Operations on a framed stream -/

/-- An operation that writes to a framed stream. -/
inductive Operation
  | encode (d : Datum)
  | writeFrame (payload : Bytes)
  | flush

namespace Operation

def chores (codec : Codec) : Operation → List Chore
  | encode d => Chore.encoded (codec.encode d.schema d.value)
  | writeFrame payload => Chore.frame payload
  | flush => [.flush]

/-- The payload of a frame that is to be written, if it is not too large. -/
def admitted (payload : Bytes) : Except StreamError (List Bytes) :=
  if payload.length > Frame.maxSize then .error (.tooLarge payload.length) else .ok [payload]

/-- The payloads of the frames that an operation writes, or why it fails. -/
def written (codec : Codec) : Operation → Except StreamError (List Bytes)
  | encode d => (codec.encode d.schema d.value).bind admitted
  | writeFrame payload => admitted payload
  | flush => .ok []

/-- What an operation comes to. -/
def outcome (codec : Codec) (op : Operation) : Except StreamError Unit :=
  (op.written codec).map fun _ => ()

/-- The payloads of all operations that succeed. -/
def payloads (codec : Codec) (ops : List Operation) : List Bytes :=
  ops.flatMap fun op => (op.written codec).toOption.getD []

def job (codec : Codec) (op : Operation) : Job := .framed (op.chores codec)

/-- What an operation amounts to: whole frames, or nothing but a failure. -/
inductive Amounts (codec : Codec) (op : Operation) : Prop
  | written {ps} (hw : op.written codec = .ok ps) (hp : ∀ p ∈ ps, p.length ≤ Frame.maxSize)
    (hb : Chore.bytes (op.chores codec) = ps.flatMap Frame.bytes)
    (hf : Chore.fault? (op.chores codec) = none)
  | failed {e} (hw : op.written codec = .error e) (hc : op.chores codec = [.fail e])

variable {codec : Codec} {op : Operation} {ops : List Operation}

private theorem amounts_of_admitted {payload : Bytes} (hw : op.written codec = admitted payload)
    (hc : op.chores codec = Chore.frame payload) : op.Amounts codec := by
  by_cases hp : payload.length > Frame.maxSize
  · rw [admitted, if_pos hp] at hw
    rw [Chore.frame, if_pos hp] at hc
    exact .failed hw hc
  · rw [admitted, if_neg hp] at hw
    obtain ⟨hb, hf⟩ := Chore.frame_of_le (Nat.le_of_not_lt hp)
    refine .written hw (by simpa using Nat.le_of_not_lt hp) ?_ (hc ▸ hf)
    rw [hc, hb, List.flatMap_singleton]

theorem amounts (codec : Codec) (op : Operation) : op.Amounts codec := by
  cases op with
  | encode d =>
    cases he : codec.encode d.schema d.value with
    | ok p => exact amounts_of_admitted (by rw [written, he]; rfl) (by rw [chores, he]; rfl)
    | error e => exact .failed (by rw [written, he]; rfl) (by rw [chores, he]; rfl)
  | writeFrame payload => exact amounts_of_admitted rfl rfl
  | flush => exact .written rfl nofun rfl rfl

theorem clear_job (codec : Codec) (op : Operation) : (op.job codec).Clear false := by
  cases amounts codec op with
  | written hw hp hb hf => exact .framed hf
  | failed hw hc =>
    rw [job, hc]
    exact .failing

theorem outcome_job (codec : Codec) (op : Operation) :
    (op.job codec).outcome = op.outcome codec := by
  cases amounts codec op with
  | written hw hp hb hf =>
    rw [job, Job.outcome, hf, outcome, hw]
    rfl
  | failed hw hc =>
    rw [job, Job.outcome, hc, outcome, hw]
    rfl

theorem bytes_job (codec : Codec) (op : Operation) :
    (op.job codec).bytes = (payloads codec [op]).flatMap Frame.bytes := by
  rw [payloads, List.flatMap_singleton]
  cases amounts codec op with
  | written hw hp hb hf =>
    rw [job, Job.bytes, hb, hw]
    rfl
  | failed hw hc =>
    rw [job, Job.bytes, hc, hw]
    rfl

theorem payloads_append (codec : Codec) (ops ops' : List Operation) :
    payloads codec (ops ++ ops') = payloads codec ops ++ payloads codec ops' :=
  List.flatMap_append

theorem bytes_jobs (codec : Codec) (ops : List Operation) :
    (ops.map (job codec)).flatMap Job.bytes = (payloads codec ops).flatMap Frame.bytes := by
  induction ops with
  | nil => rfl
  | cons op ops ih =>
    rw [List.map_cons, List.flatMap_cons, bytes_job, ih, ← List.flatMap_append, ← payloads_append]
    rfl

theorem le_of_mem_payloads {p : Bytes} (h : p ∈ payloads codec ops) :
    p.length ≤ Frame.maxSize := by
  obtain ⟨op, -, hp⟩ := List.mem_flatMap.mp h
  cases amounts codec op with
  | written hw hle hb hf =>
    rw [hw] at hp
    exact hle p hp
  | failed hw hc =>
    rw [hw] at hp
    cases hp

end Operation

namespace Speech

variable {s : Side} {isPlain : Bool} {f : Farewell} {codec : Codec} {w : Speech}
  {ops : List Operation} {wishes : List Purpose} {jobs : List Job} {lost : Prop}

/-! ## A stream that is closed -/

/-- All jobs of a framed stream that is closed after some operations: at last it is flushed. -/
def closing (codec : Codec) (ops : List Operation) : List Job :=
  ops.map (Operation.job codec) ++ [.framed [.flush]]

theorem emptying_closing : Emptying false (closing codec ops) :=
  .inr ⟨.framed [.flush], List.getLast?_concat .., rfl⟩

theorem clear_closing : ∀ job ∈ closing codec ops, job.Clear false := by
  intro job hj
  rcases List.mem_append.mp hj with hj | hj
  · obtain ⟨op, -, rfl⟩ := List.mem_map.mp hj
    exact op.clear_job codec
  · cases List.mem_singleton.mp hj
    exact .framed rfl

theorem bytes_closing : (closing codec ops).flatMap Job.bytes =
    (Operation.payloads codec ops).flatMap Frame.bytes := by
  rw [closing, List.flatMap_append, ← Operation.bytes_jobs]
  exact List.append_nil _

theorem outcome_closing :
    (closing codec ops).map Job.outcome = ops.map (·.outcome codec) ++ [.ok ()] := by
  rw [closing, List.map_append, List.map_map]
  exact congrArg (· ++ _) (List.map_congr_left fun op _ => op.outcome_job codec)

/-- What a listener is answered that hears frames, and then the end again and again. -/
theorem answers_frames {ps : List Bytes} (hp : ∀ p ∈ ps, p.length ≤ Frame.maxSize)
    (codec : Codec) (wishes : List Purpose) (ending : Ending) :
    Frame.answers codec wishes ending (ps.flatMap Frame.bytes) =
      List.zipWith (Purpose.answer codec) wishes
        (ps.map .ok ++ List.replicate wishes.length (.error ending.error)) := by
  refine Frame.answers_of_parse ?_ codec wishes
  have h : Frame.parse ending _ = _ := Frame.parse_append_frames hp []
  rwa [List.append_nil, Frame.parse_nil] at h

/-- A listener that is answered beyond all frames has been told how the stream ends. -/
theorem Kept.shut_of_atRest {ps : List Bytes} (hw : w.Kept s isPlain f codec wishes jobs False)
    (hp : ∀ p ∈ ps, p.length ≤ Frame.maxSize)
    (hjobs : jobs.flatMap Job.bytes = ps.flatMap Frame.bytes) (hrest : w.AtRest s)
    (hlong : ps.length < wishes.length) : w.link.shut s.other = true := by
  cases hs : w.link.shut s.other with
  | true => rfl
  | false =>
    -- the stream could still end in either way, and the answers would be the same
    have hall (ending : Ending) : w.listener.answers = List.zipWith (Purpose.answer codec) wishes
        (ps.map .ok ++ List.replicate wishes.length (.error ending.error)) := by
      have hend : w.MayEnd s ending
          (w.speaker.buffer.unsent ++ w.speaker.jobs.flatMap Job.bytes) :=
        fun h => by cases hs.symm.trans h
      rw [(hw.answers hend).2 hrest, hw.bytes, hjobs, answers_frames hp]
    have hat (e : StreamError) : (List.zipWith (Purpose.answer codec) wishes
        (ps.map .ok ++ List.replicate wishes.length (.error e)))[ps.length]? =
          some (.streamError e) := by
      have hpos : 0 < wishes.length := Nat.zero_lt_of_lt hlong
      simp [List.getElem?_zipWith, List.getElem?_eq_getElem hlong, hpos, Purpose.answer]
    have heq := congrArg (·[ps.length]?) ((hall .clean).symm.trans (hall .reset))
    simp only [hat] at heq
    cases heq

/-- A listener on a stream that is closed gets the payloads of all operations that succeed, whole,
in order and once each, and then nothing but the end. -/
theorem delivered_of_run? {moves : List Move} (codec : Codec) (ops : List Operation)
    (wishes : List Purpose) (capacity : Nat) (hcap : 0 < capacity) (hmoves : .giveUp ∉ moves)
    (hrun : run? s moves (ofJobs codec capacity (closing codec ops) .close wishes) = some w) :
    let payloads := Operation.payloads codec ops
    let results := ops.map (·.outcome codec) ++ [.ok ()]
    let answers := List.zipWith (Purpose.answer codec) wishes
      (payloads.map .ok ++ List.replicate wishes.length (.error .closed))
    w.sent <+: payloads.flatMap Frame.bytes ∧
    w.speaker.results <+: results ∧
    w.listener.answers <+: answers ∧
    (w.AtRest s → w.listener.answers = answers ∧
      (payloads.length < wishes.length →
        w.speaker.results = results ∧ w.sent = payloads.flatMap Frame.bytes)) ∧
    moves.length ≤
      2 * (payloads.flatMap Frame.bytes).length + ops.length + wishes.length + 3 ∧
    ∃ more w', run? s more w = some w' ∧ w'.AtRest s ∧ .giveUp ∉ more := by
  dsimp only
  have hle : ∀ p ∈ Operation.payloads codec ops, p.length ≤ Frame.maxSize :=
    fun _ => Operation.le_of_mem_payloads
  obtain ⟨hw, hcount⟩ := kept_of_run? clear_closing hcap hrun hmoves
  have hsent := hw.told.said.front
  have hresults := hw.told.said.results
  obtain ⟨hanswers, hall⟩ := hw.answers_of_jobs emptying_closing
  rw [bytes_closing] at hcount hsent hanswers hall
  rw [outcome_closing] at hresults
  rw [answers_frames hle] at hanswers hall
  refine ⟨hsent, hresults, hanswers, fun hrest => ⟨hall hrest, fun hlong => ?_⟩, ?_,
    hw.sound.exists_atRest⟩
  · have hs := hw.shut_of_atRest hle bytes_closing hrest hlong
    exact ⟨(hw.results_of_shut hs).trans outcome_closing,
      (hw.sent_of_shut emptying_closing hs).trans bytes_closing⟩
  · have hlen : (closing codec ops).length = ops.length + 1 := by simp [closing]
    rw [hlen] at hcount
    simp only [Farewell.partings, List.length_cons, List.length_nil] at hcount
    omega

/-- A value that cannot be encoded, two frames and a flush. -/
def dictation : List Operation :=
  [.encode ⟨.refusal, "no"⟩, .writeFrame [7], .writeFrame [8], .flush]

/-- The first frame is not the truth value that it is wanted for, and the second is whole. -/
theorem delivered_around_refused_value :
    ∃ moves w, run? .right moves (ofJobs .standard 4 (closing .standard dictation) .close
        [.value .bool, .payload, .payload]) = some w ∧
      (∃ e, w.listener.answers = [.streamError e, .bytes [8], .streamError .closed]) ∧
      w.sent = [0, 0, 0, 1, 7, 0, 0, 0, 1, 8] := by
  have hrun : run? .right
      [.speak, .speak, .speak, .speak, .listen, .speak, .listen, .speak, .speak, .speak, .speak,
        .listen, .listen]
      (ofJobs .standard 4 (closing .standard dictation) .close
        [.value .bool, .payload, .payload]) = some _ := rfl
  have h := delivered_of_run? .standard dictation [.value .bool, .payload, .payload] 4 (by decide)
    (by decide) hrun
  have hrest := h.2.2.2.1 ⟨rfl, rfl⟩
  exact ⟨_, _, hrun, ⟨_, hrest.1⟩, (hrest.2 (by decide)).2⟩

/-! ## A stream that is reset -/

/-- Bytes on a stream that may have been given up can be those up to its reset. -/
theorem Kept.mayEnd_reset (hw : w.Kept s isPlain .reset codec wishes jobs lost) :
    w.MayEnd s .reset [] := by
  obtain ⟨gone, hleaves⟩ := hw.sound.leaves
  exact fun hs => ⟨rfl, hleaves.wasReset_of_shut hs⟩

/-- What was written before a flush that succeeded is sent. -/
private theorem flushed_of_said {sp : Speaker} {sent : Bytes}
    (h : sp.Said (ops.map (Operation.job codec)) sent)
    (hk : ops[k]? = some .flush) (hlt : k < sp.results.length) :
    (Operation.payloads codec (ops.take k)).flatMap Frame.bytes <+: sent := by
  have hjob : (ops.map (Operation.job codec))[k]? = some (.framed [.flush]) := by
    rw [List.getElem?_map, hk]
    rfl
  have hsent := h.flushed k _ hjob rfl hlt
  rw [← List.map_take, Operation.bytes_jobs, List.take_add_one, Operation.payloads_append,
    List.flatMap_append] at hsent
  exact (List.prefix_append ..).trans hsent

/-- A listener on a stream that is reset gets some of the frames that were written, whole and in
order, at least those that were flushed, and then nothing but the reset. The last operation may be
abandoned anywhere. -/
theorem broken_of_run? {moves : List Move} (codec : Codec) (ops : List Operation)
    (wishes : List Purpose) (capacity : Nat) (hcap : 0 < capacity)
    (hrun : run? s moves
      (ofJobs codec capacity (ops.map (Operation.job codec)) .reset wishes) = some w) :
    let payloads := Operation.payloads codec ops
    let answers (m : Nat) := List.zipWith (Purpose.answer codec) wishes
      ((payloads.take m).map .ok ++ List.replicate wishes.length (.error (.io .reset)))
    w.sent <+: payloads.flatMap Frame.bytes ∧
    w.speaker.results <+: ops.map (·.outcome codec) ∧
    (∃ m,
      (∀ k, ops[k]? = some .flush → k < w.speaker.results.length →
        (Operation.payloads codec (ops.take k)).length ≤ m) ∧
      w.listener.answers <+: answers m ∧ (w.AtRest s → w.listener.answers = answers m)) ∧
    moves.length ≤
      2 * (payloads.flatMap Frame.bytes).length + ops.length + wishes.length + 2 ∧
    ∃ more w', run? s more w = some w' ∧ w'.AtRest s ∧ .giveUp ∉ more := by
  dsimp only
  have hc : ∀ job ∈ ops.map (Operation.job codec), job.Clear false := by
    intro job hj
    obtain ⟨op, -, rfl⟩ := List.mem_map.mp hj
    exact op.clear_job codec
  obtain ⟨hw, hcount⟩ := kept_of_run? hc hcap hrun fun _ => trivial
  have hsent := hw.told.said.front
  have hresults := hw.told.said.results
  rw [Operation.bytes_jobs] at hcount hsent
  rw [List.map_map, List.map_congr_left fun op _ => op.outcome_job codec] at hresults
  obtain ⟨m, hparse, hm⟩ :=
    Frame.exists_parse_reset_eq (fun _ => Operation.le_of_mem_payloads) hsent
  obtain ⟨hanswers, hall⟩ := hw.answers hw.mayEnd_reset
  rw [List.append_nil, Frame.answers_of_parse hparse] at hanswers hall
  refine ⟨hsent, hresults, ⟨m, fun k hk hlt => ?_, hanswers, hall⟩, ?_, hw.sound.exists_atRest⟩
  · have hsplit : Operation.payloads codec ops = Operation.payloads codec (ops.take k) ++
        Operation.payloads codec (ops.drop k) := by
      rw [← Operation.payloads_append, List.take_append_drop]
    refine hm _ ?_ ?_
    · rw [hsplit, List.length_append]
      exact Nat.le_add_right ..
    · rw [hsplit, List.take_left]
      exact flushed_of_said hw.told.said hk hlt
  · rw [List.length_map] at hcount
    simp only [Farewell.partings, List.length_cons, List.length_nil] at hcount
    omega

/-- Three frames, the first of them flushed for itself. -/
def proclamation : List Operation :=
  [.writeFrame [7], .flush, .writeFrame [8, 9], .writeFrame [10, 11, 12], .flush]

/-- The last flush is abandoned when the third frame has just begun to go out. -/
theorem broken_in_third_frame :
    ∃ moves w, run? .right moves (ofJobs .standard 4 (proclamation.map (Operation.job .standard))
        .reset [.payload, .payload, .payload, .payload]) = some w ∧
      w.sent = [0, 0, 0, 1, 7, 0, 0, 0, 2, 8, 9, 0] ∧
      ∃ m, 1 ≤ m ∧ w.listener.answers = List.zipWith (Purpose.answer .standard)
        [.payload, .payload, .payload, .payload]
        (([[7], [8, 9], [10, 11, 12]].take m).map .ok ++ List.replicate 4 (.error (.io .reset))) := by
  have hrun : run? .right
      [.speak, .speak, .listen, .speak, .speak, .speak, .speak, .listen, .speak, .giveUp, .speak,
        .speak, .listen, .listen, .listen]
      (ofJobs .standard 4 (proclamation.map (Operation.job .standard)) .reset
        [.payload, .payload, .payload, .payload]) = some _ := rfl
  have h := broken_of_run? .standard proclamation [.payload, .payload, .payload, .payload] 4
    (by decide) hrun
  obtain ⟨m, hflush, -, hall⟩ := h.2.2.1
  exact ⟨_, _, hrun, rfl, m, hflush 1 rfl (by decide), hall ⟨rfl, rfl⟩⟩

/-! ## Any bytes at all -/

/-- Plain writes of these bytes. -/
def writing (chunks : List Bytes) : List Job := chunks.map fun bs => .plain (.write bs)

theorem bytes_writing (chunks : List Bytes) :
    (writing chunks).flatMap Job.bytes = chunks.flatten := by
  induction chunks with
  | nil => rfl
  | cons bs chunks ih =>
    rw [writing, List.map_cons, List.flatMap_cons, List.flatten_cons, ← ih]
    rfl

/-- A listener on a stream of any bytes, in whatever pieces and however it ends, is answered what the
grammar of frames makes of the bytes as a whole. -/
theorem parsed_of_run? {moves : List Move} (codec : Codec) (chunks : List Bytes)
    (farewell : Farewell) (wishes : List Purpose) (capacity : Nat) (hcap : 0 < capacity)
    (hmoves : .giveUp ∉ moves)
    (hrun : run? s moves (ofJobs codec capacity (writing chunks) farewell wishes) = some w) :
    let parsed := Frame.parse farewell.ending chunks.flatten
    let answers := List.zipWith (Purpose.answer codec) wishes
      (parsed ++ List.replicate wishes.length (.error farewell.ending.error))
    w.sent <+: chunks.flatten ∧
    w.listener.answers <+: answers ∧
    (w.AtRest s → w.listener.answers = answers) ∧
    (∃ before e, parsed = before ++ [.error e] ∧ e.isFinal = true ∧
      (∀ r ∈ before, (∃ p, r = .ok p) ∨ ∃ n, r = .error (.tooLarge n)) ∧
      (e = .closed ↔ farewell.ending = .clean ∧ Frame.Complete chunks.flatten)) ∧
    moves.length ≤ 2 * chunks.flatten.length + chunks.length + wishes.length + 2 ∧
    ∃ more w', run? s more w = some w' ∧ w'.AtRest s ∧ .giveUp ∉ more := by
  dsimp only
  have hc : ∀ job ∈ writing chunks, job.Clear true := by
    intro job hj
    obtain ⟨bs, -, rfl⟩ := List.mem_map.mp hj
    exact .plain
  obtain ⟨hw, hcount⟩ := kept_of_run? hc hcap hrun hmoves
  have hsent := hw.told.said.front
  obtain ⟨hanswers, hall⟩ := hw.answers_of_jobs (.inl rfl)
  rw [bytes_writing] at hcount hsent hanswers hall
  rw [Frame.answers_eq] at hanswers hall
  refine ⟨hsent, hanswers, hall, ?_, ?_, hw.sound.exists_atRest⟩
  · obtain ⟨before, e, hp, hfinal, hbefore, -⟩ :=
      Frame.exists_parse_eq farewell.ending chunks.flatten
    refine ⟨before, e, hp, hfinal, hbefore, ?_⟩
    rw [← Frame.getLast?_parse_eq_closed_iff, hp, List.getLast?_concat]
    simp
  · have hlen : farewell.partings.length ≤ 2 := by cases farewell <;> decide
    rw [writing, List.length_map] at hcount
    omega

/-- A frame, a length that is too large, and half a length, in two pieces. -/
theorem parsed_in_pieces :
    ∃ moves w, run? .right moves (ofJobs .standard 4
        (writing [[0, 0, 0, 1, 7, 255, 255], [255, 255, 0, 0]]) .close
        [.payload, .payload, .payload, .payload]) = some w ∧
      [.bytes [7], .streamError (.tooLarge 4294967295), .streamError (.io .endInNumber),
        .streamError .closed] = List.zipWith (Purpose.answer .standard)
          [.payload, .payload, .payload, .payload]
          (Frame.parse .clean [0, 0, 0, 1, 7, 255, 255, 255, 255, 0, 0] ++
            List.replicate 4 (.error .closed)) := by
  have hrun : run? .right
      [.speak, .listen, .speak, .speak, .speak, .listen, .speak, .speak, .speak, .speak, .listen,
        .listen, .listen]
      (ofJobs .standard 4 (writing [[0, 0, 0, 1, 7, 255, 255], [255, 255, 0, 0]]) .close
        [.payload, .payload, .payload, .payload]) = some _ := rfl
  have h := parsed_of_run? .standard [[0, 0, 0, 1, 7, 255, 255], [255, 255, 0, 0]] .close
    [.payload, .payload, .payload, .payload] 4 (by decide) (by decide) hrun
  exact ⟨_, _, hrun, h.2.2.1 ⟨rfl, rfl⟩⟩

end Speech

end PeerCall
