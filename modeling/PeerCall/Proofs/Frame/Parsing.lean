import PeerCall.Proofs.Frame.Reading

/-! # Parsing frames

All that can be read of a stream, as a function of its bytes and of the way these end
(`Frame.parse`). Reads in succession find just that, and then nothing but the end
(`Frame.reads_eq_take`). A stream ends cleanly for its reader exactly if it was cut nowhere
(`Frame.getLast?_parse_eq_closed_iff`), and one that is cut short by a reset still brings all frames
that are whole (`Frame.exists_parse_reset_eq`). -/

namespace PeerCall

/-- What the end of a stream is between frames. -/
def Ending.error : Ending → StreamError
  | clean => .closed
  | reset => .io .reset

/-- Whether no read can succeed any more once one has failed so. -/
def StreamError.isFinal : StreamError → Bool
  | closed => true
  | io _ => true
  | _ => false

namespace Frame

/-- Bytes that are cut nowhere: frames and lengths that are too large. -/
inductive Complete : Bytes → Prop
  | nil : Complete []
  | frame (hp : p.length ≤ maxSize) (h : Complete rest) : Complete (bytes p ++ rest)
  | oversized (hn : maxSize < n) (hlt : n < 256 ^ 4) (h : Complete rest) :
    Complete (header n ++ rest)

variable {ending : Ending} {bs rest : Bytes} {p : Bytes} {n : Nat}

theorem length_rest_of_scan_whole (h : scan bs = .whole p rest) : rest.length < bs.length := by
  obtain ⟨-, rfl⟩ := scan_eq_whole_iff.mp h
  simp only [bytes, List.length_append, length_header]
  omega

theorem length_rest_of_scan_oversized (h : scan bs = .oversized n rest) :
    rest.length < bs.length := by
  obtain ⟨-, -, rfl⟩ := scan_eq_oversized_iff.mp h
  simp only [List.length_append, length_header]
  omega

/-- All that can be read of a stream. A length that is too large is refused, and what follows it is
read as if it were not there. The last result is the failure that the stream ends with. -/
def parse (ending : Ending) (bs : Bytes) : List (Except StreamError Bytes) :=
  match hs : scan bs with
  | .whole payload rest =>
    have := length_rest_of_scan_whole hs
    .ok payload :: parse ending rest
  | .oversized size rest =>
    have := length_rest_of_scan_oversized hs
    .error (.tooLarge size) :: parse ending rest
  | .short => [.error (if ending.isReset then .io .reset else FrameReader.cutShort bs)]
termination_by bs.length

/-! ## The grammar -/

theorem parse_eq : parse ending bs =
    match scan bs with
    | .whole payload rest => .ok payload :: parse ending rest
    | .oversized size rest => .error (.tooLarge size) :: parse ending rest
    | .short => [.error (if ending.isReset then .io .reset else FrameReader.cutShort bs)] := by
  rw [parse]
  split <;> simp [*]

theorem parse_bytes (h : p.length ≤ maxSize) (rest : Bytes) :
    parse ending (bytes p ++ rest) = .ok p :: parse ending rest := by
  rw [parse_eq, scan_bytes h]

theorem parse_header (h : maxSize < n) (hlt : n < 256 ^ 4) (rest : Bytes) :
    parse ending (header n ++ rest) = .error (.tooLarge n) :: parse ending rest := by
  rw [parse_eq, scan_eq_oversized_iff.mpr ⟨h, hlt, rfl⟩]

theorem parse_of_short (h : scan bs = .short) : parse ending bs =
    [.error (if ending.isReset then .io .reset else FrameReader.cutShort bs)] := by
  rw [parse_eq, h]

theorem parse_nil : parse ending [] = [.error ending.error] := by
  rw [parse_of_short rfl]
  cases ending <;> rfl

theorem parse_append_frames {ps : List Bytes} (h : ∀ p ∈ ps, p.length ≤ maxSize) (rest : Bytes) :
    parse ending (ps.flatMap bytes ++ rest) = ps.map .ok ++ parse ending rest := by
  induction ps with
  | nil => rfl
  | cons p ps ih =>
    rw [List.flatMap_cons, List.append_assoc, parse_bytes (h p List.mem_cons_self),
      ih fun q hq => h q (List.mem_cons_of_mem _ hq)]
    rfl

/-! ## The end of a stream -/

theorem getLast?_parse_of_complete (h : Complete bs) :
    (parse .clean bs).getLast? = some (.error .closed) := by
  induction h with
  | nil => rw [parse_nil]; rfl
  | frame hp _ ih => rw [parse_bytes hp, List.getLast?_cons, ih]; rfl
  | oversized hn hlt _ ih => rw [parse_header hn hlt, List.getLast?_cons, ih]; rfl

/-- The last result is the only one that is final. -/
theorem exists_parse_eq (ending : Ending) (bs : Bytes) :
    ∃ before e, parse ending bs = before ++ [.error e] ∧ e.isFinal = true ∧
      (∀ r ∈ before, (∃ p, r = .ok p) ∨ ∃ n, r = .error (.tooLarge n)) ∧
      (e = .closed → ending = .clean ∧ Complete bs) := by
  induction bs using parse.induct with
  | case1 bs p rest hs _ ih =>
    obtain ⟨before, e, hp, he, hb, hc⟩ := ih
    obtain ⟨hle, rfl⟩ := scan_eq_whole_iff.mp hs
    refine ⟨.ok p :: before, e, by rw [parse_bytes hle, hp]; rfl, he, ?_, fun h => ?_⟩
    · simpa using hb
    · exact ⟨(hc h).1, .frame hle (hc h).2⟩
  | case2 bs n rest hs _ ih =>
    obtain ⟨before, e, hp, he, hb, hc⟩ := ih
    obtain ⟨hn, hlt, rfl⟩ := scan_eq_oversized_iff.mp hs
    refine ⟨.error (.tooLarge n) :: before, e, by rw [parse_header hn hlt, hp]; rfl, he, ?_,
      fun h => ?_⟩
    · intro r hr
      rcases List.mem_cons.mp hr with rfl | hr
      · exact .inr ⟨n, rfl⟩
      · exact hb r hr
    · exact ⟨(hc h).1, .oversized hn hlt (hc h).2⟩
  | case3 bs hs =>
    refine ⟨[], _, parse_of_short hs, ?_, nofun, fun h => ?_⟩
    · unfold FrameReader.cutShort
      split
      · rfl
      · split
        · rfl
        · split <;> rfl
    · unfold FrameReader.cutShort at h
      split at h
      · cases h
      · rename_i hr
        split at h
        · rename_i hb
          rw [List.isEmpty_iff.mp hb]
          exact ⟨by cases ending <;> simp_all [Ending.isReset], .nil⟩
        · split at h <;> cases h

/-- A stream ends cleanly for its reader exactly if it was cut nowhere and not reset. -/
theorem getLast?_parse_eq_closed_iff :
    (parse ending bs).getLast? = some (.error .closed) ↔ ending = .clean ∧ Complete bs := by
  constructor
  · intro h
    obtain ⟨before, e, hp, -, -, hc⟩ := exists_parse_eq ending bs
    rw [hp, List.getLast?_concat] at h
    cases h
    exact hc rfl
  · rintro ⟨rfl, h⟩
    exact getLast?_parse_of_complete h

/-! ## Reads in succession -/

/-- What so many reads in succession find. -/
def reads (ending : Ending) : Nat → Bytes → List (Except StreamError Bytes)
  | 0, _ => []
  | n + 1, bs => (read ending bs).1 :: reads ending n (read ending bs).2

theorem reads_nil : reads ending n [] = List.replicate n (.error ending.error) := by
  have hread : read ending [] = (.error ending.error, []) := by cases ending <;> rfl
  induction n with
  | zero => rfl
  | succ n ih => rw [reads, hread, ih, List.replicate_succ]

/-- Reads find what is there, and then the end again and again. -/
theorem reads_eq_take {m : Nat} (hm : n ≤ m + 1) : reads ending n bs =
    (parse ending bs ++ List.replicate m (Except.error ending.error)).take n := by
  induction n generalizing bs with
  | zero => simp [reads]
  | succ n ih =>
    have ih {bs : Bytes} : reads ending n bs = _ := ih (Nat.le_of_succ_le hm)
    cases hs : scan bs with
    | whole p rest =>
      obtain ⟨hp, rfl⟩ := scan_eq_whole_iff.mp hs
      rw [reads, read_bytes hp, parse_bytes hp, List.cons_append, List.take_succ_cons, ih]
    | oversized size rest =>
      obtain ⟨hn, hlt, rfl⟩ := scan_eq_oversized_iff.mp hs
      rw [reads, read, hs, parse_header hn hlt, List.cons_append, List.take_succ_cons, ih]
    | short =>
      rw [reads, read, hs, parse_of_short hs, List.singleton_append, List.take_succ_cons, reads_nil,
        List.take_replicate, Nat.min_eq_left (Nat.le_of_succ_le_succ hm)]

/-! ## Frames that are cut short -/

theorem scan_of_part {sent : Bytes} (hp : p.length ≤ maxSize) (h : sent <+: bytes p)
    (hne : sent ≠ bytes p) : scan sent = .short := by
  obtain ⟨tail, ht⟩ := h
  cases hs : scan sent with
  | whole q rest =>
    obtain ⟨hq, rfl⟩ := scan_eq_whole_iff.mp hs
    rw [List.append_assoc, ← List.append_nil (bytes p)] at ht
    obtain ⟨rfl, hnil⟩ := bytes_append_inj hq hp ht
    rw [(List.append_eq_nil_iff.mp hnil).1, List.append_nil] at hne
    exact absurd rfl hne
  | oversized n rest =>
    obtain ⟨hn, hlt, rfl⟩ := scan_eq_oversized_iff.mp hs
    have hwhole := scan_bytes hp []
    rw [List.append_nil, ← ht, List.append_assoc,
      scan_eq_oversized_iff.mpr ⟨hn, hlt, rfl⟩] at hwhole
    cases hwhole
  | short => rfl

/-- Of frames that a reset cuts short, those are read that got through as a whole. -/
theorem exists_parse_reset_eq {ps : List Bytes} {sent : Bytes} (hp : ∀ p ∈ ps, p.length ≤ maxSize)
    (h : sent <+: ps.flatMap bytes) :
    ∃ m, parse .reset sent = (ps.take m).map .ok ++ [.error (.io .reset)] ∧
      ∀ k, k ≤ ps.length → (ps.take k).flatMap bytes <+: sent → k ≤ m := by
  induction ps generalizing sent with
  | nil =>
    rw [List.prefix_nil.mp h, parse_nil]
    exact ⟨0, rfl, fun k hk _ => hk⟩
  | cons p ps ih =>
    have hle := hp p List.mem_cons_self
    rw [List.flatMap_cons] at h
    by_cases hwhole : bytes p <+: sent
    · obtain ⟨sent', rfl⟩ := hwhole
      obtain ⟨m, hm, hk⟩ := ih (fun q hq => hp q (List.mem_cons_of_mem _ hq))
        ((List.prefix_append_right_inj _).mp h)
      refine ⟨m + 1, by rw [parse_bytes hle, hm]; rfl, fun k hle' hsent => ?_⟩
      cases k with
      | zero => exact Nat.zero_le _
      | succ k =>
        rw [List.take_succ_cons, List.flatMap_cons, List.prefix_append_right_inj] at hsent
        exact Nat.succ_le_succ (hk k (Nat.le_of_succ_le_succ hle') hsent)
    · have hpart : sent <+: bytes p :=
        (List.prefix_or_prefix_of_prefix h (List.prefix_append ..)).resolve_right hwhole
      have hne : sent ≠ bytes p := fun he => hwhole (he ▸ List.prefix_refl _)
      refine ⟨0, parse_of_short (scan_of_part hle hpart hne), fun k _ hsent => ?_⟩
      cases k with
      | zero => exact Nat.le_refl 0
      | succ k =>
        rw [List.take_succ_cons, List.flatMap_cons] at hsent
        exact absurd ((List.prefix_append ..).trans hsent) hwhole

end Frame

end PeerCall
