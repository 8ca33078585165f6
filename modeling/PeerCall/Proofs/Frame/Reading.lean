import PeerCall.Bytes.Number
import PeerCall.Frame
import PeerCall.Proofs.Traffic

/-! # Reading frames

`Frame.scan` tells what a whole byte string begins with. A `FrameReader` that is fed the same bytes
piece by piece finds the same (`FrameReader.fed`), and so does one that takes them off a link
(`FrameReader.turn_of_step?`): what it has taken of a frame, what is unread and what is under way
always add up to the same bytes, whatever the pieces. So what is found is what the stream as a whole
begins with (`FrameReader.Turn.read_of_whole`, `FrameReader.Turn.read_of_failed`). -/

namespace PeerCall

namespace Frame

/-! ## What a byte string begins with -/

/-- What stands at the beginning of a byte string. -/
inductive Scan
  /-- A frame, and the bytes behind it. -/
  | whole (payload rest : Bytes)
  /-- A length that is too large, and the bytes behind it. -/
  | oversized (size : Nat) (rest : Bytes)
  /-- Only a part of a frame, or nothing. -/
  | short
  deriving Repr, DecidableEq

/-- Looks at the beginning of a byte string. -/
def scan (bs : Bytes) : Scan :=
  match bs.split? 4 with
  | none => .short
  | some (length, rest) =>
    if maxSize < length.toNatBE then .oversized length.toNatBE rest
    else
      match rest.split? length.toNatBE with
      | none => .short
      | some (payload, rest) => .whole payload rest

@[simp] theorem length_header (n : Nat) : (header n).length = 4 := Bytes.length_ofNatBE ..

theorem toNatBE_header (h : n < 256 ^ 4) : (header n).toNatBE = n := Bytes.toNatBE_ofNatBE h

theorem toNatBE_header_of_le (h : n ≤ maxSize) : (header n).toNatBE = n :=
  toNatBE_header (Nat.lt_of_le_of_lt h (by decide))

theorem header_toNatBE {bs : Bytes} (h : bs.length = 4) : header bs.toNatBE = bs := by
  have := Bytes.ofNatBE_toNatBE bs
  rwa [h] at this

private theorem split?_header (n : Nat) (rest : Bytes) :
    (header n ++ rest).split? 4 = some (header n, rest) :=
  Bytes.split?_eq_some_iff.mpr ⟨rfl, length_header n⟩

theorem scan_eq_whole_iff {bs p rest : Bytes} :
    scan bs = .whole p rest ↔ p.length ≤ maxSize ∧ bs = bytes p ++ rest := by
  constructor
  · intro h
    unfold scan at h
    split at h
    · cases h
    · rename_i size tail hs
      obtain ⟨rfl, hl⟩ := Bytes.split?_eq_some_iff.mp hs
      split at h
      · cases h
      · rename_i hn
        split at h
        · cases h
        · rename_i q rest' hq
          obtain ⟨rfl, hlen⟩ := Bytes.split?_eq_some_iff.mp hq
          cases h
          refine ⟨hlen ▸ Nat.le_of_not_lt hn, ?_⟩
          rw [bytes, hlen, header_toNatBE hl, List.append_assoc]
  · rintro ⟨hp, rfl⟩
    simp only [scan, bytes, List.append_assoc, split?_header, toNatBE_header_of_le hp,
      if_neg (Nat.not_lt.mpr hp), Bytes.split?_append]

theorem scan_eq_oversized_iff {bs rest : Bytes} :
    scan bs = .oversized n rest ↔ maxSize < n ∧ n < 256 ^ 4 ∧ bs = header n ++ rest := by
  constructor
  · intro h
    unfold scan at h
    split at h
    · cases h
    · rename_i size tail hs
      obtain ⟨rfl, hl⟩ := Bytes.split?_eq_some_iff.mp hs
      split at h
      · rename_i hn
        cases h
        exact ⟨hn, hl ▸ Bytes.toNatBE_lt size, by rw [header_toNatBE hl]⟩
      · split at h <;> cases h
  · rintro ⟨hn, hlt, rfl⟩
    simp only [scan, split?_header, toNatBE_header hlt, if_pos hn]

theorem scan_bytes {p : Bytes} (h : p.length ≤ maxSize) (rest : Bytes) :
    scan (bytes p ++ rest) = .whole p rest :=
  scan_eq_whole_iff.mpr ⟨h, rfl⟩

theorem bytes_ne_nil (p : Bytes) : bytes p ≠ [] := by
  intro h
  have := congrArg List.length h
  simp [bytes] at this

/-- Two frames in a row can be told apart. -/
theorem bytes_append_inj {p q rest rest' : Bytes} (hp : p.length ≤ maxSize)
    (hq : q.length ≤ maxSize) (h : bytes p ++ rest = bytes q ++ rest') : p = q ∧ rest = rest' := by
  have := scan_bytes hp rest
  rw [h, scan_bytes hq] at this
  cases this
  exact ⟨rfl, rfl⟩

theorem scan_of_length_lt {bs : Bytes} (h : bs.length < 4) : scan bs = .short := by
  have : bs.split? 4 = none := by
    cases hs : bs.split? 4 with
    | none => rfl
    | some r =>
      obtain ⟨rfl, hl⟩ := Bytes.split?_eq_some_iff.mp hs
      rw [List.length_append] at h
      omega
  rw [scan, this]

theorem scan_header_of_length_lt {bs : Bytes} (hn : n ≤ maxSize) (h : bs.length < n) :
    scan (header n ++ bs) = .short := by
  have : bs.split? n = none := by
    cases hs : bs.split? n with
    | none => rfl
    | some r =>
      obtain ⟨rfl, hl⟩ := Bytes.split?_eq_some_iff.mp hs
      rw [List.length_append] at h
      omega
  simp only [scan, split?_header, toNatBE_header_of_le hn, if_neg (Nat.not_lt.mpr hn), this]

end Frame

namespace FrameReader

/-! ## Reading from a buffer -/

/-- The bytes of the frame that are there. -/
def taken : FrameReader → Bytes
  | length got => got
  | payload missing newestFirst =>
    Frame.header (missing + newestFirst.length) ++ newestFirst.reverse

/-- A reader that a frame can leave half read. -/
def Sound : FrameReader → Prop
  | length got => got.length < 4
  | payload missing newestFirst => 0 < missing ∧ missing + newestFirst.length ≤ Frame.maxSize

theorem sound_start : start.Sound := Nat.zero_lt_succ 3

@[simp] theorem taken_start : start.taken = [] := rfl

theorem scan_taken {r : FrameReader} (hr : r.Sound) : Frame.scan r.taken = .short := by
  cases r with
  | length got => exact Frame.scan_of_length_lt hr
  | payload missing newestFirst =>
    refine Frame.scan_header_of_length_lt hr.2 ?_
    have := hr.1
    rw [List.length_reverse]
    omega

/-- What feeding a buffer to a reader comes to. -/
inductive Fed (r : FrameReader) (buffer : Bytes) :
    Progress FrameReader (Except StreamError Bytes) × Bytes → Prop
  | more {r'} (hr : r'.Sound) (h : r'.taken = r.taken ++ buffer) : Fed r buffer (.more r', [])
  | whole {p rest} (h : Frame.scan (r.taken ++ buffer) = .whole p rest) :
    Fed r buffer (.done (.ok p), rest)
  | oversized {n rest} (h : Frame.scan (r.taken ++ buffer) = .oversized n rest) :
    Fed r buffer (.done (.error (.tooLarge n)), rest)

private theorem fed_feedPayload {r : FrameReader} {bs newestFirst buffer : Bytes}
    (hs : missing + newestFirst.length ≤ Frame.maxSize)
    (h : r.taken ++ bs =
      Frame.header (missing + newestFirst.length) ++ newestFirst.reverse ++ buffer) :
    Fed r bs (feedPayload missing newestFirst buffer) := by
  simp only [feedPayload, List.reverseAux_eq]
  by_cases hl : (buffer.take missing).length < missing
  · rw [if_pos hl]
    have hb : buffer.take missing = buffer := by
      rw [List.length_take] at hl
      exact List.take_of_length_le (by omega)
    rw [hb] at hl ⊢
    refine .more ⟨by omega, ?_⟩ ?_
    · rw [List.length_append, List.length_reverse]
      omega
    · have hn : missing - buffer.length + (buffer.reverse ++ newestFirst).length =
          missing + newestFirst.length := by
        rw [List.length_append, List.length_reverse]
        omega
      rw [taken, hn, h, List.reverse_append, List.reverse_reverse, List.append_assoc]
  · rw [if_neg hl]
    have hp : ((buffer.take missing).reverse ++ newestFirst).reverse =
        newestFirst.reverse ++ buffer.take missing := by
      rw [List.reverse_append, List.reverse_reverse]
    have hlen : (newestFirst.reverse ++ buffer.take missing).length =
        missing + newestFirst.length := by
      rw [List.length_take] at hl
      rw [List.length_append, List.length_reverse, List.length_take]
      omega
    rw [hp]
    refine .whole (Frame.scan_eq_whole_iff.mpr ⟨hlen ▸ hs, ?_⟩)
    rw [h, Frame.bytes, hlen]
    simp only [List.append_assoc, List.take_append_drop]

theorem fed {r : FrameReader} (hr : r.Sound) (buffer : Bytes) : Fed r buffer (r.feed buffer) := by
  cases r with
  | payload missing newestFirst => exact fed_feedPayload hr.2 rfl
  | length got =>
    have hsplit : got ++ buffer =
        (got ++ buffer.take (4 - got.length)) ++ buffer.drop (4 - got.length) := by
      rw [List.append_assoc, List.take_append_drop]
    simp only [feed]
    generalize hgot : got ++ buffer.take (4 - got.length) = got' at hsplit ⊢
    have hlen : got'.length = min 4 (got ++ buffer).length := by
      have : got.length < 4 := hr
      rw [← hgot, List.length_append, List.length_take, List.length_append]
      omega
    by_cases hl : got'.length < 4
    · rw [if_pos hl]
      have hd : buffer.drop (4 - got.length) = [] := by
        rw [List.drop_eq_nil_iff]
        rw [List.length_append] at hlen
        omega
      rw [hd, List.append_nil] at hsplit
      exact .more hl hsplit.symm
    · rw [if_neg hl]
      have h4 : got'.length = 4 := by omega
      by_cases hn : got'.toNatBE > Frame.maxSize
      · rw [if_pos hn]
        refine .oversized (Frame.scan_eq_oversized_iff.mpr ⟨hn, ?_, ?_⟩)
        · exact h4 ▸ Bytes.toNatBE_lt got'
        · rw [Frame.header_toNatBE h4]
          exact hsplit
      · rw [if_neg hn]
        refine fed_feedPayload (Nat.le_of_not_lt hn) ?_
        simpa only [taken, List.length_nil, Nat.add_zero, Frame.header_toNatBE h4,
          List.reverse_nil, List.append_nil] using hsplit

/-! ## Reading from a link -/

/-- What the end of the stream means after these bytes of a frame: between frames it is a clean
end. -/
def cutShort (bs : Bytes) : StreamError :=
  if bs.isEmpty then .closed else if bs.length < 4 then .io .endInNumber else .io .endInBytes

theorem atEnd_eq {r : FrameReader} (hr : r.Sound) : r.atEnd = cutShort r.taken := by
  cases r with
  | length got =>
    cases got with
    | nil => rfl
    | cons b bs =>
      have hl : (b :: bs).length < 4 := hr
      rw [cutShort, taken, if_neg (by simp), if_pos hl]
      rfl
  | payload missing newestFirst =>
    have hl : ¬ (taken (.payload missing newestFirst)).length < 4 := by
      simp [taken]
    have hne : (taken (.payload missing newestFirst)).isEmpty = false := by
      rw [List.isEmpty_eq_false_iff_exists_mem, ← List.length_pos_iff_exists_mem]
      omega
    rw [cutShort, hne, if_neg hl]
    rfl

/-- What a step of a reader can do, with what it leaves unread. In each case the bytes taken of the
frame, those that are unread and those under way are, in this order, the same as before. -/
inductive Turn (s : Side) (r : FrameReader) (unread : Bytes) (l : Link) :
    Progress FrameReader (Except StreamError Bytes) → Bytes → Link → Prop
  | more {r' n} (hr : r'.Sound) (hn : (l.flow s.other).drop n ≠ l.flow s.other)
    (h : r.taken ++ unread ++ l.flow s.other = r'.taken ++ (l.flow s.other).drop n) :
    Turn s r unread l (.more r') [] (l.take s n)
  | whole {p rest n} (hp : p.length ≤ Frame.maxSize)
    (h : r.taken ++ unread ++ l.flow s.other =
      Frame.bytes p ++ (rest ++ (l.flow s.other).drop n)) :
    Turn s r unread l (.done (.ok p)) rest (l.take s n)
  | oversized {size rest n} (hs : Frame.maxSize < size) (hlt : size < 256 ^ 4)
    (h : r.taken ++ unread ++ l.flow s.other =
      Frame.header size ++ (rest ++ (l.flow s.other).drop n)) :
    Turn s r unread l (.done (.error (.tooLarge size))) rest (l.take s n)
  | cut (hf : l.flow s.other = []) (hs : l.shut s.other = true)
    (h : Frame.scan (r.taken ++ unread) = .short) :
    Turn s r unread l (.done (.error
      (if l.wasReset.get s.other then .io .reset else cutShort (r.taken ++ unread)))) [] l

theorem wanted_pos {r : FrameReader} (hr : r.Sound) : 0 < r.wanted := by
  cases r with
  | length got => exact Nat.zero_lt_succ 8191
  | payload missing newestFirst => exact Nat.lt_of_lt_of_le hr.1 (Nat.le_max_right ..)

private theorem Fed.turn {r r' : FrameReader} (h' : r'.taken = r.taken ++ unread)
    (hn : (l.flow s.other).take n ≠ [])
    (h : Fed r' ((l.flow s.other).take n) (p, unread')) :
    Turn s r unread l p unread' (l.take s n) := by
  have hsplit : r.taken ++ unread ++ l.flow s.other =
      (r'.taken ++ (l.flow s.other).take n) ++ (l.flow s.other).drop n := by
    rw [h', List.append_assoc _ (List.take _ _), List.take_append_drop]
  cases h with
  | more hr h =>
    refine .more hr (fun hd => hn ?_) (h ▸ hsplit)
    have := List.take_append_drop n (l.flow s.other)
    rw [hd] at this
    exact List.append_left_eq_self.mp this
  | whole h =>
    obtain ⟨hp, h⟩ := Frame.scan_eq_whole_iff.mp h
    exact .whole hp (by rw [hsplit, h, List.append_assoc])
  | oversized h =>
    obtain ⟨hs, hlt, h⟩ := Frame.scan_eq_oversized_iff.mp h
    exact .oversized hs hlt (by rw [hsplit, h, List.append_assoc])

theorem turn_of_step? {r : FrameReader} (hr : r.Sound)
    (h : r.step? s unread l = some (p, unread', l')) : Turn s r unread l p unread' l' := by
  have hfed := fed hr unread
  unfold step? at h
  rcases hb : r.feed unread with ⟨progress, rest⟩
  rw [hb] at hfed h
  cases hfed with
  | more hr' ht =>
    rename_i r'
    simp only at h
    split at h
    · cases h
    · -- the other end was reset, and what it wrote before is used up
      rename_i e l₁ hl
      rcases Link.read?_cases hl (wanted_pos hr') with ⟨_, he, _⟩ | ⟨hf, hs, hl₁, he⟩
      · cases he
      · have hc : Turn s r unread l _ [] l := .cut hf hs (ht ▸ scan_taken hr')
        split at he
        · rename_i hw
          rw [if_pos hw] at hc
          rw [hl₁] at h
          cases he
          cases h
          exact hc
        · cases he
    · rename_i bs l₁ hl
      rcases Link.read?_cases hl (wanted_pos hr') with ⟨hne, he, hl₁⟩ | ⟨hf, hs, hl₁, he⟩
      · cases he
        rw [if_neg (fun hb => hne (List.isEmpty_iff.mp hb)), hl₁] at h
        cases h
        exact (fed hr' _).turn ht hne
      · have hc : Turn s r unread l _ [] l := .cut hf hs (ht ▸ scan_taken hr')
        split at he
        · cases he
        · rename_i hw
          rw [if_neg hw, ← ht, ← atEnd_eq hr'] at hc
          rw [hl₁] at h
          cases he
          cases h
          exact hc
  | whole hscan =>
    cases h
    obtain ⟨hp, ht⟩ := Frame.scan_eq_whole_iff.mp hscan
    have hw : Turn s r unread l _ unread' (l.take s 0) :=
      .whole hp (by rw [ht, List.drop_zero, List.append_assoc])
    rwa [Link.take_zero] at hw
  | oversized hscan =>
    cases h
    obtain ⟨hs, hlt, ht⟩ := Frame.scan_eq_oversized_iff.mp hscan
    have ho : Turn s r unread l _ unread' (l.take s 0) :=
      .oversized hs hlt (by rw [ht, List.drop_zero, List.append_assoc])
    rwa [Link.take_zero] at ho

theorem Turn.link (h : Turn s r unread l p unread' l') : ∃ n, l' = l.take s n := by
  cases h with
  | more | whole | oversized => exact ⟨_, rfl⟩
  | cut => exact ⟨0, (Link.take_zero ..).symm⟩

theorem Turn.sound_of_more (h : Turn s r unread l (.more r') unread' l') : r'.Sound := by
  cases h with
  | more hr => exact hr

/-- A reader that goes on has used bytes up. -/
theorem Turn.flow_lt_of_more (h : Turn s r unread l (.more r') unread' l') :
    (l'.flow s.other).length < (l.flow s.other).length := by
  cases h with
  | @more _ n hr hn h =>
    rw [Link.flow_take, if_neg (Side.other_ne s), List.length_drop]
    have h0 : n ≠ 0 := fun h0 => hn (by rw [h0, List.drop_zero])
    have hf : l.flow s.other ≠ [] := fun hf => hn (by rw [hf, List.drop_nil])
    exact Nat.sub_lt (List.length_pos_iff.mpr hf) (Nat.pos_of_ne_zero h0)

/-- A reader has only a part of a frame and nothing is under way, but the other end can still
write. -/
structure Waits (r : FrameReader) (s : Side) (unread : Bytes) (l : Link) : Prop where
  short : Frame.scan (r.taken ++ unread) = .short
  dry : l.flow s.other = []
  unshut : l.shut s.other = false

theorem step?_eq_none {r : FrameReader} (hr : r.Sound) (h : r.step? s unread l = none) :
    r.Waits s unread l := by
  have hfed := fed hr unread
  unfold step? at h
  rcases hb : r.feed unread with ⟨progress, rest⟩
  rw [hb] at hfed h
  cases hfed with
  | more hr' ht =>
    simp only at h
    split at h
    · rename_i hl
      obtain ⟨hf, hs⟩ := Link.read?_eq_none hl
      exact ⟨ht ▸ scan_taken hr', hf, hs⟩
    · cases h
    · split at h <;> cases h
  | whole | oversized => cases h

end FrameReader

/-! ## Reading a whole stream -/

/-- How a stream ends for its reader. -/
inductive Ending
  /-- Nothing more is written. -/
  | clean
  /-- The other end was reset, and nothing more is written. -/
  | reset
  deriving Repr, DecidableEq

/-- Whether the other end was reset. -/
def Ending.isReset : Ending → Bool
  | clean => false
  | reset => true

/-- The first frame of a stream, or why there is none, and the bytes behind it. -/
def Frame.read (ending : Ending) (bs : Bytes) : Except StreamError Bytes × Bytes :=
  match scan bs with
  | .whole payload rest => (.ok payload, rest)
  | .oversized size rest => (.error (.tooLarge size), rest)
  | .short => (.error (if ending.isReset then .io .reset else FrameReader.cutShort bs), [])

theorem Frame.read_bytes {p : Bytes} (h : p.length ≤ maxSize) (ending : Ending) (rest : Bytes) :
    read ending (bytes p ++ rest) = (.ok p, rest) := by
  rw [read, scan_bytes h]

theorem Frame.read_eq_ok_iff {ending : Ending} {bs p rest : Bytes} :
    read ending bs = (.ok p, rest) ↔ p.length ≤ maxSize ∧ bs = bytes p ++ rest := by
  rw [← scan_eq_whole_iff, read]
  split <;> simp_all

namespace FrameReader

section

variable {s : Side} {r r' : FrameReader} {unread unread' todo : Bytes} {l l' : Link}
  {ending : Ending}

theorem Turn.bytes_of_more (h : Turn s r unread l (.more r') unread' l') (todo : Bytes) :
    r'.taken ++ unread' ++ (l'.flow s.other ++ todo) =
      r.taken ++ unread ++ (l.flow s.other ++ todo) := by
  cases h with
  | more hr hn h =>
    rw [Link.flow_take, if_neg (Side.other_ne s), List.append_nil, ← List.append_assoc, ← h,
      List.append_assoc]

theorem Turn.bytes_of_whole (h : Turn s r unread l (.done (.ok p)) unread' l') (todo : Bytes) :
    p.length ≤ Frame.maxSize ∧ r.taken ++ unread ++ (l.flow s.other ++ todo) =
      Frame.bytes p ++ (unread' ++ (l'.flow s.other ++ todo)) := by
  cases h with
  | whole hp h =>
    refine ⟨hp, ?_⟩
    rw [Link.flow_take, if_neg (Side.other_ne s), ← List.append_assoc _ _ todo, h,
      List.append_assoc, List.append_assoc]

/-- The frame that a step of a reader finds is the one that the whole stream begins with. -/
theorem Turn.read_of_whole (h : Turn s r unread l (.done (.ok p)) unread' l') (ending : Ending)
    (todo : Bytes) : Frame.read ending (r.taken ++ unread ++ (l.flow s.other ++ todo)) =
      (.ok p, unread' ++ (l'.flow s.other ++ todo)) := by
  obtain ⟨hp, hb⟩ := h.bytes_of_whole todo
  rw [hb, Frame.read_bytes hp]

/-- What a step of a reader comes to is what one finds who reads the whole stream, if the other end
stops writing only after all of `todo`, and in this way. -/
theorem Turn.read_of_done (h : Turn s r unread l (.done result) unread' l')
    (he : l.shut s.other = true → todo = [] ∧ l.wasReset.get s.other = ending.isReset) :
    Frame.read ending (r.taken ++ unread ++ (l.flow s.other ++ todo)) =
      (result, unread' ++ (l'.flow s.other ++ todo)) := by
  cases h with
  | whole hp h => exact (Turn.whole hp h).read_of_whole ending todo
  | oversized hs hlt h =>
    rw [← List.append_assoc _ _ todo, h, List.append_assoc, Frame.read,
      Frame.scan_eq_oversized_iff.mpr ⟨hs, hlt, rfl⟩, Link.flow_take, if_neg (Side.other_ne s),
      List.append_assoc]
  | cut hf hs h =>
    obtain ⟨rfl, hw⟩ := he hs
    rw [hf, List.nil_append, List.append_nil, Frame.read, h, hw]
    rfl

/-- A step of a reader fails as one does who reads the whole stream, if the other end stops writing
only after all of `todo`, and in this way. -/
theorem Turn.read_of_failed (h : Turn s r unread l (.done (.error e)) unread' l')
    (he : l.shut s.other = true → todo = [] ∧ l.wasReset.get s.other = ending.isReset) :
    (Frame.read ending (r.taken ++ unread ++ (l.flow s.other ++ todo))).1 = .error e := by
  rw [h.read_of_done he]

end

end FrameReader

end PeerCall
