import PeerCall.Handshake
import PeerCall.Proofs.Traffic
import PeerCall.Proofs.Wire

/-! # Reading handshakes

`Handshake.Greeted` tells by the grammar of handshakes what a byte string that then ends comes to,
and which bytes are left. A reader that takes it off a link comes to the same, in whatever pieces it
arrives (`Handshake.moves_of_step?`): what it has taken and what is under way always add up to the
same bytes, and when it is done, what is under way is what the grammar leaves. -/

namespace PeerCall.Handshake

/-! ## The grammar -/

/-- What `n` bytes of text come to, by the bytes behind the length, and the bytes they leave. -/
inductive Body (n : Nat) : Bytes → Except StreamError String → Bytes → Prop
  /-- None of the text is looked at if it would be too long. -/
  | large (hn : maxField < n) : Body n bs (.error (.fieldTooLarge n)) bs
  | short (hn : n ≤ maxField) (hl : bs.length < n) : Body n bs (.error (.io .endInBytes)) []
  | garbled (hn : n ≤ maxField) (hl : text.length = n) (h : Utf8.decode text = .error f) :
    Body n (text ++ rest) (.error (.invalidFrame f.message)) rest
  | text (hn : n ≤ maxField) (hl : (Bytes.ofString s).length = n) :
    Body n (Bytes.ofString s ++ rest) (.ok s) rest

/-- What a field at the front of a byte string comes to, and the bytes it leaves. -/
inductive Field : Bytes → Except StreamError String → Bytes → Prop
  | cut (hl : bs.length < 4) : Field bs (.error .closed) []
  | body (hn : n < 256 ^ 4) (h : Body n bs result rest) :
    Field (Bytes.ofNatBE 4 n ++ bs) result rest

/-- What a handshake at the front of a byte string comes to, and the bytes it leaves. The protocols
are compared when both fields are there. -/
inductive Greeted (expected : ProtocolId) : Bytes → Except StreamError PeerId → Bytes → Prop
  | first (h : Field bs (.error e) rest) : Greeted expected bs (.error e) rest
  | second (hp : Field bs (.ok p) bs') (h : Field bs' (.error e) rest) :
    Greeted expected bs (.error e) rest
  | foreign (hp : Field bs (.ok p) bs') (hq : Field bs' (.ok q) rest) (hne : p ≠ expected.text) :
    Greeted expected bs (.error (.protocolMismatch expected.text p)) rest
  | welcome (hp : Field bs (.ok expected.text) bs') (hq : Field bs' (.ok q) rest) :
    Greeted expected bs (.ok ⟨q⟩) rest

theorem Body.unique (h : Body n bs r rest) (h' : Body n bs' r' rest') (hb : bs = bs') :
    r = r' ∧ rest = rest' := by
  cases h with
  | large hn =>
    cases h' with
    | large => exact ⟨rfl, hb⟩
    | short hn' | garbled hn' | text hn' => omega
  | short hn hl =>
    cases h' with
    | large hn' => omega
    | short => exact ⟨rfl, rfl⟩
    | garbled _ hl' | text _ hl' =>
      rw [hb, List.length_append] at hl
      omega
  | garbled hn hl hd =>
    cases h' with
    | large hn' => omega
    | short _ hl' =>
      rw [← hb, List.length_append] at hl'
      omega
    | garbled _ hl' hd' =>
      obtain ⟨rfl, rfl⟩ := List.append_inj hb (hl.trans hl'.symm)
      cases hd.symm.trans hd'
      exact ⟨rfl, rfl⟩
    | text _ hl' =>
      obtain ⟨rfl, -⟩ := List.append_inj hb (hl.trans hl'.symm)
      cases hd.symm.trans (Utf8.decode_eq_ok_iff.mpr rfl)
  | @text s rest hn hl =>
    cases h' with
    | large hn' => omega
    | short _ hl' =>
      rw [← hb, List.length_append] at hl'
      omega
    | garbled _ hl' hd' =>
      obtain ⟨rfl, -⟩ := List.append_inj hb (hl.trans hl'.symm)
      cases hd'.symm.trans (Utf8.decode_eq_ok_iff.mpr rfl)
    | @text s' rest' _ hl' =>
      obtain ⟨hs, rfl⟩ := List.append_inj hb (hl.trans hl'.symm)
      cases (Utf8.decode_eq_ok_iff.mpr rfl).symm.trans (Utf8.decode_eq_ok_iff.mpr hs)
      exact ⟨rfl, rfl⟩

/-- The bytes of a field determine what it comes to. -/
theorem Field.unique (h : Field bs r rest) (h' : Field bs' r' rest') (hb : bs = bs') :
    r = r' ∧ rest = rest' := by
  cases h with
  | cut hl =>
    cases h' with
    | cut => exact ⟨rfl, rfl⟩
    | body =>
      rw [hb, List.length_append, Bytes.length_ofNatBE] at hl
      omega
  | @body n _ _ _ hn h =>
    cases h' with
    | cut hl =>
      rw [← hb, List.length_append, Bytes.length_ofNatBE] at hl
      omega
    | @body n' _ _ _ hn' h' =>
      obtain ⟨hlen, rfl⟩ := List.append_inj hb (by simp)
      have : n = n' := by
        rw [← Bytes.toNatBE_ofNatBE hn, ← Bytes.toNatBE_ofNatBE hn', hlen]
      subst this
      exact h.unique h' rfl

theorem field_ok_iff {bs rest : Bytes} {s : String} : Field bs (.ok s) rest ↔
    bs = field s ++ rest ∧ (Bytes.ofString s).length ≤ maxField := by
  constructor
  · rintro (_ | ⟨hlt, _ | _ | _ | ⟨hn, hl⟩⟩)
    exact ⟨by rw [field, hl, List.append_assoc], hl ▸ hn⟩
  · rintro ⟨rfl, hle⟩
    rw [field, List.append_assoc]
    exact .body (Nat.lt_of_le_of_lt hle (by decide)) (.text hle rfl)

/-- The bytes of a handshake determine what it comes to. -/
theorem Greeted.unique {expected : ProtocolId} (h : Greeted expected bs r rest)
    (h' : Greeted expected bs r' rest') : r = r' ∧ rest = rest' := by
  cases h with
  | first h =>
    cases h' with
    | first h' =>
      obtain ⟨he, hr⟩ := h.unique h' rfl
      cases he
      exact ⟨rfl, hr⟩
    | second hp' | foreign hp' | welcome hp' => cases (h.unique hp' rfl).1
  | second hp h =>
    cases h' with
    | first h' => cases (hp.unique h' rfl).1
    | second hp' h' =>
      obtain ⟨-, rfl⟩ := hp.unique hp' rfl
      obtain ⟨he, hr⟩ := h.unique h' rfl
      cases he
      exact ⟨rfl, hr⟩
    | foreign hp' hq' | welcome hp' hq' =>
      obtain ⟨-, rfl⟩ := hp.unique hp' rfl
      cases (h.unique hq' rfl).1
  | foreign hp hq hne =>
    cases h' with
    | first h' => cases (hp.unique h' rfl).1
    | second hp' h' =>
      obtain ⟨-, rfl⟩ := hp.unique hp' rfl
      cases (hq.unique h' rfl).1
    | foreign hp' hq' =>
      obtain ⟨he, rfl⟩ := hp.unique hp' rfl
      cases he
      exact ⟨rfl, (hq.unique hq' rfl).2⟩
    | welcome hp' =>
      cases (hp.unique hp' rfl).1
      exact absurd rfl hne
  | welcome hp hq =>
    cases h' with
    | first h' => cases (hp.unique h' rfl).1
    | second hp' h' =>
      obtain ⟨-, rfl⟩ := hp.unique hp' rfl
      cases (hq.unique h' rfl).1
    | foreign hp' _ hne =>
      cases (hp.unique hp' rfl).1
      exact absurd rfl hne
    | welcome hp' hq' =>
      obtain ⟨-, rfl⟩ := hp.unique hp' rfl
      obtain ⟨he, hr⟩ := hq.unique hq' rfl
      cases he
      exact ⟨rfl, hr⟩

/-- A handshake succeeds exactly if it is the one of a dialer for this protocol, and neither field
is too long. -/
theorem greeted_ok_iff {expected : ProtocolId} {bs rest : Bytes} {peer : PeerId} :
    Greeted expected bs (.ok peer) rest ↔ bs = greeting expected peer ++ rest ∧
      (Bytes.ofString expected.text).length ≤ maxField ∧
      (Bytes.ofString peer.text).length ≤ maxField := by
  constructor
  · rintro (_ | _ | _ | ⟨hp, hq⟩)
    obtain ⟨rfl, hple⟩ := field_ok_iff.mp hp
    obtain ⟨rfl, hqle⟩ := field_ok_iff.mp hq
    exact ⟨by rw [greeting, List.append_assoc], hple, hqle⟩
  · rintro ⟨rfl, hple, hqle⟩
    rw [greeting, List.append_assoc]
    exact .welcome (field_ok_iff.mpr ⟨rfl, hple⟩) (field_ok_iff.mpr ⟨rfl, hqle⟩)

private theorem field_of_large {s : String} (hn : maxField < (Bytes.ofString s).length)
    (hlt : (Bytes.ofString s).length < 256 ^ 4) (rest : Bytes) :
    Field (field s ++ rest) (.error (.fieldTooLarge (Bytes.ofString s).length))
      (Bytes.ofString s ++ rest) := by
  rw [field, List.append_assoc]
  exact .body hlt (.large hn)

/-- A protocol that is sent although it is too long is refused, if its length can be told. -/
theorem greeted_of_large_protocol {expected protocol : ProtocolId} {dialer : PeerId}
    (hn : maxField < (Bytes.ofString protocol.text).length)
    (hlt : (Bytes.ofString protocol.text).length < 256 ^ 4) :
    Greeted expected (greeting protocol dialer ++ later)
      (.error (.fieldTooLarge (Bytes.ofString protocol.text).length))
      (Bytes.ofString protocol.text ++ (field dialer.text ++ later)) := by
  rw [greeting, List.append_assoc]
  exact .first (field_of_large hn hlt _)

/-- And so is the name of the dialer. -/
theorem greeted_of_large_dialer {expected protocol : ProtocolId} {dialer : PeerId}
    (hp : (Bytes.ofString protocol.text).length ≤ maxField)
    (hn : maxField < (Bytes.ofString dialer.text).length)
    (hlt : (Bytes.ofString dialer.text).length < 256 ^ 4) :
    Greeted expected (greeting protocol dialer ++ later)
      (.error (.fieldTooLarge (Bytes.ofString dialer.text).length))
      (Bytes.ofString dialer.text ++ later) := by
  rw [greeting, List.append_assoc]
  exact .second (field_ok_iff.mpr ⟨rfl, hp⟩) (field_of_large hn hlt _)

/-! ## Fields -/

namespace FieldReader

/-- The bytes of the field that are there. -/
def taken : FieldReader → Bytes
  | length got => got
  | body missing newestFirst =>
    Bytes.ofNatBE 4 (missing + newestFirst.length) ++ newestFirst.reverse

/-- A reader that a field can leave half read. -/
def Sound : FieldReader → Prop
  | length got => got.length < 4
  | body missing newestFirst => 0 < missing ∧ missing + newestFirst.length ≤ maxField

theorem sound_start : start.Sound := Nat.zero_lt_succ 3

theorem wanted_pos {r : FieldReader} (hr : r.Sound) : 0 < r.wanted := by
  cases r with
  | length got => exact Nat.sub_pos_of_lt hr
  | body missing newestFirst => exact hr.1

/-- What the end of the connection means for a half-read field is what the grammar says. -/
theorem Sound.atEnd {r : FieldReader} (hr : r.Sound) : Field r.taken (.error r.atEnd) [] := by
  cases r with
  | length got => exact .cut hr
  | body missing newestFirst =>
    have hlt : missing + newestFirst.length < 256 ^ 4 := Nat.lt_of_le_of_lt hr.2 (by decide)
    refine .body hlt (.short hr.2 ?_)
    have := hr.1
    rw [List.length_reverse]
    omega

/-- What feeding bytes to a reader comes to. -/
inductive Fed (r : FieldReader) (bs : Bytes) :
    Progress FieldReader (Except StreamError String) → Prop
  | more {r'} (hr : r'.Sound) (h : r'.taken = r.taken ++ bs) : Fed r bs (.more r')
  | done {result} (h : ∀ rest, Field (r.taken ++ bs ++ rest) result rest) : Fed r bs (.done result)

private theorem body_complete {text : Bytes} (hn : text.length ≤ maxField) (rest : Bytes) :
    Body text.length (text ++ rest) (complete text) rest := by
  unfold complete
  split
  · rename_i s hs
    obtain rfl := Utf8.decode_eq_ok_iff.mp hs
    exact .text hn rfl
  · rename_i f hf
    exact .garbled hn rfl hf

private theorem field_complete {text : Bytes} (hn : text.length ≤ maxField) (rest : Bytes) :
    Field (Bytes.ofNatBE 4 text.length ++ text ++ rest) (complete text) rest := by
  rw [List.append_assoc]
  exact .body (Nat.lt_of_le_of_lt hn (by decide)) (body_complete hn rest)

theorem fed {r : FieldReader} (hr : r.Sound) {bs : Bytes} (hb : bs.length ≤ r.wanted) :
    Fed r bs (r.feed bs) := by
  cases r with
  | length got =>
    have hlen : (got ++ bs).length ≤ 4 := by
      have : got.length < 4 := hr
      rw [wanted] at hb
      rw [List.length_append]
      omega
    simp only [feed]
    by_cases hl : (got ++ bs).length < 4
    · rw [if_pos hl]
      exact .more hl rfl
    · have hgot : Bytes.ofNatBE 4 (got ++ bs).toNatBE = got ++ bs := by
        have := Bytes.ofNatBE_toNatBE (got ++ bs)
        rwa [Nat.le_antisymm hlen (Nat.le_of_not_lt hl)] at this
      have hlt : (got ++ bs).toNatBE < 256 ^ 4 :=
        Nat.le_antisymm hlen (Nat.le_of_not_lt hl) ▸ Bytes.toNatBE_lt _
      rw [if_neg hl]
      by_cases hn : (got ++ bs).toNatBE > maxField
      · rw [if_pos hn]
        refine .done fun rest => ?_
        have : Field (_ ++ rest) _ rest := .body hlt (.large hn)
        rwa [hgot] at this
      · rw [if_neg hn]
        by_cases h0 : (got ++ bs).toNatBE = 0
        · rw [if_pos h0]
          refine .done fun rest => ?_
          have hnil : List.length ([] : Bytes) ≤ maxField := Nat.zero_le _
          have := field_complete hnil rest
          rwa [List.append_nil, List.length_nil, ← h0, hgot] at this
        · rw [if_neg h0]
          refine .more ⟨Nat.pos_of_ne_zero h0, Nat.le_of_not_lt hn⟩ ?_
          simp [taken, hgot]
  | body missing newestFirst =>
    have hle : bs.length ≤ missing := hb
    simp only [feed, List.reverseAux_eq]
    by_cases hl : bs.length < missing
    · have hn : missing - bs.length + (bs.reverse ++ newestFirst).length =
          missing + newestFirst.length := by
        rw [List.length_append, List.length_reverse]
        omega
      rw [if_pos hl]
      refine .more ⟨Nat.sub_pos_of_lt hl, hn ▸ hr.2⟩ ?_
      simp only [taken, hn, List.reverse_append, List.reverse_reverse, List.append_assoc]
    · have htext : (bs.reverse ++ newestFirst).reverse = newestFirst.reverse ++ bs := by
        rw [List.reverse_append, List.reverse_reverse]
      have hn : missing + newestFirst.length = (newestFirst.reverse ++ bs).length := by
        rw [List.length_append, List.length_reverse]
        omega
      rw [if_neg hl, htext]
      refine .done fun rest => ?_
      have := field_complete (hn ▸ hr.2) rest
      rwa [← hn, ← List.append_assoc (Bytes.ofNatBE ..)] at this

/-- What a step of a reader can do at an end of a link whose other end was not reset. -/
inductive Turn (s : Side) (r : FieldReader) (l : Link) :
    Progress FieldReader (Except StreamError String) → Link → Prop
  | more {r' n} (hr : r'.Sound) (hn : (l.flow s.other).take n ≠ [])
    (h : r'.taken ++ (l.flow s.other).drop n = r.taken ++ l.flow s.other) :
    Turn s r l (.more r') (l.take s n)
  | done {result n} (hn : (l.flow s.other).take n ≠ [])
    (h : ∀ todo, Field (r.taken ++ (l.flow s.other ++ todo)) result
      ((l.flow s.other).drop n ++ todo)) :
    Turn s r l (.done result) (l.take s n)
  | cut (hf : l.flow s.other = []) (hs : l.shut s.other = true) :
    Turn s r l (.done (.error r.atEnd)) l

variable {r : FieldReader} {l l' : Link} {s : Side}

private theorem Fed.turn (hn : (l.flow s.other).take n ≠ [])
    (h : Fed r ((l.flow s.other).take n) p) : Turn s r l p (l.take s n) := by
  have hsplit : (l.flow s.other).take n ++ (l.flow s.other).drop n = l.flow s.other :=
    List.take_append_drop ..
  cases h with
  | more hr h => exact .more hr hn (by rw [h, List.append_assoc, hsplit])
  | done h =>
    refine .done hn fun todo => ?_
    have := h ((l.flow s.other).drop n ++ todo)
    rwa [List.append_assoc, ← List.append_assoc _ _ todo, hsplit] at this

/-- A step that is no such turn fails, because the other end was reset. -/
theorem turn_or_reset (hr : r.Sound) (h : r.step? s l = some (p, l')) :
    Turn s r l p l' ∨ (∃ e, p = .done (.error e)) ∧ l.wasReset.get s.other = true := by
  unfold step? at h
  split at h
  · cases h
  · rename_i e l₁ hl
    cases h
    rcases Link.read?_cases hl (wanted_pos hr) with ⟨_, he, _⟩ | ⟨_, _, _, he⟩
    · cases he
    · split at he
      · exact .inr ⟨⟨_, rfl⟩, ‹_›⟩
      · cases he
  · rename_i bs l₁ hl
    rcases Link.read?_cases hl (wanted_pos hr) with ⟨hne, he, rfl⟩ | ⟨hf, hs, rfl, he⟩
    · cases he
      rw [if_neg fun hb => hne (List.isEmpty_iff.mp hb)] at h
      cases h
      exact .inl ((fed hr (List.length_take_le ..)).turn hne)
    · split at he
      · cases he
      · cases he
        cases h
        exact .inl (.cut hf hs)

theorem turn_of_step? (hr : r.Sound) (hw : l.wasReset.get s.other = false)
    (h : r.step? s l = some (p, l')) : Turn s r l p l' :=
  (turn_or_reset hr h).resolve_right fun hn => Bool.false_ne_true (hw.symm.trans hn.2)

/-- A reader that fails has left to the stream what the grammar leaves, and has not reset it. -/
theorem Turn.failed (hr : r.Sound) (h : Turn s r l (.done (.error e)) l') :
    l'.wasReset.get s.other = l.wasReset.get s.other ∧
      ∀ todo, (l.shut s.other = true → todo = []) →
        Field (r.taken ++ (l.flow s.other ++ todo)) (.error e) (l'.flow s.other ++ todo) := by
  cases h with
  | done hn h => exact ⟨rfl, fun todo _ => by simpa using h todo⟩
  | cut hf hs =>
    refine ⟨rfl, fun todo ht => ?_⟩
    rw [hf, ht hs, List.append_nil, List.append_nil]
    exact hr.atEnd

theorem Turn.read (h : Turn s r l (.done (.ok text)) l') :
    ∃ n, l' = l.take s n ∧ (l.flow s.other).take n ≠ [] ∧
      (Bytes.ofString text).length ≤ maxField ∧
      r.taken ++ l.flow s.other = field text ++ (l.flow s.other).drop n := by
  cases h with
  | @done _ n hn h =>
    obtain ⟨hb, hle⟩ := field_ok_iff.mp (h [])
    exact ⟨n, rfl, hn, hle, by simpa using hb⟩

theorem step?_eq_none (h : r.step? s l = none) :
    l.flow s.other = [] ∧ l.shut s.other = false := by
  unfold step? at h
  split at h
  · rename_i hl
    exact Link.read?_eq_none hl
  · cases h
  · cases h

end FieldReader

/-! ## Both fields -/

/-- The bytes of the handshake that are there. -/
def taken (h : Handshake) : Bytes :=
  match h.phase with
  | .protocol r => r.taken
  | .dialer p r => field p ++ r.taken

/-- A reader that a handshake can leave half read. -/
def Sound (h : Handshake) : Prop :=
  match h.phase with
  | .protocol r => r.Sound
  | .dialer p r => (Bytes.ofString p).length ≤ maxField ∧ r.Sound

/-- What a step of a handshake can do that is taken in time, at an end of a link whose other end was
not reset. -/
inductive Moves (s : Side) (h : Handshake) (l : Link) :
    Progress Handshake (Except StreamError PeerId) → Link → Prop
  | more {phase n} (hs : Sound { h with phase }) (hn : (l.flow s.other).take n ≠ [])
    (hb : taken { h with phase } ++ (l.flow s.other).drop n = h.taken ++ l.flow s.other) :
    Moves s h l (.more { h with phase }) (l.take s n)
  | welcomes {peer n} (hg : ∀ todo, Greeted h.expected (h.taken ++ (l.flow s.other ++ todo))
      (.ok peer) ((l.take s n).flow s.other ++ todo)) :
    Moves s h l (.done (.ok peer)) (l.take s n)
  | refuses {e l'} (hw : l'.wasReset.get s.other = l.wasReset.get s.other)
    (hg : ∀ todo, (l.shut s.other = true → todo = []) →
      Greeted h.expected (h.taken ++ (l.flow s.other ++ todo)) (.error e)
        (l'.flow s.other ++ todo)) :
    Moves s h l (.done (.error e)) l'

variable {h : Handshake} {l l' : Link} {s : Side} {m : Moment}

/-- The end of the connection is the end of a half-read handshake. -/
theorem Sound.cut (hs : h.Sound) : ∃ e, Greeted h.expected h.taken (.error e) [] := by
  unfold Sound at hs
  unfold taken
  split at hs
  · exact ⟨_, .first hs.atEnd⟩
  · exact ⟨_, .second (field_ok_iff.mpr ⟨rfl, hs.1⟩) hs.2.atEnd⟩

/-- Giving the link up changes nothing in what is left of it. -/
private theorem Moves.of_refuse (hr : refuse s e told l₁ = (p, l'))
    (hw : l₁.wasReset.get s.other = l.wasReset.get s.other)
    (hg : ∀ todo, (l.shut s.other = true → todo = []) →
      Greeted h.expected (h.taken ++ (l.flow s.other ++ todo)) (.error e)
        (l₁.flow s.other ++ todo)) : Moves s h l p l' := by
  cases hr
  refine .refuses ?_ fun todo ht => ?_
  · rw [← hw]
    split <;> simp
  · have hf : (if told then l₁.abort s else l₁.drop s).flow s.other = l₁.flow s.other := by
      split <;> simp
    rw [hf]
    exact hg todo ht

/-- A step that is no such move fails, because the other end was reset or the time is over. -/
theorem moves_or_hindered (hs : h.Sound) (hstep : h.step? m s l = some (p, l')) :
    Moves s h l p l' ∨ (∃ e, p = .done (.error e)) ∧
      (l.wasReset.get s.other = true ∨ h.deadline ≤ m.now) := by
  have hlate {h : Handshake}
      (hl : (if h.deadline ≤ m.now then some (refuse s lateDialer true l) else none) =
        some (p, l')) : (∃ e, p = .done (.error e)) ∧
          (l.wasReset.get s.other = true ∨ h.deadline ≤ m.now) := by
    split at hl
    · cases hl
      exact ⟨⟨_, rfl⟩, .inr ‹_›⟩
    · cases hl
  obtain ⟨expected, deadline, phase⟩ := h
  simp only [step?] at hstep
  cases phase with
  | protocol r =>
    simp only at hstep
    split at hstep
    · exact .inr (hlate hstep)
    · rename_i r' l₁ hr
      cases hstep
      rcases FieldReader.turn_or_reset hs hr with ht | ⟨⟨_, he⟩, -⟩
      · cases ht with
        | more hr' hn hb => exact .inl (.more hr' hn hb)
      · cases he
    · rename_i e l₁ hr
      rcases FieldReader.turn_or_reset hs hr with ht | ⟨-, hw⟩
      · obtain ⟨hw', hf⟩ := ht.failed hs
        exact .inl (.of_refuse (Option.some.inj hstep) hw' fun todo ht => .first (hf todo ht))
      · cases hstep
        exact .inr ⟨⟨_, rfl⟩, .inl hw⟩
    · rename_i p l₁ hr
      cases hstep
      rcases FieldReader.turn_or_reset hs hr with ht | ⟨⟨_, he⟩, -⟩
      · obtain ⟨n, rfl, hn, hle, hb⟩ := ht.read
        refine .inl (.more ⟨hle, FieldReader.sound_start⟩ hn ?_)
        rw [taken, taken, hb]
        exact congrArg (· ++ _) (List.append_nil _)
      · cases he
  | dialer p r =>
    obtain ⟨hle, hs⟩ := hs
    have hp (rest : Bytes) : Field (field p ++ r.taken ++ rest) (.ok p) (r.taken ++ rest) :=
      field_ok_iff.mpr ⟨List.append_assoc .., hle⟩
    simp only at hstep
    split at hstep
    · exact .inr (hlate hstep)
    · rename_i r' l₁ hr
      cases hstep
      rcases FieldReader.turn_or_reset hs hr with ht | ⟨⟨_, he⟩, -⟩
      · cases ht with
        | more hr' hn hb =>
          refine .inl (.more ⟨hle, hr'⟩ hn ?_)
          rw [taken, taken, List.append_assoc, hb, List.append_assoc]
      · cases he
    · rename_i e l₁ hr
      rcases FieldReader.turn_or_reset hs hr with ht | ⟨-, hw⟩
      · obtain ⟨hw', hf⟩ := ht.failed hs
        exact .inl (.of_refuse (Option.some.inj hstep) hw' fun todo ht =>
          .second (hp _) (hf todo ht))
      · cases hstep
        exact .inr ⟨⟨_, rfl⟩, .inl hw⟩
    · rename_i q l₁ hr
      rcases FieldReader.turn_or_reset hs hr with ht | ⟨⟨_, he⟩, -⟩
      case inr => cases he
      obtain ⟨n, rfl, hn, hqle, hb⟩ := ht.read
      have hq (todo : Bytes) : Field (r.taken ++ (l.flow s.other ++ todo)) (.ok q)
          ((l.take s n).flow s.other ++ todo) := by
        rw [← List.append_assoc, hb, Link.flow_take, if_neg (Side.other_ne s)]
        exact field_ok_iff.mpr ⟨List.append_assoc .., hqle⟩
      rw [Option.some.injEq, conclude] at hstep
      split at hstep
      · rename_i he
        cases hstep
        exact .inl (.welcomes fun todo => .welcome (he ▸ hp _) (hq todo))
      · rename_i hne
        exact .inl (.of_refuse hstep rfl fun todo _ => .foreign (hp _) (hq todo) hne)

theorem moves_of_step? (hs : h.Sound) (hw : l.wasReset.get s.other = false)
    (hm : m.now < h.deadline) (hstep : h.step? m s l = some (p, l')) : Moves s h l p l' :=
  (moves_or_hindered hs hstep).resolve_right fun hn =>
    hn.2.elim (fun hr => Bool.false_ne_true (hw.symm.trans hr)) (Nat.not_le_of_lt hm)

/-- A handshake waits while nothing is under way and the other end can still write. -/
theorem step?_eq_none (hstep : h.step? m s l = none) :
    l.flow s.other = [] ∧ l.shut s.other = false := by
  obtain ⟨expected, deadline, r | ⟨p, r⟩⟩ := h
  all_goals
    cases hr : r.step? s l with
    | none => exact FieldReader.step?_eq_none hr
    | some turn =>
      obtain ⟨_ | _ | _, l₁⟩ := turn
      all_goals simp [step?, hr] at hstep

end PeerCall.Handshake
