import PeerCall.Proofs.Handshake

/-! # Accepted connections

A listener that reads a handshake and then the stream behind it, and a dialer that sends any bytes
in any pieces and then ends. What the handshake comes to, and what is left to the stream, can be
told from the bytes by the grammar alone (`Incoming.greeted_of_run?`). A dialer that introduces
itself is understood exactly if the names that it sends are not too long
(`Incoming.agreed_of_run?`). -/

namespace PeerCall

/-- An accepted connection, with the bytes that its dialer has still to send. -/
structure Incoming where
  handshake : Progress Handshake (Except StreamError PeerId)
  link : Link
  todo : Bytes
  /-- What was read of the stream behind the handshake. -/
  heard : Bytes := []
  /-- Whether the end of that stream was found. -/
  ended : Bool := false

namespace Incoming

inductive Move
  | shake (m : Moment)
  /-- The dialer sends of its next bytes what fits. -/
  | send (n : Nat)
  /-- Reads at most one byte more than `n` of the stream, once there is one. -/
  | read (n : Nat)
  | shutdown
  | drop
  deriving Repr, DecidableEq

/-- Whether a move is one of the handshake. -/
def Move.isShake : Move → Bool
  | shake _ => true
  | _ => false

/-- One move. The dialer ends its stream after all has been sent. -/
def move? (w : Incoming) : Move → Option Incoming
  | .shake m =>
    match w.handshake with
    | .done _ => none
    | .more h =>
      match h.step? m .right w.link with
      | none => none
      | some (handshake, link) => some { w with handshake, link }
  | .send n =>
    match w.link.write? .left (w.todo.take n) with
    | some (.ok n, link) => some { w with link, todo := w.todo.drop n }
    | _ => none
  | .read n =>
    match w.handshake with
    | .done (.ok _) =>
      match w.link.read? .right (n + 1) with
      | some (.ok bs, link) =>
        some { w with link, heard := w.heard ++ bs, ended := w.ended || bs.isEmpty }
      | _ => none
    | _ => none
  | .shutdown => if w.todo.isEmpty then some { w with link := w.link.shutdown .left } else none
  | .drop => if w.todo.isEmpty then some { w with link := w.link.drop .left } else none

def run? : List Move → Incoming → Option Incoming
  | [], w => some w
  | mv :: moves, w =>
    match w.move? mv with
    | none => none
    | some w => run? moves w

/-- A connection whose dialer has yet to send all of its bytes. -/
def ofBytes (expected : ProtocolId) (deadline capacity : Nat) (bs : Bytes) : Incoming where
  handshake := .more { expected, deadline }
  link := .ofCapacity capacity
  todo := bs

/-- The handshake is done, and so is the stream if there is one. -/
def AtRest (w : Incoming) : Prop :=
  ∃ r, w.handshake = .done r ∧ ∀ peer, r = .ok peer → w.ended = true

/-! ## What moves keep -/

/-- The bytes that the listener has not taken. -/
def ahead (w : Incoming) : Bytes := w.link.flow .left ++ w.todo

/-- A link that the listener has not given up, and over which its dialer sends all bytes before it
ends. -/
structure Open (l : Link) (todo : Bytes) : Prop where
  fair : l.shut .left = true → todo = []
  roomy : 0 < l.bound .left
  unreset : l.wasReset.get .right = false

theorem Open.take {l : Link} {todo : Bytes} (h : Open l todo) (n : Nat) :
    Open (l.take .right n) todo where
  fair hs := h.fair (by simpa using hs)
  roomy := by simpa using h.roomy
  unreset := h.unreset

/-- What becomes of a connection over which a dialer sends `bs` and then ends. -/
inductive Stage (expected : ProtocolId) (deadline : Nat) (bs : Bytes) (w : Incoming) : Prop
  | reading {h} (hh : w.handshake = .more h) (hx : h.expected = expected)
    (hd : h.deadline = deadline) (hs : h.Sound) (ho : Open w.link w.todo)
    (hb : h.taken ++ w.ahead = bs) (hn : w.heard = [] ∧ w.ended = false) :
    Stage expected deadline bs w
  | welcomed {peer rest} (hh : w.handshake = .done (.ok peer))
    (hg : Handshake.Greeted expected bs (.ok peer) rest) (ho : Open w.link w.todo)
    (hb : w.heard ++ w.ahead = rest) (he : w.ended = true → w.ahead = []) :
    Stage expected deadline bs w
  | refused {e rest} (hh : w.handshake = .done (.error e))
    (hg : Handshake.Greeted expected bs (.error e) rest) (hb : w.ahead = rest)
    (hn : w.heard = [] ∧ w.ended = false) : Stage expected deadline bs w

/-- All that a run keeps. -/
structure Kept (expected : ProtocolId) (deadline : Nat) (bs : Bytes) (w : Incoming) : Prop where
  unreset : w.link.wasReset.get .left = false
  stage : w.Stage expected deadline bs

/-- What a move of the dialer does. -/
structure Sends (w w' : Incoming) : Prop where
  handshake : w'.handshake = w.handshake
  heard : w'.heard = w.heard
  ended : w'.ended = w.ended
  wasReset : w'.link.wasReset = w.link.wasReset
  ahead : w'.ahead = w.ahead
  opens : Open w.link w.todo → Open w'.link w'.todo

variable {expected : ProtocolId} {deadline : Nat} {bs : Bytes} {w w' : Incoming} {mv : Move}
  {m : Moment}

/-- How many steps of the handshake there can still be. -/
def left (w : Incoming) : Nat :=
  match w.handshake with
  | .more _ => w.ahead.length + 1
  | .done _ => 0

theorem Sends.left (h : Sends w w') : w'.left = w.left := by
  rw [Incoming.left, Incoming.left, h.handshake, h.ahead]

theorem Sends.kept (h : Sends w w') (hw : w.Kept expected deadline bs) :
    w'.Kept expected deadline bs := by
  refine ⟨h.wasReset ▸ hw.unreset, ?_⟩
  have hn (hn : w.heard = [] ∧ w.ended = false) : w'.heard = [] ∧ w'.ended = false :=
    ⟨h.heard.trans hn.1, h.ended.trans hn.2⟩
  cases hw.stage with
  | reading hh hx hd hs ho hb hn' =>
    exact .reading (h.handshake.trans hh) hx hd hs (h.opens ho) (h.ahead ▸ hb) (hn hn')
  | welcomed hh hg ho hb he =>
    refine .welcomed (h.handshake.trans hh) hg (h.opens ho) ?_ fun he' => ?_
    · rw [h.heard, h.ahead, hb]
    · exact h.ahead.trans (he (h.ended ▸ he'))
  | refused hh hg hb hn' =>
    exact .refused (h.handshake.trans hh) hg (h.ahead.trans hb) (hn hn')

theorem sends_of_send (h : w.move? (.send n) = some w') : Sends w w' := by
  simp only [move?] at h
  split at h
  · rename_i k l' hw
    cases h
    obtain rfl := Link.write?_take_eq_ok hw
    refine ⟨rfl, rfl, rfl, rfl, ?_, fun ho => ⟨fun hs => ?_, by simpa using ho.roomy, ho.unreset⟩⟩
    · simp [Incoming.ahead]
    · rw [ho.fair (by simpa using hs), List.drop_nil]
  · cases h

private theorem sends_of_end {l' : Link} (ht : w.todo.isEmpty)
    (hf : l'.flow .left = w.link.flow .left) (hb : l'.bound .left = w.link.bound .left)
    (hr : l'.wasReset = w.link.wasReset) :
    Sends w { w with link := l' } where
  handshake := rfl
  heard := rfl
  ended := rfl
  wasReset := hr
  ahead := congrArg (· ++ w.todo) hf
  opens ho := ⟨fun _ => List.isEmpty_iff.mp ht, hb ▸ ho.roomy, hr ▸ ho.unreset⟩

theorem Kept.shake (hw : w.Kept expected deadline bs) (hm : m.now < deadline)
    (h : w.move? (.shake m) = some w') : w'.Kept expected deadline bs ∧ w'.left < w.left := by
  cases hw.stage with
  | welcomed hh | refused hh => simp [move?, hh] at h
  | @reading x hh hx hd hs ho hb hn =>
    simp only [move?, hh] at h
    split at h
    · cases h
    · rename_i p l' hstep
      cases h
      have hleft : w.left = w.ahead.length + 1 := by rw [left, hh]
      cases Handshake.moves_of_step? hs hw.unreset (hd ▸ hm) hstep with
      | @more phase n hs' hn' hb' =>
        have hlt : ((w.link.take .right n).flow .left).length < (w.link.flow .left).length :=
          Link.length_flow_take_lt hn'
        refine ⟨⟨hw.unreset, .reading rfl hx hd hs' (ho.take n) ?_ hn⟩, ?_⟩
        · rw [← hb, ahead, ahead, ← List.append_assoc, ← List.append_assoc]
          exact congrArg (· ++ w.todo) (by simpa [Side.other] using hb')
        · rw [hleft]
          simp only [left, ahead, List.length_append]
          omega
      | welcomes hg =>
        have hg := hg w.todo
        rw [hx] at hg
        refine ⟨⟨hw.unreset, .welcomed rfl (hb ▸ hg) (ho.take _) (by rw [hn.1]; rfl) ?_⟩, ?_⟩
        · exact fun he => by simp [hn.2] at he
        · rw [hleft]
          exact Nat.succ_pos _
      | refuses hr hg =>
        have hg := hg w.todo ho.fair
        rw [hx] at hg
        refine ⟨⟨hr.trans hw.unreset, .refused rfl (hb ▸ hg) rfl hn⟩, ?_⟩
        rw [hleft]
        exact Nat.succ_pos _

theorem Kept.read (hw : w.Kept expected deadline bs) (h : w.move? (.read n) = some w') :
    w'.Kept expected deadline bs ∧ w'.left = w.left := by
  cases hw.stage with
  | reading hh | refused hh => simp [move?, hh] at h
  | @welcomed peer rest hh hg ho hb he =>
    have hleft : w.left = 0 := by rw [left, hh]
    simp only [move?, hh] at h
    split at h
    · rename_i piece l' hr
      cases h
      refine ⟨⟨?_, ?_⟩, ?_⟩
      · rw [Link.link_of_read? hr]
        exact hw.unreset
      · rcases Link.read?_cases hr (Nat.succ_pos n) with ⟨hne, hp, rfl⟩ | ⟨hf, hs, rfl, hp⟩
        · cases hp
          refine .welcomed rfl hg (ho.take _) ?_ fun hend => ?_
          · rw [← hb, ahead, ahead, List.append_assoc, ← List.append_assoc _ _ w.todo]
            simp [Side.other]
          · have hend : w.ended = true := by simpa [hne] using hend
            have := he hend
            simp only [ahead, List.append_eq_nil_iff] at this ⊢
            simp [this]
        · have hempty : piece = [] := by
            simp only [Side.other, hw.unreset] at hp
            cases hp
            rfl
          subst hempty
          refine .welcomed rfl hg ho ?_ fun _ => ?_
          · exact (congrArg (· ++ w.ahead) (List.append_nil _)).trans hb
          · exact List.append_eq_nil_iff.mpr ⟨hf, ho.fair hs⟩
      · exact hleft.symm
    · cases h

/-- A move keeps what a run keeps, if a step of the handshake is taken in time. -/
theorem Kept.step (hw : w.Kept expected deadline bs)
    (ht : ∀ m, mv = .shake m → m.now < deadline) (h : w.move? mv = some w') :
    w'.Kept expected deadline bs ∧ (if mv.isShake then 1 else 0) + w'.left ≤ w.left := by
  have hsends (hs : Sends w w') : w'.Kept expected deadline bs ∧ 0 + w'.left ≤ w.left :=
    ⟨hs.kept hw, by simp [hs.left]⟩
  cases mv with
  | shake m =>
    obtain ⟨hk, hlt⟩ := hw.shake (ht m rfl) h
    exact ⟨hk, by simp only [Move.isShake, if_true]; omega⟩
  | read n =>
    obtain ⟨hk, hl⟩ := hw.read h
    exact ⟨hk, by simp [Move.isShake, hl]⟩
  | send n => exact hsends (sends_of_send h)
  | shutdown =>
    simp only [move?] at h
    split at h
    · rename_i he
      cases h
      exact hsends (sends_of_end he (by simp) (by simp) rfl)
    · cases h
  | drop =>
    simp only [move?] at h
    split at h
    · rename_i he
      cases h
      exact hsends (sends_of_end he (by simp) (by simp) rfl)
    · cases h

theorem Kept.of_run? {moves : List Move} (hw : w.Kept expected deadline bs)
    (ht : ∀ m, .shake m ∈ moves → m.now < deadline) (h : run? moves w = some w') :
    w'.Kept expected deadline bs ∧ moves.countP Move.isShake + w'.left ≤ w.left := by
  induction moves generalizing w with
  | nil =>
    cases h
    exact ⟨hw, by simp⟩
  | cons mv moves ih =>
    rw [run?] at h
    split at h
    · cases h
    · rename_i w₁ hmv
      obtain ⟨hw₁, hle⟩ := hw.step (fun m hm => ht m (hm ▸ List.mem_cons_self)) hmv
      obtain ⟨hw', hle'⟩ := ih hw₁ (fun m hm => ht m (List.mem_cons_of_mem _ hm)) h
      refine ⟨hw', ?_⟩
      rw [List.countP_cons]
      omega

theorem kept_ofBytes {capacity : Nat} (hcap : 0 < capacity) :
    (ofBytes expected deadline capacity bs).Kept expected deadline bs where
  unreset := Link.wasReset_ofCapacity ..
  stage := by
    refine .reading rfl rfl rfl Handshake.FieldReader.sound_start ⟨?_, ?_, rfl⟩ ?_ ⟨rfl, rfl⟩
    · simp [ofBytes]
    · simpa [ofBytes] using hcap
    · simp [ofBytes, ahead, Handshake.taken, Handshake.FieldReader.start,
        Handshake.FieldReader.taken]

/-! ## Coming to rest -/

/-- How much there is to do for the dialer and on the link. -/
def work (l : Link) (todo : Bytes) : Nat :=
  2 * todo.length + (l.flow .left).length + if l.shut .left then 0 else 1

/-- How much there is to do until a connection is at rest. -/
def effort (w : Incoming) : Nat :=
  match w.handshake with
  | .more _ => work w.link w.todo + 2
  | .done (.ok _) => work w.link w.todo + if w.ended then 0 else 1
  | .done (.error _) => 0

theorem effort_of_more (h : w.handshake = .more x) : w.effort = work w.link w.todo + 2 := by
  rw [effort, h]

theorem effort_of_ok (h : w.handshake = .done (.ok peer)) :
    w.effort = work w.link w.todo + if w.ended then 0 else 1 := by
  rw [effort, h]

theorem work_take_le (l : Link) (todo : Bytes) (n : Nat) :
    work (l.take .right n) todo ≤ work l todo := by
  simp [work]

theorem work_take_lt {l : Link} (hn : (l.flow .left).take n ≠ []) (todo : Bytes) :
    work (l.take .right n) todo < work l todo := by
  have : ((l.take .right n).flow .left).length < (l.flow .left).length :=
    Link.length_flow_take_lt hn
  simp only [work, Link.shut_take]
  omega

/-- Where the listener has to wait, the dialer can go on. -/
theorem Open.exists_sends (ho : Open w.link w.todo) (hf : w.link.flow .left = [])
    (hs : w.link.shut .left = false) : ∃ mv w', mv.isShake = false ∧ w.move? mv = some w' ∧
      Sends w w' ∧ work w'.link w'.todo < work w.link w.todo := by
  by_cases htodo : w.todo = []
  · have hempty : w.todo.isEmpty = true := List.isEmpty_iff.mpr htodo
    refine ⟨.shutdown, _, rfl, if_pos hempty, sends_of_end hempty (by simp) (by simp) rfl, ?_⟩
    simp [work, hs]
  · cases hw : w.link.write? .left (w.todo.take w.todo.length) with
    | none =>
      have := (Link.write?_eq_none hw).1
      rw [hf] at this
      exact absurd ho.roomy (Nat.not_lt.mpr this)
    | some written =>
      obtain ⟨r, l'⟩ := written
      rw [List.take_length] at hw
      rcases Link.write?_cases hw htodo with
        ⟨k, hk, hle, rfl, rfl⟩ | ⟨rfl, ⟨hr, -⟩ | ⟨hs', -⟩⟩
      · have hmove : w.move? (.send w.todo.length) = some
            { w with link := w.link.put .left (w.todo.take k), todo := w.todo.drop k } := by
          simp only [move?, List.take_length, hw]
        refine ⟨_, _, rfl, hmove, sends_of_send hmove, ?_⟩
        simp only [work, Link.flow_put, if_true, hf, Link.shut_put, List.length_drop,
          List.length_append, List.length_take, List.length_nil]
        omega
      · exact absurd ho.unreset (by simpa [Side.other] using hr)
      · rw [hs] at hs'
        cases hs'

theorem Kept.exists_move (hw : w.Kept expected deadline bs) (hm : m.now < deadline)
    (hrest : ¬ w.AtRest) : ∃ mv w', (mv.isShake = true → mv = .shake m) ∧ w.move? mv = some w' ∧
      w'.effort < w.effort := by
  cases hw.stage with
  | refused hh => exact absurd ⟨_, hh, nofun⟩ hrest
  | @reading h hh hx hd hs ho hb hn =>
    cases hstep : h.step? m .right w.link with
    | none =>
      obtain ⟨hf, hshut⟩ := Handshake.step?_eq_none hstep
      obtain ⟨mv, w', hmv, hmove, hsends, hlt⟩ := ho.exists_sends hf hshut
      refine ⟨mv, w', fun he => by simp [hmv] at he, hmove, ?_⟩
      rw [effort_of_more (hsends.handshake.trans hh), effort_of_more hh]
      exact Nat.add_lt_add_right hlt 2
    | some turn =>
      obtain ⟨p, l'⟩ := turn
      have hmove : w.move? (.shake m) = some { w with handshake := p, link := l' } := by
        simp only [move?, hh, hstep]
      refine ⟨_, _, fun _ => rfl, hmove, ?_⟩
      rw [effort_of_more hh]
      cases Handshake.moves_of_step? hs hw.unreset (hd ▸ hm) hstep with
      | more _ hn' => exact Nat.add_lt_add_right (work_take_lt hn' w.todo) 2
      | @welcomes peer n hg =>
        rw [effort_of_ok rfl]
        have := work_take_le w.link w.todo n
        dsimp only
        split <;> omega
      | refuses => exact Nat.succ_pos _
  | @welcomed peer rest hh hg ho hb he =>
    have hend : w.ended = false := by
      rw [← Bool.not_eq_true]
      exact fun hend => hrest ⟨_, hh, fun _ _ => hend⟩
    have heffort := effort_of_ok hh
    rw [hend, if_neg nofun] at heffort
    cases hr : w.link.read? .right 1 with
    | none =>
      obtain ⟨hf, hshut⟩ := Link.read?_eq_none hr
      obtain ⟨mv, w', hmv, hmove, hsends, hlt⟩ := ho.exists_sends hf hshut
      refine ⟨mv, w', fun he => by simp [hmv] at he, hmove, ?_⟩
      rw [effort_of_ok (hsends.handshake.trans hh), hsends.ended, hend, if_neg nofun, heffort]
      exact Nat.add_lt_add_right hlt 1
    | some piece =>
      obtain ⟨r, l'⟩ := piece
      have hmove {bs : Bytes} (hbs : r = .ok bs) : w.move? (.read 0) = some { w with
          handshake := .done (.ok peer), link := l', heard := w.heard ++ bs,
          ended := w.ended || bs.isEmpty } := by
        simp only [move?, hh, hr, hbs]
      rcases Link.read?_cases hr Nat.zero_lt_one with ⟨hne, hbs, rfl⟩ | ⟨hf, hs, rfl, hbs⟩
      · refine ⟨.read 0, _, nofun, hmove hbs, ?_⟩
        have := work_take_lt hne w.todo
        rw [heffort, effort_of_ok rfl]
        dsimp only
        split <;> omega
      · have hbs : r = .ok [] := by simpa [Side.other, hw.unreset] using hbs
        refine ⟨.read 0, _, nofun, hmove hbs, ?_⟩
        rw [heffort, effort_of_ok rfl]
        simp

/-- A connection can always come to rest, at any moment before its deadline. -/
theorem Kept.exists_atRest (hw : w.Kept expected deadline bs) (hm : m.now < deadline) :
    ∃ more w', run? more w = some w' ∧ w'.AtRest ∧ ∀ m', .shake m' ∈ more → m' = m := by
  induction hn : w.effort using Nat.strongRecOn generalizing w with
  | ind n ih =>
    by_cases hrest : w.AtRest
    · exact ⟨[], w, rfl, hrest, nofun⟩
    · obtain ⟨mv, w₁, hmv, hmove, hlt⟩ := hw.exists_move hm hrest
      have hshake (m') (he : mv = .shake m') : m' = m := by
        subst he
        cases hmv rfl
        rfl
      have hw₁ := (hw.step (fun m' he => hshake m' he ▸ hm) hmove).1
      obtain ⟨more, w', hrun, hrest', hmore⟩ := ih _ (hn ▸ hlt) hw₁ rfl
      refine ⟨mv :: more, w', by rw [run?, hmove]; exact hrun, hrest', fun m' hmem => ?_⟩
      rcases List.mem_cons.mp hmem with he | hmem
      · exact hshake m' he.symm
      · exact hmore m' hmem

/-! ## What the handshake comes to -/

theorem Kept.result (hw : w.Kept expected deadline bs) (hr : w.handshake = .done r) :
    Handshake.Greeted expected bs r (w.heard ++ w.ahead) ∧ (w.ended = true → w.ahead = []) := by
  cases hw.stage with
  | reading hh => cases hh.symm.trans hr
  | welcomed hh hg ho hb he =>
    cases hh.symm.trans hr
    exact ⟨hb ▸ hg, he⟩
  | refused hh hg hb hn =>
    cases hh.symm.trans hr
    rw [hn.1, List.nil_append, hb]
    exact ⟨hg, fun he => by simp [hn.2] at he⟩

/-- For bytes that come in any pieces and then end, and a handshake that is read in time: it comes
to what the grammar says, and leaves to the stream what the grammar leaves. So it succeeds exactly
for the greeting of a dialer for the expected protocol, with whatever stands behind it. There are at
most as many steps and one more than bytes, it waits only while nothing is under way and the dialer
may still write, and it can always be brought to its end. -/
theorem greeted_of_run? {moves : List Move} (expected : ProtocolId) (deadline capacity : Nat)
    (bs : Bytes) (hcap : 0 < capacity) (ht : ∀ m, .shake m ∈ moves → m.now < deadline)
    (hrun : run? moves (ofBytes expected deadline capacity bs) = some w) :
    (∀ r, w.handshake = .done r →
      Handshake.Greeted expected bs r (w.heard ++ w.ahead) ∧
      (w.ended = true → w.ahead = []) ∧
      ∀ peer rest, r = .ok peer ∧ w.heard ++ w.ahead = rest ↔
        bs = Handshake.greeting expected peer ++ rest ∧
        (Bytes.ofString expected.text).length ≤ Handshake.maxField ∧
        (Bytes.ofString peer.text).length ≤ Handshake.maxField) ∧
    moves.countP Move.isShake ≤ bs.length + 1 ∧
    (∀ h m, w.handshake = .more h → h.step? m .right w.link = none →
      w.link.flow .left = [] ∧ w.link.shut .left = false) ∧
    ∀ m, m.now < deadline → ∃ more w', run? more w = some w' ∧ w'.AtRest ∧
      ∀ m', .shake m' ∈ more → m' = m := by
  obtain ⟨hw, hcount⟩ := (kept_ofBytes hcap).of_run? ht hrun
  refine ⟨fun r hr => ?_, ?_, fun h m _ hstep => Handshake.step?_eq_none hstep,
    fun m hm => hw.exists_atRest hm⟩
  · obtain ⟨hg, he⟩ := hw.result hr
    refine ⟨hg, he, fun peer rest => ?_⟩
    rw [← Handshake.greeted_ok_iff]
    constructor
    · rintro ⟨rfl, rfl⟩
      exact hg
    · exact hg.unique
  · have hleft : (ofBytes expected deadline capacity bs).left = bs.length + 1 := by
      simp [left, ofBytes, ahead]
    exact hleft ▸ Nat.le_trans (Nat.le_add_right ..) hcount

/-- What comes behind a greeting is left to the stream. -/
theorem greeted_with_bytes_behind : ∃ moves w,
    run? moves (ofBytes ⟨"moon"⟩ 10 20
      (Handshake.greeting ⟨"moon"⟩ ⟨"alice"⟩ ++ [1, 2, 3])) = some w ∧
    w.handshake = .done (.ok ⟨"alice"⟩) ∧ w.heard = [1, 2, 3] := by
  obtain ⟨-, -, -, hrest⟩ := greeted_of_run? ⟨"moon"⟩ 10 20
    (Handshake.greeting ⟨"moon"⟩ ⟨"alice"⟩ ++ [1, 2, 3]) (by decide) (by simp)
    (show run? [] _ = some _ from rfl)
  obtain ⟨moves, w, hrun, ⟨r, hr, hend⟩, hm⟩ := hrest {} (by decide)
  have ht (m : Moment) (hmem : .shake m ∈ moves) : m.now < 10 := hm m hmem ▸ (by decide)
  obtain ⟨-, hahead, hiff⟩ := (greeted_of_run? ⟨"moon"⟩ 10 20 _ (by decide) ht hrun).1 r hr
  obtain ⟨rfl, hrest⟩ := (hiff ⟨"alice"⟩ [1, 2, 3]).mpr ⟨rfl, by decide, by decide⟩
  rw [hahead (hend _ rfl), List.append_nil] at hrest
  exact ⟨moves, w, hrun, hr, hrest⟩

/-! ## Dialers that introduce themselves -/

/-- A move leaves of the bytes to be sent the last ones. -/
theorem todo_of_move? (h : w.move? mv = some w') : w'.todo <:+ w.todo := by
  cases mv <;> simp only [move?] at h <;> grind [List.drop_suffix]

theorem todo_of_run? {moves : List Move} (h : run? moves w = some w') : w'.todo <:+ w.todo := by
  induction moves generalizing w with
  | nil =>
    cases h
    exact List.suffix_rfl
  | cons mv moves ih =>
    rw [run?] at h
    split at h
    · cases h
    · rename_i hmv
      exact (ih h).trans (todo_of_move? hmv)

/-- A handshake that waits has yet to see the end of the greeting. -/
theorem Kept.busy {x : Handshake} {later : Bytes}
    (hw : w.Kept expected deadline (Handshake.greeting expected dialer ++ later))
    (hp : (Bytes.ofString expected.text).length ≤ Handshake.maxField)
    (hd : (Bytes.ofString dialer.text).length ≤ Handshake.maxField)
    (hx : w.handshake = .more x) (hstep : x.step? m .right w.link = none) :
    later.length < w.todo.length := by
  cases hw.stage with
  | welcomed hh | refused hh => cases hh.symm.trans hx
  | @reading x' hh hx' hd' hs ho hb hn =>
    cases hh.symm.trans hx
    have hf : w.link.flow .left = [] := (Handshake.step?_eq_none hstep).1
    rw [ahead, hf, List.nil_append] at hb
    refine Nat.lt_of_not_le fun hle => ?_
    -- the greeting would be there as a whole, and yet the reader half done
    obtain ⟨sent, hsent⟩ := List.suffix_of_suffix_length_le ⟨_, hb⟩ ⟨_, rfl⟩ hle
    rw [← hsent, ← List.append_assoc] at hb
    have htaken : x.taken = Handshake.greeting expected dialer ++ sent :=
      List.append_cancel_right hb
    obtain ⟨e, hcut⟩ := hs.cut
    rw [hx', htaken] at hcut
    cases (hcut.unique (Handshake.greeted_ok_iff.mpr ⟨rfl, hp, hd⟩)).1

/-- What the stream behind a greeting brings. -/
theorem Kept.agreed {later : Bytes}
    (hw : w.Kept expected deadline (Handshake.greeting expected dialer ++ later))
    (hp : (Bytes.ofString expected.text).length ≤ Handshake.maxField)
    (hd : (Bytes.ofString dialer.text).length ≤ Handshake.maxField) :
    (∀ r, w.handshake = .done r → r = .ok dialer) ∧ w.heard <+: later ∧
      (w.ended = true → w.heard = later) := by
  have hg : Handshake.Greeted expected _ (.ok dialer) later :=
    Handshake.greeted_ok_iff.mpr ⟨rfl, hp, hd⟩
  cases hr : w.handshake with
  | more x =>
    cases hw.stage with
    | welcomed hh | refused hh => cases hh.symm.trans hr
    | reading _ _ _ _ _ _ hn =>
      rw [hn.1, hn.2]
      exact ⟨nofun, List.nil_prefix, nofun⟩
  | done r =>
    obtain ⟨hg', hend⟩ := hw.result hr
    obtain ⟨rfl, hlater⟩ := hg'.unique hg
    refine ⟨fun r' hr' => by cases hr'; rfl, ⟨_, hlater⟩, fun he => ?_⟩
    rw [← hlater, hend he, List.append_nil]

/-- A listener understands a dialer of its own protocol exactly if neither the protocol nor the name
of the dialer is too long, although the dialer sends them at any length. Then it needs no byte more
than the greeting, and the stream brings what the dialer sends afterwards. Else it refuses the first
name that is too long, as long as the length can be told in four bytes. -/
theorem agreed_of_run? {moves : List Move} (protocol : ProtocolId) (dialer : PeerId)
    (deadline capacity : Nat) (later : Bytes) (hcap : 0 < capacity)
    (ht : ∀ m, .shake m ∈ moves → m.now < deadline)
    (hrun : run? moves (ofBytes protocol deadline capacity
      (Handshake.greeting protocol dialer ++ later)) = some w) :
    let size (name : String) := (Bytes.ofString name).length
    (size protocol.text ≤ Handshake.maxField → size dialer.text ≤ Handshake.maxField →
      ((∀ r, w.handshake = .done r → r = .ok dialer) ∧ w.heard <+: later ∧
        (w.ended = true → w.heard = later)) ∧
      ∀ h m, w.handshake = .more h → w.todo.length ≤ later.length →
        h.step? m .right w.link ≠ none) ∧
    (w.handshake = .done (.ok dialer) →
      size protocol.text ≤ Handshake.maxField ∧ size dialer.text ≤ Handshake.maxField) ∧
    (Handshake.maxField < size protocol.text → size protocol.text < 256 ^ 4 →
      ∀ r, w.handshake = .done r → r = .error (.fieldTooLarge (size protocol.text))) ∧
    (size protocol.text ≤ Handshake.maxField →
      Handshake.maxField < size dialer.text → size dialer.text < 256 ^ 4 →
      ∀ r, w.handshake = .done r → r = .error (.fieldTooLarge (size dialer.text))) ∧
    ∀ m, m.now < deadline → ∃ more w', run? more w = some w' ∧ w'.AtRest ∧
      ∀ m', .shake m' ∈ more → m' = m := by
  dsimp only
  have hw := ((kept_ofBytes hcap).of_run? ht hrun).1
  refine ⟨fun hp hd => ⟨hw.agreed hp hd, fun h m hx hle hstep => ?_⟩, fun hr => ?_,
    fun hn hlt r hr => ?_, fun hp hn hlt r hr => ?_, fun m hm => hw.exists_atRest hm⟩
  · exact Nat.not_lt_of_le hle (hw.busy hp hd hx hstep)
  · exact (Handshake.greeted_ok_iff.mp (hw.result hr).1).2
  · exact ((hw.result hr).1.unique (Handshake.greeted_of_large_protocol hn hlt)).1
  · exact ((hw.result hr).1.unique (Handshake.greeted_of_large_dialer hp hn hlt)).1

/-- A dialer with a short name is understood, and its stream read to the end. -/
theorem agreed_short_name : ∃ moves w,
    run? moves (ofBytes .standard 1 3 (Handshake.greeting .standard ⟨"bob"⟩ ++ [9])) = some w ∧
    w.handshake = .done (.ok ⟨"bob"⟩) ∧ w.heard = [9] := by
  have hp : (Bytes.ofString ProtocolId.standard.text).length ≤ Handshake.maxField := by decide
  have hd : (Bytes.ofString "bob").length ≤ Handshake.maxField := by decide
  obtain ⟨-, -, -, -, hrest⟩ := agreed_of_run? .standard ⟨"bob"⟩ 1 3 [9] (by decide) (by simp)
    (show run? [] _ = some _ from rfl)
  obtain ⟨moves, w, hrun, ⟨r, hr, hend⟩, hm⟩ := hrest {} (by decide)
  have ht (m : Moment) (hmem : .shake m ∈ moves) : m.now < 1 := hm m hmem ▸ (by decide)
  have h' := ((agreed_of_run? .standard ⟨"bob"⟩ 1 3 [9] (by decide) ht hrun).1 hp hd).1
  obtain rfl := h'.1 r hr
  exact ⟨moves, w, hrun, hr, h'.2.2 (hend _ rfl)⟩

/-- A dialer can send at once what the link has room for. -/
theorem send_ofBytes (expected : ProtocolId) (deadline : Nat) {capacity : Nat}
    (hfit : bs.length ≤ capacity) (hbs : bs ≠ []) :
    (ofBytes expected deadline capacity bs).move? (.send bs.length) = some
      { ofBytes expected deadline capacity bs with
        link := (Link.ofCapacity capacity).put .left bs, todo := [] } := by
  have hroom : capacity ≠ 0 := by
    have := List.length_pos_iff.mpr hbs
    omega
  simp [move?, ofBytes, Link.write?, Link.ofCapacity, Link.outgoing, Link.put, Link.flow,
    Side.other, Sides.get, Sides.set, Pipe.write?, Pipe.room, hbs, hroom,
    List.take_of_length_le hfit]

/-- A dialer whose name is one byte too long. -/
def stranger : PeerId := ⟨String.ofList (List.replicate 1025 'a')⟩

/-- The stranger sends its whole greeting, and is refused. -/
theorem unwelcome_long_name : ∃ moves w,
    (∀ m, .shake m ∈ moves → m.now < Handshake.standardTimeout) ∧
    run? moves (ofBytes .standard Handshake.standardTimeout 2000
      (Handshake.greeting .standard stranger)) = some w ∧
    w.todo = [] ∧ w.handshake = .done (.error (.fieldTooLarge 1025)) := by
  have hsize : (Bytes.ofString stranger.text).length = 1025 := by decide +kernel
  have hstandard : (Bytes.ofString ProtocolId.standard.text).length = 17 := by decide
  have hlen : (Handshake.greeting .standard stranger).length = 1050 := by
    simp [Handshake.greeting, Handshake.field, hsize, hstandard]
  have hp : (Bytes.ofString ProtocolId.standard.text).length ≤ Handshake.maxField := by
    rw [hstandard]
    decide
  have hgreeted : Handshake.Greeted .standard (Handshake.greeting .standard stranger ++ []) _ _ :=
    Handshake.greeted_of_large_dialer hp (by rw [hsize]; decide) (by rw [hsize]; decide)
  rw [List.append_nil, hsize] at hgreeted
  have hfit : (Handshake.greeting .standard stranger).length ≤ 2000 := by
    rw [hlen]
    decide
  have hsend := send_ofBytes .standard Handshake.standardTimeout hfit fun hn => by simp [hn] at hlen
  have hsent := ((kept_ofBytes (by decide)).step (by simp) hsend).1
  have hstart : ({} : Moment).now < Handshake.standardTimeout := by decide
  obtain ⟨more, w, hrun, ⟨r, hr, -⟩, hmore⟩ := hsent.exists_atRest hstart
  have ht (m : Moment) (hmem : .shake m ∈ more) : m.now < Handshake.standardTimeout := by
    rw [hmore m hmem]
    decide
  obtain ⟨rfl, -⟩ := ((hsent.of_run? ht hrun).1.result hr).1.unique hgreeted
  refine ⟨_ :: more, w, fun m hmem => ht m ?_, by rw [run?, hsend]; exact hrun, ?_, hr⟩
  · simpa using hmem
  · exact List.suffix_nil.mp (todo_of_run? hrun)

end Incoming

end PeerCall
