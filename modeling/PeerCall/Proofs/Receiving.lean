import PeerCall.Proofs.Halves

/-! # Receiving a reply

What a call comes to once its request is sent, against a peer that may send any bytes in any pieces
and end its stream in either way. The outcome can be told from the bytes and the ending alone
(`Call.received`); every run reaches it and no other (`Receiving.delivered_received`). -/

namespace PeerCall

/-! ## What the bytes of a peer come to -/

namespace Call

/-- The call after the text of a response. -/
def heard (c : Call) (text : String) : Call := if text.isEmpty then c else c.fail (.remote text)

/-- What a call comes to by its reply frame, and whether its stream is closed gracefully. -/
def receivedReply (c : Call) (codec : Codec) : Except StreamError Bytes → Call × Bool
  | .error .closed => (c, true)
  | .error e => (c.fail (.decode e), false)
  | .ok [] => (c, true)
  | .ok bs =>
    match codec.decode c.replyType bs with
    | .ok v => (c.setReply v, true)
    | .error e => (c.fail (.decode e), false)

/-- What a call comes to by all bytes that its peer sends and the way these end, and whether its
stream is closed gracefully. -/
def received (c : Call) (codec : Codec) (ending : Ending) (bs : Bytes) : Call × Bool :=
  match Frame.read ending bs with
  | (.error e, _) => (c.fail (.decode e), false)
  | (.ok payload, rest) =>
    match codec.decode .response payload with
    | .error e => (c.fail (.decode e), false)
    | .ok response => (c.heard response.error).receivedReply codec (Frame.read ending rest).1

variable {c : Call} {codec : Codec} {ending : Ending} {bs : Bytes}

theorem receivedReply_error (h : e ≠ .closed) :
    c.receivedReply codec (.error e) = (c.fail (.decode e), false) := by
  cases e <;> first | rfl | exact absurd rfl h

theorem receivedReply_of_bad (hb : bs ≠ []) (h : codec.decode c.replyType bs = .error e) :
    c.receivedReply codec (.ok bs) = (c.fail (.decode e), false) := by
  cases bs with
  | nil => exact absurd rfl hb
  | cons b bs => simp only [receivedReply, h]

theorem receivedReply_of_ok (hb : bs ≠ []) (h : codec.decode c.replyType bs = .ok v) :
    c.receivedReply codec (.ok bs) = (c.setReply v, true) := by
  cases bs with
  | nil => exact absurd rfl hb
  | cons b bs => simp only [receivedReply, h]

theorem received_of_lost (h : (Frame.read ending bs).1 = .error e) :
    c.received codec ending bs = (c.fail (.decode e), false) := by
  unfold received
  split
  · rename_i hr
    rw [hr] at h
    cases h
    rfl
  · rename_i hr
    rw [hr] at h
    cases h

theorem received_of_bad (h : Frame.read ending bs = (.ok p, rest))
    (hd : codec.decode .response p = .error e) :
    c.received codec ending bs = (c.fail (.decode e), false) := by
  simp only [received, h, hd]

theorem received_of_ok (h : Frame.read ending bs = (.ok p, rest))
    (hd : codec.decode .response p = .ok response) :
    c.received codec ending bs =
      (c.heard response.error).receivedReply codec (Frame.read ending rest).1 := by
  simp only [received, h, hd]

/-- What comes behind the second frame makes no difference. -/
theorem received_append {p q : Bytes} (hp : p.length ≤ Frame.maxSize)
    (hq : q.length ≤ Frame.maxSize) (extra : Bytes) :
    c.received codec ending (Frame.bytes p ++ (Frame.bytes q ++ extra)) =
      c.received codec ending (Frame.bytes p ++ Frame.bytes q) := by
  have h2 : Frame.read ending (Frame.bytes q) = (.ok q, []) := by
    simpa using Frame.read_bytes hq ending []
  simp only [received, Frame.read_bytes hp, Frame.read_bytes hq, h2]

/-- A reply frame leaves the error as it was, or there is no reply. -/
private theorem receivedReply_keeps (r : Except StreamError Bytes) :
    (c.receivedReply codec r).1.error = c.error ∨
      (c.receivedReply codec r).1.replied = c.replied := by
  unfold receivedReply
  split
  · exact .inl rfl
  · exact .inr rfl
  · exact .inl rfl
  · split
    · exact .inl rfl
    · exact .inr rfl

/-- A call that is replied to has no error but one that the server reported. -/
theorem error_of_received (he : c.error = none) (hr : c.replied = false)
    (h : (c.received codec ending bs).1.replied = true) :
    (c.received codec ending bs).1.error = none ∨
      ∃ text, (c.received codec ending bs).1.error = some (.remote text) := by
  have hfail (e : CallError) : (c.fail e).replied = true → False := fun h => by
    rw [Call.fail, hr] at h
    cases h
  unfold received at h ⊢
  split
  · rename_i hread
    rw [hread] at h
    exact (hfail _ h).elim
  · rename_i hread
    rw [hread] at h
    simp only at h
    split
    · rename_i hd
      rw [hd] at h
      exact (hfail _ h).elim
    · rename_i response hd
      rw [hd] at h
      have hheard : (c.heard response.error).replied = false := by
        unfold heard
        split
        · exact hr
        · exact hr
      rcases receivedReply_keeps (Frame.read ending _).1 with hk | hk
      · rw [hk]
        unfold heard
        split
        · exact .inl he
        · exact .inr ⟨_, rfl⟩
      · rw [hk, hheard] at h
        cases h

end Call

/-! ## One step of the call -/

namespace Exchange

/-- What the bytes that are still to come, and the way these end, will make of an exchange whose
request goes out. -/
def foreseen (x : Exchange) (ending : Ending) (bs : Bytes) : Call × Bool :=
  match x.phase with
  | .sending _ => x.call.received x.codec ending (x.unread ++ bs)
  | .header r => x.call.received x.codec ending (r.taken ++ x.unread ++ bs)
  | .reply r => x.call.receivedReply x.codec (Frame.read ending (r.taken ++ x.unread ++ bs)).1

variable {x x' : Exchange} {l l' : Link} {todo : Bytes} {ending : Ending}

/-- A step of an exchange that goes on changes nothing in what is foreseen. -/
theorem Moves.foreseen_more (h : x.Moves m l (.more x') l') (ending : Ending) (todo : Bytes) :
    x'.foreseen ending (l'.flow .right ++ todo) = x.foreseen ending (l.flow .right ++ todo) := by
  cases h with
  | sending _ hp ht =>
    obtain ⟨piece, rfl⟩ := ht.link
    simp [foreseen, hp]
  | sent _ hp ht =>
    obtain ⟨piece, rfl⟩ := ht.link
    simp [foreseen, hp]
  | header _ hp ht =>
    simp only [foreseen, hp]
    exact congrArg (x.call.received x.codec ending) (ht.bytes_of_more todo)
  | response _ hp ht hd =>
    simp only [foreseen, hp]
    exact (Call.received_of_ok (ht.read_of_whole ending todo) hd).symm
  | reply _ hp ht =>
    simp only [foreseen, hp]
    exact congrArg (fun bs => x.call.receivedReply x.codec (Frame.read ending bs).1)
      (ht.bytes_of_more todo)

/-- The step that ends an exchange whose request is sent comes to what was foreseen. -/
theorem Moves.foreseen_done (h : x.Moves m l (.done c) l') (hv : x.call.context.verdict m = none)
    (hs : 0 < x.phase.stage) (hw : l.wasReset.get .left = false)
    (he : l.shut .right = true → todo = [] ∧ l.wasReset.get .right = ending.isReset) :
    (c, !l'.wasReset.get .left) = x.foreseen ending (l.flow .right ++ todo) := by
  have hgraceful {r : FrameReader} {p unread l₁} (ht : r.Turn .left x.unread l p unread l₁) :
      (!(l₁.finish .left).wasReset.get .left) = true := by
    obtain ⟨n, rfl⟩ := ht.link
    rw [Link.wasReset_finish, Link.wasReset_take, hw]
    rfl
  have habort (l₁ : Link) : (!(l₁.abort .left).wasReset.get .left) = false := by simp
  cases h with
  | stopped hv' => rw [hv] at hv'; cases hv'
  | unsent _ hp ht => rw [hp] at hs; cases hs
  | headerLost _ hp ht =>
    simp only [foreseen, hp, habort]
    exact (Call.received_of_lost (ht.read_of_failed he)).symm
  | headerBad _ hp ht hd =>
    simp only [foreseen, hp, habort]
    exact (Call.received_of_bad (ht.read_of_whole ending todo) hd).symm
  | replyMissing _ hp ht =>
    have hr : (Frame.read ending _).1 = _ := ht.read_of_failed he
    simp only [foreseen, hp, hgraceful ht]
    exact (congrArg (x.call.receivedReply x.codec) hr).symm
  | replyLost _ hp ht hne =>
    have hr : (Frame.read ending _).1 = _ := ht.read_of_failed he
    simp only [foreseen, hp, habort]
    exact ((congrArg (x.call.receivedReply x.codec) hr).trans (Call.receivedReply_error hne)).symm
  | replyEmpty _ hp ht =>
    have hr : Frame.read ending _ = _ := ht.read_of_whole ending todo
    simp only [foreseen, hp, hgraceful ht]
    exact (congrArg (x.call.receivedReply x.codec ·.1) hr).symm
  | replyBad _ hp ht hb hd =>
    have hr : Frame.read ending _ = _ := ht.read_of_whole ending todo
    simp only [foreseen, hp, habort]
    exact ((congrArg (x.call.receivedReply x.codec ·.1) hr).trans
      (Call.receivedReply_of_bad hb hd)).symm
  | replied _ hp ht hb hd =>
    have hr : Frame.read ending _ = _ := ht.read_of_whole ending todo
    simp only [foreseen, hp, hgraceful ht]
    exact ((congrArg (x.call.receivedReply x.codec ·.1) hr).trans
      (Call.receivedReply_of_ok hb hd)).symm

/-- A step of an exchange that goes on changes only what is under way. -/
theorem Moves.link_of_more (h : x.Moves m l (.more x') l') :
    (∃ n, l' = l.take .left n) ∨ ∃ piece, l' = l.put .left piece := by
  cases h with
  | sending _ _ ht | sent _ _ ht => exact .inr ht.link
  | header _ _ ht | response _ _ ht | reply _ _ ht => exact .inl ht.link

theorem Moves.sound_of_more (h : x.Moves m l (.more x') l') : x'.Sound := by
  cases h with
  | sending => trivial
  | sent => exact FrameReader.sound_start
  | header _ _ ht => exact ht.sound_of_more
  | response => exact FrameReader.sound_start
  | reply _ _ ht => exact ht.sound_of_more

theorem Moves.codec_of_more (h : x.Moves m l (.more x') l') : x'.codec = x.codec := by
  cases h <;> rfl

theorem Moves.context_of_more (h : x.Moves m l (.more x') l') :
    x'.call.context = x.call.context := by
  cases h with
  | sending | sent | header | reply => rfl
  | response =>
    simp only [takeResponse]
    split <;> rfl

/-- The end of an exchange shuts its link. -/
theorem Moves.shut_of_done (h : x.Moves m l (.done c) l') : l'.shut s = true := by
  cases h <;> simp

/-- Once the request is sent, a step that goes on only reads: it uses up bytes or comes to the
reply. -/
theorem Moves.reads (h : x.Moves m l (.more x') l') (hs : 0 < x.phase.stage) :
    0 < x'.phase.stage ∧ (∃ n, l' = l.take .left n) ∧
      (l'.flow .right).length + (3 - x'.phase.stage) <
        (l.flow .right).length + (3 - x.phase.stage) := by
  cases h with
  | sending _ hp | sent _ hp => rw [hp] at hs; cases hs
  | header _ hp ht =>
    rw [hp]
    exact ⟨Nat.zero_lt_one, ht.link, Nat.add_lt_add_right ht.flow_lt_of_more 2⟩
  | response _ hp ht hd =>
    obtain ⟨n, rfl⟩ := ht.link
    rw [hp]
    refine ⟨Nat.zero_lt_two, ⟨n, rfl⟩, ?_⟩
    change _ + 1 < _ + 2
    simp only [Link.flow_take, reduceCtorEq, if_false, List.length_drop]
    omega
  | reply _ hp ht =>
    rw [hp]
    exact ⟨Nat.zero_lt_two, ht.link, Nat.add_lt_add_right ht.flow_lt_of_more 1⟩

end Exchange

/-! ## A call and its peer -/

/-- A call over a link, and what its peer has still to send on it. -/
structure Receiving where
  caller : Progress Exchange Call
  link : Link
  todo : Bytes

namespace Receiving

inductive Move
  | call (m : Moment)
  /-- The peer sends of its next bytes what fits. -/
  | send (n : Nat)
  | read (n : Nat)
  | reset
  | shutdown
  | drop
  deriving Repr, DecidableEq

/-- Whether a move is one of the call. -/
def Move.isCall : Move → Bool
  | call _ => true
  | _ => false

/-- Whether the peer has said all, and has been reset if its stream is to end so. -/
def mayEnd (ending : Ending) (w : Receiving) : Bool :=
  w.todo.isEmpty && w.link.wasReset.get .right == ending.isReset

/-- One move. The peer ends its stream after all has been said. -/
def move? (ending : Ending) (w : Receiving) : Move → Option Receiving
  | .call m =>
    match w.caller with
    | .done _ => none
    | .more x =>
      match x.step? m w.link with
      | none => none
      | some (caller, link) => some { w with caller, link }
  | .send n =>
    match w.link.write? .right (w.todo.take n) with
    | some (.ok n, link) => some { w with link, todo := w.todo.drop n }
    | _ => none
  | .read n =>
    match w.link.read? .right n with
    | none => none
    | some (_, link) => some { w with link }
  | .reset => if ending.isReset then some { w with link := w.link.reset .right } else none
  | .shutdown => if w.mayEnd ending then some { w with link := w.link.shutdown .right } else none
  | .drop => if w.mayEnd ending then some { w with link := w.link.drop .right } else none

def run? (ending : Ending) : List Move → Receiving → Option Receiving
  | [], w => some w
  | mv :: moves, w =>
    match w.move? ending mv with
    | none => none
    | some w => run? ending moves w

/-! ## Runs -/

/-- A peer that ends its stream only after all has been said, and in this way. -/
def Fair (ending : Ending) (w : Receiving) : Prop :=
  w.link.shut .right = true → w.todo = [] ∧ w.link.wasReset.get .right = ending.isReset

/-- What the moves of a peer keep. -/
structure Kept (ending : Ending) (w w' : Receiving) : Prop where
  caller : w'.caller = w.caller
  wasReset : w'.link.wasReset.get .left = w.link.wasReset.get .left
  bytes : w'.link.flow .right ++ w'.todo = w.link.flow .right ++ w.todo
  shut : ∀ s, w.link.shut s = true → w'.link.shut s = true
  fair : w.Fair ending → w'.Fair ending

variable {ending : Ending} {w w' : Receiving}

private theorem fair_of_mayEnd (h : w.mayEnd ending = true) :
    w.todo = [] ∧ w.link.wasReset.get .right = ending.isReset := by
  simpa [mayEnd] using h

theorem kept_of_move? (h : w.move? ending mv = some w') (hm : mv.isCall = false) :
    Kept ending w w' := by
  cases mv with
  | call m => cases hm
  | send k =>
    simp only [move?] at h
    split at h
    · rename_i n l' hw
      cases h
      obtain ⟨hn, rfl⟩ := Link.write?_eq_ok hw
      have hpiece : (w.todo.take k).take n = w.todo.take n := by
        rw [List.take_take, Nat.min_eq_left]
        exact Nat.le_trans hn (List.length_take ▸ Nat.min_le_left ..)
      refine ⟨rfl, rfl, ?_, fun s hs => by simpa using hs, fun hf hs => ?_⟩
      · simp [hpiece]
      · obtain ⟨ht, hr⟩ := hf (by simpa using hs)
        exact ⟨by rw [ht, List.drop_nil], hr⟩
    · cases h
  | read n =>
    simp only [move?] at h
    split at h
    · cases h
    · rename_i r l' hr
      cases h
      obtain rfl := Link.link_of_read? hr
      refine ⟨rfl, rfl, by simp, fun s hs => by simpa using hs, fun hf hs => ?_⟩
      exact hf (by simpa using hs)
  | reset =>
    simp only [move?] at h
    split at h
    · rename_i he
      cases h
      refine ⟨rfl, by simp, rfl, fun s hs => hs, fun hf hs => ?_⟩
      exact ⟨(hf hs).1, by simp [he]⟩
    · cases h
  | shutdown =>
    simp only [move?] at h
    split at h
    · rename_i he
      cases h
      refine ⟨rfl, rfl, by simp, fun s hs => by simp [hs], fun _ _ => fair_of_mayEnd he⟩
    · cases h
  | drop =>
    simp only [move?] at h
    split at h
    · rename_i he
      cases h
      exact ⟨rfl, rfl, by simp, fun s _ => by simp, fun _ _ => fair_of_mayEnd he⟩
    · cases h

/-- A call under way that will come to what all bytes of its peer make of it. -/
structure Expects (call : Call) (codec : Codec) (ending : Ending) (bs : Bytes) (w : Receiving)
    (x : Exchange) : Prop where
  caller : w.caller = .more x
  sound : x.Sound
  context : x.call.context = call.context
  unreset : w.link.wasReset.get .left = false
  fair : w.Fair ending
  few : (w.link.flow .right ++ w.todo).length ≤ bs.length
  foreseen : x.foreseen ending (w.link.flow .right ++ w.todo) = call.received codec ending bs

variable {call : Call} {codec : Codec} {bs : Bytes} {x x' : Exchange}

theorem Expects.kept (he : Expects call codec ending bs w x) (h : Kept ending w w') :
    Expects call codec ending bs w' x where
  caller := h.caller.trans he.caller
  sound := he.sound
  context := he.context
  unreset := h.wasReset.trans he.unreset
  fair := h.fair he.fair
  few := h.bytes ▸ he.few
  foreseen := h.bytes ▸ he.foreseen

theorem Expects.more (he : Expects call codec ending bs w x)
    (h : x.Moves m w.link (.more x') l') :
    Expects call codec ending bs { w with caller := .more x', link := l' } x' where
  caller := rfl
  sound := h.sound_of_more
  context := h.context_of_more.trans he.context
  unreset := by
    rcases h.link_of_more with ⟨n, rfl⟩ | ⟨piece, rfl⟩
    · exact he.unreset
    · exact he.unreset
  fair := by
    rcases h.link_of_more with ⟨n, rfl⟩ | ⟨piece, rfl⟩
    · exact fun hs => he.fair (by simpa using hs)
    · exact fun hs => he.fair (by simpa using hs)
  few := by
    have := he.few
    rcases h.link_of_more with ⟨n, rfl⟩ | ⟨piece, rfl⟩
    · simp at this ⊢
      omega
    · simpa using this
  foreseen := (h.foreseen_more ending w.todo).trans he.foreseen

/-- A call that has sent its request and will come to what the bytes of its peer make of it, or has
come to it. -/
def Foretold (call : Call) (codec : Codec) (ending : Ending) (bs : Bytes) (w : Receiving) : Prop :=
  (∃ x, Expects call codec ending bs w x ∧ 0 < x.phase.stage) ∨
    ∃ c, w.caller = .done c ∧ (c, !w.link.wasReset.get .left) = call.received codec ending bs ∧
      ∀ s, w.link.shut s = true

/-- How many steps of the call there can still be. -/
def left (w : Receiving) : Nat :=
  match w.caller with
  | .more x => (w.link.flow .right ++ w.todo).length + (3 - x.phase.stage)
  | .done _ => 0

theorem Kept.left (h : Kept ending w w') : w'.left = w.left := by
  rw [Receiving.left, Receiving.left, h.caller, h.bytes]

theorem foretold_of_move? (hw : w.Foretold call codec ending bs)
    (h : w.move? ending mv = some w') (hv : ∀ m, mv = .call m → call.context.verdict m = none) :
    w'.Foretold call codec ending bs ∧ (if mv.isCall then 1 else 0) + w'.left ≤ w.left := by
  cases hm : mv.isCall with
  | false =>
    have hk := kept_of_move? h hm
    refine ⟨?_, by simp [hk.left]⟩
    rcases hw with ⟨x, he, hs⟩ | ⟨c, hc, ho, hs⟩
    · exact .inl ⟨x, he.kept hk, hs⟩
    · refine .inr ⟨c, hk.caller.trans hc, ?_, fun s => hk.shut s (hs s)⟩
      rw [hk.wasReset, ho]
  | true =>
    cases mv with
    | call m =>
      rcases hw with ⟨x, he, hs⟩ | ⟨c, hc, _⟩
      · simp only [move?, he.caller] at h
        split at h
        · cases h
        · rename_i p l' hx
          cases h
          have hmv := Exchange.moves_of_step? he.sound hx
          cases p with
          | more x' =>
            obtain ⟨hs', _, hlt⟩ := hmv.reads hs
            refine ⟨.inl ⟨x', he.more hmv, hs'⟩, ?_⟩
            simp only [Receiving.left, he.caller, List.length_append, if_true]
            omega
          | done c =>
            have hv := he.context ▸ hv m rfl
            refine ⟨.inr ⟨c, rfl, ?_, fun s => hmv.shut_of_done⟩, ?_⟩
            · exact (hmv.foreseen_done hv hs he.unreset he.fair).trans he.foreseen
            · simp only [Receiving.left, he.caller, if_true]
              have := x.phase.stage_lt
              omega
      · simp [move?, hc] at h
    | _ => cases hm

theorem foretold_of_run? (hw : w.Foretold call codec ending bs)
    (h : run? ending moves w = some w')
    (hv : ∀ m, Move.call m ∈ moves → call.context.verdict m = none) :
    w'.Foretold call codec ending bs ∧ moves.countP Move.isCall + w'.left ≤ w.left := by
  induction moves generalizing w with
  | nil =>
    cases h
    exact ⟨hw, by simp⟩
  | cons mv moves ih =>
    rw [run?] at h
    split at h
    · cases h
    · rename_i w₁ hmv
      obtain ⟨hw₁, hle⟩ := foretold_of_move? hw hmv fun m hm => hv m (hm ▸ List.mem_cons_self)
      obtain ⟨hw', hle'⟩ := ih hw₁ h fun m hm => hv m (List.mem_cons_of_mem _ hm)
      refine ⟨hw', ?_⟩
      rw [List.countP_cons]
      omega

private theorem done_of_run? (hw : w.caller = .done c) (h : run? ending moves w = some w') :
    w'.caller = .done c := by
  induction moves generalizing w with
  | nil =>
    cases h
    exact hw
  | cons mv moves ih =>
    rw [run?] at h
    split at h
    · cases h
    · rename_i w₁ hmv
      refine ih ?_ h
      cases hm : mv.isCall with
      | false => exact (kept_of_move? hmv hm).caller.trans hw
      | true =>
        cases mv with
        | call m => simp [move?, hw] at hmv
        | _ => cases hm

/-- As long as a call goes on, it will come to the same. -/
theorem expects_of_run? (he : Expects call codec ending bs w x)
    (h : run? ending moves w = some w') (hw' : w'.caller = .more x') :
    Expects call codec ending bs w' x' := by
  induction moves generalizing w x with
  | nil =>
    cases h
    have := he.caller.symm.trans hw'
    cases this
    exact he
  | cons mv moves ih =>
    rw [run?] at h
    split at h
    · cases h
    · rename_i w₁ hmv
      cases hm : mv.isCall with
      | false => exact ih (he.kept (kept_of_move? hmv hm)) h
      | true =>
        cases mv with
        | call m =>
          simp only [move?, he.caller] at hmv
          split at hmv
          · cases hmv
          · rename_i p l' hx
            cases hmv
            cases p with
            | more x₁ => exact ih (he.more (Exchange.moves_of_step? he.sound hx)) h
            | done c =>
              have := (done_of_run? rfl h).symm.trans hw'
              cases this
        | _ => cases hm

/-- A call to a peer that has yet to send all of its bytes. -/
def ofCall (codec : Codec) (call : Call) (capacity : Nat) (bs : Bytes) : Receiving where
  caller := .more (.ofCall codec call)
  link := .ofCapacity capacity
  todo := bs

theorem expects_ofCall (codec : Codec) (call : Call) (capacity : Nat) (bs : Bytes) :
    Expects call codec ending bs (ofCall codec call capacity bs)
      (.ofCall codec call) where
  caller := rfl
  sound := trivial
  context := rfl
  unreset := Link.wasReset_ofCapacity ..
  fair := fun hs => by simp [ofCall] at hs
  few := by simp [ofCall]
  foreseen := by simp [Exchange.foreseen, Exchange.ofCall, ofCall]

/-- What a call is delivered as, once its request was sent, depends on nothing but the bytes that
its peer sends and the way these end, in whatever pieces they come. It takes at most two steps more
than there are bytes, and waits only while nothing is under way and the peer may still write. -/
theorem delivered_received {before after : List Move} {w₁ w₂ : Receiving} (call : Call)
    (codec : Codec) (capacity : Nat) (ending : Ending) (bs : Bytes)
    (hfresh : call.error = none ∧ call.replied = false)
    (hsend : run? ending before (ofCall codec call capacity bs) = some w₁)
    (hsent : w₁.caller = .more x ∧ 0 < x.phase.stage)
    (hrun : run? ending after w₁ = some w₂)
    (hv : ∀ m, Move.call m ∈ after → call.context.verdict m = none) :
    (∀ c, w₂.caller = .done c →
      c = (call.received codec ending bs).1 ∧
      w₂.link.wasReset.get .left = !(call.received codec ending bs).2 ∧
      ∀ s, w₂.link.shut s = true) ∧
    after.countP Move.isCall ≤ bs.length + 2 ∧
    (∀ x' m, w₂.caller = .more x' → x'.step? m w₂.link = none →
      w₂.link.flow .right = [] ∧ w₂.link.shut .right = false) ∧
    ((call.received codec ending bs).1.replied = true →
      (call.received codec ending bs).1.error = none ∨
        ∃ text, (call.received codec ending bs).1.error = some (.remote text)) ∧
    ∀ p q extra, p.length ≤ Frame.maxSize → q.length ≤ Frame.maxSize →
      bs = Frame.bytes p ++ (Frame.bytes q ++ extra) →
      call.received codec ending bs =
        call.received codec ending (Frame.bytes p ++ Frame.bytes q) := by
  obtain ⟨hx, hs⟩ := hsent
  have he := expects_of_run? (expects_ofCall codec call capacity bs) hsend hx
  obtain ⟨hw₂, hcount⟩ := foretold_of_run? (.inl ⟨x, he, hs⟩) hrun hv
  refine ⟨fun c hc => ?_, ?_, fun x' m hx' hstep => ?_, ?_, fun p q extra hp hq hbs => ?_⟩
  · rcases hw₂ with ⟨x', he', _⟩ | ⟨c', hc', ho, hshut⟩
    · cases he'.caller.symm.trans hc
    · cases hc'.symm.trans hc
      rw [← ho]
      exact ⟨rfl, (Bool.not_not _).symm, hshut⟩
  · have hleft : w₁.left ≤ bs.length + 2 := by
      have := he.few
      simp only [Receiving.left, he.caller]
      omega
    exact Nat.le_trans (Nat.le_trans (Nat.le_add_right ..) hcount) hleft
  · rcases hw₂ with ⟨x'', he', hs'⟩ | ⟨c, hc, _⟩
    · cases he'.caller.symm.trans hx'
      exact (Exchange.waits_of_step? he'.sound hstep).dry hs'
    · cases hc.symm.trans hx'
  · exact Call.error_of_received hfresh.1 hfresh.2
  · rw [hbs, Call.received_append hp hq]

/-- A call for a truth value. -/
def question : Call where
  context := ⟨.root 0, none⟩
  dest := ⟨"bob"⟩
  service := ⟨"moon", "isFull"⟩
  args := ⟨.unit, ()⟩
  replyType := .bool
  reply := false

/-- A response without an error, the reply `true`, and a byte that nobody will read. -/
def answer : Bytes := Frame.bytes (Bytes.ofNatLE 8 0) ++ (Frame.bytes [1] ++ [7])

theorem delivered_received_in_pieces :
    ∃ w₁ w₂ c, run? .clean [.call {}] (ofCall .standard question 100 answer) = some w₁ ∧
      run? .clean [.send 3, .call {}, .send 20, .call {}, .call {}] w₁ = some w₂ ∧
      w₂.caller = .done c ∧ c = (question.received .standard .clean answer).1 := by
  have hsend : run? .clean [.call {}] (ofCall .standard question 100 answer) = some _ := rfl
  have hv : ∀ m, Move.call m ∈ [.send 3, .call {}, .send 20, .call {}, .call {}] →
      question.context.verdict m = none := by
    intro m hm
    simp only [List.mem_cons, Move.call.injEq, reduceCtorEq, List.not_mem_nil, or_false,
      false_or, or_self] at hm
    subst hm
    rfl
  have h := delivered_received question .standard 100 .clean answer ⟨rfl, rfl⟩ hsend
    ⟨rfl, Nat.zero_lt_one⟩ (by exact rfl) hv
  exact ⟨_, _, _, hsend, rfl, rfl, (h.1 _ rfl).1⟩

end Receiving

end PeerCall
