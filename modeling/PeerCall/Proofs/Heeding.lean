import PeerCall.Proofs.Cancellation
import PeerCall.Proofs.World.OwnCalls

/-! # Which calls heed their contexts

A call to a peer does: once its context is done it opens no stream, and its next step is its last.
A call to oneself does not. It enters the server all the same, waits for it however long that takes,
and comes to what the server returned. Main statement: `World.heeded_of_run?`. -/

namespace PeerCall

namespace World

variable {w : World} {moves : List Move} {k channel : Nat} {call : Call}

/-- A call to a peer whose context is done at the start opens no stream. -/
theorem unopened_of_run? {client : Client} {w₀ w₁ : World}
    (hroute : client.route call.dest = .ok (.toPeer host))
    (hstart : w₀.start client call channel = .ok w₁)
    (hv : call.context.verdict w₁.moment ≠ none) (hrun : run? moves w₁ = some w) :
    linksOf w₀.tasks.length (ledger moves w₁) = [] := by
  let Barred (ds : List Deed) (w : World) : Prop :=
    call.context.verdict w.moment ≠ none ∧ linksOf w₀.tasks.length ds = [] ∧
      ((∃ c : CallTask, w.tasks[w₀.tasks.length]? = some (.call channel c) ∧
          c.opening? = some call ∧ callsOf w₀.tasks.length ds = []) ∨
        ∃ c, w.Handing w₀.tasks.length channel c ds)
  have hbarred : Barred (ledger moves w₁) w := by
    refine ledger_induct (P := Barred) ?_ ?_ ?_ hrun
    · rintro ds w i w' - ⟨hv, ho, hcase⟩ hs
      have hv' : call.context.verdict w'.moment ≠ none := by
        intro hn
        exact hv (Context.verdict_of_before (before_of_step? hs) hn)
      rcases hcase with ⟨c, ht, hopening, hn⟩ | ⟨c, h⟩
      · by_cases hi : i = w₀.tasks.length
        · subst hi
          have hcalls := callsOf_of_open ht (fun _ h => by rw [h] at hopening; cases hopening) w'
          cases (steps_of_step? hs).opens ht hopening with
          | failed ht' =>
            refine ⟨hv', by simp [ho, linksOf_of_unopened ht' rfl], .inr ⟨_, .waiting ht' ?_⟩⟩
            simp [hn, hcalls]
          | dialed _ hnone | connecting _ _ hnone | connected _ _ hnone => exact absurd hnone hv
        · obtain ⟨ht', hlinks, hcalls⟩ := (steps_of_step? hs).spares hi ht
          exact ⟨hv', by simp [ho, hlinks], .inl ⟨c, ht', hopening, by simp [hn, hcalls]⟩⟩
      · obtain ⟨h', hlinks⟩ := h.step hs
        exact ⟨hv', by simp [ho, hlinks], .inr ⟨c, h'⟩⟩
    · rintro ds w m ⟨hv, ho, hcase⟩ hm
      refine ⟨fun hn => hv (Context.verdict_of_before hm hn), ho, ?_⟩
      rcases hcase with h | ⟨c, h⟩
      · exact .inl h
      · exact .inr ⟨c, h.later m⟩
    · refine ⟨hv, rfl, .inl ⟨.dialing call client.codec host client.protocol, ?_, rfl, rfl⟩⟩
      rw [tasks_of_start hroute hstart]
      exact List.getElem?_concat_length ..
  exact hbarred.2.1

/-- A call to oneself that can be served enters the server with its first step. -/
theorem Own.enters {codec : Codec} {peer : PeerId} {site : Site} {args : Bytes} {ds : List Deed}
    (h : w.Own k channel call codec peer (some site) ds)
    (ha : call.encodeArgs codec = .ok args) (hi : invokedBy k ds = []) :
    ∃ w' n, w.step? k = some w' ∧ invokedBy k (ds ++ w.deeds w' k) = [n] ∧
      call.Entered codec peer site n := by
  cases h with
  | entering ht =>
    let inv : Invocation := { context := call.context, peer, service := call.service, args }
    have hs : w.step? k = some ((w.note site.number inv).setTask k
        (.call channel (.serving call codec (.ofInvocation site.server inv)))) := by
      rw [step?, ht]
      simp only [stepCall?, stepEntering, ha]
      rfl
    refine ⟨_, ⟨site.number, inv, inv.context.verdict w.moment⟩, hs, ?_, rfl, rfl, rfl, rfl, ha⟩
    rw [invokedBy_append, hi, invokedBy_deeds, answers?, ht, if_pos ⟨rfl, rfl⟩]
    exact List.drop_left
  | serving _ _ hi' => cases hi.symm.trans hi'
  | crashed _ hi' => exact absurd hi hi'
  | done _ hc =>
    rw [hi] at hc
    cases hc with
    | unserved hu =>
      cases hu with
      | unencodable he => cases ha.symm.trans he

/-- A call to oneself that is completed comes to what its invocation returned. -/
theorem Own.served {codec : Codec} {peer : PeerId} {site? : Option Site} {c : Call} {ds : List Deed}
    (h : w.Own k channel call codec peer site? ds) (hc : c ∈ callsOf k ds) :
    call.Served codec peer site? (invokedBy k ds) c := by
  cases h with
  | entering _ _ hn | serving _ _ _ _ _ hn | crashed _ _ hn =>
    rw [hn] at hc
    cases hc
  | done h hs => exact h.eq_of_mem hc ▸ hs

/-- Whatever its context, a call to oneself invokes the server, if there is one and the arguments
can be encoded, and is handed back with what the server returned. A call to a peer whose context is
done at the start opens no stream and invokes nobody; and if the context of one is done later,
before the call is, the next step of the call is its last, and it ends with the error of the
context. -/
theorem heeded_of_run? {client : Client} {w₀ w₁ : World} (hw : w₀.InOrder)
    (hfresh : call.replied = false) (hstart : w₀.start client call channel = .ok w₁)
    (hk : w₀.tasks.length = k) (hrun : run? moves w₁ = some w) :
    (client.isSelf call.dest = false →
      (call.context.verdict w₁.moment ≠ none →
        linksOf k (ledger moves w₁) = [] ∧ invokedFor k (ledger moves w₁) = []) ∧
      (w.InProgress k → call.context.verdict w.moment ≠ none → ∃ w' c,
        w.step? k = some w' ∧ w.Cut w' k channel call c (ledger moves w₁))) ∧
    (client.isSelf call.dest = true →
      (∀ site args, client.server = some site → call.encodeArgs client.codec = .ok args →
        invokedFor k (ledger moves w₁) = [] → ∃ w' n, w.step? k = some w' ∧
          invokedFor k (ledger moves w₁ ++ w.deeds w' k) = [n] ∧
          call.Entered client.codec client.id site n) ∧
      ∀ c ∈ callsOf k (ledger moves w₁),
        call.Served client.codec client.id client.server (invokedFor k (ledger moves w₁)) c) := by
  subst hk
  refine ⟨fun hself => ?_, fun hself => ?_⟩
  · obtain ⟨host, hroute, -⟩ := route_of_start hself hstart
    obtain ⟨-, hremote, hown⟩ := remote_of_run? hw hroute hstart hrun
    refine ⟨fun hv => ?_, fun hopen hv => hremote.cut hopen hfresh hv⟩
    have ho := unopened_of_run? hroute hstart hv hrun
    exact ⟨ho, (invokedFor_of_unopened ho).trans hown⟩
  · obtain ⟨hown, ho⟩ := own_of_run? hself hstart hrun
    rw [invokedFor_of_unopened ho]
    refine ⟨fun site args hs ha hi => ?_, fun c hc => hown.served hc⟩
    rw [hs] at hown
    obtain ⟨w', n, hstep, hn, he⟩ := hown.enters ha hi
    have ho' : linksOf w₀.tasks.length (ledger moves w₁ ++ w.deeds w' w₀.tasks.length) = [] := by
      rw [linksOf_append, ho, (hown.step hstep).2]
      rfl
    exact ⟨w', n, hstep, (invokedFor_of_unopened ho').trans hn, he⟩

/-- The question to oneself. -/
def musing : Call := { Receiving.question with dest := .here }

def hermit (server : Server) : Client := { alice with server := some ⟨9, server⟩ }

/-- A question to a peer that is given up before it starts, and one to oneself. -/
theorem heeded_given_up_before_start :
    (∃ w₁ w, ((evening fun _ => .never).fire (.root 0)).start alice Receiving.question 0 = .ok w₁ ∧
      run? [.step 1, .step 1] w₁ = some w ∧ invokedFor 1 (ledger [.step 1, .step 1] w₁) = []) ∧
    ∃ w₁ w c n, ((evening fun _ => .never).fire (.root 0)).start
        (hermit fun _ => .finish none (some [1])) musing 0 = .ok w₁ ∧
      run? [.step 1, .step 1, .step 1] w₁ = some w ∧
      invokedFor 1 (ledger [.step 1, .step 1, .step 1] w₁) = [n] ∧
      musing.Served .standard ⟨"alice"⟩ (some ⟨9, fun _ => .finish none (some [1])⟩) [n] c := by
  have hw : ((evening fun _ => .never).fire (.root 0)).InOrder := (inOrder_evening _).later _
  refine ⟨?_, ?_⟩
  · obtain ⟨w₁, w, hstart, hrun, hv⟩ : ∃ w₁ w,
        ((evening fun _ => .never).fire (.root 0)).start alice Receiving.question 0 = .ok w₁ ∧
          run? [.step 1, .step 1] w₁ = some w ∧
          Receiving.question.context.verdict w₁.moment = some .cancelled := ⟨_, _, rfl, rfl, rfl⟩
    have h := (heeded_of_run? hw rfl hstart rfl hrun).1 rfl
    exact ⟨w₁, w, hstart, hrun, (h.1 (hv ▸ Option.some_ne_none _)).2⟩
  · obtain ⟨w₁, w, c, n, hstart, hrun, hc, hn⟩ : ∃ w₁ w c n,
        ((evening fun _ => .never).fire (.root 0)).start (hermit fun _ => .finish none (some [1]))
            musing 0 = .ok w₁ ∧
          run? [.step 1, .step 1, .step 1] w₁ = some w ∧
          callsOf 1 (ledger [.step 1, .step 1, .step 1] w₁) = [c] ∧
          invokedFor 1 (ledger [.step 1, .step 1, .step 1] w₁) = [n] :=
      ⟨_, _, _, _, rfl, rfl, rfl, rfl⟩
    have h := (heeded_of_run? hw rfl hstart rfl hrun).2 rfl
    exact ⟨w₁, w, c, n, hstart, hrun, hn, hn ▸ h.2 c (hc ▸ List.mem_cons_self)⟩

/-- A call to oneself that is given up before it starts invokes the server and ends without an
error. One that is given up while it waits for a server that does not return goes on waiting. -/
theorem unheeded_own_call :
    (∃ w₁ w c n, ((evening fun _ => .never).fire (.root 0)).start
        (hermit fun _ => .finish none (some [1])) musing 0 = .ok w₁ ∧
      musing.context.verdict w₁.moment = some .cancelled ∧
      run? [.step 1, .step 1, .step 1] w₁ = some w ∧
      invokedFor 1 (ledger [.step 1, .step 1, .step 1] w₁) = [n] ∧
      callsOf 1 (ledger [.step 1, .step 1, .step 1] w₁) = [c] ∧ c.error = none) ∧
    ∃ w₁ w, (evening fun _ => .never).start (hermit fun _ => .never) musing 0 = .ok w₁ ∧
      run? [.step 1, .fire (.root 0)] w₁ = some w ∧ w.InProgress 1 ∧
      musing.context.verdict w.moment = some .cancelled ∧
      ∀ now, (w.atTime now).step? 1 = none :=
  ⟨⟨_, _, _, _, rfl, rfl, rfl, rfl, rfl, rfl⟩,
    ⟨_, _, rfl, rfl, ⟨0, _, rfl, fun _ h => by cases h⟩, rfl, fun _ => rfl⟩⟩

end World

end PeerCall
