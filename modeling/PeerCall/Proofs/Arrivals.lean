import PeerCall.Network

/-! # Streams that wait to be accepted

Dialing puts an arrival into one inbox, and accepting takes one out (`Network.dial_eq_ok`,
`Network.receive_arrived`). So of all arrivals that belong to one link (`Network.arrivals`), those
of other links do not matter, and a link that arrived once is not accepted twice. -/

namespace PeerCall

/-- What one place of a list adds, the other places keep. -/
private theorem flatMap_set_of_getElem? {f : α → List β} {as : List α} (h : as[i]? = some a) :
    ∃ before after, as.flatMap f = before ++ f a ++ after ∧
      ∀ a', (as.set i a').flatMap f = before ++ f a' ++ after := by
  obtain ⟨hi, rfl⟩ := List.getElem?_eq_some_iff.mp h
  refine ⟨(as.take i).flatMap f, (as.drop (i + 1)).flatMap f, ?_, fun a' => ?_⟩
  · have hsplit : as = as.take i ++ as[i] :: as.drop (i + 1) := by
      rw [← List.drop_eq_getElem_cons hi, List.take_append_drop]
    rw [List.append_assoc, ← List.flatMap_cons, ← List.flatMap_append, ← hsplit]
  · rw [List.set_eq_take_append_cons_drop, if_pos hi]
    simp

/-- The inbox with one more stream to be accepted. -/
def Inbox.add (b : Inbox) (a : Arrival) : Inbox := { b with queue := b.queue ++ [a] }

namespace Directory

variable {κ α : Type} [DecidableEq κ] {d : Directory κ α}

/-- Every entry is the one that is known under its name. -/
def Tidy (d : Directory κ α) : Prop := ∀ e ∈ d.entries, d.get? e.1 = some e.2

theorem tidy_empty : ({} : Directory κ α).Tidy := nofun

theorem Tidy.erase (h : d.Tidy) (k : κ) : (d.erase k).Tidy := by
  intro e he
  obtain ⟨he, hk⟩ := List.mem_filter.mp he
  rw [get?_erase, if_neg (of_decide_eq_true hk)]
  exact h e he

theorem Tidy.insert (h : d.Tidy) (k : κ) (a : α) : (d.insert k a).Tidy := by
  intro e he
  rcases List.mem_cons.mp he with rfl | he
  · exact get?_insert_self ..
  · obtain ⟨he, hk⟩ := List.mem_filter.mp he
    rw [get?_insert, if_neg (of_decide_eq_true hk)]
    exact h e he

end Directory

namespace Network

/-- The arrivals of one link, wherever they wait. -/
def arrivals (n : Network) (link : Nat) : List Arrival :=
  n.inboxes.flatMap fun b => b.queue.filter (·.link = link)

variable {n n' : Network} {link i : Nat} {a : Arrival} {b : Inbox}

theorem dial_eq_ok (h : n.dial dialer peer protocol link = .ok n') : ∃ i inbox,
    n.inbox? peer = some i ∧ n.inboxes[i]? = some inbox ∧
      n' = { n with inboxes := n.inboxes.set i (inbox.add ⟨protocol, dialer, link⟩) } := by
  unfold dial at h
  split at h
  · cases h
  · rename_i i hi
    split at h
    · cases h
    · rename_i inbox hb
      split at h
      · cases h
        exact ⟨i, inbox, hi, hb, rfl⟩
      · cases h

theorem receive_arrived (h : n.receive i = (.arrived a, n')) : ∃ rest,
    n.inboxes[i]? = some ⟨a :: rest, true⟩ ∧
      n' = { n with inboxes := n.inboxes.set i ⟨rest, true⟩ } := by
  unfold receive at h
  split at h
  · cases h
  · rename_i inbox hb
    obtain ⟨queue, listening⟩ := inbox
    split at h
    · cases h
    · rename_i hl
      simp only [Bool.not_eq_true', Bool.not_eq_false] at hl
      subst hl
      simp only at h
      split at h
      · cases h
        exact ⟨_, hb, rfl⟩
      · split at h <;> cases h

/-- Asking in vain changes nothing. -/
theorem receive_of_not_arrived (h : n.receive i = (r, n')) (hr : ∀ a, r ≠ .arrived a) :
    n' = n := by
  unfold receive at h
  split at h
  · cases h
    rfl
  · split at h
    · cases h
      rfl
    · split at h
      · cases h
        exact absurd rfl (hr _)
      · cases h
        rfl

/-- An arrival that is accepted was waiting. -/
theorem mem_arrivals_of_receive (h : n.receive i = (.arrived a, n')) :
    a ∈ n.arrivals a.link := by
  obtain ⟨rest, hb, -⟩ := receive_arrived h
  refine List.mem_flatMap.mpr ⟨_, List.mem_of_getElem? hb, ?_⟩
  simp

/-- Dialing adds the one arrival of its link. -/
theorem arrivals_dial (h : n.dial dialer peer protocol link' = .ok n') (link : Nat)
    (hn : n.arrivals link = []) :
    n'.arrivals link = if link' = link then [⟨protocol, dialer, link'⟩] else [] := by
  obtain ⟨i, inbox, -, hb, rfl⟩ := dial_eq_ok h
  obtain ⟨before, after, heq, hset⟩ :=
    flatMap_set_of_getElem? (f := fun b : Inbox => b.queue.filter (·.link = link)) hb
  rw [arrivals, heq] at hn
  obtain ⟨hbefore, hafter⟩ := List.append_eq_nil_iff.mp hn
  obtain ⟨hbefore, hown⟩ := List.append_eq_nil_iff.mp hbefore
  rw [arrivals, hset, hbefore, hafter, Inbox.add, List.filter_append, hown]
  split <;> simp [*]

/-- Dialing for another link leaves the arrivals of a link alone. -/
theorem arrivals_dial_of_ne (h : n.dial dialer peer protocol link' = .ok n') (hne : link' ≠ link) :
    n'.arrivals link = n.arrivals link := by
  obtain ⟨i, inbox, -, hb, rfl⟩ := dial_eq_ok h
  obtain ⟨before, after, heq, hset⟩ :=
    flatMap_set_of_getElem? (f := fun b : Inbox => b.queue.filter (·.link = link)) hb
  rw [arrivals, arrivals, heq, hset, Inbox.add, List.filter_append]
  simp [hne]

/-- Accepting takes an arrival out of those of its link. -/
theorem arrivals_receive (h : n.receive i = (.arrived a, n')) (link : Nat) :
    ∃ before after, n'.arrivals link = before ++ after ∧
      n.arrivals link = before ++ (if a.link = link then [a] else []) ++ after := by
  obtain ⟨rest, hb, rfl⟩ := receive_arrived h
  obtain ⟨before, after, heq, hset⟩ :=
    flatMap_set_of_getElem? (f := fun b : Inbox => b.queue.filter (·.link = link)) hb
  refine ⟨before, rest.filter (·.link = link) ++ after, ?_, ?_⟩
  · rw [arrivals, hset, List.append_assoc]
  · rw [arrivals, heq]
    by_cases ha : a.link = link <;> simp [ha]

theorem arrivals_receive_of_ne (h : n.receive i = (.arrived a, n')) (hne : a.link ≠ link) :
    n'.arrivals link = n.arrivals link := by
  obtain ⟨before, after, ha, hb⟩ := arrivals_receive h link
  rw [ha, hb, if_neg hne, List.append_nil]

/-! ## One arrival -/

/-- An arrival is the only one of its link, and waits in this inbox. -/
structure Awaits (n : Network) (i : Nat) (a : Arrival) : Prop where
  arrivals : n.arrivals a.link = [a]
  place : ∀ j b, n.inboxes[j]? = some b → a ∈ b.queue → j = i

theorem not_mem_queue (hn : n.arrivals a.link = []) (hb : n.inboxes[i]? = some b) :
    a ∉ b.queue := by
  intro ha
  refine absurd hn (List.ne_nil_of_mem (a := a) ?_)
  refine List.mem_flatMap.mpr ⟨b, List.mem_of_getElem? hb, ?_⟩
  simpa using ha

/-- Who waits for an arrival that was just dialed. -/
theorem awaits_dial (h : n.dial dialer peer protocol link = .ok n') (hn : n.arrivals link = []) :
    ∃ i, n.inbox? peer = some i ∧ n'.Awaits i ⟨protocol, dialer, link⟩ := by
  obtain ⟨i, inbox, hi, hb, he⟩ := dial_eq_ok h
  refine ⟨i, hi, by rw [arrivals_dial h link hn, if_pos rfl], fun j b hj ha => ?_⟩
  rw [he, List.getElem?_set] at hj
  split at hj
  · exact Eq.symm ‹_›
  · exact absurd ha (not_mem_queue hn hj)

theorem Awaits.dial (h : n.Awaits i a) (hd : n.dial dialer peer protocol link = .ok n')
    (hne : link ≠ a.link) : n'.Awaits i a := by
  refine ⟨(arrivals_dial_of_ne hd hne).trans h.arrivals, fun j b hj ha => ?_⟩
  obtain ⟨j', inbox, -, hb, rfl⟩ := dial_eq_ok hd
  rw [List.getElem?_set] at hj
  split at hj
  · rename_i hjj
    split at hj <;> cases hj
    simp only [Inbox.add, List.mem_append, List.mem_singleton] at ha
    rcases ha with ha | rfl
    · exact hjj ▸ h.place _ _ hb ha
    · exact absurd rfl hne
  · exact h.place j b hj ha

theorem Awaits.receive (h : n.Awaits i a) (hr : n.receive j = (.arrived a', n'))
    (hne : a'.link ≠ a.link) : n'.Awaits i a := by
  refine ⟨(arrivals_receive_of_ne hr hne).trans h.arrivals, fun k b hk ha => ?_⟩
  obtain ⟨rest, hb, rfl⟩ := receive_arrived hr
  rw [List.getElem?_set] at hk
  split at hk
  · rename_i hjk
    split at hk <;> cases hk
    exact hjk ▸ h.place _ _ hb (List.mem_cons_of_mem _ ha)
  · exact h.place k b hk ha

/-- Who accepts the stream of an arrival accepts this one, from where it waits, and then none is
left. -/
theorem Awaits.received (h : n.Awaits i a) (hr : n.receive j = (.arrived a', n'))
    (ha : a'.link = a.link) : a' = a ∧ j = i ∧ n'.arrivals a.link = [] := by
  obtain ⟨before, after, hn', hn⟩ := arrivals_receive hr a.link
  rw [if_pos ha, h.arrivals, List.append_assoc] at hn
  obtain ⟨rest, hb, -⟩ := receive_arrived hr
  cases before with
  | cons =>
    simp only [List.cons_append, List.cons.injEq] at hn
    cases (List.append_eq_nil_iff.mp hn.2.symm).2
  | nil =>
    simp only [List.nil_append, List.cons_append, List.cons.injEq] at hn
    obtain ⟨rfl, rfl⟩ := hn
    exact ⟨rfl, h.place _ _ hb List.mem_cons_self, hn'⟩

/-! ## One inbox -/

theorem dial_of_listening {queue : List Arrival} (hi : n.inbox? peer = some i)
    (hb : n.inboxes[i]? = some ⟨queue, true⟩) : n.dial dialer peer protocol link = .ok
      { n with inboxes := n.inboxes.set i ⟨queue ++ [⟨protocol, dialer, link⟩], true⟩ } := by
  simp only [dial, hi, hb, if_true]

theorem listening_of_dial (h : n.dial dialer peer protocol link = .ok n') : ∃ i queue,
    n.inbox? peer = some i ∧ n.inboxes[i]? = some ⟨queue, true⟩ ∧
      n' = { n with inboxes := n.inboxes.set i ⟨queue ++ [⟨protocol, dialer, link⟩], true⟩ } := by
  obtain ⟨i, ⟨queue, listening⟩, hi, hb, rfl⟩ := dial_eq_ok h
  cases listening with
  | true => exact ⟨i, queue, hi, hb, rfl⟩
  | false => simp [dial, hi, hb] at h

theorem isCurrent_of_inbox? (h : n.inbox? p = some i) : n.isCurrent i = true := by
  unfold inbox? Directory.get? at h
  rw [isCurrent, List.any_eq_true]
  generalize n.members.entries = es at h
  induction es with
  | nil => cases h
  | cons e es ih =>
    rw [List.lookup_cons] at h
    split at h
    · cases h
      exact ⟨e, List.mem_cons_self, beq_self_eq_true _⟩
    · obtain ⟨e', he', hi⟩ := ih h
      exact ⟨e', List.mem_cons_of_mem _ he', hi⟩

/-- Where no name stands twice, an inbox is current exactly if somebody is dialed there. -/
theorem isCurrent_iff (h : n.members.Tidy) :
    n.isCurrent i = true ↔ ∃ p, n.inbox? p = some i := by
  refine ⟨fun hi => ?_, fun ⟨_, hp⟩ => isCurrent_of_inbox? hp⟩
  obtain ⟨e, he, hi⟩ := List.any_eq_true.mp hi
  exact ⟨e.1, (h e he).trans (congrArg some (eq_of_beq hi))⟩

/-- The streams that wait in an inbox. -/
def queue (n : Network) (i : Nat) : List Arrival := n.inboxes[i]?.elim [] Inbox.queue

/-- Whether somebody may still accept from an inbox. -/
def listens (n : Network) (i : Nat) : Bool := n.inboxes[i]?.any Inbox.listening

theorem inbox_of_listens (h : n.listens i = true) : n.inboxes[i]? = some ⟨n.queue i, true⟩ := by
  unfold listens at h
  unfold queue
  cases hb : n.inboxes[i]? with
  | none =>
    rw [hb] at h
    cases h
  | some b =>
    rw [hb] at h
    obtain ⟨queue, listening⟩ := b
    obtain rfl : listening = true := h
    rfl

theorem dial_of_unknown (hi : n.inbox? peer = none) :
    n.dial dialer peer protocol link = .error (.unknownPeer peer) := by
  rw [dial, hi]

theorem dial_of_not_listening (hi : n.inbox? peer = some i) (hl : ¬n.listens i = true) :
    n.dial dialer peer protocol link = .error (.notAccepting peer) := by
  unfold listens at hl
  cases hb : n.inboxes[i]? with
  | none => simp only [dial, hi, hb]
  | some b =>
    rw [hb] at hl
    simp only [dial, hi, hb]
    exact if_neg hl

/-- What accepting from an inbox brings. -/
theorem receive_of_listens (h : n.listens i = true) : n.receive i =
    match n.queue i with
    | a :: rest => (.arrived a, { n with inboxes := n.inboxes.set i ⟨rest, true⟩ })
    | [] => (if n.isCurrent i then .empty else .ended, n) := by
  rw [receive, inbox_of_listens h]
  rfl

/-- Who is dialed has one more stream that waits, and nobody else has. -/
theorem queue_dial (h : n.dial dialer peer protocol link = .ok n') (i : Nat) :
    n'.listens i = n.listens i ∧ n'.queue i =
      n.queue i ++ if n.inbox? peer = some i then [⟨protocol, dialer, link⟩] else [] := by
  obtain ⟨j, b, hj, hb, rfl⟩ := dial_eq_ok h
  rw [hj, listens, listens, queue, queue, List.getElem?_set]
  by_cases hij : j = i
  · subst hij
    rw [hb, if_pos rfl, if_pos rfl, if_pos (List.getElem?_eq_some_iff.mp hb).1]
    exact ⟨rfl, rfl⟩
  · rw [if_neg hij, if_neg fun he => hij (Option.some.inj he), List.append_nil]
    exact ⟨rfl, rfl⟩

/-- Who accepts takes the stream that has waited longest, and leaves other inboxes alone. -/
theorem queue_receive (h : n.receive j = (.arrived a, n')) (i : Nat) :
    n'.listens i = n.listens i ∧
      n.queue i = if j = i then a :: n'.queue i else n'.queue i := by
  obtain ⟨rest, hb, rfl⟩ := receive_arrived h
  rw [listens, listens, queue, queue, List.getElem?_set]
  by_cases hij : j = i
  · subst hij
    rw [hb, if_pos rfl, if_pos rfl, if_pos (List.getElem?_eq_some_iff.mp hb).1]
    exact ⟨rfl, rfl⟩
  · rw [if_neg hij, if_neg hij]
    exact ⟨rfl, rfl⟩

theorem queue_join (p : PeerId) (n : Network) (i : Nat) : (n.join p).2.queue i = n.queue i := by
  simp only [queue, join, List.getElem?_append]
  split
  · rfl
  · rename_i hi
    rw [List.getElem?_eq_none (Nat.le_of_not_lt hi)]
    cases i - n.inboxes.length <;> rfl

theorem listens_join (h : n.listens i = true) (p : PeerId) : (n.join p).2.listens i = true := by
  have hb := inbox_of_listens h
  rw [listens, join, List.getElem?_append_left (List.getElem?_eq_some_iff.mp hb).1, hb]
  rfl

/-- Who joins is there to accept. -/
theorem listens_join_iff (p : PeerId) (n : Network) (i : Nat) :
    (n.join p).2.listens i = true ↔ n.listens i = true ∨ i = n.inboxes.length := by
  refine ⟨fun h => ?_, fun h => h.elim (listens_join · p) fun hi => ?_⟩
  · simp only [listens, join, List.getElem?_append] at h
    split at h
    · exact .inl h
    · rename_i hi
      cases hd : i - n.inboxes.length with
      | zero => exact .inr (by omega)
      | succ d => simp [hd] at h
  · rw [hi, listens, join, List.getElem?_concat_length]
    rfl

theorem arrivals_join (p : PeerId) (n : Network) (link : Nat) :
    (n.join p).2.arrivals link = n.arrivals link := by
  simp [arrivals, join]

theorem Awaits.join (h : n.Awaits i a) (p : PeerId) : (n.join p).2.Awaits i a := by
  refine ⟨(arrivals_join ..).trans h.arrivals, fun j b hj ha => ?_⟩
  simp only [Network.join, List.getElem?_append] at hj
  split at hj
  · exact h.place j b hj ha
  · rw [List.mem_singleton.mp (List.mem_of_getElem? hj)] at ha
    cases ha

theorem mem_arrivals (h : a ∈ n.queue i) : a ∈ n.arrivals a.link := by
  unfold queue at h
  cases hb : n.inboxes[i]? with
  | none =>
    rw [hb] at h
    cases h
  | some b =>
    rw [hb] at h
    refine List.mem_flatMap.mpr ⟨b, List.mem_of_getElem? hb, ?_⟩
    simpa using h

/-! ## Giving an inbox up -/

/-- Who gives an inbox up is told whether there was one. -/
theorem close_fst (n : Network) (i : Nat) : (n.close i).1 = n.listens i := by
  unfold close listens
  cases n.inboxes[i]? <;> rfl

private theorem getElem?_close (n : Network) (j i : Nat) : (n.close j).2.2.inboxes[i]? =
    if j = i then n.inboxes[i]?.map fun _ => ⟨[], false⟩ else n.inboxes[i]? := by
  by_cases hij : j = i
  · subst hij
    rw [if_pos rfl, close]
    cases hj : n.inboxes[j]? with
    | none => exact hj
    | some b => exact List.getElem?_set_self (List.getElem?_eq_some_iff.mp hj).1
  · rw [if_neg hij, close]
    cases n.inboxes[j]? with
    | none => rfl
    | some b => exact List.getElem?_set_ne hij

theorem queue_close (n : Network) (j i : Nat) :
    (n.close j).2.2.queue i = if j = i then [] else n.queue i := by
  rw [queue, queue, getElem?_close]
  split
  · cases n.inboxes[i]? <;> rfl
  · rfl

theorem listens_close (n : Network) (j i : Nat) :
    (n.close j).2.2.listens i = if j = i then false else n.listens i := by
  rw [listens, listens, getElem?_close]
  split
  · cases n.inboxes[i]? <;> rfl
  · rfl

theorem members_close (n : Network) (i : Nat) : (n.close i).2.2.members = n.members := by
  unfold close
  cases n.inboxes[i]? <;> rfl

theorem length_close (n : Network) (i : Nat) :
    (n.close i).2.2.inboxes.length = n.inboxes.length := by
  unfold close
  cases n.inboxes[i]? with
  | none => rfl
  | some b => exact List.length_set ..

/-! ## Any change -/

/-- What can become of a network at once. -/
inductive Becomes (n : Network) : Network → Prop
  | same : Becomes n n
  | dialed {dialer peer : PeerId} {protocol : ProtocolId} {link : Nat} {n' : Network}
    (h : n.dial dialer peer protocol link = .ok n') : Becomes n n'
  | received {i : Nat} {a : Arrival} {n' : Network} (h : n.receive i = (.arrived a, n')) :
    Becomes n n'
  | joined {p : PeerId} : Becomes n (n.join p).2
  | parted {p : PeerId} : Becomes n (n.leave p)

namespace Becomes

theorem listens (h : n.Becomes n') (hl : n.listens i = true) : n'.listens i = true := by
  cases h with
  | same | parted => exact hl
  | dialed h => exact (queue_dial h i).1.trans hl
  | received h => exact (queue_receive h i).1.trans hl
  | joined => exact listens_join hl _

/-- An inbox that was dropped does not become current again. -/
theorem dropped (h : n.Becomes n') (hl : n.listens i = true) (hi : ∀ p, n.inbox? p ≠ some i)
    (p : PeerId) : n'.inbox? p ≠ some i := by
  cases h with
  | same => exact hi p
  | dialed h =>
    obtain ⟨_, _, -, -, rfl⟩ := dial_eq_ok h
    exact hi p
  | received h =>
    obtain ⟨_, -, rfl⟩ := receive_arrived h
    exact hi p
  | joined =>
    rw [inbox?_join]
    split
    · intro he
      have hlt := (List.getElem?_eq_some_iff.mp (inbox_of_listens hl)).1
      exact Nat.ne_of_lt hlt (Option.some.inj he).symm
    · exact hi p
  | parted =>
    rw [inbox?_leave]
    split
    · exact nofun
    · exact hi p

end Becomes

end Network

end PeerCall
