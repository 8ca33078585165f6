import PeerCall.Proofs.World.Calls
import PeerCall.Proofs.World.Seen

/-! # One call among others

Of many calls that were started together, one may be looked at (`Focus`). All tasks, links and
arrivals but those that other calls have brought about make up a world in which the call was started
alone (`World.Shadow`). Whatever a task does in the crowded world, the lone world can follow
(`World.Shadow.follows`). -/

namespace PeerCall

/-- The call that is looked at: how many tokens there were before it, its task and its channel where
it is alone, and its channel where it is one of many. -/
structure Focus where
  tokens : Nat
  task : Nat
  channel : Nat
  channel' : Nat

/-- A task at a place of the lone world and one at a place of the crowded world drive calls that are
handed back on these channels: both a call that was there before, or both the one that is looked
at. -/
def Focus.Routes (f : Focus) (j k ch ch' : Nat) : Prop :=
  (k = j ∧ ch' = ch ∧ ch < f.channel) ∨ (j = f.task ∧ ch = f.channel ∧ ch' = f.channel')

variable {f : Focus} {ts ls : List Nat} {j k link link' ch ch' : Nat}

/-! ## Tasks in two worlds -/

/-- The link that a call has. -/
def CallTask.link? : CallTask → Option Nat
  | greeting link _ => some link
  | exchanging link _ => some link
  | _ => none

theorem World.link?_of_taskOf {client : Client} {call : Call} {c : CallTask}
    (h : taskOf client call = .ok c) : c.link? = none := by
  unfold taskOf at h
  split at h <;> cases h <;> rfl

inductive CallTask.Like (ls : List Nat) : CallTask → CallTask → Prop
  | same {c} (hc : c.link? = none) : Like ls c c
  | greeting {link link' g} (hl : ls[link]? = some link') :
    Like ls (.greeting link g) (.greeting link' g)
  | exchanging {link link' x} (hl : ls[link]? = some link') :
    Like ls (.exchanging link x) (.exchanging link' x)

def Intake.Blind : Intake → Prop
  | serve site _ _ => site.server.Blind
  | play _ _ => True

/-- A task at a place of the lone world and the same at a place of the crowded world. -/
inductive Task.Like (f : Focus) (ls : List Nat) (j k : Nat) : Task → Task → Prop
  | call {ch ch' c c'} (hch : f.Routes j k ch ch') (hc : c.Like ls c') :
    Like f ls j k (.call ch c) (.call ch' c')
  | respond {owner link link' r r'} (hl : ls[link]? = some link') (hr : r.Like f.tokens r') :
    Like f ls j k (.respond owner link r) (.respond owner link' r')
  | accept {inbox intake} (hb : intake.Blind) :
    Like f ls j k (.accept inbox intake) (.accept inbox intake)
  | script {owner a a' s} (hl : ls[a.link]? = some a'.link) :
    Like f ls j k (.script owner a s) (.script owner a' s)
  | cancel {token ms wake} (ht : token.isMade f.tokens = true) :
    Like f ls j k (.cancel token ms wake) (.cancel token ms wake)
  | ended : Like f ls j k .ended .ended

/-- A task of the crowded world that another call has brought about. -/
structure Task.Foreign (f : Focus) (ls : List Nat) (t : Task) : Prop where
  apart : ∀ link s, t.end? = some (link, s) → link ∉ ls
  channel : ∀ ch c, t = .call ch c → f.channel ≤ ch ∧ ch ≠ f.channel'
  unaccepting : ∀ inbox intake, t ≠ .accept inbox intake
  uncancelling : ∀ token ms wake, t ≠ .cancel token ms wake

theorem getElem?_push {x : Nat} (h : ls[j]? = some k) : (ls ++ [x])[j]? = some k := by
  rw [List.getElem?_append_left (List.getElem?_eq_some_iff.mp h).1, h]

theorem CallTask.Like.push {c c' : CallTask} (h : c.Like ls c') : c.Like (ls ++ [link]) c' := by
  cases h with
  | same hc => exact .same hc
  | greeting hl => exact .greeting (getElem?_push hl)
  | exchanging hl => exact .exchanging (getElem?_push hl)

namespace Task

variable {t t' : Task}

/-- A link that is seen besides. -/
theorem Like.push (h : t.Like f ls j k t') : t.Like f (ls ++ [link]) j k t' := by
  cases h with
  | call hch hc => exact .call hch hc.push
  | respond hl hr => exact .respond (getElem?_push hl) hr
  | accept hb => exact .accept hb
  | script hl => exact .script (getElem?_push hl)
  | cancel ht => exact .cancel ht
  | ended => exact .ended

theorem Foreign.push (h : t.Foreign f ls) (hl : ∀ s, t.end? ≠ some (link, s)) :
    t.Foreign f (ls ++ [link]) := by
  refine ⟨fun link' s he hm => ?_, h.channel, h.unaccepting, h.uncancelling⟩
  rcases List.mem_append.mp hm with hm | hm
  · exact h.apart _ _ he hm
  · exact hl s (List.mem_singleton.mp hm ▸ he)

/-- A call goes on with the link that it has, or with none. -/
theorem Foreign.goesOn {c c' : CallTask} (h : (Task.call ch c).Foreign f ls)
    (he : ∀ link s, (Task.call ch c').end? = some (link, s) → link ∉ ls) :
    (Task.call ch c').Foreign f ls where
  apart := he
  channel := fun _ _ hc => by
    cases hc
    exact h.channel ch c rfl
  unaccepting := fun _ _ ha => by cases ha
  uncancelling := fun _ _ _ hc => by cases hc

theorem foreign_ended : Task.ended.Foreign f ls where
  apart _ _ he := by cases he
  channel _ _ hc := by cases hc
  unaccepting _ _ ha := by cases ha
  uncancelling _ _ _ hc := by cases hc

theorem foreign_respond {owner : Nat} {r : Responder} (hl : link ∉ ls) :
    (Task.respond owner link r).Foreign f ls where
  apart _ _ he := by cases he; exact hl
  channel _ _ hc := by cases hc
  unaccepting _ _ ha := by cases ha
  uncancelling _ _ _ hc := by cases hc

theorem foreign_script {owner : Nat} {a : Arrival} {s : Script} (hl : a.link ∉ ls) :
    (Task.script owner a s).Foreign f ls where
  apart _ _ he := by cases he; exact hl
  channel _ _ hc := by cases hc
  unaccepting _ _ ha := by cases ha
  uncancelling _ _ _ hc := by cases hc

end Task

/-! ## Lists in two worlds -/

/-- The links of the lone world are those of the crowded one that are seen. -/
structure LinksSeen (ls : List Nat) (A B : List Link) : Prop where
  length : ls.length = A.length
  nodup : ls.Nodup
  same : ∀ {j k : Nat}, ls[j]? = some k → A[j]? = B[k]?

/-- The tasks of the lone world are those of the crowded one at these places; all others are
foreign. -/
structure TasksSeen (f : Focus) (ts ls : List Nat) (A B : List Task) : Prop where
  length : ts.length = A.length
  nodup : ts.Nodup
  like : ∀ {j k : Nat}, ts[j]? = some k →
    ∃ t t', A[j]? = some t ∧ B[k]? = some t' ∧ t.Like f ls j k t'
  foreign : ∀ {k : Nat} {t : Task}, k ∉ ts → B[k]? = some t → t.Foreign f ls

/-- The channels that were there before are the same, and that of the call that is looked at. -/
structure ChannelsSeen (f : Focus) (A B : List (Channel Call)) : Prop where
  below : ∀ ch < f.channel, A[ch]? = B[ch]?
  own : A[f.channel]? = B[f.channel']?
  beyond : f.channel ≤ f.channel'

/-- What stands in a list with one more place stood there before, or is the last. -/
theorem getElem?_concat_cases {xs : List Nat} {x : Nat} (h : (xs ++ [x])[j]? = some k) :
    xs[j]? = some k ∨ (j = xs.length ∧ k = x) := by
  rw [List.getElem?_append] at h
  split at h
  · exact .inl h
  · obtain ⟨hlt, rfl⟩ := List.getElem?_eq_some_iff.mp h
    rw [List.length_singleton] at hlt
    exact .inr ⟨by omega, List.getElem_singleton ..⟩

theorem eq_of_getElem?_nodup {l : List Nat} (hl : l.Nodup) {i : Nat} (hj : l[j]? = some k)
    (hi : l[i]? = some k) : i = j :=
  ((List.getElem?_inj (List.getElem?_eq_some_iff.mp hi).1 hl).mp (hi.trans hj.symm))

namespace LinksSeen

variable {A B : List Link} {g : Link → Link} {l : Link}

theorem modify (h : LinksSeen ls A B) (hk : ls[j]? = some k) :
    LinksSeen ls (A.modify j g) (B.modify k g) where
  length := h.length.trans (List.length_modify ..).symm
  nodup := h.nodup
  same := fun {i n} hi => by
    have hiff : j = i ↔ k = n := by
      constructor
      · rintro rfl
        exact Option.some.inj (hk.symm.trans hi)
      · rintro rfl
        exact eq_of_getElem?_nodup h.nodup hi hk
    rw [List.getElem?_modify, List.getElem?_modify, h.same hi]
    simp only [hiff]

theorem modify_other (h : LinksSeen ls A B) (hk : k ∉ ls) : LinksSeen ls A (B.modify k g) where
  length := h.length
  nodup := h.nodup
  same := fun {i n} hi => by
    have hne : k ≠ n := by
      rintro rfl
      exact hk (List.mem_of_getElem? hi)
    rw [List.getElem?_modify_ne _ _ hne, h.same hi]

theorem set (h : LinksSeen ls A B) (hk : ls[j]? = some k) :
    LinksSeen ls (A.set j l) (B.set k l) := by
  rw [List.set_eq_modify, List.set_eq_modify]
  exact h.modify hk

theorem set_other (h : LinksSeen ls A B) (hk : k ∉ ls) : LinksSeen ls A (B.set k l) := by
  rw [List.set_eq_modify]
  exact h.modify_other hk

theorem lt (h : LinksSeen ls A B) (hk : k ∈ ls) : k < B.length := by
  obtain ⟨j, hj, hk⟩ := List.getElem_of_mem hk
  have hsame := h.same (List.getElem?_eq_some_iff.mpr ⟨hj, hk⟩)
  rw [List.getElem?_eq_getElem (h.length ▸ hj)] at hsame
  exact (List.getElem?_eq_some_iff.mp hsame.symm).1

theorem length_not_mem (h : LinksSeen ls A B) : B.length ∉ ls := fun hm =>
  Nat.lt_irrefl _ (h.lt hm)

/-- A link that both worlds have opened. -/
theorem push (h : LinksSeen ls A B) : LinksSeen (ls ++ [B.length]) (A ++ [l]) (B ++ [l]) where
  length := by rw [List.length_append, List.length_append, h.length]; rfl
  nodup := by
    refine List.nodup_append.mpr ⟨h.nodup, List.nodup_singleton _, ?_⟩
    rintro i hi _ (_ | ⟨_, ⟨⟩⟩) rfl
    exact h.length_not_mem hi
  same := fun {i n} hi => by
    rcases getElem?_concat_cases hi with hold | ⟨hlast, rfl⟩
    · rw [List.getElem?_append_left (h.length ▸ (List.getElem?_eq_some_iff.mp hold).1), h.same hold,
        List.getElem?_append_left (h.lt (List.mem_of_getElem? hold))]
    · rw [hlast.trans h.length, List.getElem?_concat_length, List.getElem?_concat_length]

/-- A link that another call has opened. -/
theorem push_other (h : LinksSeen ls A B) : LinksSeen ls A (B ++ [l]) where
  length := h.length
  nodup := h.nodup
  same := fun hi => by
    rw [List.getElem?_append_left (h.lt (List.mem_of_getElem? hi)), h.same hi]

end LinksSeen

namespace TasksSeen

variable {A B : List Task} {t t' : Task}

theorem lt (h : TasksSeen f ts ls A B) (hk : k ∈ ts) : k < B.length := by
  obtain ⟨j, hj, hk⟩ := List.getElem_of_mem hk
  obtain ⟨_, _, -, hB, -⟩ := h.like (List.getElem?_eq_some_iff.mpr ⟨hj, hk⟩)
  exact (List.getElem?_eq_some_iff.mp hB).1

theorem set (h : TasksSeen f ts ls A B) (hk : ts[j]? = some k) (ht : t.Like f ls j k t') :
    TasksSeen f ts ls (A.set j t) (B.set k t') where
  length := h.length.trans (List.length_set ..).symm
  nodup := h.nodup
  like := fun {i n} hi => by
    obtain ⟨t₀, t₀', hA, hB, hlike⟩ := h.like hi
    by_cases hij : j = i
    · subst hij
      cases hk.symm.trans hi
      exact ⟨t, t', List.getElem?_set_self (List.getElem?_eq_some_iff.mp hA).1,
        List.getElem?_set_self (List.getElem?_eq_some_iff.mp hB).1, ht⟩
    · have hkn : k ≠ n := by
        rintro rfl
        exact hij (eq_of_getElem?_nodup h.nodup hi hk)
      exact ⟨t₀, t₀', (List.getElem?_set_ne hij).trans hA, (List.getElem?_set_ne hkn).trans hB,
        hlike⟩
  foreign := fun {n t₀} hn hB => by
    have hkn : k ≠ n := by
      rintro rfl
      exact hn (List.mem_of_getElem? hk)
    exact h.foreign hn ((List.getElem?_set_ne hkn).symm.trans hB)

theorem set_other (h : TasksSeen f ts ls A B) (hk : k ∉ ts) (ht : t'.Foreign f ls) :
    TasksSeen f ts ls A (B.set k t') where
  length := h.length
  nodup := h.nodup
  like := fun {i n} hi => by
    have hkn : k ≠ n := by
      rintro rfl
      exact hk (List.mem_of_getElem? hi)
    rw [List.getElem?_set_ne hkn]
    exact h.like hi
  foreign := fun {n t₀} hn hB => by
    rw [List.getElem?_set] at hB
    split at hB
    · split at hB <;> cases hB
      exact ht
    · exact h.foreign hn hB

/-- A task that both worlds have begun. -/
theorem spawn (h : TasksSeen f ts ls A B) (ht : t.Like f ls A.length B.length t') :
    TasksSeen f (ts ++ [B.length]) ls (A ++ [t]) (B ++ [t']) where
  length := by rw [List.length_append, List.length_append, h.length]; rfl
  nodup := by
    refine List.nodup_append.mpr ⟨h.nodup, List.nodup_singleton _, ?_⟩
    rintro i hi _ (_ | ⟨_, ⟨⟩⟩) rfl
    exact Nat.lt_irrefl _ (h.lt hi)
  like := fun {i n} hi => by
    rcases getElem?_concat_cases hi with hold | ⟨hlast, rfl⟩
    · rw [List.getElem?_append_left (h.length ▸ (List.getElem?_eq_some_iff.mp hold).1),
        List.getElem?_append_left (h.lt (List.mem_of_getElem? hold))]
      exact h.like hold
    · rw [hlast.trans h.length, List.getElem?_concat_length, List.getElem?_concat_length]
      exact ⟨t, t', rfl, rfl, ht⟩
  foreign := fun {n t₀} hn hB => by
    rw [List.mem_append, not_or] at hn
    rw [List.getElem?_append] at hB
    split at hB
    · exact h.foreign hn.1 hB
    · obtain ⟨hlt, -⟩ := List.getElem?_eq_some_iff.mp hB
      rw [List.length_singleton] at hlt
      exact absurd (List.mem_singleton.mpr (by omega)) hn.2

/-- A task that another call has brought about. -/
theorem spawn_other (h : TasksSeen f ts ls A B) (ht : t'.Foreign f ls) :
    TasksSeen f ts ls A (B ++ [t']) where
  length := h.length
  nodup := h.nodup
  like := fun {i n} hi => by
    rw [List.getElem?_append_left (h.lt (List.mem_of_getElem? hi))]
    exact h.like hi
  foreign := fun {n t₀} hn hB => by
    rw [List.getElem?_append] at hB
    split at hB
    · exact h.foreign hn hB
    · cases List.mem_singleton.mp (List.mem_of_getElem? hB)
      exact ht

/-- A link that is seen besides. -/
theorem push (h : TasksSeen f ts ls A B)
    (hl : ∀ (k : Nat) (t : Task) (s : Side), B[k]? = some t → t.end? ≠ some (link, s)) :
    TasksSeen f ts (ls ++ [link]) A B where
  length := h.length
  nodup := h.nodup
  like := fun hi => by
    obtain ⟨t, t', hA, hB, hlike⟩ := h.like hi
    exact ⟨t, t', hA, hB, hlike.push⟩
  foreign := fun hn hB => (h.foreign hn hB).push fun s => hl _ _ s hB

end TasksSeen

namespace ChannelsSeen

variable {A B : List (Channel Call)} {g : Channel Call → Channel Call} {x : Channel Call}

theorem getElem? (h : ChannelsSeen f A B) (hr : f.Routes j k ch ch') : A[ch]? = B[ch']? := by
  rcases hr with ⟨-, rfl, hlt⟩ | ⟨-, rfl, rfl⟩
  · exact h.below _ hlt
  · exact h.own

theorem modify (h : ChannelsSeen f A B) (hr : f.Routes j k ch ch') :
    ChannelsSeen f (A.modify ch g) (B.modify ch' g) where
  below := fun n hn => by
    have hiff : ch = n ↔ ch' = n := by
      rcases hr with ⟨-, rfl, -⟩ | ⟨-, rfl, rfl⟩
      · exact .rfl
      · have := h.beyond
        omega
    rw [List.getElem?_modify, List.getElem?_modify, h.below n hn]
    simp only [hiff]
  own := by
    have hiff : ch = f.channel ↔ ch' = f.channel' := by
      rcases hr with ⟨-, rfl, hlt⟩ | ⟨-, rfl, rfl⟩
      · have := h.beyond
        omega
      · exact ⟨fun _ => rfl, fun _ => rfl⟩
    rw [List.getElem?_modify, List.getElem?_modify, h.own]
    simp only [hiff]
  beyond := h.beyond

theorem modify_other (h : ChannelsSeen f A B) (hch : f.channel ≤ ch ∧ ch ≠ f.channel') :
    ChannelsSeen f A (B.modify ch g) where
  below := fun n hn => by
    rw [List.getElem?_modify_ne _ _ (by omega), h.below n hn]
  own := by rw [List.getElem?_modify_ne _ _ hch.2, h.own]
  beyond := h.beyond

theorem set (h : ChannelsSeen f A B) (hr : f.Routes j k ch ch') :
    ChannelsSeen f (A.set ch x) (B.set ch' x) := by
  rw [List.set_eq_modify, List.set_eq_modify]
  exact h.modify hr

theorem set_other (h : ChannelsSeen f A B) (hch : f.channel ≤ ch ∧ ch ≠ f.channel') :
    ChannelsSeen f A (B.set ch x) := by
  rw [List.set_eq_modify]
  exact h.modify_other hch

end ChannelsSeen

end PeerCall
