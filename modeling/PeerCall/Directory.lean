/-! # Directories

What is known under each name. Main statements: `get?_insert` and `get?_erase`, by which a change of
one entry is seen under its name and under no other. -/

namespace PeerCall

/-- For each name that is known, one thing. -/
structure Directory (κ α : Type) where
  entries : List (κ × α) := []
  deriving Repr, DecidableEq, Inhabited

namespace Directory

variable {κ α : Type} [DecidableEq κ]

/-- What is known under a name. -/
def get? (d : Directory κ α) (k : κ) : Option α := d.entries.lookup k

def erase (d : Directory κ α) (k : κ) : Directory κ α := ⟨d.entries.filter (·.1 ≠ k)⟩

/-- Records something under a name, in place of anything else. -/
def insert (d : Directory κ α) (k : κ) (a : α) : Directory κ α := ⟨(k, a) :: (d.erase k).entries⟩

/-- The directory of these entries. Of several for one name the last counts. -/
def ofList (es : List (κ × α)) : Directory κ α := es.foldl (fun d e => d.insert e.1 e.2) {}

@[simp] theorem get?_empty (k : κ) : ({} : Directory κ α).get? k = none := rfl

private theorem lookup_cons_ite (e : κ × α) (es : List (κ × α)) (k : κ) :
    (e :: es).lookup k = if k = e.1 then some e.2 else es.lookup k := by
  obtain ⟨k', a⟩ := e
  by_cases h : k = k'
  · subst h
    simp
  · have hb : (k == k') = false := by simp [h]
    simp [List.lookup_cons, h, hb]

theorem get?_erase (d : Directory κ α) (k k' : κ) :
    (d.erase k).get? k' = if k' = k then none else d.get? k' := by
  obtain ⟨es⟩ := d
  show (es.filter (·.1 ≠ k)).lookup k' = if k' = k then none else es.lookup k'
  induction es with
  | nil => simp
  | cons e es ih =>
    by_cases he : e.1 = k
    · rw [List.filter_cons_of_neg (by simp [he]), ih, lookup_cons_ite, he]
      by_cases hk : k' = k <;> simp [hk]
    · rw [List.filter_cons_of_pos (by simp [he]), lookup_cons_ite, lookup_cons_ite, ih]
      by_cases hk : k' = e.1
      · simp [hk, he]
      · simp [hk]

theorem get?_insert (d : Directory κ α) (k k' : κ) (a : α) :
    (d.insert k a).get? k' = if k' = k then some a else d.get? k' := by
  show ((k, a) :: (d.erase k).entries).lookup k' = _
  rw [lookup_cons_ite]
  change (if k' = k then some a else (d.erase k).get? k') = _
  rw [get?_erase]
  by_cases hk : k' = k <;> simp [hk]

@[simp] theorem get?_insert_self (d : Directory κ α) (k : κ) (a : α) :
    (d.insert k a).get? k = some a := by
  simp [get?_insert]

@[simp] theorem get?_erase_self (d : Directory κ α) (k : κ) : (d.erase k).get? k = none := by
  simp [get?_erase]

end Directory

end PeerCall
