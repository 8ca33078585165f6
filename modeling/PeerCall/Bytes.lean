/-! # Bytes

Byte strings, fixed-width numbers in either byte order, and the splitting of a known count of bytes
off the front. Main statements: `ofNatLE_toNatLE`, by which bytes are those of their number, and
`split?_eq_some_iff`, which says what is split off. -/

namespace PeerCall

/-- A byte string, first byte first. -/
abbrev Bytes := List UInt8

namespace Bytes

/-- The low `k` bytes of `n`, least significant first. -/
def ofNatLE : (k n : Nat) → Bytes
  | 0, _ => []
  | k + 1, n => UInt8.ofNat n :: ofNatLE k (n / 256)

/-- The number written least significant byte first. -/
def toNatLE : Bytes → Nat
  | [] => 0
  | b :: bs => b.toNat + 256 * toNatLE bs

/-- The low `k` bytes of `n`, most significant first. -/
def ofNatBE (k n : Nat) : Bytes := (ofNatLE k n).reverse

/-- The number written most significant byte first. -/
def toNatBE (bs : Bytes) : Nat := toNatLE bs.reverse

/-- The first `n` bytes of an array, and others behind them. -/
def ofArray (a : ByteArray) : (n : Nat) → n ≤ a.size → Bytes → Bytes
  | 0, _, rest => rest
  | n + 1, h, rest => ofArray a n (Nat.le_of_succ_le h) (a[n] :: rest)

/-- The UTF-8 encoding of a text. -/
def ofString (s : String) : Bytes := ofArray s.toByteArray _ (Nat.le_refl _) []

/-- The first `n` bytes and the rest, if there are that many. Only the bytes asked for are looked
at, so a huge `n` costs no more than the string is long. -/
def split? (n : Nat) (bs : Bytes) : Option (Bytes × Bytes) :=
  let front := bs.take n
  if front.length = n then some (front, bs.drop n) else none

/-- Whether there are at least `n` bytes. No more than these are looked at. -/
def reaches (n : Nat) (bs : Bytes) : Bool := n = 0 || !(bs.drop (n - 1)).isEmpty

/-! ## Texts -/

theorem ofArray_eq (a : ByteArray) (n : Nat) (h : n ≤ a.size) (rest : Bytes) :
    ofArray a n h rest = a.data.toList.take n ++ rest := by
  induction n generalizing rest with
  | zero => rfl
  | succ n ih =>
    have hn : n < a.data.toList.length := h
    rw [ofArray, ih, List.take_add_one, List.getElem?_eq_getElem hn]
    simp
    rfl

theorem ofString_eq (s : String) : ofString s = s.toByteArray.data.toList := by
  rw [ofString, ofArray_eq, List.append_nil]
  exact List.take_length

/-! ## Numbers -/

@[simp] theorem length_ofNatLE (k n : Nat) : (ofNatLE k n).length = k := by
  induction k generalizing n with
  | zero => rfl
  | succ k ih => simp [ofNatLE, ih]

@[simp] theorem length_ofNatBE (k n : Nat) : (ofNatBE k n).length = k := by
  simp [ofNatBE]

theorem ofNatLE_toNatLE (bs : Bytes) : ofNatLE bs.length (toNatLE bs) = bs := by
  induction bs with
  | nil => rfl
  | cons b bs ih =>
    have hb : b.toNat < 256 := b.toNat_lt
    have hq : (b.toNat + 256 * toNatLE bs) / 256 = toNatLE bs := by omega
    have hr : UInt8.ofNat (b.toNat + 256 * toNatLE bs) = b := by
      apply UInt8.toNat_inj.mp
      rw [UInt8.toNat_ofNat']
      omega
    simp [ofNatLE, toNatLE, hq, hr, ih]

theorem ofNatBE_toNatBE (bs : Bytes) : ofNatBE bs.length (toNatBE bs) = bs := by
  have := ofNatLE_toNatLE bs.reverse
  rw [List.length_reverse] at this
  simp [ofNatBE, toNatBE, this]

/-! ## Splitting -/

theorem split?_eq_some_iff {n : Nat} {bs front rest : Bytes} :
    split? n bs = some (front, rest) ↔ bs = front ++ rest ∧ front.length = n := by
  unfold split?
  dsimp only
  split
  · rename_i h
    constructor
    · rintro ⟨⟩
      exact ⟨(List.take_append_drop n bs).symm, h⟩
    · rintro ⟨rfl, rfl⟩
      simp
  · rename_i h
    constructor
    · intro hn; cases hn
    · rintro ⟨rfl, rfl⟩
      simp at h

@[simp] theorem split?_append (front rest : Bytes) :
    split? front.length (front ++ rest) = some (front, rest) :=
  split?_eq_some_iff.mpr ⟨rfl, rfl⟩

/-! ## Lengths -/

@[simp] theorem reaches_iff {n : Nat} {bs : Bytes} : bs.reaches n = true ↔ n ≤ bs.length := by
  rw [reaches, Bool.or_eq_true, decide_eq_true_iff, Bool.not_eq_true', List.isEmpty_eq_false_iff,
    ne_eq, List.drop_eq_nil_iff]
  omega

theorem take_ne_nil {n : Nat} {bs : Bytes} (hn : 0 < n) (hb : bs ≠ []) : bs.take n ≠ [] := by
  rw [ne_eq, List.take_eq_nil_iff]
  exact fun h => h.elim (Nat.ne_of_gt hn) hb

end Bytes

end PeerCall
