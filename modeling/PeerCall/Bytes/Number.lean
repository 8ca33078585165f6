import Mathlib.Algebra.Group.Nat.Defs
import PeerCall.Bytes

/-! # Numbers as bytes

A number below `256 ^ k` is the number of its `k` bytes, in either byte order, and `k` bytes have a
number below `256 ^ k`. Together with `ofNatLE_toNatLE` this makes the two determine each other. -/

namespace PeerCall.Bytes

theorem toNatLE_ofNatLE {k n : Nat} (h : n < 256 ^ k) : toNatLE (ofNatLE k n) = n := by
  induction k generalizing n with
  | zero => simp at h; simp [ofNatLE, toNatLE, h]
  | succ k ih =>
    have hd : n / 256 < 256 ^ k := by rw [Nat.pow_succ] at h; omega
    simp only [ofNatLE, toNatLE, ih hd, UInt8.toNat_ofNat']
    omega

theorem toNatLE_lt (bs : Bytes) : toNatLE bs < 256 ^ bs.length := by
  induction bs with
  | nil => simp [toNatLE]
  | cons b bs ih =>
    have hb : b.toNat < 256 := b.toNat_lt
    simp only [toNatLE, List.length_cons, Nat.pow_succ]
    omega

theorem toNatBE_lt (bs : Bytes) : toNatBE bs < 256 ^ bs.length := by
  have := toNatLE_lt bs.reverse
  rwa [List.length_reverse] at this

theorem toNatBE_ofNatBE {k n : Nat} (h : n < 256 ^ k) : toNatBE (ofNatBE k n) = n := by
  simp [toNatBE, ofNatBE, toNatLE_ofNatLE h]

end PeerCall.Bytes
