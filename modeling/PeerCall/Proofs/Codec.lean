import PeerCall.Codec
import PeerCall.Frame
import PeerCall.Proofs.Wire

/-! # Codecs that undo themselves

What the standard codec writes in front of arguments and replies, it reads back
(`Codec.standard_undoes_serviceId`, `Codec.standard_undoes_response`). Main statement:
`Codec.standard_decode_iff`, by which a value of any schema is read off just those bytes that begin
with its own. -/

namespace PeerCall

/-- Decoding undoes encoding for the values of a schema, as far as these fit into frames. -/
def Codec.Undoes (codec : Codec) (t : Schema) : Prop :=
  ∀ v bs, codec.encode t v = .ok bs → bs.length ≤ Frame.maxSize → codec.decode t bs = .ok v

theorem Wire.length_encodeString (s : String) :
    (encodeString s).length = 8 + (Bytes.ofString s).length := by
  simp [encodeString, encodeBytes, encodeCount]

namespace Codec

theorem standard_encode_eq_ok_iff {t : Schema} {v : t.Carrier} {out : Bytes} :
    standard.encode t v = .ok out ↔ Wire.encode t v = .ok out := by
  have hstandard : standard.encode t v =
      (Wire.encode t v).mapError fun f => .codec f.message := rfl
  rw [hstandard]
  cases Wire.encode t v with
  | ok bs => exact ⟨fun h => by cases h; rfl, fun h => by cases h; rfl⟩
  | error f => exact ⟨nofun, nofun⟩

theorem standard_decode_eq_ok_iff {t : Schema} {v : t.Carrier} {bs : Bytes} :
    standard.decode t bs = .ok v ↔ ∃ rest, Wire.decode t bs = .ok (v, rest) := by
  simp only [standard]
  split
  · rename_i w rest hd
    rw [hd]
    exact ⟨fun h => ⟨rest, by cases h; rfl⟩, fun ⟨_, h⟩ => by cases h; rfl⟩
  · rename_i hd
    rw [hd]
    exact ⟨nofun, nofun⟩

theorem standard_undoes {t : Schema} {v : t.Carrier} {bs : Bytes} (ht : t.isWritable = true)
    (hv : t.Fits v) (h : standard.encode t v = .ok bs) : standard.decode t bs = .ok v := by
  obtain ⟨out, ho, hr⟩ := (Wire.exact t ht).reads hv
  cases (standard_encode_eq_ok_iff.mp h).symm.trans ho
  have hbs := hr []
  rw [List.append_nil] at hbs
  exact standard_decode_eq_ok_iff.mpr ⟨[], hbs⟩

private theorem textFits_of_length_le {s : String}
    (h : (Wire.encodeString s).length ≤ Frame.maxSize) : Wire.TextFits s := by
  rw [Wire.length_encodeString] at h
  have : Frame.maxSize < 2 ^ 64 := by decide
  simp only [Wire.TextFits]
  omega

theorem standard_undoes_serviceId : standard.Undoes .serviceId := by
  intro v bs h hl
  have hb : bs = Wire.encodeString v.name ++ Wire.encodeString v.method := by
    cases h
    rfl
  rw [hb, List.length_append] at hl
  refine standard_undoes rfl ⟨textFits_of_length_le ?_, textFits_of_length_le ?_⟩ h
  · exact Nat.le_trans (Nat.le_add_right ..) hl
  · exact Nat.le_trans (Nat.le_add_left ..) hl

theorem standard_undoes_response : standard.Undoes .response := by
  intro v bs h hl
  have hb : bs = Wire.encodeString v.error := by
    cases h
    rfl
  exact standard_undoes rfl (textFits_of_length_le (hb ▸ hl)) h

/-! ## Values and the bytes that begin with them -/

/-- The bytes that are decoded as a value are just those that begin with its encoding. So decoding
undoes encoding, gives the bytes that it has used back when its result is encoded again, and fails on
all that is cut off early; and no two values share an encoding. -/
theorem standard_decode_iff (t : Schema) (ht : t.isWritable = true) :
    (∀ v, t.Fits v → ∃ out, standard.encode t v = .ok out ∧
      ∀ bs, standard.decode t bs = .ok v ↔ out <+: bs) ∧
    (∀ v bs, standard.decode t bs = .ok v → t.Fits v ∧
      ∃ out rest, standard.encode t v = .ok out ∧ Wire.decode t bs = .ok (v, rest) ∧
        bs = out ++ rest) ∧
    (∀ v w, t.Fits v → t.Fits w → standard.encode t v = standard.encode t w → v = w) ∧
    ∀ v out bs, t.Fits v → standard.encode t v = .ok out → bs <+: out → bs ≠ out →
      ∃ e, standard.decode t bs = .error e := by
  have hexact := Wire.exact t ht
  have hback (v : t.Carrier) (bs : Bytes) (h : standard.decode t bs = .ok v) : t.Fits v ∧
      ∃ out rest, standard.encode t v = .ok out ∧ Wire.decode t bs = .ok (v, rest) ∧
        bs = out ++ rest := by
    obtain ⟨rest, hd⟩ := standard_decode_eq_ok_iff.mp h
    obtain ⟨hv, out, he, hbs⟩ := hexact.canonical hd
    exact ⟨hv, out, rest, standard_encode_eq_ok_iff.mpr he, hd, hbs⟩
  have hbegins {v : t.Carrier} {out : Bytes} (hv : t.Fits v) (he : standard.encode t v = .ok out)
      (bs : Bytes) : standard.decode t bs = .ok v ↔ out <+: bs := by
    constructor
    · intro h
      obtain ⟨-, out', rest, he', -, hbs⟩ := hback v bs h
      cases he.symm.trans he'
      exact ⟨rest, hbs.symm⟩
    · rintro ⟨rest, rfl⟩
      obtain ⟨out', he', hr⟩ := hexact.reads hv
      cases (standard_encode_eq_ok_iff.mp he).symm.trans he'
      exact standard_decode_eq_ok_iff.mpr ⟨rest, hr rest⟩
  refine ⟨fun v hv => ?_, hback, fun v w hv hw he => ?_, fun v out bs hv he hp hne => ?_⟩
  · obtain ⟨out, he, -⟩ := hexact.reads hv
    have he := standard_encode_eq_ok_iff.mpr he
    exact ⟨out, he, hbegins hv he⟩
  · obtain ⟨out, ho, -⟩ := hexact.reads hv
    have ho := standard_encode_eq_ok_iff.mpr ho
    have hd := (hbegins hv ho out).mpr (List.prefix_refl out)
    exact Except.ok.inj (hd.symm.trans ((hbegins hw (he ▸ ho) out).mpr (List.prefix_refl out)))
  · cases hd : standard.decode t bs with
    | error e => exact ⟨e, rfl⟩
    | ok w =>
      -- what is decoded before the end would be decoded from all of the bytes as well
      obtain ⟨hw, out', rest, he', -, rfl⟩ := hback w bs hd
      have hall := (hbegins hw he' out).mpr ((List.prefix_append out' rest).trans hp)
      obtain rfl := Except.ok.inj (hall.symm.trans ((hbegins hv he out).mpr (List.prefix_refl out)))
      cases he.symm.trans he'
      exact absurd (hp.eq_of_length_le (by simp)) hne

/-- Two places for a service, one of them empty. -/
theorem standard_decode_optional_services :
    ∃ out, standard.encode (.seq (.option .serviceId)) [none, some ⟨"moon", "isFull"⟩] = .ok out ∧
      standard.decode (.seq (.option .serviceId)) (out ++ [7]) =
        .ok [none, some ⟨"moon", "isFull"⟩] := by
  have hv : (Schema.seq (.option .serviceId)).Fits [none, some ⟨"moon", "isFull"⟩] := by
    refine ⟨by decide, fun o ho => ?_⟩
    simp only [List.mem_cons, List.not_mem_nil, or_false] at ho
    rcases ho with rfl | rfl
    · exact nofun
    · rintro v ⟨⟩
      exact ⟨by simp +decide [Wire.TextFits], by simp +decide [Wire.TextFits]⟩
  obtain ⟨out, he, hd⟩ := (standard_decode_iff (.seq (.option .serviceId)) rfl).1 _ hv
  exact ⟨out, he, (hd _).mpr (List.prefix_append out [7])⟩

end Codec

end PeerCall
