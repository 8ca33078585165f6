import PeerCall.Bytes.Number
import PeerCall.Wire

/-! # The wire format is exact

An encoder and a reader are `Exact` for each other if the reader takes off the front of a byte string
just what the encoder writes, whatever stands behind, and takes nothing that the encoder would not
have written. Words, texts, characters and tags are, sequences, options and tuples are if their
elements are, and so is the whole format over every schema all of whose values have bytes (`exact`).
-/

namespace PeerCall

theorem Utf8.decode_eq_ok_iff {bs : Bytes} {s : String} :
    decode bs = .ok s ↔ bs = Bytes.ofString s := by
  rw [Bytes.ofString_eq, decode, String.fromUTF8?]
  constructor
  · intro h
    split at h
    · rename_i hs
      split at hs
      · cases hs
        cases h
        simp [String.fromUTF8]
      · cases hs
    · cases h
  · rintro rfl
    have hs : s.toByteArray.data.toList.toByteArray = s.toByteArray := ByteArray.ext (by simp)
    rw [hs, dif_pos s.isValidUTF8]
    rfl

theorem Utf8.decodeChar?_eq_some_iff {bs rest : Bytes} {c : Char} :
    decodeChar? bs = some (c, rest) ↔ bs = String.utf8EncodeChar c ++ rest := by
  have hlen : (String.utf8EncodeChar c).length ≤ 4 :=
    (String.length_utf8EncodeChar c).symm ▸ c.utf8Size_le_four
  rw [decodeChar?]
  constructor
  · intro h
    split at h
    · rename_i d hd
      cases h
      obtain ⟨tail, ht⟩ := ByteArray.exists_of_utf8DecodeChar?_eq_some hd
      have hfront : bs.take 4 = String.utf8EncodeChar c ++ tail.data.toList := by
        have := congrArg (fun a => a.data.toList) ht
        simpa using this
      have hprefix : String.utf8EncodeChar c <+: bs :=
        (List.prefix_append ..).trans (hfront ▸ List.take_prefix ..)
      exact (List.prefix_iff_eq_append.mp hprefix).symm
    · cases h
  · rintro rfl
    have hfront : ((String.utf8EncodeChar c ++ rest).take 4).toByteArray.utf8DecodeChar? 0 =
        some c := by
      rw [List.take_append, List.take_of_length_le hlen, List.toByteArray_append,
        ← List.utf8Encode_singleton]
      exact List.utf8DecodeChar?_utf8Encode_singleton_append
    rw [hfront]
    simp

namespace Wire

theorem bind_eq_ok {x : Except Fault α} {f : α → Except Fault β} :
    x >>= f = .ok b ↔ ∃ a, x = .ok a ∧ f a = .ok b := by
  cases x with
  | error e => exact ⟨nofun, nofun⟩
  | ok a => exact ⟨fun h => ⟨a, rfl, h⟩, fun ⟨_, ha, h⟩ => by cases ha; exact h⟩

/-! ## Exactness -/

/-- An encoder and a reader that belong together, for the values that fit. -/
structure Exact (enc : α → Except Fault Bytes) (dec : Reader α) (Fits : α → Prop) : Prop where
  reads : Fits a → ∃ out, enc a = .ok out ∧ ∀ rest, dec (out ++ rest) = .ok (a, rest)
  canonical : dec bs = .ok (a, rest) → Fits a ∧ ∃ out, enc a = .ok out ∧ bs = out ++ rest

section

variable {enc : α → Except Fault Bytes} {dec : Reader α} {Fits : α → Prop}
  {enc' : β → Except Fault Bytes} {dec' : Reader β} {Fits' : β → Prop}

/-- An encoder that never fails is exact if all answers of the reader can be told from it. -/
theorem exact_iff {enc : α → Bytes} :
    Exact (fun a => .ok (enc a)) dec Fits ↔
      ∀ bs a rest, dec bs = .ok (a, rest) ↔ Fits a ∧ bs = enc a ++ rest := by
  refine ⟨fun h bs a rest => ⟨fun hd => ?_, ?_⟩, fun h => ⟨fun ha => ?_, fun hd => ?_⟩⟩
  · obtain ⟨ha, out, ho, hb⟩ := h.canonical hd
    cases ho
    exact ⟨ha, hb⟩
  · rintro ⟨ha, rfl⟩
    obtain ⟨out, ho, hr⟩ := h.reads ha
    cases ho
    exact hr rest
  · exact ⟨_, rfl, fun _ => (h ..).mpr ⟨ha, rfl⟩⟩
  · exact ⟨((h ..).mp hd).1, _, rfl, ((h ..).mp hd).2⟩

theorem Exact.iso (h : Exact enc dec Fits) (f : α → β) (g : β → α) (hfg : ∀ b, f (g b) = b)
    (hgf : ∀ a, g (f a) = a) :
    Exact (fun b => enc (g b)) (fun bs => do let (a, rest) ← dec bs; return (f a, rest))
      (fun b => Fits (g b)) where
  reads {b} hb := by
    obtain ⟨out, ho, hr⟩ := h.reads hb
    refine ⟨out, ho, fun rest => bind_eq_ok.mpr ⟨_, hr rest, ?_⟩⟩
    exact congrArg (fun b => Except.ok (b, rest)) (hfg b)
  canonical hd := by
    obtain ⟨⟨a, rest⟩, ha, hb⟩ := bind_eq_ok.mp hd
    cases hb
    rw [hgf]
    exact h.canonical ha

theorem decodePair_eq_ok_iff {bs rest : Bytes} :
    decodePair dec dec' bs = .ok ((a, b), rest) ↔
      ∃ tail, dec bs = .ok (a, tail) ∧ dec' tail = .ok (b, rest) := by
  rw [decodePair, bind_eq_ok]
  constructor
  · rintro ⟨⟨a, tail⟩, ha, hd⟩
    obtain ⟨⟨b, rest⟩, hb, hd⟩ := bind_eq_ok.mp hd
    cases hd
    exact ⟨tail, ha, hb⟩
  · rintro ⟨tail, ha, hb⟩
    exact ⟨(a, tail), ha, bind_eq_ok.mpr ⟨(b, rest), hb, rfl⟩⟩

theorem exact_pair (h : Exact enc dec Fits) (h' : Exact enc' dec' Fits') :
    Exact (encodePair enc enc') (decodePair dec dec') (fun p => Fits p.1 ∧ Fits' p.2) where
  reads {p} hp := by
    obtain ⟨out, ho, hr⟩ := h.reads hp.1
    obtain ⟨out', ho', hr'⟩ := h'.reads hp.2
    refine ⟨out ++ out', ?_, fun rest => decodePair_eq_ok_iff.mpr ⟨out' ++ rest, ?_, hr' rest⟩⟩
    · simp only [encodePair, ho, ho']
      rfl
    · rw [List.append_assoc]
      exact hr _
  canonical {bs p rest} hd := by
    obtain ⟨tail, ha, hb⟩ := decodePair_eq_ok_iff.mp hd
    obtain ⟨hfits, out, ho, rfl⟩ := h.canonical ha
    obtain ⟨hfits', out', ho', rfl⟩ := h'.canonical hb
    refine ⟨⟨hfits, hfits'⟩, out ++ out', ?_, (List.append_assoc ..).symm⟩
    simp only [encodePair, ho, ho']
    rfl

theorem exact_option (h : Exact enc dec Fits) :
    Exact (encodeOption enc) (decodeOption dec) (fun o => ∀ a ∈ o, Fits a) where
  reads {o} ho := by
    cases o with
    | none => exact ⟨[0], rfl, fun rest => rfl⟩
    | some a =>
      obtain ⟨out, ho, hr⟩ := h.reads (ho a rfl)
      refine ⟨1 :: out, bind_eq_ok.mpr ⟨out, ho, rfl⟩, fun rest => ?_⟩
      exact bind_eq_ok.mpr ⟨_, hr rest, rfl⟩
  canonical {bs o rest} hd := by
    cases bs with
    | nil => cases hd
    | cons b bs =>
      rw [decodeOption] at hd
      split at hd
      · rename_i hb
        cases hd
        exact ⟨nofun, [0], rfl, by rw [hb]; rfl⟩
      · split at hd
        · rename_i hb
          obtain ⟨⟨a, rest'⟩, ha, hd⟩ := bind_eq_ok.mp hd
          cases hd
          obtain ⟨hfits, out, ho, rfl⟩ := h.canonical ha
          refine ⟨fun a' ha' => ?_, 1 :: out, bind_eq_ok.mpr ⟨out, ho, rfl⟩, by rw [hb]; rfl⟩
          cases ha'
          exact hfits
        · cases hd

/-! ## Sequences -/

theorem encodeAll_cons (enc : α → Except Fault Bytes) (a : α) (as : List α) :
    encodeAll enc (a :: as) = do return (← enc a) ++ (← encodeAll enc as) := by
  simp only [encodeAll, List.mapM_cons, bind_assoc, pure_bind, List.flatten_cons]

theorem encodeAll_ok (enc : α → Bytes) (as : List α) :
    encodeAll (fun a => .ok (enc a)) as = .ok (as.map enc).flatten := by
  induction as with
  | nil => rfl
  | cons a as ih =>
    rw [encodeAll_cons, ih]
    rfl

/-- Reading goes on behind the values that are there already. -/
theorem decodeMany_encodeAll (h : Exact enc dec Fits) {as : List α} (ha : ∀ a ∈ as, Fits a) :
    ∃ out, encodeAll enc as = .ok out ∧
      ∀ before rest, decodeMany dec as.length before (out ++ rest) =
        .ok (before.reverse ++ as, rest) := by
  induction as with
  | nil => exact ⟨[], rfl, fun before rest => by simp [decodeMany]⟩
  | cons a as ih =>
    obtain ⟨out, ho, hr⟩ := h.reads (ha a List.mem_cons_self)
    obtain ⟨out', ho', hr'⟩ := ih fun a' ha' => ha a' (List.mem_cons_of_mem _ ha')
    refine ⟨out ++ out', ?_, fun before rest => ?_⟩
    · rw [encodeAll_cons, ho, ho']
      rfl
    · simp [decodeMany, hr, hr']

theorem encodeAll_of_decodeMany (h : Exact enc dec Fits) {before as : List α}
    (hd : decodeMany dec n before bs = .ok (as, rest)) :
    ∃ as', as = before.reverse ++ as' ∧ as'.length = n ∧ (∀ a ∈ as', Fits a) ∧
      ∃ out, encodeAll enc as' = .ok out ∧ bs = out ++ rest := by
  induction n generalizing before bs with
  | zero =>
    cases hd
    exact ⟨[], by simp, rfl, nofun, [], rfl, rfl⟩
  | succ n ih =>
    rw [decodeMany] at hd
    split at hd
    · rename_i a rest' ha
      obtain ⟨hfits, out, ho, rfl⟩ := h.canonical ha
      obtain ⟨as', rfl, rfl, hall, out', ho', rfl⟩ := ih hd
      refine ⟨a :: as', by simp, rfl, ?_, out ++ out', ?_, (List.append_assoc ..).symm⟩
      · exact List.forall_mem_cons.mpr ⟨hfits, hall⟩
      · rw [encodeAll_cons, ho, ho']
        rfl
    · cases hd

end

/-! ## Words, texts and characters -/

theorem decodeWord_eq_ok_iff {w : Width} {v : BitVec w.bits} {bs rest : Bytes} :
    decodeWord w bs = .ok (v, rest) ↔ bs = encodeWord w v ++ rest := by
  have hpow : 2 ^ w.bits = 256 ^ w.bytes := by
    rw [Width.bits, Nat.pow_mul]
  have hlen : (encodeWord w v).length = w.bytes := Bytes.length_ofNatLE ..
  rw [decodeWord]
  constructor
  · intro h
    split at h
    · rename_i front rest' hs
      obtain ⟨rfl, hf⟩ := Bytes.split?_eq_some_iff.mp hs
      cases h
      have hlt : front.toNatLE < 2 ^ w.bits := by
        rw [hpow, ← hf]
        exact Bytes.toNatLE_lt front
      rw [encodeWord, BitVec.toNat_ofNat, Nat.mod_eq_of_lt hlt, ← hf, Bytes.ofNatLE_toNatLE]
    · cases h
  · rintro rfl
    rw [Bytes.split?_eq_some_iff.mpr ⟨rfl, hlen⟩]
    simp only [encodeWord, Bytes.toNatLE_ofNatLE (hpow ▸ v.isLt), BitVec.ofNat_toNat,
      BitVec.setWidth_eq]

theorem exact_word (w : Width) :
    Exact (fun v => .ok (encodeWord w v)) (decodeWord w) (fun _ => True) :=
  exact_iff.mpr fun _ _ _ => by rw [decodeWord_eq_ok_iff, true_and]

theorem decodeCount_eq_ok_iff {bs rest : Bytes} :
    decodeCount bs = .ok (n, rest) ↔ n < 2 ^ 64 ∧ bs = encodeCount n ++ rest := by
  have hpow : 2 ^ 64 = 256 ^ 8 := by decide
  rw [decodeCount, hpow]
  constructor
  · intro h
    split at h
    · rename_i front rest' hs
      obtain ⟨rfl, hf⟩ := Bytes.split?_eq_some_iff.mp hs
      cases h
      exact ⟨hf ▸ Bytes.toNatLE_lt front, by rw [encodeCount, ← hf, Bytes.ofNatLE_toNatLE]⟩
    · cases h
  · rintro ⟨hn, rfl⟩
    have hlen : (encodeCount n).length = 8 := Bytes.length_ofNatLE ..
    rw [Bytes.split?_eq_some_iff.mpr ⟨rfl, hlen⟩]
    simp only [encodeCount, Bytes.toNatLE_ofNatLE hn]

theorem decodeBytes_eq_ok_iff {bs out rest : Bytes} :
    decodeBytes bs = .ok (out, rest) ↔ out.length < 2 ^ 64 ∧ bs = encodeBytes out ++ rest := by
  rw [decodeBytes, bind_eq_ok]
  constructor
  · rintro ⟨⟨n, tail⟩, hn, hd⟩
    obtain ⟨hlt, rfl⟩ := decodeCount_eq_ok_iff.mp hn
    simp only at hd
    split at hd
    · rename_i r hs
      cases hd
      obtain ⟨rfl, rfl⟩ := Bytes.split?_eq_some_iff.mp hs
      exact ⟨hlt, (List.append_assoc ..).symm⟩
    · cases hd
  · rintro ⟨hlt, rfl⟩
    refine ⟨(out.length, out ++ rest), decodeCount_eq_ok_iff.mpr ⟨hlt, ?_⟩, ?_⟩
    · rw [encodeBytes, List.append_assoc]
    · simp only [Bytes.split?_append]

/-- A text whose length can be told. -/
def TextFits (s : String) : Prop := (Bytes.ofString s).length < 2 ^ 64

theorem decodeString_eq_ok_iff {bs rest : Bytes} {s : String} :
    decodeString bs = .ok (s, rest) ↔ TextFits s ∧ bs = encodeString s ++ rest := by
  rw [decodeString, bind_eq_ok]
  constructor
  · rintro ⟨⟨text, tail⟩, ht, hd⟩
    obtain ⟨hlt, rfl⟩ := decodeBytes_eq_ok_iff.mp ht
    simp only at hd
    split at hd
    · rename_i hs
      cases hd
      obtain rfl := Utf8.decode_eq_ok_iff.mp hs
      exact ⟨hlt, rfl⟩
    · cases hd
  · rintro ⟨hlt, rfl⟩
    refine ⟨_, decodeBytes_eq_ok_iff.mpr ⟨hlt, rfl⟩, ?_⟩
    simp only [Utf8.decode_eq_ok_iff.mpr rfl]

theorem exact_string : Exact (fun s => .ok (encodeString s)) decodeString TextFits :=
  exact_iff.mpr fun _ _ _ => decodeString_eq_ok_iff

theorem exact_unit : Exact (fun _ => .ok []) (fun bs => .ok ((), bs)) (fun _ => True) where
  reads _ := ⟨[], rfl, fun _ => rfl⟩
  canonical h := by
    cases h
    exact ⟨trivial, [], rfl, rfl⟩

theorem exact_bool : Exact (fun b => .ok [if b then 1 else 0]) decodeBool (fun _ => True) where
  reads {b} _ := ⟨_, rfl, fun _ => by cases b <;> rfl⟩
  canonical {bs b rest} hd := by
    cases bs with
    | nil => cases hd
    | cons byte bs =>
      rw [decodeBool] at hd
      split at hd
      · rename_i hb
        cases hd
        exact ⟨trivial, [0], rfl, by rw [hb]; rfl⟩
      · split at hd
        · rename_i hb
          cases hd
          exact ⟨trivial, [1], rfl, by rw [hb]; rfl⟩
        · cases hd

theorem decodeChar_eq_ok_iff {bs rest : Bytes} {c : Char} :
    decodeChar bs = .ok (c, rest) ↔ bs = String.utf8EncodeChar c ++ rest := by
  rw [← Utf8.decodeChar?_eq_some_iff]
  cases bs with
  | nil =>
    refine ⟨nofun, fun h => ?_⟩
    have hnil := List.append_eq_nil_iff.mp (Utf8.decodeChar?_eq_some_iff.mp h).symm
    exact absurd hnil.1 (String.utf8EncodeChar_ne_nil)
  | cons b bs =>
    rw [decodeChar]
    split
    · rename_i h
      rw [h]
      simp
    · rename_i h
      rw [h]
      exact ⟨nofun, nofun⟩

theorem exact_char :
    Exact (fun c => .ok (String.utf8EncodeChar c)) decodeChar (fun _ => True) :=
  exact_iff.mpr fun _ _ _ => by rw [decodeChar_eq_ok_iff, true_and]

/-! ## Counted sequences, shapes and readings -/

theorem exact_all {enc : α → Except Fault Bytes} {dec : Reader α} {Fits : α → Prop}
    (h : Exact enc dec Fits) :
    Exact (fun as => do return encodeCount as.length ++ (← encodeAll enc as)) (decodeAll dec)
      (fun as => as.length < 2 ^ 64 ∧ ∀ a ∈ as, Fits a) where
  reads {as} ha := by
    obtain ⟨out, ho, hr⟩ := decodeMany_encodeAll h ha.2
    refine ⟨encodeCount as.length ++ out, bind_eq_ok.mpr ⟨out, ho, rfl⟩, fun rest => ?_⟩
    have hn : decodeCount (encodeCount as.length ++ (out ++ rest)) = .ok (as.length, out ++ rest) :=
      decodeCount_eq_ok_iff.mpr ⟨ha.1, rfl⟩
    rw [List.append_assoc]
    exact bind_eq_ok.mpr ⟨_, hn, hr [] rest⟩
  canonical hd := by
    obtain ⟨⟨n, tail⟩, hn, hmany⟩ := bind_eq_ok.mp hd
    obtain ⟨as', has, rfl, hall, out, ho, rfl⟩ := encodeAll_of_decodeMany h hmany
    rw [List.reverse_nil, List.nil_append] at has
    subst has
    obtain ⟨hlt, rfl⟩ := decodeCount_eq_ok_iff.mp hn
    exact ⟨⟨hlt, hall⟩, _, bind_eq_ok.mpr ⟨out, ho, rfl⟩, (List.append_assoc ..).symm⟩

theorem exact_note : Exact (fun o => .ok (encodeNote o)) (decodeOption decodeString)
    (fun o => ∀ s ∈ o, TextFits s) := by
  have henc : (fun o => .ok (encodeNote o)) = encodeOption fun s => .ok (encodeString s) := by
    funext o
    cases o <;> rfl
  rw [henc]
  exact exact_option exact_string

/-- A shape whose text has a length that can be told. -/
def ShapeFits : Shape → Prop
  | .pair _ s => TextFits s
  | .named _ l => ∀ s ∈ l, TextFits s
  | _ => True

theorem decodeShape_encodeShape {s : Shape} (hs : ShapeFits s) (rest : Bytes) :
    decodeShape (encodeShape s ++ rest) = .ok (s, rest) := by
  have hword (w : Width) (v : BitVec w.bits) (rest : Bytes) :
      decodeWord w (encodeWord w v ++ rest) = .ok (v, rest) := decodeWord_eq_ok_iff.mpr rfl
  cases s with
  | empty => exact bind_eq_ok.mpr ⟨_, hword .w32 0 rest, rfl⟩
  | count n =>
    rw [encodeShape, List.append_assoc]
    exact bind_eq_ok.mpr ⟨_, hword .w32 1 _, bind_eq_ok.mpr ⟨_, hword .w32 n rest, rfl⟩⟩
  | pair a b =>
    have hb : decodeString (encodeString b ++ rest) = .ok (b, rest) :=
      decodeString_eq_ok_iff.mpr ⟨hs, rfl⟩
    simp only [encodeShape, List.append_assoc]
    refine bind_eq_ok.mpr ⟨_, hword .w32 2 _, bind_eq_ok.mpr ⟨((a, b), rest), ?_, rfl⟩⟩
    exact decodePair_eq_ok_iff.mpr ⟨_, hword .w8 a _, hb⟩
  | named x l =>
    have hl : decodeOption decodeString (encodeNote l ++ rest) = .ok (l, rest) :=
      (exact_iff.mp exact_note ..).mpr ⟨hs, rfl⟩
    simp only [encodeShape, List.append_assoc]
    refine bind_eq_ok.mpr ⟨_, hword .w32 3 _, bind_eq_ok.mpr ⟨((x, l), rest), ?_, rfl⟩⟩
    exact decodePair_eq_ok_iff.mpr ⟨_, hword .w16 x _, hl⟩

theorem encodeShape_of_decodeShape {bs rest : Bytes} {s : Shape}
    (hd : decodeShape bs = .ok (s, rest)) : ShapeFits s ∧ bs = encodeShape s ++ rest := by
  obtain ⟨⟨index, tail⟩, hi, hfields⟩ := bind_eq_ok.mp hd
  have hbs := decodeWord_eq_ok_iff.mp hi
  have hindex {k : BitVec Width.w32.bits} (hk : index.toNat = k.toNat) :
      bs = encodeWord .w32 k ++ tail := BitVec.eq_of_toNat_eq hk ▸ hbs
  simp only at hfields
  -- one case for each index that a shape can have
  split at hfields
  · rename_i hk
    cases hfields
    exact ⟨trivial, hindex (k := 0) hk⟩
  · rename_i hk
    obtain ⟨⟨n, rest'⟩, hn, hs⟩ := bind_eq_ok.mp hfields
    cases hs
    obtain rfl := decodeWord_eq_ok_iff.mp hn
    exact ⟨trivial, (hindex (k := 1) hk).trans (List.append_assoc ..).symm⟩
  · rename_i hk
    obtain ⟨⟨⟨a, b⟩, rest'⟩, hp, hs⟩ := bind_eq_ok.mp hfields
    cases hs
    obtain ⟨tail', ha, hb⟩ := decodePair_eq_ok_iff.mp hp
    obtain ⟨hfits, rfl⟩ := decodeString_eq_ok_iff.mp hb
    obtain rfl := decodeWord_eq_ok_iff.mp ha
    exact ⟨hfits, (hindex (k := 2) hk).trans (by simp only [encodeShape, List.append_assoc])⟩
  · rename_i hk
    obtain ⟨⟨⟨x, l⟩, rest'⟩, hp, hs⟩ := bind_eq_ok.mp hfields
    cases hs
    obtain ⟨tail', hx, hl⟩ := decodePair_eq_ok_iff.mp hp
    obtain ⟨hfits, rfl⟩ := (exact_iff.mp exact_note ..).mp hl
    obtain rfl := decodeWord_eq_ok_iff.mp hx
    exact ⟨hfits, (hindex (k := 3) hk).trans (by simp only [encodeShape, List.append_assoc])⟩
  · cases hfields

theorem exact_shape : Exact (fun s => .ok (encodeShape s)) decodeShape ShapeFits :=
  exact_iff.mpr fun _ _ _ =>
    ⟨encodeShape_of_decodeShape, fun h => h.2 ▸ decodeShape_encodeShape h.1 _⟩

/-- A reading whose texts and values have lengths that can be told. -/
def ReadingFits (r : Reading) : Prop :=
  TextFits r.sensor ∧ r.values.length < 2 ^ 64 ∧ ∀ s ∈ r.note, TextFits s

/-- The values of a reading behind their count. -/
theorem exact_values :
    Exact (fun vs => .ok (encodeCount vs.length ++ (vs.map (encodeWord .w64)).flatten))
      (decodeAll (decodeWord .w64)) (fun vs => vs.length < 2 ^ 64 ∧ ∀ v ∈ vs, True) := by
  have h := exact_all (exact_word .w64)
  simp only [encodeAll_ok] at h
  exact h

theorem decodeReading_eq_ok_iff {bs rest : Bytes} {r : Reading} :
    decodeReading bs = .ok (r, rest) ↔ ReadingFits r ∧ bs = encodeReading r ++ rest := by
  have hvalues := exact_iff.mp exact_values
  have hnote := exact_iff.mp exact_note
  rw [decodeReading, bind_eq_ok]
  constructor
  · rintro ⟨⟨sensor, tail⟩, hs, hd⟩
    obtain ⟨⟨values, tail'⟩, hv, hd⟩ := bind_eq_ok.mp hd
    obtain ⟨⟨note, rest'⟩, hn, hd⟩ := bind_eq_ok.mp hd
    cases hd
    obtain ⟨hfits'', rfl⟩ := (hnote ..).mp hn
    obtain ⟨hfits', rfl⟩ := (hvalues ..).mp hv
    obtain ⟨hfits, rfl⟩ := decodeString_eq_ok_iff.mp hs
    refine ⟨⟨hfits, hfits'.1, hfits''⟩, ?_⟩
    simp only [encodeReading, List.append_assoc]
    rfl
  · rintro ⟨⟨hfits, hfits', hfits''⟩, rfl⟩
    have hn := (hnote _ _ rest).mpr ⟨hfits'', rfl⟩
    have hv := (hvalues _ _ (encodeNote r.note ++ rest)).mpr ⟨⟨hfits', fun _ _ => trivial⟩, rfl⟩
    refine ⟨_, decodeString_eq_ok_iff.mpr ⟨hfits, ?_⟩, bind_eq_ok.mpr ⟨_, hv, ?_⟩⟩
    · simp only [encodeReading, List.append_assoc]
      rfl
    · exact bind_eq_ok.mpr ⟨_, hn, rfl⟩

theorem exact_reading : Exact (fun r => .ok (encodeReading r)) decodeReading ReadingFits :=
  exact_iff.mpr fun _ _ _ => decodeReading_eq_ok_iff

end Wire

/-! ## Schemas -/

/-- Whether all values of a schema have bytes: no part of it refuses, and none hides its length. -/
def Schema.isWritable : Schema → Bool
  | refusal => false
  | unsized _ => false
  | option t => t.isWritable
  | seq t => t.isWritable
  | consTuple a b => a.isWritable && b.isWritable
  | map k v => k.isWritable && v.isWritable
  | _ => true

/-- A value all of whose lengths and counts can be told. -/
def Schema.Fits : (t : Schema) → t.Carrier → Prop
  | string, s => Wire.TextFits s
  | bytes, bs => bs.length < 2 ^ 64
  | peerId, p => Wire.TextFits p.text
  | protocolId, p => Wire.TextFits p.text
  | serviceId, s => Wire.TextFits s.name ∧ Wire.TextFits s.method
  | response, r => Wire.TextFits r.error
  | shape, s => Wire.ShapeFits s
  | reading, r => Wire.ReadingFits r
  | option t, o => ∀ v ∈ o, t.Fits v
  | seq t, vs => vs.length < 2 ^ 64 ∧ ∀ v ∈ vs, t.Fits v
  | consTuple a b, p => a.Fits p.1 ∧ b.Fits p.2
  | map k v, es => es.length < 2 ^ 64 ∧ ∀ e ∈ es, k.Fits e.1 ∧ v.Fits e.2
  | _, _ => True

theorem Wire.exact (t : Schema) (ht : t.isWritable = true) :
    Exact (encode t) (decode t) t.Fits := by
  induction t with
  | unit | endTuple => exact exact_unit
  | bool => exact exact_bool
  | word w _ => exact exact_word w
  | char => exact exact_char
  | string => exact exact_string
  | bytes => exact exact_iff.mpr fun _ _ _ => decodeBytes_eq_ok_iff
  | peerId => exact exact_string.iso PeerId.mk PeerId.text (fun _ => rfl) (fun _ => rfl)
  | protocolId => exact exact_string.iso ProtocolId.mk ProtocolId.text (fun _ => rfl) (fun _ => rfl)
  | serviceId =>
    exact (exact_pair exact_string exact_string).iso (fun p => ServiceId.mk p.1 p.2)
      (fun s => (s.name, s.method)) (fun _ => rfl) (fun _ => rfl)
  | response => exact exact_string.iso Response.mk Response.error (fun _ => rfl) (fun _ => rfl)
  | shape => exact exact_shape
  | reading => exact exact_reading
  | refusal => cases ht
  | option t ih => exact exact_option (ih ht)
  | seq t ih => exact exact_all (ih ht)
  | unsized t => cases ht
  | consTuple a b iha ihb =>
    have hab := Bool.and_eq_true_iff.mp ht
    exact exact_pair (iha hab.1) (ihb hab.2)
  | map k v ihk ihv =>
    have hkv := Bool.and_eq_true_iff.mp ht
    exact exact_all (exact_pair (ihk hkv.1) (ihv hkv.2))

end PeerCall
