import PeerCall.Schema
import PeerCall.Utf8

/-! # The wire format

Values as bytes: numbers little endian and of fixed width, lengths and counts as 64-bit words in
front of what they count, an option as a byte that tells whether a value follows, a shape as the
32-bit index of its case and then its fields. A character stands as its UTF-8 without a length.
Decoding reads a prefix and hands back the rest. -/

namespace PeerCall.Wire

/-- Why a value has no bytes, or bytes hold no value. -/
inductive Fault
  /-- The bytes end before or within a number, a tag or the first byte of a character. -/
  | ended
  /-- A length announces more bytes than there are. -/
  | short
  | badBool (byte : Nat)
  | badTag (byte : Nat)
  | badCase (index : Nat)
  | badText (fault : Utf8.Fault)
  | badChar
  /-- The number of elements is not known before the elements. -/
  | uncounted
  /-- The value refuses, for this reason. -/
  | refusal (reason : String)
  deriving Repr, DecidableEq, Inhabited

def Fault.message : Fault → String
  | ended => "io error: unexpected end of file"
  | short => "io error: "
  | badBool n => s!"invalid u8 while decoding bool, expected 0 or 1, found {n}"
  | badTag n => s!"tag for enum is not valid, found {n}"
  | badCase n => s!"invalid value: integer `{n}`, expected variant index 0 <= i < 4"
  | badText f => "string is not valid utf8: " ++ f.message
  | badChar => "char is not valid"
  | uncounted =>
    "Bincode can only encode sequences and maps that have a knowable size ahead of time"
  | refusal reason => reason

/-! ## Encoding -/

def encodeWord (w : Width) (v : BitVec w.bits) : Bytes := Bytes.ofNatLE w.bytes v.toNat

def encodeCount (n : Nat) : Bytes := Bytes.ofNatLE 8 n

/-- Bytes behind their length. -/
def encodeBytes (bs : Bytes) : Bytes := encodeCount bs.length ++ bs

/-- A text behind the length of its UTF-8. -/
def encodeString (s : String) : Bytes := encodeBytes (Bytes.ofString s)

/-- A byte that tells whether a value follows, and the value. -/
def encodeOption (enc : α → Except Fault Bytes) : Option α → Except Fault Bytes
  | none => .ok [0]
  | some a => do return 1 :: (← enc a)

/-- The elements one after the other; the first that fails decides. -/
def encodeAll (enc : α → Except Fault Bytes) (as : List α) : Except Fault Bytes := do
  return (← as.mapM enc).flatten

/-- One value after another. -/
def encodePair (enc : α → Except Fault Bytes) (enc' : β → Except Fault Bytes) (p : α × β) :
    Except Fault Bytes := do
  let first ← enc p.1
  return first ++ (← enc' p.2)

/-- A text or nothing. -/
def encodeNote : Option String → Bytes
  | none => [0]
  | some s => 1 :: encodeString s

/-- A shape: the index of its case, then its fields. -/
def encodeShape : Shape → Bytes
  | .empty => encodeWord .w32 0
  | .count n => encodeWord .w32 1 ++ encodeWord .w32 n
  | .pair a b => encodeWord .w32 2 ++ encodeWord .w8 a ++ encodeString b
  | .named x l => encodeWord .w32 3 ++ encodeWord .w16 x ++ encodeNote l

def encodeReading (r : Reading) : Bytes :=
  encodeString r.sensor ++ encodeCount r.values.length ++
    (r.values.map (encodeWord .w64)).flatten ++ encodeNote r.note

/-- The bytes of a value. -/
def encode : (t : Schema) → t.Carrier → Except Fault Bytes
  | .unit, _ => .ok []
  | .bool, b => .ok [if b then 1 else 0]
  | .word w _, v => .ok (encodeWord w v)
  | .char, c => .ok (String.utf8EncodeChar c)
  | .string, s => .ok (encodeString s)
  | .bytes, bs => .ok (encodeBytes bs)
  | .peerId, p => .ok (encodeString p.text)
  | .protocolId, p => .ok (encodeString p.text)
  | .serviceId, s => .ok (encodeString s.name ++ encodeString s.method)
  | .response, r => .ok (encodeString r.error)
  | .shape, s => .ok (encodeShape s)
  | .reading, r => .ok (encodeReading r)
  | .refusal, reason => .error (.refusal reason)
  | .option t, v => encodeOption (encode t) v
  | .seq t, vs => do return encodeCount vs.length ++ (← encodeAll (encode t) vs)
  | .unsized _, _ => .error .uncounted
  | .endTuple, _ => .ok []
  | .consTuple a b, p => encodePair (encode a) (encode b) p
  | .map k v, es => do
    return encodeCount es.length ++ (← encodeAll (encodePair (encode k) (encode v)) es)

/-! ## Decoding -/

/-- A reader of a prefix: the value and the bytes after it. -/
abbrev Reader (α : Type) := Bytes → Except Fault (α × Bytes)

def decodeWord (w : Width) : Reader (BitVec w.bits) := fun bs =>
  match bs.split? w.bytes with
  | some (front, rest) => .ok (BitVec.ofNat w.bits front.toNatLE, rest)
  | none => .error .ended

def decodeCount : Reader Nat := fun bs =>
  match bs.split? 8 with
  | some (front, rest) => .ok (front.toNatLE, rest)
  | none => .error .ended

/-- Bytes behind their length. -/
def decodeBytes : Reader Bytes := fun bs => do
  let (n, rest) ← decodeCount bs
  match rest.split? n with
  | some r => .ok r
  | none => .error .short

/-- A text behind the length of its UTF-8. -/
def decodeString : Reader String := fun bs => do
  let (text, rest) ← decodeBytes bs
  match Utf8.decode text with
  | .ok s => .ok (s, rest)
  | .error f => .error (.badText f)

def decodeChar : Reader Char
  | [] => .error .ended
  | b :: bs =>
    match Utf8.decodeChar? (b :: bs) with
    | some r => .ok r
    | none => .error .badChar

def decodeBool : Reader Bool
  | [] => .error .ended
  | b :: rest =>
    if b = 0 then .ok (false, rest)
    else if b = 1 then .ok (true, rest)
    else .error (.badBool b.toNat)

/-- A byte that tells whether a value follows, and the value. -/
def decodeOption (dec : Reader α) : Reader (Option α)
  | [] => .error .ended
  | b :: rest =>
    if b = 0 then .ok (none, rest)
    else if b = 1 then do
      let (a, rest) ← dec rest
      return (some a, rest)
    else .error (.badTag b.toNat)

/-- `n` values one after the other, behind those already read, which come last one first. -/
def decodeMany (dec : Reader α) : (n : Nat) → (before : List α) → Reader (List α)
  | 0, before, bs => .ok (before.reverse, bs)
  | n + 1, before, bs =>
    match dec bs with
    | .ok (a, rest) => decodeMany dec n (a :: before) rest
    | .error f => .error f

/-- Values behind their count. -/
def decodeAll (dec : Reader α) : Reader (List α) := fun bs => do
  let (n, rest) ← decodeCount bs
  decodeMany dec n [] rest

/-- One value after another. -/
def decodePair (dec : Reader α) (dec' : Reader β) : Reader (α × β) := fun bs => do
  let (a, rest) ← dec bs
  let (b, rest) ← dec' rest
  return ((a, b), rest)

def decodeShape : Reader Shape := fun bs => do
  let (index, rest) ← decodeWord .w32 bs
  match index.toNat with
  | 0 => return (.empty, rest)
  | 1 =>
    let (n, rest) ← decodeWord .w32 rest
    return (.count n, rest)
  | 2 =>
    let ((a, b), rest) ← decodePair (decodeWord .w8) decodeString rest
    return (.pair a b, rest)
  | 3 =>
    let ((x, l), rest) ← decodePair (decodeWord .w16) (decodeOption decodeString) rest
    return (.named x l, rest)
  | n => .error (.badCase n)

def decodeReading : Reader Reading := fun bs => do
  let (sensor, rest) ← decodeString bs
  let (values, rest) ← decodeAll (decodeWord .w64) rest
  let (note, rest) ← decodeOption decodeString rest
  return (⟨sensor, values, note⟩, rest)

/-- The value that a byte string begins with, and the bytes after it. -/
def decode : (t : Schema) → Reader t.Carrier
  | .unit, bs => .ok ((), bs)
  | .bool, bs => decodeBool bs
  | .word w _, bs => decodeWord w bs
  | .char, bs => decodeChar bs
  | .string, bs => decodeString bs
  | .bytes, bs => decodeBytes bs
  | .peerId, bs => do
    let (s, rest) ← decodeString bs
    return (⟨s⟩, rest)
  | .protocolId, bs => do
    let (s, rest) ← decodeString bs
    return (⟨s⟩, rest)
  | .serviceId, bs => do
    let ((name, method), rest) ← decodePair decodeString decodeString bs
    return (⟨name, method⟩, rest)
  | .response, bs => do
    let (s, rest) ← decodeString bs
    return (⟨s⟩, rest)
  | .shape, bs => decodeShape bs
  | .reading, bs => decodeReading bs
  | .refusal, bs => decodeString bs
  | .option t, bs => decodeOption (decode t) bs
  | .seq t, bs => decodeAll (decode t) bs
  | .unsized t, bs => decodeAll (decode t) bs
  | .endTuple, bs => .ok ((), bs)
  | .consTuple a b, bs => decodePair (decode a) (decode b) bs
  | .map k v, bs => decodeAll (decodePair (decode k) (decode v)) bs

end PeerCall.Wire
