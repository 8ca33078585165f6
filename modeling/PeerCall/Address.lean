/-! # Addresses

Where a peer can be dialed: a host and a port. A host is a number of 32 or of 128 bits, so each has
one written form, but may be read from several. `Address.parse?` reads, `Address.text` writes. -/

namespace PeerCall

/-- A host of a network. -/
inductive HostNumber
  | short (n : BitVec 32)
  /-- The zone tells apart networks in which the same number is used. -/
  | long (n : BitVec 128) (zone : BitVec 32)
  deriving Repr, DecidableEq, Inhabited

structure Address where
  host : HostNumber
  port : BitVec 16
  deriving Repr, DecidableEq, Inhabited

namespace Address

/-- The number whose parts in some base are these, the highest first. -/
def join (base : Nat) (parts : List Nat) : Nat := parts.foldl (fun n p => n * base + p) 0

/-- The lowest `count` parts of a number in some base, the highest first, before others. -/
def split (base : Nat) : (count : Nat) → Nat → List Nat → List Nat
  | 0, _, after => after
  | count + 1, n, after => split base count (n / base) (n % base :: after)

/-- The parts of a short number, which are written in decimal with dots. -/
def octets (n : BitVec 32) : List Nat := split 256 4 n.toNat []

/-- The parts of a long number, which are written in hexadecimal with colons. -/
def groups (n : BitVec 128) : List Nat := split 65536 8 n.toNat []

@[simp] theorem length_split (base count n : Nat) (after : List Nat) :
    (split base count n after).length = count + after.length := by
  induction count generalizing n after with
  | zero => simp [split]
  | succ count ih =>
    rw [split, ih, List.length_cons]
    omega

@[simp] theorem length_octets (n : BitVec 32) : (octets n).length = 4 := length_split ..

@[simp] theorem length_groups (n : BitVec 128) : (groups n).length = 8 := length_split ..

/-! ## Writing -/

/-- How many zeros there are from a place on. -/
def zerosAt (gs : List Nat) (i : Nat) : Nat := ((gs.drop i).takeWhile (· == 0)).length

/-- Where the longest row of zeros begins; of several the first. -/
def longestZeros (gs : List Nat) : Nat :=
  (List.range gs.length).foldl (fun best i => if zerosAt gs best < zerosAt gs i then i else best) 0

/-- The text of a short number. -/
def dotted (n : BitVec 32) : String := ".".intercalate ((octets n).map toString)

/-- The text of groups, all of them. -/
def colons (gs : List Nat) : String :=
  ":".intercalate (gs.map fun g => String.ofList (Nat.toDigits 16 g))

/-- The text of a long number. Two colons stand for its longest row of zeros if that is more than
one. A short number in a long one is written as such. -/
def longText (n : BitVec 128) : String :=
  let gs := groups n
  if gs.take 6 = [0, 0, 0, 0, 0, 0xffff] then "::ffff:" ++ dotted (n.truncate 32)
  else
    let i := longestZeros gs
    let k := zerosAt gs i
    if k ≤ 1 then colons gs else colons (gs.take i) ++ "::" ++ colons (gs.drop (i + k))

def text (a : Address) : String :=
  let host := match a.host with
    | .short n => dotted n
    | .long n zone =>
      "[" ++ longText n ++ (if zone = 0 then "" else "%" ++ toString zone.toNat) ++ "]"
  host ++ ":" ++ toString a.port.toNat

/-! ## Reading -/

def digit? (base : Nat) (c : Char) : Option Nat :=
  let d :=
    if '0' ≤ c ∧ c ≤ '9' then c.toNat - '0'.toNat
    else if 'a' ≤ c ∧ c ≤ 'f' then c.toNat - 'a'.toNat + 10
    else if 'A' ≤ c ∧ c ≤ 'F' then c.toNat - 'A'.toNat + 10
    else base
  if d < base then some d else none

/-- The digits at the beginning of a text, and what follows. -/
def digits (base : Nat) : List Char → List Nat × List Char
  | [] => ([], [])
  | c :: cs =>
    match digit? base c with
    | none => ([], c :: cs)
    | some d =>
      let (ds, rest) := digits base cs
      (d :: ds, rest)

/-- Reads a number below `bound` that has digits which are in order. -/
def number? (base bound : Nat) (inOrder : List Nat → Bool) (cs : List Char) :
    Option (Nat × List Char) :=
  let (ds, rest) := digits base cs
  if ds ≠ [] ∧ inOrder ds ∧ join base ds < bound then some (join base ds, rest) else none

/-- Reads one character. -/
def skip? (c : Char) : List Char → Option (List Char)
  | [] => none
  | d :: cs => if d = c then some cs else none

/-- Reads an octet, in which zero may only lead if it is all. -/
def octet? (cs : List Char) : Option (Nat × List Char) :=
  number? 10 256 (fun ds => ds.length ≤ 3 && (ds.head? != some 0 || ds.length == 1)) cs

/-- Reads a group, which has four digits at most. -/
def group? (cs : List Char) : Option (Nat × List Char) :=
  number? 16 65536 (fun ds => ds.length ≤ 4) cs

/-- Reads a short number. -/
def dotted? (cs : List Char) : Option (BitVec 32 × List Char) := do
  let (a, cs) ← octet? cs
  let (b, cs) ← octet? (← skip? '.' cs)
  let (c, cs) ← octet? (← skip? '.' cs)
  let (d, cs) ← octet? (← skip? '.' cs)
  return (.ofNat 32 (join 256 [a, b, c, d]), cs)

/-- Reads groups as long as some come, at most `room`. A short number may come in place of the last
two of them. Tells whether one did. -/
def groupsFrom (leading : Bool) : (room : Nat) → List Char → List Nat × Bool × List Char
  | 0, cs => ([], false, cs)
  | room + 1, cs =>
    match if leading then some cs else skip? ':' cs with
    | none => ([], false, cs)
    | some body =>
      match if room = 0 then none else dotted? body with
      | some (n, rest) => (split 65536 2 n.toNat [], true, rest)
      | none =>
        match group? body with
        | none => ([], false, cs)
        | some (g, rest) =>
          let (gs, short, rest) := groupsFrom false room rest
          (g :: gs, short, rest)

/-- Reads a long number. Two colons, in one place, stand for as many zeros as are missing, at least
one. Nothing follows a short number but the end. -/
def long? (cs : List Char) : Option (BitVec 128 × List Char) :=
  let (head, short, rest) := groupsFrom true 8 cs
  if head.length = 8 then some (.ofNat 128 (join 65536 head), rest)
  else if short then none
  else
    match rest with
    | ':' :: ':' :: rest =>
      let (tail, _, rest) := groupsFrom true (7 - head.length) rest
      let zeros := List.replicate (8 - head.length - tail.length) 0
      some (.ofNat 128 (join 65536 (head ++ zeros ++ tail)), rest)
    | _ => none

/-- Reads a decimal number of so many bits. -/
def decimal? (bits bound : Nat) (cs : List Char) : Option (BitVec bits × List Char) :=
  (number? 10 bound (fun _ => true) cs).map fun (n, rest) => (.ofNat bits n, rest)

/-- Reads a zone, which is zero if it is not said. -/
def zone (cs : List Char) : BitVec 32 × List Char :=
  (do decimal? 32 4294967296 (← skip? '%' cs)).getD (0, cs)

def host? : List Char → Option (HostNumber × List Char)
  | '[' :: cs => do
    let (n, cs) ← long? cs
    let (zone, cs) := zone cs
    return (.long n zone, ← skip? ']' cs)
  | cs => (dotted? cs).map fun (n, cs) => (.short n, cs)

/-- Reads an address, which must be all of the text. -/
def parse? (s : String) : Option Address := do
  let (host, cs) ← host? s.toList
  let (port, rest) ← decimal? 16 65536 (← skip? ':' cs)
  if rest.isEmpty then some ⟨host, port⟩ else none

example : (parse? "[1:0:0:2::7.8.9.10]:0443").map text = some "[1::2:0:0:708:90a]:443" := by
  decide +kernel
example : (parse? "[::FFFF:c0a8:1%2]:1").map text = some "[::ffff:192.168.0.1%2]:1" := by
  decide +kernel
example : parse? "127.0.0.01:80" = none := by decide +kernel
example : parse? "[1::2::3]:80" = none := by decide +kernel

/-- An address on the machine itself. -/
def loopback : Address := ⟨.short (.ofNat 32 (join 256 [127, 0, 0, 1])), 0⟩

end Address

end PeerCall
