/-!
# The SHA-1 digest

The message is padded to whole blocks of 64 bytes (`padded`), and each block is folded into a chain
of five 32-bit words. `sha1` gives the 20 bytes of the final chain.

Main statements: `padded_length_dvd` and `length_sha1`.
-/

namespace UniformLayout.Sha1

/-- The five chained words. -/
structure Chain where
  a : UInt32
  b : UInt32
  c : UInt32
  d : UInt32
  e : UInt32
  deriving DecidableEq, Repr

def Chain.start : Chain :=
  ⟨0x67452301, 0xEFCDAB89, 0x98BADCFE, 0x10325476, 0xC3D2E1F0⟩

/-- The word turned left by `count` bits, for counts between 1 and 31. -/
def turnLeft (word count : UInt32) : UInt32 :=
  (word <<< count) ||| (word >>> (32 - count))

/-- One round: round `t` takes the next word of the message schedule. -/
def Chain.round (t : Nat) (word : UInt32) (s : Chain) : Chain :=
  let (mix, constant) : UInt32 × UInt32 :=
    if t < 20 then ((s.b &&& s.c) ||| ((~~~ s.b) &&& s.d), 0x5A827999)
    else if t < 40 then (s.b ^^^ s.c ^^^ s.d, 0x6ED9EBA1)
    else if t < 60 then ((s.b &&& s.c) ||| (s.b &&& s.d) ||| (s.c &&& s.d), 0x8F1BBCDC)
    else (s.b ^^^ s.c ^^^ s.d, 0xCA62C1D6)
  { a := turnLeft s.a 5 + mix + s.e + constant + word
    b := s.a
    c := turnLeft s.b 30
    d := s.c
    e := s.d }

/-- The last `left` of the 80 rounds. `window` holds the next 16 words of the schedule, each of
which is made from four words before it. -/
def rounds : (left : Nat) → (window : List UInt32) → Chain → Chain
  | 0, _, s => s
  | left + 1, window, s =>
    let at_ (i : Nat) : UInt32 := window.getD i 0
    let next := turnLeft (at_ 13 ^^^ at_ 8 ^^^ at_ 2 ^^^ at_ 0) 1
    rounds left (window.tail ++ [next]) (s.round (79 - left) (at_ 0))

/-- The bytes of a block as words, most significant byte first. -/
def wordsOf : List UInt8 → List UInt32
  | b₀ :: b₁ :: b₂ :: b₃ :: rest =>
    ((b₀.toUInt32 <<< 24) ||| (b₁.toUInt32 <<< 16) ||| (b₂.toUInt32 <<< 8) ||| b₃.toUInt32)
      :: wordsOf rest
  | _ => []

def Chain.absorb (s : Chain) (block : List UInt8) : Chain :=
  let r := rounds 80 (wordsOf block) s
  ⟨s.a + r.a, s.b + r.b, s.c + r.c, s.d + r.d, s.e + r.e⟩

/-- `count` bytes of a number, most significant first. -/
def bigEndian (count value : Nat) : List UInt8 :=
  (List.range count).reverse.map fun i => UInt8.ofNat (value >>> (8 * i))

/-- The message, a one bit, zero bits, and the message's length in bits as 8 bytes. -/
def padded (message : List UInt8) : List UInt8 :=
  message ++ 0x80 :: List.replicate ((119 - message.length % 64) % 64) 0 ++
    bigEndian 8 (8 * message.length)

theorem padded_length_dvd (message : List UInt8) : 64 ∣ (padded message).length := by
  simp only [padded, bigEndian, List.length_append, List.length_cons, List.length_replicate,
    List.length_map, List.length_reverse, List.length_range]
  omega

/-- The chain after every block of `bytes`, of which there are `count`. -/
def absorbAll : (count : Nat) → List UInt8 → Chain → Chain
  | 0, _, s => s
  | count + 1, bytes, s => absorbAll count (bytes.drop 64) (s.absorb (bytes.take 64))

def sha1 (message : List UInt8) : List UInt8 :=
  let bytes := padded message
  let s := absorbAll (bytes.length / 64) bytes Chain.start
  [s.a, s.b, s.c, s.d, s.e].flatMap fun word => bigEndian 4 word.toNat

theorem length_sha1 (message : List UInt8) : (sha1 message).length = 20 := by
  simp [sha1, bigEndian]

end UniformLayout.Sha1
