/-!
# SHA-256

The hash function of FIPS 180-4 over lists of bytes. A digest identifies the content of a planning
problem through its JSON text; writing it in hexadecimal loses nothing (`hex_inj`). All recursion is
structural, so a proof can evaluate the digest of a short text.
-/

namespace LiftedPlanning.Sha256

structure Chain where
  a : UInt32
  b : UInt32
  c : UInt32
  d : UInt32
  e : UInt32
  f : UInt32
  g : UInt32
  h : UInt32

def Chain.initial : Chain :=
  ⟨0x6a09e667, 0xbb67ae85, 0x3c6ef372, 0xa54ff53a, 0x510e527f, 0x9b05688c, 0x1f83d9ab, 0x5be0cd19⟩

def roundConstants : List UInt32 := [
  0x428a2f98, 0x71374491, 0xb5c0fbcf, 0xe9b5dba5, 0x3956c25b, 0x59f111f1, 0x923f82a4, 0xab1c5ed5,
  0xd807aa98, 0x12835b01, 0x243185be, 0x550c7dc3, 0x72be5d74, 0x80deb1fe, 0x9bdc06a7, 0xc19bf174,
  0xe49b69c1, 0xefbe4786, 0x0fc19dc6, 0x240ca1cc, 0x2de92c6f, 0x4a7484aa, 0x5cb0a9dc, 0x76f988da,
  0x983e5152, 0xa831c66d, 0xb00327c8, 0xbf597fc7, 0xc6e00bf3, 0xd5a79147, 0x06ca6351, 0x14292967,
  0x27b70a85, 0x2e1b2138, 0x4d2c6dfc, 0x53380d13, 0x650a7354, 0x766a0abb, 0x81c2c92e, 0x92722c85,
  0xa2bfe8a1, 0xa81a664b, 0xc24b8b70, 0xc76c51a3, 0xd192e819, 0xd6990624, 0xf40e3585, 0x106aa070,
  0x19a4c116, 0x1e376c08, 0x2748774c, 0x34b0bcb5, 0x391c0cb3, 0x4ed8aa4a, 0x5b9cca4f, 0x682e6ff3,
  0x748f82ee, 0x78a5636f, 0x84c87814, 0x8cc70208, 0x90befffa, 0xa4506ceb, 0xbef9a3f7, 0xc67178f2]

def rotate (x n : UInt32) : UInt32 := (x >>> n) ||| (x <<< (32 - n))

/-- The word that follows the words of a schedule so far, the latest of which stands first. -/
def nextWord (w : List UInt32) : UInt32 :=
  let ago (back : Nat) : UInt32 := w.getD (back - 1) 0
  let s0 := rotate (ago 15) 7 ^^^ rotate (ago 15) 18 ^^^ (ago 15 >>> 3)
  let s1 := rotate (ago 2) 17 ^^^ rotate (ago 2) 19 ^^^ (ago 2 >>> 10)
  ago 16 + s0 + ago 7 + s1

/-- The sixty-four words made from the sixteen of a block. -/
def schedule (block : List UInt32) : List UInt32 :=
  ((List.range 48).foldl (fun w _ => nextWord w :: w) block.reverse).reverse

def round (s : Chain) (kw : UInt32 × UInt32) : Chain :=
  let s1 := rotate s.e 6 ^^^ rotate s.e 11 ^^^ rotate s.e 25
  let ch := (s.e &&& s.f) ^^^ ((~~~ s.e) &&& s.g)
  let t1 := s.h + s1 + ch + kw.1 + kw.2
  let s0 := rotate s.a 2 ^^^ rotate s.a 13 ^^^ rotate s.a 22
  let maj := (s.a &&& s.b) ^^^ (s.a &&& s.c) ^^^ (s.b &&& s.c)
  ⟨t1 + s0 + maj, s.a, s.b, s.c, s.d + t1, s.e, s.f, s.g⟩

def compress (s : Chain) (block : List UInt32) : Chain :=
  let r := (roundConstants.zip (schedule block)).foldl round s
  ⟨s.a + r.a, s.b + r.b, s.c + r.c, s.d + r.d, s.e + r.e, s.f + r.f, s.g + r.g, s.h + r.h⟩

/-- The low `n` bytes of a number, highest first. -/
def bigEndian (n value : Nat) : List UInt8 :=
  (List.range n).reverse.map fun i => UInt8.ofNat (value >>> (8 * i))

/-- A message with the end mark, zeros up to a whole block, and its length in bits. -/
def pad (message : List UInt8) : List UInt8 :=
  let zeros := (119 - message.length % 64) % 64
  message ++ 0x80 :: (List.replicate zeros 0 ++ bigEndian 8 (8 * message.length))

/-- The words that bytes write, four for each word and the highest first. -/
def words : List UInt8 → List UInt32
  | a :: b :: c :: d :: rest =>
    ((a.toUInt32 <<< 24) ||| (b.toUInt32 <<< 16) ||| (c.toUInt32 <<< 8) ||| d.toUInt32) ::
      words rest
  | _ => []

/-- The chaining value after `k` more blocks, which are of sixty-four bytes each. -/
def compressBlocks (s : Chain) : Nat → List UInt8 → Chain
  | 0, _ => s
  | k + 1, bytes => compressBlocks (compress s (words (bytes.take 64))) k (bytes.drop 64)

/-- The digest of a message, as thirty-two bytes. -/
def digest (message : List UInt8) : List UInt8 :=
  let padded := pad message
  let s := compressBlocks Chain.initial (padded.length / 64) padded
  [s.a, s.b, s.c, s.d, s.e, s.f, s.g, s.h].flatMap fun w => bigEndian 4 w.toNat

def hexDigits (b : UInt8) : List Char :=
  [Nat.digitChar (b.toNat / 16), Nat.digitChar (b.toNat % 16)]

/-- Two lower-case digits for each byte. -/
def hex (bytes : List UInt8) : String := String.ofList (bytes.flatMap hexDigits)

/-- The digest of the UTF-8 bytes of a text. -/
def textDigest (text : String) : List UInt8 := digest text.toUTF8.data.toList

def hexDigest (text : String) : String := hex (textDigest text)

theorem digitChar_inj : ∀ m < 16, ∀ n < 16, Nat.digitChar m = Nat.digitChar n → m = n := by decide

theorem hexDigits_inj {b c : UInt8} (h : hexDigits b = hexDigits c) : b = c := by
  obtain ⟨hhigh, hlow⟩ : Nat.digitChar (b.toNat / 16) = Nat.digitChar (c.toNat / 16) ∧
      Nat.digitChar (b.toNat % 16) = Nat.digitChar (c.toNat % 16) := by
    simpa [hexDigits] using h
  have hb := b.toNat_lt
  have hc := c.toNat_lt
  have hdiv := digitChar_inj _ (by omega) _ (by omega) hhigh
  have hmod := digitChar_inj _ (by omega) _ (by omega) hlow
  apply UInt8.toNat_inj.mp
  omega

theorem flatMap_hexDigits_inj {bs cs : List UInt8}
    (h : bs.flatMap hexDigits = cs.flatMap hexDigits) : bs = cs := by
  induction bs generalizing cs with
  | nil =>
    cases cs with
    | nil => rfl
    | cons c cs => cases h
  | cons b bs ih =>
    cases cs with
    | nil => cases h
    | cons c cs =>
      rw [List.flatMap_cons, List.flatMap_cons] at h
      obtain ⟨hbyte, hrest⟩ := List.append_inj h rfl
      rw [hexDigits_inj hbyte, ih hrest]

/-- Nothing is lost in hexadecimal. -/
theorem hex_inj {bs cs : List UInt8} : hex bs = hex cs ↔ bs = cs := by
  refine ⟨fun h => ?_, congrArg hex⟩
  apply flatMap_hexDigits_inj
  exact String.ofList_injective h

end LiftedPlanning.Sha256
