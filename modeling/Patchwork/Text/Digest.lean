/-! Digests of texts and of small numbers: 64 bits that spread the members of a set over a table. A
digest is mixed from words with fixed keys, so equal members have equal digests in every run. -/
namespace Patchwork.Text.Digest

/-- The low and the high half of the product, added without carry. -/
def foldedProduct (a b : UInt64) : UInt64 :=
  let product := a.toNat * b.toNat
  UInt64.ofNat product ^^^ UInt64.ofNat (product >>> 64)

def rotateLeft (w : UInt64) (bits : UInt64) : UInt64 :=
  (w <<< bits) ||| (w >>> ((64 - bits) % 64))

def factor : UInt64 := 6364136223846793005

/-- The fractional digits of π, in words. -/
def pad : UInt64 := 0x243F6A8885A308D3
def seed : UInt64 := 0x13198A2E03707344
def firstKey : UInt64 := 0xA4093822299F31D0
def secondKey : UInt64 := 0x082EFA98EC4E6C89

def mixWord (state word : UInt64) : UInt64 := foldedProduct (word ^^^ state) factor

def mixPair (state first second : UInt64) : UInt64 :=
  rotateLeft ((state + pad) ^^^ foldedProduct (first ^^^ firstKey) (second ^^^ secondKey)) 23

def finish (state : UInt64) : UInt64 := rotateLeft (foldedProduct state pad) (state &&& 63)

def word (bytes : List UInt8) : UInt64 :=
  UInt64.ofNat (bytes.foldr (fun b n => b.toNat + 256 * n) 0)

def lastWord (n : Nat) (bytes : List UInt8) : UInt64 := word (bytes.drop (bytes.length - n))

/-- Mixes in blocks of 16 bytes while more than 16 are left. -/
def mixBlocks : (blocks : Nat) → UInt64 → List UInt8 → UInt64
  | 0, state, _ => state
  | blocks + 1, state, bytes =>
      if bytes.length ≤ 16 then state
      else mixBlocks blocks (mixPair state (word (bytes.take 8)) (word ((bytes.drop 8).take 8)))
        (bytes.drop 16)

def mixBytes (state : UInt64) (bytes : List UInt8) : UInt64 :=
  let n := bytes.length
  let state := (state + UInt64.ofNat n) * factor
  if 16 < n then
    let tail := bytes.drop (n - 16)
    mixBlocks n (mixPair state (word (tail.take 8)) (word (tail.drop 8))) bytes
  else if 8 < n then mixPair state (word (bytes.take 8)) (lastWord 8 bytes)
  else if 4 ≤ n then mixPair state (word (bytes.take 4)) (lastWord 4 bytes)
  else if 2 ≤ n then mixPair state (word (bytes.take 2)) (lastWord 1 bytes)
  else mixPair state (word bytes) (word bytes)

def ofText (s : String) : UInt64 :=
  finish (mixWord (mixBytes seed s.toUTF8.data.toList) 0xFF)

def ofNumber (n : Nat) : UInt64 := finish (mixWord seed (UInt64.ofNat n))

end Patchwork.Text.Digest
