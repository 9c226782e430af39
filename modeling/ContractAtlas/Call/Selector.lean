/-! Four-byte selectors of function signatures: the first bytes of their Keccak-256 hash. -/
namespace ContractAtlas.Keccak

/-- Five by five lanes of 64 bits, row by row. -/
abbrev State := Vector UInt64 25

/-- The lane in column `x` and row `y`, both modulo five. -/
def lane (s : State) (x y : Nat) : UInt64 := s.get ⟨x % 5 + 5 * (y % 5), by omega⟩

def build (f : Nat → Nat → UInt64) : State := Vector.ofFn fun i => f (i.val % 5) (i.val / 5)

def rotateLeft (w : UInt64) (n : Nat) : UInt64 :=
  if n % 64 = 0 then w else (w <<< UInt64.ofNat (n % 64)) ||| (w >>> UInt64.ofNat (64 - n % 64))

/-- How far each lane is rotated. -/
def rotations : Vector Nat 25 := #v[
  0, 1, 62, 28, 27,
  36, 44, 6, 55, 20,
  3, 10, 43, 25, 39,
  41, 45, 15, 21, 8,
  18, 2, 61, 56, 14]

def roundConstants : List UInt64 := [
  0x0000000000000001, 0x0000000000008082, 0x800000000000808A, 0x8000000080008000,
  0x000000000000808B, 0x0000000080000001, 0x8000000080008081, 0x8000000000008009,
  0x000000000000008A, 0x0000000000000088, 0x0000000080008009, 0x000000008000000A,
  0x000000008000808B, 0x800000000000008B, 0x8000000000008089, 0x8000000000008003,
  0x8000000000008002, 0x8000000000000080, 0x000000000000800A, 0x800000008000000A,
  0x8000000080008081, 0x8000000000008080, 0x0000000080000001, 0x8000000080008008]

/-- Adds the parities of two neighbouring columns to every lane. -/
def mixColumns (s : State) : State :=
  let parity := fun x => lane s x 0 ^^^ lane s x 1 ^^^ lane s x 2 ^^^ lane s x 3 ^^^ lane s x 4
  build fun x y => lane s x y ^^^ parity (x + 4) ^^^ rotateLeft (parity (x + 1)) 1

/-- Rotates the lanes in themselves. -/
def rotateLanes (s : State) : State :=
  build fun x y => rotateLeft (lane s x y) (rotations.get ⟨x % 5 + 5 * (y % 5), by omega⟩)

/-- Moves the lanes to new places. -/
def permuteLanes (s : State) : State := build fun x y => lane s (x + 3 * y) x

/-- Combines each lane with the two after it in its row. -/
def mixRows (s : State) : State :=
  build fun x y => lane s x y ^^^ (~~~(lane s (x + 1) y) &&& lane s (x + 2) y)

def round (s : State) (constant : UInt64) : State :=
  let t := mixRows (permuteLanes (rotateLanes (mixColumns s)))
  build fun x y => if x = 0 ∧ y = 0 then lane t 0 0 ^^^ constant else lane t x y

def permute (s : State) : State := roundConstants.foldl round s

/-- Bytes per block. -/
def rate : Nat := 136

/-- The message filled up to whole blocks. -/
def pad (bytes : List UInt8) : List UInt8 :=
  let missing := rate - bytes.length % rate
  if missing = 1 then bytes ++ [0x81]
  else bytes ++ 0x01 :: List.replicate (missing - 2) 0 ++ [0x80]

/-- Eight bytes as a lane, least significant first. -/
def laneOfBytes (bytes : List UInt8) : UInt64 :=
  bytes.foldr (fun b w => (w <<< 8) ||| b.toUInt64) 0

/-- Takes in whole blocks, as many as `blocks` says. -/
def absorb : (blocks : Nat) → List UInt8 → State → State
  | 0, _, s => s
  | blocks + 1, bytes, s =>
    let block := bytes.take rate
    let mixed := build fun x y =>
      lane s x y ^^^ laneOfBytes ((block.drop (8 * (x + 5 * y))).take 8)
    absorb blocks (bytes.drop rate) (permute mixed)

/-- The first four bytes of the hash. -/
def firstFourBytes (bytes : List UInt8) : List UInt8 :=
  let padded := pad bytes
  let s := absorb (padded.length / rate) padded (build fun _ _ => 0)
  let w := lane s 0 0
  [w.toUInt8, (w >>> 8).toUInt8, (w >>> 16).toUInt8, (w >>> 24).toUInt8]

end ContractAtlas.Keccak

namespace ContractAtlas

private def hexPair (b : UInt8) : List Char :=
  [Nat.digitChar (b.toNat / 16), Nat.digitChar (b.toNat % 16)]

/-- The selector of a signature in hexadecimal. -/
def selectorOf (signature : String) : String :=
  "0x" ++ String.ofList ((Keccak.firstFourBytes signature.toUTF8.toList).flatMap hexPair)

end ContractAtlas
