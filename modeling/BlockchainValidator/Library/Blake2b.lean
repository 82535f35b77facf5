import BlockchainValidator.Library.Bytes

/-! # Blake2b, unkeyed, truncated to 256 bits

Words are natural numbers below `2 ^ 64`, and the state is a list of them.
-/

namespace BlockchainValidator.Blake2b

open Bytes

def initial : List Nat :=
  [0x6a09e667f3bcc908, 0xbb67ae8584caa73b, 0x3c6ef372fe94f82b, 0xa54ff53a5f1d36f1,
    0x510e527fade682d1, 0x9b05688c2b3e6c1f, 0x1f83d9abfb41bd6b, 0x5be0cd19137e2179]

def schedule : List (List Nat) :=
  [[0, 1, 2, 3, 4, 5, 6, 7, 8, 9, 10, 11, 12, 13, 14, 15],
    [14, 10, 4, 8, 9, 15, 13, 6, 1, 12, 0, 2, 11, 7, 5, 3],
    [11, 8, 12, 0, 5, 2, 15, 13, 10, 14, 3, 6, 7, 1, 9, 4],
    [7, 9, 3, 1, 13, 12, 11, 14, 2, 6, 5, 10, 4, 0, 15, 8],
    [9, 0, 5, 7, 2, 4, 10, 15, 14, 1, 11, 12, 6, 8, 3, 13],
    [2, 12, 6, 10, 0, 11, 8, 3, 4, 13, 7, 5, 15, 14, 1, 9],
    [12, 5, 1, 15, 14, 13, 4, 10, 0, 7, 6, 3, 9, 2, 8, 11],
    [13, 11, 7, 14, 12, 1, 3, 9, 5, 0, 15, 4, 8, 6, 2, 10],
    [6, 15, 14, 9, 11, 3, 0, 8, 12, 2, 13, 7, 1, 4, 10, 5],
    [10, 2, 8, 4, 7, 6, 1, 5, 15, 11, 9, 14, 3, 12, 13, 0],
    [0, 1, 2, 3, 4, 5, 6, 7, 8, 9, 10, 11, 12, 13, 14, 15],
    [14, 10, 4, 8, 9, 15, 13, 6, 1, 12, 0, 2, 11, 7, 5, 3]]

def add (left right : Nat) : Nat := (left + right) % 2 ^ 64

def rotateRight (word amount : Nat) : Nat :=
  (word >>> amount) ||| ((word <<< (64 - amount)) % 2 ^ 64)

def mixWords (x y a b c d : Nat) : Nat × Nat × Nat × Nat :=
  let a := add (add a b) x
  let d := rotateRight (d ^^^ a) 32
  let c := add c d
  let b := rotateRight (b ^^^ c) 24
  let a := add (add a b) y
  let d := rotateRight (d ^^^ a) 16
  let c := add c d
  let b := rotateRight (b ^^^ c) 63
  (a, b, c, d)

def mix (state : List Nat) (a b c d x y : Nat) : List Nat :=
  let (wordA, wordB, wordC, wordD) :=
    mixWords x y (state.getD a 0) (state.getD b 0) (state.getD c 0) (state.getD d 0)
  (((state.set a wordA).set b wordB).set c wordC).set d wordD

/-- The four columns, then the four diagonals. -/
def round (message state order : List Nat) : List Nat :=
  let word (index : Nat) := message.getD (order.getD index 0) 0
  let state := mix state 0 4 8 12 (word 0) (word 1)
  let state := mix state 1 5 9 13 (word 2) (word 3)
  let state := mix state 2 6 10 14 (word 4) (word 5)
  let state := mix state 3 7 11 15 (word 6) (word 7)
  let state := mix state 0 5 10 15 (word 8) (word 9)
  let state := mix state 1 6 11 12 (word 10) (word 11)
  let state := mix state 2 7 8 13 (word 12) (word 13)
  mix state 3 4 9 14 (word 14) (word 15)

def compress (chain : List Nat) (block : List UInt8) (consumed : Nat) (final : Bool) : List Nat :=
  let message := (List.range 16).map fun index => leValue ((block.drop (8 * index)).take 8)
  let state := chain ++ initial
  let state := state.set 12 (state.getD 12 0 ^^^ consumed)
  let state := if final then state.set 14 (state.getD 14 0 ^^^ (2 ^ 64 - 1)) else state
  let state := schedule.foldl (round message) state
  (List.range 8).map fun index =>
    chain.getD index 0 ^^^ state.getD index 0 ^^^ state.getD (index + 8) 0

/-- Compresses block by block; the last block is the one that ends the input. -/
def absorb : (blocks : Nat) → (chain : List Nat) → (consumed : Nat) → List UInt8 → List Nat
  | 0, chain, consumed, bytes => compress chain bytes (consumed + bytes.length) true
  | blocks + 1, chain, consumed, bytes =>
      absorb blocks (compress chain (bytes.take 128) (consumed + 128) false) (consumed + 128)
        (bytes.drop 128)

@[simp] theorem absorb_length (blocks : Nat) (chain : List Nat) (consumed : Nat)
    (bytes : List UInt8) : (absorb blocks chain consumed bytes).length = 8 := by
  induction blocks generalizing chain consumed bytes with
  | zero => simp [absorb, compress]
  | succ blocks ih => exact ih _ _ _

/-- The first word of the parameter block says: 32 bytes of digest, no key. -/
def finalize (bytes : List UInt8) : List.Vector UInt8 32 :=
  let chain := initial.set 0 (initial.getD 0 0 ^^^ 0x01010020)
  ⟨((absorb ((bytes.length - 1) / 128) chain 0 bytes).take 4).flatMap (leBytes 8), by
    simp [List.length_flatMap, absorb_length]⟩

end BlockchainValidator.Blake2b
