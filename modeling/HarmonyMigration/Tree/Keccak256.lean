import HarmonyMigration.Lib.Slices

/-! `common.keccak256` in its pure Python form, which the source names the reference. -/

namespace HarmonyMigration.Keccak256

open Slices

def keccakRC : List UInt64 := [
  0x0000000000000001, 0x0000000000008082, 0x800000000000808A, 0x8000000080008000,
  0x000000000000808B, 0x0000000080000001, 0x8000000080008081, 0x8000000000008009,
  0x000000000000008A, 0x0000000000000088, 0x0000000080008009, 0x000000008000000A,
  0x000000008000808B, 0x800000000000008B, 0x8000000000008089, 0x8000000000008003,
  0x8000000000008002, 0x8000000000000080, 0x000000000000800A, 0x800000008000000A,
  0x8000000080008081, 0x8000000000008080, 0x0000000080000001, 0x8000000080008008]

def keccakRot : List (List ℕ) := [
  [0, 36, 3, 41, 18],
  [1, 44, 10, 45, 2],
  [62, 6, 43, 15, 61],
  [28, 55, 25, 21, 56],
  [27, 20, 39, 8, 14]]

def rotl64 (value : UInt64) (shift : ℕ) : UInt64 :=
  ⟨value.toBitVec.rotateLeft (shift % 64)⟩

/-- Lane `i` of the state. -/
def lane (state : List UInt64) (i : ℕ) : UInt64 := state.getD i 0

/-- One round of `_keccak_f`. -/
def keccakRound (state : List UInt64) (roundConstant : UInt64) : List UInt64 :=
  let c := (List.range 5).map fun x => lane state x ^^^ lane state (x + 5) ^^^ lane state (x + 10) ^^^
    lane state (x + 15) ^^^ lane state (x + 20)
  let d := (List.range 5).map fun x => lane c ((x + 4) % 5) ^^^ rotl64 (lane c ((x + 1) % 5)) 1
  let state := (List.range 25).map fun i => lane state i ^^^ lane d (i % 5)
  let b := (List.range 5).foldl (fun b x => (List.range 5).foldl (fun b y =>
    b.set (y + 5 * ((2 * x + 3 * y) % 5))
      (rotl64 (lane state (x + 5 * y)) ((keccakRot.getD x []).getD y 0))) b) (List.replicate 25 0)
  let state := (List.range 25).map fun i => lane b i ^^^
    (~~~lane b ((i % 5 + 1) % 5 + 5 * (i / 5)) &&& lane b ((i % 5 + 2) % 5 + 5 * (i / 5)))
  state.set 0 (lane state 0 ^^^ roundConstant)

def keccakF (state : List UInt64) : List UInt64 := keccakRC.foldl keccakRound state

/-- `int.from_bytes(block, "little")` of at most eight bytes. -/
def fromLittle (block : Bytes) : UInt64 :=
  block.foldr (fun byte n => n <<< 8 ||| byte.toUInt64) 0

/-- `to_bytes(8, "little")`. -/
def toLittle (w : UInt64) : Bytes := (List.range 8).map fun k => (w >>> (8 * k).toUInt64).toUInt8

/-- The message, `0x01`, zeros up to a multiple of the rate, and `0x80` into the last byte. -/
def pad (rate : ℕ) (data : Bytes) : Bytes :=
  let padded := data ++ [0x01]
  let padded := padded ++ List.replicate ((rate - padded.length % rate) % rate) 0
  padded.dropLast ++ padded.getLast?.toList.map (· ||| 0x80)

def absorb (state : List UInt64) (block : Bytes) : List UInt64 :=
  keccakF ((List.range 25).map fun i =>
    if i < 136 / 8 then lane state i ^^^ fromLittle (slice block (8 * i) (8 * i + 8))
    else lane state i)

def keccak256Pure (data : Bytes) : Bytes :=
  let state := (chunks 136 (pad 136 data)).foldl absorb (List.replicate 25 0)
  (List.range 4).flatMap fun i => toLittle (lane state i)

theorem keccak256Pure_length (data : Bytes) : (keccak256Pure data).length = 32 := by
  simp [keccak256Pure, toLittle, List.range_succ]

end HarmonyMigration.Keccak256
