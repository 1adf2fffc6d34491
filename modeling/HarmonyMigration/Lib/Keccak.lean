import Mathlib.Tactic

/-! An ideal hash over 32-byte chunks. A chunk is a number or an earlier digest,
so a preimage of `n` bytes is a list of `n / 32` chunks, and preimages of different
lengths are different lists. -/

namespace Keccak

/-- A 256-bit EVM word. -/
abbrev Word := BitVec 256

/-- A 160-bit address padded to a word. -/
def addressWord (a : BitVec 160) : Word := a.setWidth 256

theorem addressWord_injective : Function.Injective addressWord := by
  intro a b h
  have h1 := congrArg BitVec.toNat h
  simp only [addressWord, BitVec.toNat_setWidth] at h1
  exact BitVec.eq_of_toNat_eq (by omega)

/-- One 32-byte piece of a preimage. -/
inductive Chunk (D : Type*) where
  | word (w : Word)
  | digest (d : D)
  deriving DecidableEq

/-- A hash with digests in `D`, of which nothing is assumed; `zero` is the all-zero digest. -/
structure HashFn (D : Type*) where
  hash : List (Chunk D) → D
  zero : D

/-- An injective hash. -/
structure Hash (D : Type*) extends HashFn D where
  hash_injective : Function.Injective hash

instance {D : Type*} : CoeOut (Hash D) (HashFn D) := ⟨Hash.toHashFn⟩

namespace HashFn
variable {D : Type*} (K : HashFn D)

/-- The hash of two concatenated digests (64 bytes). -/
def pair (a b : D) : D := K.hash [.digest a, .digest b]

/-- The double hash of an ABI encoding: the outer preimage is one digest (32 bytes). -/
def double (words : List Word) : D := K.hash [.digest (K.hash (words.map .word))]

end HashFn

namespace Hash
variable {D : Type*} (K : Hash D)

theorem pair_injective2 : Function.Injective2 K.pair := by
  intro a c b d h
  simpa [HashFn.pair] using K.hash_injective h

theorem pair_ne_double (ws : List Word) (a b : D) : K.pair a b ≠ K.double ws := by
  intro h
  simpa using K.hash_injective h

theorem double_injective : Function.Injective K.double := by
  intro ws vs h
  have h1 : K.hash (ws.map .word) = K.hash (vs.map .word) := by
    simpa using K.hash_injective h
  exact List.map_injective_iff.mpr (fun _ _ hw => by simpa using hw) (K.hash_injective h1)

end Hash

/-- The number that stands for one chunk in `Hash.nat`. -/
def Chunk.code : Chunk ℕ → ℕ
  | .word w => 2 * w.toNat
  | .digest d => 2 * d + 1

theorem Chunk.code_injective : Function.Injective Chunk.code := by
  intro a b h
  cases a with
  | word w => cases b with
    | word v => simp only [code] at h; exact congrArg _ (BitVec.eq_of_toNat_eq (by omega))
    | digest e => simp only [code] at h; omega
  | digest d => cases b with
    | word v => simp only [code] at h; omega
    | digest e => simp only [code] at h; exact congrArg _ (by omega)

def natHash : List (Chunk ℕ) → ℕ
  | [] => 0
  | c :: rest => Nat.pair c.code (natHash rest) + 1

theorem natHash_injective : Function.Injective natHash := by
  intro l
  induction l with
  | nil => intro m h; cases m <;> simp [natHash] at h ⊢
  | cons c l ih =>
    intro m h
    cases m with
    | nil => simp [natHash] at h
    | cons c' m =>
      simp only [natHash, Nat.add_right_cancel_iff, Nat.pair_eq_pair] at h
      rw [Chunk.code_injective h.1, ih h.2]

/-- A computable instance: preimages paired into one natural number. -/
def Hash.nat : Hash ℕ := ⟨⟨natHash, 0⟩, natHash_injective⟩

end Keccak
