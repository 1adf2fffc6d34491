import HarmonyMigration.Lib.Slices

/-! The ABI encoding of arguments: a head of one word each, and behind it the bytes of the
dynamic arguments, to which their heads point. -/

namespace Abi
open Slices

/-- An argument. A static one is its 32 bytes. -/
inductive Arg
  | static (word : Bytes)
  | bytes (data : Bytes)

def word (n : ℕ) : Bytes := toBytes 32 n

/-- Zeros up to a whole word. -/
def padding (n : ℕ) : ℕ := (32 - n % 32) % 32

namespace Arg

/-- What stands in the head, if the argument's own bytes are at `at`. -/
def head (place : ℕ) : Arg → Bytes
  | static w => w
  | bytes _ => word place

def tail : Arg → Bytes
  | static _ => []
  | bytes data => word data.length ++ data ++ List.replicate (padding data.length) 0

@[simp] theorem tail_static (w : Bytes) : (static w).tail = [] := rfl

/-- A static argument fills its word. -/
def Fits : Arg → Prop
  | static w => w.length = 32
  | bytes _ => True

theorem length_head {a : Arg} (h : a.Fits) (place : ℕ) : (a.head place).length = 32 := by
  cases a with
  | static w => exact h
  | bytes data => exact length_toBytes 32 place

end Arg

def tails (args : List Arg) : Bytes := args.flatMap Arg.tail

/-- The heads, when the tails written before them end at `place`. -/
def heads : ℕ → List Arg → Bytes
  | _, [] => []
  | place, a :: args => a.head place ++ heads (place + a.tail.length) args

def encode (args : List Arg) : Bytes := heads (32 * args.length) args ++ tails args

/-! ### Where an argument is -/

section Places

variable {args before after : List Arg} {a : Arg} {data : Bytes}

theorem tails_append (before after : List Arg) : tails (before ++ after) = tails before ++ tails after :=
  List.flatMap_append

theorem heads_append (place : ℕ) (before after : List Arg) :
    heads place (before ++ after) = heads place before ++ heads (place + (tails before).length) after := by
  induction before generalizing place with
  | nil => rfl
  | cons a before ih =>
    rw [List.cons_append, heads, heads, ih, List.append_assoc, tails, tails, List.flatMap_cons, List.length_append,
      Nat.add_assoc]

theorem length_heads (place : ℕ) (h : ∀ a ∈ args, a.Fits) : (heads place args).length = 32 * args.length := by
  induction args generalizing place with
  | nil => rfl
  | cons a args ih =>
    rw [heads, List.length_append, Arg.length_head (h a (by simp)), ih _ fun b hb => h b (List.mem_cons_of_mem _ hb),
      List.length_cons]
    omega

/-- The place of the tail of an argument. -/
def place (before after : List Arg) : ℕ := 32 * (before.length + 1 + after.length) + (tails before).length

/-- The head of an argument is the word of its number. -/
theorem slice_head (hfits : ∀ b ∈ before, b.Fits) (ha : a.Fits) :
    slice (encode (before ++ a :: after)) (32 * before.length) (32 * before.length + 32) =
      a.head (place before after) := by
  have hplace : 32 * (before ++ a :: after).length + (tails before).length = place before after := by
    rw [place, List.length_append, List.length_cons]
    omega
  rw [encode, heads_append, heads, hplace, List.append_assoc, List.append_assoc]
  have h := slice_append_right (length_heads (32 * (before ++ a :: after).length) hfits)
    (b := a.head (place before after) ++ (heads (place before after + a.tail.length) after ++ tails (before ++ a :: after)))
    0 32
  rw [Nat.add_zero] at h
  rw [h]
  exact slice_append_left (Arg.length_head ha _)

/-- The bytes behind the place of a tail begin with it. -/
theorem drop_place (hfits : ∀ b ∈ before ++ a :: after, b.Fits) :
    (encode (before ++ a :: after)).drop (place before after) = a.tail ++ tails after := by
  have hlen : (heads (32 * (before ++ a :: after).length) (before ++ a :: after) ++ tails before).length =
      place before after := by
    rw [List.length_append, length_heads _ hfits, place, List.length_append, List.length_cons]
    omega
  have htails : tails (before ++ a :: after) = tails before ++ (a.tail ++ tails after) := by
    rw [tails_append]
    rfl
  rw [encode, htails, ← List.append_assoc]
  exact List.drop_left' hlen

theorem slice_drop (xs : Bytes) (place i j : ℕ) : slice xs (place + i) (place + j) = slice (xs.drop place) i j :=
  slice_add xs place i j

/-- The length of a dynamic argument stands at its place. -/
theorem slice_length (hfits : ∀ b ∈ before ++ .bytes data :: after, b.Fits) :
    slice (encode (before ++ .bytes data :: after)) (place before after) (place before after + 32) = word data.length := by
  have h := slice_drop (encode (before ++ .bytes data :: after)) (place before after) 0 32
  rw [Nat.add_zero] at h
  rw [h, drop_place hfits, Arg.tail, List.append_assoc, List.append_assoc]
  exact slice_append_left (length_toBytes 32 _)

/-- Its bytes stand behind the length, and so does any part of them. -/
theorem slice_data (before : List Arg) {after : List Arg} (hfits : ∀ b ∈ before ++ .bytes data :: after, b.Fits) :
    slice (encode (before ++ .bytes data :: after)) (place before after + 32) (place before after + 32 + data.length) =
      data := by
  rw [Nat.add_assoc, slice_drop, drop_place hfits, Arg.tail, List.append_assoc, List.append_assoc]
  have h := slice_append_right (length_toBytes 32 data.length)
    (b := data ++ (List.replicate (padding data.length) 0 ++ tails after)) 0 data.length
  rw [Nat.add_zero] at h
  exact h.trans (slice_append_left rfl)

end Places

/-! ### Whole words -/

section Whole

variable {args before after : List Arg}

theorem dvd_length_tail (a : Arg) : 32 ∣ a.tail.length := by
  cases a with
  | static w => exact ⟨0, rfl⟩
  | bytes data =>
    rw [Arg.tail, List.length_append, List.length_append, List.length_replicate, word, length_toBytes, padding]
    omega

theorem dvd_length_tails (args : List Arg) : 32 ∣ (tails args).length := by
  induction args with
  | nil => exact ⟨0, rfl⟩
  | cons a args ih =>
    rw [tails, List.flatMap_cons, List.length_append]
    exact Nat.dvd_add (dvd_length_tail a) ih

theorem dvd_length_encode (h : ∀ a ∈ args, a.Fits) : 32 ∣ (encode args).length := by
  rw [encode, List.length_append, length_heads _ h]
  exact Nat.dvd_add (Nat.dvd_mul_right _ _) (dvd_length_tails args)

theorem dvd_place (before after : List Arg) : 32 ∣ place before after :=
  Nat.dvd_add (Nat.dvd_mul_right _ _) (dvd_length_tails before)

/-- The length and the data of a dynamic argument lie within the encoding. -/
theorem place_add_le {data : Bytes} (h : ∀ a ∈ before ++ .bytes data :: after, a.Fits) :
    place before after + 32 + data.length ≤ (encode (before ++ .bytes data :: after)).length := by
  have hsplit := congrArg List.length (drop_place h)
  have hdata : 32 + data.length ≤ (Arg.bytes data).tail.length := by
    rw [Arg.tail, List.length_append, List.length_append, word, length_toBytes]
    omega
  rw [List.length_drop, List.length_append] at hsplit
  omega

theorem length_lt_words (h : ∀ a ∈ args, a.Fits) {n : ℕ} (hn : (encode args).length = 32 * n) : args.length ≤ n := by
  rw [encode, List.length_append, length_heads _ h] at hn
  omega

end Whole

/-! ### Reading -/

/-- The number in word `i`. -/
def readWord (body : Bytes) (i : ℕ) : ℕ := beNat (slice body (32 * i) (32 * i + 32))

/-- The bytes that word `i` points to. -/
def readBytes (body : Bytes) (i : ℕ) : Bytes :=
  let place := readWord body i
  slice body (place + 32) (place + 32 + beNat (slice body place (place + 32)))

section Reading

variable {before after : List Arg}

theorem readWord_static (before : List Arg) {after : List Arg} {w : Bytes} (hfits : ∀ b ∈ before ++ .static w :: after, b.Fits) :
    readWord (encode (before ++ .static w :: after)) before.length = beNat w := by
  rw [readWord, slice_head (fun b hb => hfits b (by simp [hb])) (hfits _ (by simp)), Arg.head]

theorem place_lt {data : Bytes} (hroom : (encode (before ++ .bytes data :: after)).length < 256 ^ 32)
    (hfits : ∀ b ∈ before ++ .bytes data :: after, b.Fits) : place before after < 256 ^ 32 := by
  refine lt_of_le_of_lt ?_ hroom
  rw [encode, List.length_append, length_heads _ hfits, tails_append, place, List.length_append, List.length_append,
    List.length_cons]
  omega

/-- The word of a dynamic argument is the place of its tail. -/
theorem readWord_bytes (before : List Arg) {after : List Arg} {data : Bytes} (hfits : ∀ b ∈ before ++ .bytes data :: after, b.Fits)
    (hroom : (encode (before ++ .bytes data :: after)).length < 256 ^ 32) :
    readWord (encode (before ++ .bytes data :: after)) before.length = place before after := by
  rw [readWord, slice_head (fun b hb => hfits b (by simp [hb])) (hfits _ (by simp)), Arg.head, word]
  exact beNat_toBytes (place_lt hroom hfits)

theorem data_lt {data : Bytes} (hroom : (encode (before ++ .bytes data :: after)).length < 256 ^ 32) :
    data.length < 256 ^ 32 := by
  refine lt_of_le_of_lt ?_ hroom
  have htails : (tails before ++ tails (Arg.bytes data :: after)).length =
      (tails before).length + (tails (Arg.bytes data :: after)).length := List.length_append
  rw [encode, List.length_append, tails_append, htails]
  have htail : (Arg.bytes data).tail.length ≤ (tails (Arg.bytes data :: after)).length := by
    rw [tails, List.flatMap_cons, List.length_append]
    omega
  have hdata : data.length ≤ (Arg.bytes data).tail.length := by
    rw [Arg.tail, List.length_append, List.length_append]
    omega
  omega

/-- A dynamic argument reads back. -/
theorem readBytes_bytes (before : List Arg) {after : List Arg} {data : Bytes} (hfits : ∀ b ∈ before ++ .bytes data :: after, b.Fits)
    (hroom : (encode (before ++ .bytes data :: after)).length < 256 ^ 32) :
    readBytes (encode (before ++ .bytes data :: after)) before.length = data := by
  rw [readBytes, readWord_bytes before hfits hroom, slice_length hfits, word, beNat_toBytes (data_lt hroom)]
  exact slice_data before hfits

end Reading

end Abi
