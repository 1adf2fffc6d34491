import HarmonyMigration.Archive.ArchiveLib

/-! Blocks linked one to the next. -/

namespace HarmonyMigration.Archive

open Airdrop.One1 Decimal

/-- The numbers go up by one from `number`, and each parent hash is the hash before, `hash` for the first. -/
def Linked (u : Lower) : ℤ → Text → List Block → Prop
  | _, _, [] => True
  | number, hash, block :: rest =>
    (block.number : ℤ) = number + 1 ∧ u.lower block.parentHash = hash ∧ Linked u block.number (u.lower block.hash) rest

variable {u : Lower}

/-- The hash that the next block must have as its parent. -/
def tip (u : Lower) (hash : Text) (blocks : List Block) : Text := blocks.getLast?.elim hash fun b => u.lower b.hash

theorem tip_cons (hash : Text) (b : Block) (blocks : List Block) : tip u hash (b :: blocks) = tip u (u.lower b.hash) blocks := by
  rw [tip, tip, List.getLast?_cons]
  cases blocks.getLast? with
  | none => rfl
  | some c => rfl

theorem tip_snoc (hash : Text) (blocks : List Block) (b : Block) : tip u hash (blocks ++ [b]) = u.lower b.hash := by
  rw [tip, List.getLast?_concat]
  rfl

theorem linked_snoc {number : ℤ} {hash : Text} {blocks : List Block} {b : Block} :
    Linked u number hash (blocks ++ [b]) ↔
      Linked u number hash blocks ∧ (b.number : ℤ) = number + blocks.length + 1 ∧ u.lower b.parentHash = tip u hash blocks := by
  induction blocks generalizing number hash with
  | nil => simp [Linked, tip]
  | cons c rest ih =>
    rw [List.cons_append, Linked, Linked, ih, tip_cons, List.length_cons]
    constructor
    · rintro ⟨hc, hparent, hrest, hb, htip⟩
      exact ⟨⟨hc, hparent, hrest⟩, by push_cast; omega, htip⟩
    · rintro ⟨⟨hc, hparent, hrest⟩, hb, htip⟩
      exact ⟨hc, hparent, hrest, by push_cast at hb; omega, htip⟩

/-- The numbers stand above the first and rise. -/
theorem Linked.numbers {number : ℤ} {hash : Text} {blocks : List Block} (h : Linked u number hash blocks) :
    (∀ b ∈ blocks, number < b.number ∧ b.number ≤ number + blocks.length) ∧ (blocks.map Block.number).Nodup := by
  induction blocks generalizing number hash with
  | nil => simp
  | cons c rest ih =>
    obtain ⟨hc, -, hrest⟩ := h
    obtain ⟨hbounds, hnd⟩ := ih hrest
    constructor
    · intro b hb
      rw [List.length_cons]
      push_cast
      rcases List.mem_cons.mp hb with rfl | hb
      · omega
      · have hbound := hbounds b hb
        omega
    · rw [List.map_cons, List.nodup_cons]
      refine ⟨fun hmem => ?_, hnd⟩
      obtain ⟨b, hb, heq⟩ := List.mem_map.mp hmem
      have hbound := hbounds b hb
      omega

theorem Linked.last_number {number : ℤ} {hash : Text} {blocks : List Block} (h : Linked u number hash blocks)
    {b : Block} (hb : blocks.getLast? = some b) : (b.number : ℤ) = number + blocks.length := by
  obtain ⟨l, rfl⟩ := List.getLast?_eq_some_iff.mp hb
  obtain ⟨-, hnumber, -⟩ := linked_snoc.mp h
  rw [hnumber, List.length_append, List.length_singleton]
  push_cast
  ring

end HarmonyMigration.Archive
