import HarmonyMigration.Messages.Scan

/-! What the ledger rows of a range of nonces add up to. -/

namespace HarmonyMigration.Messages

open Erc20

/-! ### Amounts by nonce and by block -/

namespace Stream

/-- What the first `n` messages carry. -/
def amountTo (S : Stream) (n : ℕ) : ℕ := ((S.messages.take n).map Log.amount).sum

/-- What the messages up to a block carry. -/
def amountAt (S : Stream) (b : ℕ) : ℕ := ((S.messages.filter fun l => l.block ≤ b).map Log.amount).sum

variable {S T : Stream}

theorem amountAt_eq (b : ℕ) : S.amountAt b = S.amountTo (S.counter b) := by
  rw [amountAt, SortedBy.filter_le_eq_take messages_sorted]
  rfl

theorem amountTo_add_between (low high : ℕ) :
    S.amountTo low + ((S.between low high).map Log.amount).sum = S.amountTo (max low high) := by
  rcases le_total low high with h | h
  · have htake : S.messages.take low = (S.messages.take high).take low := by
      rw [List.take_take, min_eq_left h]
    rw [max_eq_right h, amountTo, htake, between, ← List.sum_append, ← List.map_append,
      List.take_append_drop, amountTo]
  · have hnil : S.between low high = [] := List.drop_eq_nil_of_le ((List.length_take_le _ _).trans h)
    rw [max_eq_left h, hnil, List.map_nil, List.sum_nil, Nat.add_zero]

/-- The amount of a range, as a difference. -/
theorem sum_between (low high : ℕ) :
    (((S.between low high).map Log.amount).sum : ℤ) = S.amountTo (max low high) - S.amountTo low := by
  rw [← amountTo_add_between]
  push_cast
  ring

theorem between_filter_le (low high b : ℕ) :
    ((S.between low high).filter fun l => l.block ≤ b) = S.between low (min high (S.counter b)) :=
  SortedBy.filter_le_drop_take messages_sorted b low high

theorem sum_between_after (low high b : ℕ) :
    ((((S.between low high).filter fun l => b < l.block).map Log.amount).sum : ℤ) =
      S.amountTo (max low high) - S.amountTo (max low (min high (S.counter b))) := by
  have hafter : ((S.between low high).filter fun l => b < l.block) =
      (S.between low high).filter fun l => !decide (l.block ≤ b) := by
    refine List.filter_congr fun l _ => ?_
    rw [← decide_not, decide_eq_decide, not_le]
  have hsplit := ((List.filter_append_perm (fun l : Log => decide (l.block ≤ b)) (S.between low high)).map
    Log.amount).sum_eq
  rw [List.map_append, List.sum_append, between_filter_le] at hsplit
  have h1 := amountTo_add_between (S := S) low high
  have h2 := amountTo_add_between (S := S) low (min high (S.counter b))
  rw [hafter]
  omega

theorem mem_messages_of_mem_between {l : Log} {low high : ℕ} (h : l ∈ S.between low high) :
    l ∈ S.messages :=
  List.mem_of_mem_take (List.mem_of_mem_drop h)

/-- Streams that carry the same amounts up to `n`. -/
theorem amountTo_congr {n : ℕ} (hS : n ≤ S.messages.length) (hT : n ≤ T.messages.length)
    (h : ∀ i a b, i < n → S.messages[i]? = some a → T.messages[i]? = some b → a.amount = b.amount) :
    S.amountTo n = T.amountTo n := by
  have hlists : (S.messages.take n).map Log.amount = (T.messages.take n).map Log.amount := by
    refine List.ext_getElem (by simp [hS, hT]) fun i h1 h2 => ?_
    have hi : i < n := by simpa [hS] using h1
    rw [List.getElem_map, List.getElem_map, List.getElem_take, List.getElem_take]
    exact h i _ _ hi (List.getElem?_eq_getElem (hi.trans_le hS)) (List.getElem?_eq_getElem (hi.trans_le hT))
  rw [amountTo, amountTo, hlists]

theorem counter_le_length (b : ℕ) : S.counter b ≤ S.messages.length := List.countP_le_length

end Stream

/-! ### Rows -/

/-- The events, in order, are these logs. -/
def Events.Of (events : Events) (ls : List Log) : Prop := events.entries.map Prod.snd = ls.map decodeEvent

theorem amount_decodeEvent (l : Log) : (decodeEvent l).amount = l.amount := by
  unfold decodeEvent
  cases l.kind <;> rfl

theorem kind_decodeEvent (l : Log) : (decodeEvent l).kind = l.kind := by
  unfold decodeEvent
  cases h : l.kind <;> rfl

theorem block_decodeEvent (l : Log) : (decodeEvent l).block = l.block := by
  unfold decodeEvent
  cases l.kind <;> rfl

theorem Events.Of.filter {events : Events} {ls : List Log} (h : events.Of ls) (p : Event → Bool) :
    (events.filter p).Of (ls.filter fun l => p (decodeEvent l)) := by
  have h1 : (events.entries.filter fun e => p e.2).map Prod.snd =
      (events.entries.map Prod.snd).filter p := (List.filter_map ..).symm
  unfold Events.Of Events.filter
  rw [h1, h, List.filter_map]
  rfl

theorem Events.Of.shiftNonces {events : Events} {ls : List Log} (h : events.Of ls) (offset : ℕ) :
    (shiftNonces offset events).Of ls := by
  have hnd : ((events.entries.map fun e => (e.1 + offset, e.2)).map Prod.fst).Nodup := by
    rw [List.map_map]
    have := events.nodup.map (f := (· + offset)) fun a b => Nat.add_right_cancel
    rwa [List.map_map] at this
  unfold Events.Of Messages.shiftNonces
  rw [Dict.entries_ofList hnd, List.map_map]
  exact h

theorem of_collect {S : Stream} {low high searchHigh rangeSize : ℕ} {result : Events × List Problem}
    (h : collect S.counter S.logs S.kinds S.accept low high (0, searchHigh) rangeSize = .ok result) :
    result.1.Of (S.between low high) := by
  obtain ⟨hentries, -, -⟩ := Stream.collect_ok h
  rw [Events.Of, hentries, Stream.numbered, List.map_map]
  conv_rhs => rw [← List.zipIdx_map_fst (low + 1) (S.between low high), List.map_map]
  rfl

/-- The sign of an adjustment, zero without an account. -/
def Chooser.weight (c : Chooser) (e : Event) : ℤ := if (c e).1.isSome then (c e).2 else 0

theorem adjustmentRaw_rowFor {base : Base} {category note : String} {c : Chooser} {credit : Bool}
    {nonce : ℕ} {e : Event} (h : e.kind ≠ .failed) :
    (rowFor base category c note credit nonce e).adjustmentRaw = c.weight e * e.amount := by
  unfold rowFor Chooser.weight
  simp only [h, if_false]
  split_ifs <;> simp

/-- The chooser gives a log that has not failed the sign `w`. -/
def Chooser.Weighs (c : Chooser) (w : ℤ) (l : Log) : Prop :=
  l.kind ≠ .failed ∧ c.weight (decodeEvent l) = w

section Weighs
variable {l : Log}

theorem weighs_toRecipient (h : l.kind = .receive) : toRecipient.Weighs 1 l := by
  simp [Chooser.Weighs, Chooser.weight, toRecipient, decodeEvent, h]

theorem weighs_fromRecipient (h : l.kind = .receive) : fromRecipient.Weighs (-1) l := by
  simp [Chooser.Weighs, Chooser.weight, fromRecipient, decodeEvent, h]

theorem weighs_noOne (h : l.kind = .receive) : noOne.Weighs 0 l := by
  simp [Chooser.Weighs, Chooser.weight, noOne, h]

theorem weighs_toSender (h : l.kind = .send ∨ l.kind = .nativeSend) : toSender.Weighs 1 l := by
  rcases h with h | h <;> simp [Chooser.Weighs, Chooser.weight, toSender, decodeEvent, h]

theorem weighs_fromSender (h : l.kind = .send ∨ l.kind = .nativeSend) : fromSender.Weighs (-1) l := by
  rcases h with h | h <;> simp [Chooser.Weighs, Chooser.weight, fromSender, decodeEvent, h]

end Weighs

def adjusted (rows : List Row) : ℤ := (rows.map Row.adjustmentRaw).sum

@[simp] theorem adjusted_append (rows rows' : List Row) :
    adjusted (rows ++ rows') = adjusted rows + adjusted rows' := by
  rw [adjusted, List.map_append, List.sum_append]
  rfl

theorem adjusted_rowsFor {events : Events} {ls : List Log} (h : events.Of ls) {w : ℤ} {c : Chooser}
    (hls : ∀ l ∈ ls, c.Weighs w l) {base : Base}
    {category note : String} {credit : Bool} :
    adjusted (rowsFor events base category c note credit) = w * ((ls.map Log.amount).sum : ℕ) := by
  have hperm := (List.perm_insertionSort (fun a b : ℕ × Event => a.1 ≤ b.1) events.entries).map
    fun e => (rowFor base category c note credit e.1 e.2).adjustmentRaw
  have hrow : ∀ e ∈ events.entries,
      (rowFor base category c note credit e.1 e.2).adjustmentRaw = w * (e.2.amount : ℤ) := by
    intro e he
    have hmem : e.2 ∈ ls.map decodeEvent := h ▸ List.mem_map_of_mem he
    obtain ⟨l, hl, hle⟩ := List.mem_map.mp hmem
    obtain ⟨hk, hw⟩ := hls l hl
    rw [adjustmentRaw_rowFor (by rwa [← hle, kind_decodeEvent]), ← hw, hle]
  have hsum : (events.entries.map fun e => (e.2.amount : ℤ)) = ls.map fun l => (l.amount : ℤ) := by
    have := congrArg (List.map fun e : Event => (e.amount : ℤ)) h
    rw [List.map_map, List.map_map] at this
    simpa only [Function.comp_def, amount_decodeEvent] using this
  rw [adjusted, rowsFor, List.map_map]
  calc _ = (events.entries.map fun e => (rowFor base category c note credit e.1 e.2).adjustmentRaw).sum :=
        hperm.sum_eq
    _ = (events.entries.map fun e => w * (e.2.amount : ℤ)).sum := by rw [List.map_congr_left hrow]
    _ = w * (ls.map fun l => (l.amount : ℤ)).sum := by rw [List.sum_map_mul_left, hsum]
    _ = w * ((ls.map Log.amount).sum : ℕ) := by
        rw [Nat.cast_list_sum, List.map_map]
        rfl

section Ranges
variable {S : Stream} {events : Events} {low high : ℕ} {c : Chooser} {w : ℤ} {base : Base}
  {category note : String} {credit : Bool}

theorem adjusted_range (h : events.Of (S.between low high)) (hc : ∀ l ∈ S.between low high, c.Weighs w l) :
    adjusted (rowsFor events base category c note credit) = w * (S.amountTo (max low high) - S.amountTo low) := by
  rw [adjusted_rowsFor h hc, Stream.sum_between]

theorem adjusted_range_upTo (h : events.Of (S.between low high)) (hc : ∀ l ∈ S.between low high, c.Weighs w l)
    (b : ℕ) :
    adjusted (rowsFor (events.filter fun e => e.block ≤ b) base category c note credit) =
      w * (S.amountTo (max low (min high (S.counter b))) - S.amountTo low) := by
  rw [adjusted_rowsFor (h.filter _) fun l hl => hc l (List.mem_of_mem_filter hl)]
  simp only [block_decodeEvent, Stream.between_filter_le, Stream.sum_between]

theorem adjusted_range_after (h : events.Of (S.between low high)) (hc : ∀ l ∈ S.between low high, c.Weighs w l)
    (b : ℕ) :
    adjusted (rowsFor (events.filter fun e => b < e.block) base category c note credit) =
      w * (S.amountTo (max low high) - S.amountTo (max low (min high (S.counter b)))) := by
  rw [adjusted_rowsFor (h.filter _) fun l hl => hc l (List.mem_of_mem_filter hl)]
  simp only [block_decodeEvent, Stream.sum_between_after]

end Ranges

end HarmonyMigration.Messages
