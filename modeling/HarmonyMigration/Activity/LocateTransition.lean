import HarmonyMigration.Lib.Except
import HarmonyMigration.Lib.Rlp

/-! `account-transition-locate`: a block at which the account leaf took the value that it has at the current block, by doubling
steps back from the current block and bisection of the gap. -/

namespace HarmonyMigration.LocateTransition

open Except Rlp Slices

abbrev Hash := BitVec 256

abbrev Text := List Char

inductive Fatal
  | decode (key : Hash) (blockNumber : ℕ)
  | accountBalance (key : Hash) (blockNumber : ℕ)
  | absent (key : Hash) (currentBlock : ℕ)
  | balance (key : Hash)
  | nonce (key : Hash)
  | codeHash (key : Hash)
  | upperBound (key : Hash) (upper : ℕ)
  | lowerBound (key : Hash) (lower : ℕ)
  /-- No error of the source: an operation on `uint64` whose result would be taken modulo 2^64. -/
  | wrapped
  /-- No error of the source: a loop that has not ended. -/
  | running
  deriving DecidableEq

/-! ### Arithmetic of 64 bits -/

def add64 (a b : ℕ) : Except Fatal ℕ := (require (a + b < 2 ^ 64) .wrapped).map fun _ => a + b

def mul64 (a b : ℕ) : Except Fatal ℕ := (require (a * b < 2 ^ 64) .wrapped).map fun _ => a * b

def sub64 (a b : ℕ) : Except Fatal ℕ := (require (b ≤ a) .wrapped).map fun _ => a - b

theorem add64_ok {a b : ℕ} (h : a + b < 2 ^ 64) : add64 a b = .ok (a + b) := by
  rw [add64, require, if_pos h]
  rfl

theorem mul64_ok {a b : ℕ} (h : a * b < 2 ^ 64) : mul64 a b = .ok (a * b) := by
  rw [mul64, require, if_pos h]
  rfl

theorem sub64_ok {a b : ℕ} (h : b ≤ a) : sub64 a b = .ok (a - b) := by
  rw [sub64, require, if_pos h]
  rfl

/-! ### The source's functions -/

/-- What `rlp.DecodeBytes` reads of a leaf. -/
structure Decoded where
  nonce : ℕ
  balance : Option ℤ
  codeHash : Bytes
  deriving DecidableEq

structure StateAccount where
  nonce : ℕ
  balance : ℕ
  codeHash : Bytes
  deriving DecidableEq

structure Target where
  key : Hash
  balance : ℤ
  nonce : ℕ
  codeHash : Hash
  deriving DecidableEq

structure OutputRow where
  key : Hash
  transitionBlock : ℕ
  previousBalance : ℕ
  currentBalance : ℕ
  previousLeafSHA256 : Text
  currentLeafSHA256 : Text
  exponentialLookups : ℕ
  binarySearchLookups : ℕ
  deriving DecidableEq

/-- `common.BytesToHash` keeps the last 32 bytes, or fills up with zeros on the left. -/
def bytesToHash (bytes : Bytes) : Hash := BitVec.ofNat 256 (beNat bytes)

section Locator

variable (leafAt : ℕ → Hash → Bytes) (decode : Bytes → Option Decoded) (leafSHA256 : Bytes → Text)

def decodeAccount (encoded : Bytes) (key : Hash) (blockNumber : ℕ) : Except Fatal StateAccount :=
  if encoded = [] then .ok ⟨0, 0, []⟩
  else
    (ofOption (decode encoded) (.decode key blockNumber)).bind fun account =>
    (ofOption account.balance (.accountBalance key blockNumber)).bind fun balance =>
    (require (0 ≤ balance) (.accountBalance key blockNumber)).map fun _ => ⟨account.nonce, balance.toNat, account.codeHash⟩

/-- The variables of the two loops, and the blocks read so far. -/
structure Search where
  lower : ℕ
  upper : ℕ
  exponentialLookups : ℕ
  binaryLookups : ℕ
  probed : List ℕ
  deriving DecidableEq

/-- How the first loop ends: the leaf is the current one back to block 0, or another one at `lower`. -/
inductive BackOff
  | genesis (s : Search)
  | changed (s : Search)

/-- The loop over `step`, at most `fuel` times. -/
def backOff (key : Hash) (currentBlock : ℕ) : ℕ → ℕ → Search → Except Fatal BackOff
  | 0, _, _ => .error .running
  | fuel + 1, step, s =>
    (if step < currentBlock then sub64 currentBlock step else .ok 0).bind fun probe =>
    (add64 s.exponentialLookups 1).bind fun lookups =>
    let s := { s with exponentialLookups := lookups, probed := s.probed ++ [probe] }
    if leafAt probe key ≠ leafAt currentBlock key then .ok (.changed { s with lower := probe })
    else if probe = 0 then .ok (.genesis { s with upper := 0 })
    else (if currentBlock / 2 < step then .ok currentBlock else mul64 step 2).bind fun step =>
      backOff key currentBlock fuel step { s with upper := probe }

/-- The loop over `middle`, at most `fuel` times. -/
def bisectGap (key : Hash) (currentBlock : ℕ) : ℕ → Search → Except Fatal Search
  | 0, _ => .error .running
  | fuel + 1, s =>
    (sub64 s.upper s.lower).bind fun gap =>
    if 1 < gap then
      (add64 s.lower (gap / 2)).bind fun middle =>
      (add64 s.binaryLookups 1).bind fun lookups =>
      let s := { s with binaryLookups := lookups, probed := s.probed ++ [middle] }
      if leafAt middle key = leafAt currentBlock key then bisectGap key currentBlock fuel { s with upper := middle }
      else bisectGap key currentBlock fuel { s with lower := middle }
    else .ok s

/-- The row where the leaf has been the current one since block 0. -/
def genesisRow (item : Target) (currentAccount : StateAccount) (currentLeaf : Bytes) (exponentialLookups : ℕ) : OutputRow :=
  ⟨item.key, 0, 0, currentAccount.balance, leafSHA256 [], leafSHA256 currentLeaf, exponentialLookups, 0⟩

/-- The row, and every block whose leaf was read. The leaf at `lower` that the loops keep is read again at the end. -/
def locateTransition (item : Target) (currentBlock : ℕ) : Except Fatal (OutputRow × List ℕ) :=
  let currentLeaf := leafAt currentBlock item.key
  (require (currentLeaf ≠ []) (.absent item.key currentBlock)).bind fun _ =>
  (decodeAccount decode currentLeaf item.key currentBlock).bind fun currentAccount =>
  (require ((currentAccount.balance : ℤ) = item.balance) (.balance item.key)).bind fun _ =>
  (require (currentAccount.nonce = item.nonce) (.nonce item.key)).bind fun _ =>
  (require (bytesToHash currentAccount.codeHash = item.codeHash) (.codeHash item.key)).bind fun _ =>
  if currentBlock = 0 then .ok (genesisRow leafSHA256 item currentAccount currentLeaf 0, [currentBlock])
  else (backOff leafAt item.key currentBlock currentBlock 1 ⟨0, currentBlock, 0, 0, [currentBlock]⟩).bind fun
    | .genesis s => .ok (genesisRow leafSHA256 item currentAccount currentLeaf s.exponentialLookups, s.probed)
    | .changed s => (bisectGap leafAt item.key currentBlock currentBlock s).bind fun s =>
      (require (leafAt s.upper item.key = currentLeaf) (.upperBound item.key s.upper)).bind fun _ =>
      (sub64 s.upper 1).bind fun before =>
      let previousLeaf := leafAt before item.key
      (require (previousLeaf ≠ currentLeaf) (.lowerBound item.key before)).bind fun _ =>
      (decodeAccount decode previousLeaf item.key before).bind fun previousAccount =>
      .ok (⟨item.key, s.upper, previousAccount.balance, currentAccount.balance, leafSHA256 previousLeaf,
        leafSHA256 currentLeaf, s.exponentialLookups, s.binaryLookups⟩, s.probed ++ [s.upper, before])

/-! ### The two loops -/

section Loops

variable {leafAt} {key : Hash} {currentBlock : ℕ}

/-- The leaf is the current one at `upper`, and at every block above `lower` that was read. -/
structure Search.Bracketed (leafAt : ℕ → Hash → Bytes) (key : Hash) (currentBlock : ℕ) (s : Search) : Prop where
  le : s.upper ≤ currentBlock
  upper : leafAt s.upper key = leafAt currentBlock key
  probed : ∀ b ∈ s.probed, s.lower < b → leafAt b key = leafAt currentBlock key

/-- Between `lower` and `upper` the leaf changes. -/
structure Search.Changed (leafAt : ℕ → Hash → Bytes) (key : Hash) (currentBlock : ℕ) (s : Search) : Prop
    extends s.Bracketed leafAt key currentBlock where
  lt : s.lower < s.upper
  lower : leafAt s.lower key ≠ leafAt currentBlock key

/-- What is known where the first loop ends. -/
def BackOff.Sound (leafAt : ℕ → Hash → Bytes) (key : Hash) (currentBlock : ℕ) : BackOff → Prop
  | .genesis s => leafAt 0 key = leafAt currentBlock key ∧ ∀ b ∈ s.probed, leafAt b key = leafAt currentBlock key
  | .changed s => s.Changed leafAt key currentBlock ∧ s.binaryLookups = 0

theorem forall_mem_concat {P : ℕ → Prop} {probed : List ℕ} {b : ℕ} (h : ∀ a ∈ probed, P a) (hb : P b) :
    ∀ a ∈ probed ++ [b], P a := by
  intro a ha
  rcases List.mem_append.mp ha with ha | ha
  · exact h a ha
  · rwa [List.mem_singleton.mp ha]

/-- The leaf is the current one wherever it was read, and the next probe is below `upper`. -/
structure Search.Constant (leafAt : ℕ → Hash → Bytes) (key : Hash) (currentBlock step : ℕ) (s : Search) : Prop where
  pos : 0 < s.upper
  lt_step : currentBlock - s.upper < step
  step_le : step ≤ currentBlock
  lookups : s.exponentialLookups + s.upper ≤ currentBlock
  binary : s.binaryLookups = 0
  upper : leafAt s.upper key = leafAt currentBlock key
  probed : ∀ b ∈ s.probed, leafAt b key = leafAt currentBlock key

/-- The search after a probe. -/
def Search.after (s : Search) (probe : ℕ) : Search :=
  { s with exponentialLookups := s.exponentialLookups + 1, probed := s.probed ++ [probe] }

variable {step step' : ℕ} {s : Search}

theorem Search.Constant.next (h : s.Constant leafAt key currentBlock step)
    (hleaf : leafAt (currentBlock - step) key = leafAt currentBlock key) (hpos : currentBlock - step ≠ 0)
    (hlt : step < step') (hle : step' ≤ currentBlock) :
    { s.after (currentBlock - step) with upper := currentBlock - step }.Constant leafAt key currentBlock step' := by
  have hbelow : currentBlock - step < s.upper := by
    have := h.lt_step
    omega
  have hlookups : s.exponentialLookups + 1 + (currentBlock - step) ≤ currentBlock := by
    have := h.lookups
    omega
  refine ⟨Nat.pos_of_ne_zero hpos, ?_, hle, hlookups, h.binary, hleaf, forall_mem_concat h.probed hleaf⟩
  show currentBlock - (currentBlock - step) < step'
  omega

theorem Search.Constant.stop (h : s.Constant leafAt key currentBlock step)
    (hleaf : leafAt (currentBlock - step) key ≠ leafAt currentBlock key) :
    { s.after (currentBlock - step) with lower := currentBlock - step }.Changed leafAt key currentBlock := by
  have hbelow : currentBlock - step < s.upper := by
    have := h.lt_step
    have := h.pos
    omega
  have hle : s.upper ≤ currentBlock := by
    have := h.lookups
    omega
  refine ⟨⟨hle, h.upper, ?_⟩, hbelow, hleaf⟩
  intro b hb hlt
  rcases List.mem_append.mp hb with hb | hb
  · exact h.probed b hb
  · exact absurd (List.mem_singleton.mp hb) hlt.ne'

/-- Each probe is below the one before, so that the loop ends, and no operation of it wraps. -/
theorem backOff_sound (hc : currentBlock < 2 ^ 64) (fuel : ℕ) (hfuel : s.upper ≤ fuel)
    (h : s.Constant leafAt key currentBlock step) :
    ∃ r, backOff leafAt key currentBlock fuel step s = .ok r ∧ r.Sound leafAt key currentBlock := by
  have hlookups := h.lookups
  have hpos := h.pos
  have hlt := h.lt_step
  have hle := h.step_le
  induction fuel generalizing step s with
  | zero => omega
  | succ fuel ih =>
    have hprobe : (if step < currentBlock then sub64 currentBlock step else .ok 0) = .ok (currentBlock - step) := by
      split_ifs with hstep
      · exact sub64_ok hstep.le
      · rw [Nat.sub_eq_zero_of_le (not_lt.mp hstep)]
    have hfuel' : currentBlock - step ≤ fuel := by omega
    rw [backOff, hprobe, bind_ok_left, add64_ok (by omega), bind_ok_left]
    by_cases hleaf : leafAt (currentBlock - step) key = leafAt currentBlock key
    · rw [if_neg (not_not.mpr hleaf)]
      by_cases hzero : currentBlock - step = 0
      · rw [if_pos hzero]
        exact ⟨_, rfl, hzero ▸ hleaf, forall_mem_concat h.probed hleaf⟩
      · rw [if_neg hzero]
        by_cases hhalf : currentBlock / 2 < step
        · rw [if_pos hhalf, bind_ok_left]
          have hnext := h.next hleaf hzero (by omega) le_rfl
          exact ih hfuel' hnext hnext.lookups hnext.pos hnext.lt_step hnext.step_le
        · rw [if_neg hhalf, mul64_ok (by omega), bind_ok_left]
          have hnext := h.next hleaf hzero (show step < step * 2 by omega) (by omega)
          exact ih hfuel' hnext hnext.lookups hnext.pos hnext.lt_step hnext.step_le
    · rw [if_pos hleaf]
      exact ⟨_, rfl, h.stop hleaf, h.binary⟩

/-- Each halving leaves a smaller gap, so that the loop ends with the change just below `upper`. -/
theorem bisectGap_sound (hc : currentBlock < 2 ^ 64) (fuel : ℕ) (s : Search) (hfuel : s.upper - s.lower ≤ fuel)
    (hlookups : s.binaryLookups + (s.upper - s.lower) ≤ currentBlock) (hs : s.Changed leafAt key currentBlock) :
    ∃ r, bisectGap leafAt key currentBlock fuel s = .ok r ∧ r.Changed leafAt key currentBlock ∧
      r.upper = r.lower + 1 := by
  induction fuel generalizing s with
  | zero =>
    have := hs.lt
    omega
  | succ fuel ih =>
    have hlt := hs.lt
    have hle := hs.le
    rw [bisectGap, sub64_ok hlt.le, bind_ok_left]
    by_cases hgap : 1 < s.upper - s.lower
    · rw [if_pos hgap, add64_ok (by omega), bind_ok_left, add64_ok (by omega), bind_ok_left]
      by_cases hleaf : leafAt (s.lower + (s.upper - s.lower) / 2) key = leafAt currentBlock key
      · rw [if_pos hleaf]
        apply ih
        · simp only
          omega
        · simp only
          omega
        · refine ⟨⟨by simp only; omega, hleaf, ?_⟩, by simp only; omega, hs.lower⟩
          exact forall_mem_concat hs.probed fun _ => hleaf
      · rw [if_neg hleaf]
        apply ih
        · simp only
          omega
        · simp only
          omega
        · refine ⟨⟨hle, hs.upper, ?_⟩, by simp only; omega, hleaf⟩
          apply forall_mem_concat
          · exact fun b hb hlow => hs.probed b hb (by simp only at hlow; omega)
          · exact fun hlow => absurd hlow (lt_irrefl _)
    · rw [if_neg hgap]
      exact ⟨s, rfl, hs, by omega⟩

end Loops

/-! ### The block -/

section Transition

variable {leafAt decode} {item : Target} {currentBlock : ℕ}

/-- A leaf that `rlp.DecodeBytes` takes, with a balance that is there and not negative. -/
def ValidEncoding (decode : Bytes → Option Decoded) (encoded : Bytes) : Prop :=
  ∃ account, decode encoded = some account ∧ ∃ balance, account.balance = some balance ∧ 0 ≤ balance

/-- The account has the balance, nonce and code hash of the target row. -/
def Matches (decode : Bytes → Option Decoded) (item : Target) (encoded : Bytes) : Prop :=
  ∃ account, decode encoded = some account ∧ account.balance = some item.balance ∧ 0 ≤ item.balance ∧
    account.nonce = item.nonce ∧ bytesToHash account.codeHash = item.codeHash

/-- The balance that `decodeAccount` reads of a leaf. -/
def BalanceOf (decode : Bytes → Option Decoded) (encoded : Bytes) (key : Hash) (blockNumber balance : ℕ) : Prop :=
  ∃ account, decodeAccount decode encoded key blockNumber = .ok account ∧ account.balance = balance

/-- What a row and the blocks that were read say about the history of the leaf. -/
structure Located (leafAt : ℕ → Hash → Bytes) (decode : Bytes → Option Decoded) (item : Target) (currentBlock : ℕ)
    (row : OutputRow) (probed : List ℕ) : Prop where
  le : row.transitionBlock ≤ currentBlock
  current : leafAt row.transitionBlock item.key = leafAt currentBlock item.key
  currentBalance : (row.currentBalance : ℤ) = item.balance
  previous : row.transitionBlock = 0 ∧ row.previousBalance = 0 ∨
    0 < row.transitionBlock ∧ leafAt (row.transitionBlock - 1) item.key ≠ leafAt currentBlock item.key ∧
      BalanceOf decode (leafAt (row.transitionBlock - 1) item.key) item.key (row.transitionBlock - 1) row.previousBalance
  probed : ∀ b ∈ probed, row.transitionBlock ≤ b → leafAt b item.key = leafAt currentBlock item.key

theorem decodeAccount_nil (key : Hash) (b : ℕ) : decodeAccount decode [] key b = .ok ⟨0, 0, []⟩ := rfl

theorem decodeAccount_valid {encoded : Bytes} {account : Decoded} {balance : ℤ} (hne : encoded ≠ [])
    (hdecode : decode encoded = some account) (hbalance : account.balance = some balance) (h0 : 0 ≤ balance)
    (key : Hash) (b : ℕ) : decodeAccount decode encoded key b = .ok ⟨account.nonce, balance.toNat, account.codeHash⟩ := by
  rw [decodeAccount, if_neg hne, hdecode]
  change ((ofOption account.balance _).bind _) = _
  rw [hbalance]
  change ((require (0 ≤ balance) _).map _) = _
  rw [require, if_pos h0]
  rfl

theorem exists_balance {encoded : Bytes} (h : encoded = [] ∨ ValidEncoding decode encoded) (key : Hash) (b : ℕ) :
    ∃ account, decodeAccount decode encoded key b = .ok account := by
  by_cases hne : encoded = []
  · rw [hne]
    exact ⟨_, decodeAccount_nil key b⟩
  · obtain ⟨account, hdecode, balance, hbalance, h0⟩ := h.resolve_left hne
    exact ⟨_, decodeAccount_valid hne hdecode hbalance h0 key b⟩

/-- A history that changes once going back has one block before which the leaf is not the current one. -/
theorem Located.unique {row : OutputRow} {probed : List ℕ} (h : Located leafAt decode item currentBlock row probed)
    (hreturn : ∀ a b, a ≤ b → b ≤ currentBlock → leafAt b item.key ≠ leafAt currentBlock item.key →
      leafAt a item.key ≠ leafAt currentBlock item.key) :
    (∀ b, row.transitionBlock ≤ b → b ≤ currentBlock → leafAt b item.key = leafAt currentBlock item.key) ∧
      ∀ t ≤ currentBlock, leafAt t item.key = leafAt currentBlock item.key →
        (t = 0 ∨ leafAt (t - 1) item.key ≠ leafAt currentBlock item.key) → t = row.transitionBlock := by
  have hconstant : ∀ b, row.transitionBlock ≤ b → b ≤ currentBlock →
      leafAt b item.key = leafAt currentBlock item.key := by
    intro b hb hle
    by_contra hne
    exact hreturn _ b hb hle hne h.current
  refine ⟨hconstant, ?_⟩
  intro t ht heq hbefore
  apply Nat.le_antisymm
  · by_contra hlt
    rcases hbefore with rfl | hbefore
    · omega
    · exact hbefore (hconstant (t - 1) (by omega) (by omega))
  · by_contra hlt
    rcases h.previous with ⟨hzero, -⟩ | ⟨hpos, hne, -⟩
    · omega
    · have := h.le
      exact hreturn t _ (by omega) (by omega) hne heq

variable (leafSHA256 : Bytes → Text)

theorem locateTransition_located (hc : currentBlock < 2 ^ 64)
    (hvalid : ∀ b ≤ currentBlock, leafAt b item.key = [] ∨ ValidEncoding decode (leafAt b item.key))
    (hpresent : leafAt currentBlock item.key ≠ []) (hmatch : Matches decode item (leafAt currentBlock item.key)) :
    ∃ row probed, locateTransition leafAt decode leafSHA256 item currentBlock = .ok (row, probed) ∧
      Located leafAt decode item currentBlock row probed := by
  obtain ⟨account, hdecode, hbalance, h0, hnonce, hcode⟩ := hmatch
  have hcurrent := decodeAccount_valid hpresent hdecode hbalance h0 item.key currentBlock
  have hnat : ((item.balance.toNat : ℕ) : ℤ) = item.balance := Int.toNat_of_nonneg h0
  have hgenesis : ∀ {n : ℕ} {probed : List ℕ}, leafAt 0 item.key = leafAt currentBlock item.key →
      (∀ b ∈ probed, leafAt b item.key = leafAt currentBlock item.key) → Located leafAt decode item currentBlock
        (genesisRow leafSHA256 item ⟨account.nonce, item.balance.toNat, account.codeHash⟩
          (leafAt currentBlock item.key) n) probed :=
    fun heq hprobed => ⟨Nat.zero_le _, heq, hnat, Or.inl ⟨rfl, rfl⟩, fun b hb _ => hprobed b hb⟩
  simp only [locateTransition, require, if_pos hpresent, hcurrent, bind_ok_left, if_pos hnat, if_pos hnonce, if_pos hcode]
  have hself : ∀ b ∈ [currentBlock], leafAt b item.key = leafAt currentBlock item.key := by
    intro b hb
    rw [List.mem_singleton.mp hb]
  by_cases hzero : currentBlock = 0
  · rw [if_pos hzero]
    exact ⟨_, _, rfl, hgenesis (by rw [hzero]) hself⟩
  · rw [if_neg hzero]
    have hstart : (⟨0, currentBlock, 0, 0, [currentBlock]⟩ : Search).Constant leafAt item.key currentBlock 1 :=
      ⟨Nat.pos_of_ne_zero hzero, by simp, Nat.pos_of_ne_zero hzero, (Nat.zero_add _).le, rfl, rfl, hself⟩
    obtain ⟨r, hr, hsound⟩ := backOff_sound hc currentBlock le_rfl hstart
    rw [hr, bind_ok_left]
    cases r with
    | genesis s => exact ⟨_, _, rfl, hgenesis hsound.1 hsound.2⟩
    | changed s =>
      obtain ⟨hchanged, hbinary⟩ := hsound
      have hgap : s.upper - s.lower ≤ currentBlock := (Nat.sub_le _ _).trans hchanged.le
      obtain ⟨u, hu, hend, hadjacent⟩ := bisectGap_sound hc currentBlock s hgap (by rw [hbinary]; omega) hchanged
      have hlower : u.upper - 1 = u.lower := by omega
      have hle : u.lower ≤ currentBlock := hend.lt.le.trans hend.le
      obtain ⟨previous, hprevious⟩ := exists_balance (hvalid u.lower hle) item.key u.lower
      simp only [hu, bind_ok_left, if_pos hend.upper, sub64_ok (show 1 ≤ u.upper by omega), hlower, if_pos hend.lower,
        hprevious]
      refine ⟨_, _, rfl, hend.le, hend.upper, hnat, Or.inr ⟨by simp only; omega, ?_, ?_⟩, ?_⟩
      · simp only [hlower]
        exact hend.lower
      · simp only [hlower]
        exact ⟨previous, hprevious, rfl⟩
      · intro b hb hge
        simp only at hge
        rcases List.mem_append.mp hb with hb | hb
        · exact hend.probed b hb (by omega)
        · rcases List.mem_cons.mp hb with rfl | hb
          · exact hend.upper
          · have := List.mem_singleton.mp hb
            omega

/-- The search ends without an error, whatever the history of the leaf; a history that does not return to the current leaf
has the block found as its only change to that leaf. -/
theorem locateTransition_sound (hc : currentBlock < 2 ^ 64)
    (hvalid : ∀ b ≤ currentBlock, leafAt b item.key = [] ∨ ValidEncoding decode (leafAt b item.key))
    (hpresent : leafAt currentBlock item.key ≠ []) (hmatch : Matches decode item (leafAt currentBlock item.key)) :
    ∃ row probed, locateTransition leafAt decode leafSHA256 item currentBlock = .ok (row, probed) ∧
      Located leafAt decode item currentBlock row probed ∧
      ((∀ a b, a ≤ b → b ≤ currentBlock → leafAt b item.key ≠ leafAt currentBlock item.key →
          leafAt a item.key ≠ leafAt currentBlock item.key) →
        (∀ b, row.transitionBlock ≤ b → b ≤ currentBlock → leafAt b item.key = leafAt currentBlock item.key) ∧
        ∀ t ≤ currentBlock, leafAt t item.key = leafAt currentBlock item.key →
          (t = 0 ∨ leafAt (t - 1) item.key ≠ leafAt currentBlock item.key) → t = row.transitionBlock) := by
  obtain ⟨row, probed, hok, hlocated⟩ := locateTransition_located leafSHA256 hc hvalid hpresent hmatch
  exact ⟨row, probed, hok, hlocated, hlocated.unique⟩

/-- The hash of no code. -/
def emptyCodeHash : Bytes := toBytes 32 0xc5d2460186f7233c927e7db2dcc703c0e500b653ca82273b7bfad8045d85a470

/-- The encoding of an account without code whose storage is empty. -/
def plainAccount (nonce balance : Bytes) : Bytes :=
  ((Tree.list [.string nonce, .string balance,
    .string (toBytes 32 0x56e81f171bcc55a6ff8345e692c0f86e5b48e01b996cadc001622fb5e363b421),
    .string emptyCodeHash]).encode).getD []

/-- Absent at block 0, with 5 atto from block 1 and with 7 from block 3. -/
def threeLeaves (b : ℕ) (_ : Hash) : Bytes :=
  if b = 0 then [] else if b < 3 then plainAccount [] [5] else plainAccount [1] [7]

def decodeLeaves (encoded : Bytes) : Option Decoded :=
  if encoded = plainAccount [] [5] then some ⟨0, some 5, emptyCodeHash⟩
  else if encoded = plainAccount [1] [7] then some ⟨1, some 7, emptyCodeHash⟩
  else none

/-- The row of the account at block 5. -/
def sevenAtto : Target := ⟨0, 7, 1, bytesToHash emptyCodeHash⟩

theorem threeLeaves_located : ∃ row probed,
    locateTransition threeLeaves decodeLeaves (fun _ => []) sevenAtto 5 = .ok (row, probed) ∧
      Located threeLeaves decodeLeaves sevenAtto 5 row probed := by
  have hseven : decodeLeaves (plainAccount [1] [7]) = some ⟨1, some 7, emptyCodeHash⟩ := by decide +kernel
  have hfive : decodeLeaves (plainAccount [] [5]) = some ⟨0, some 5, emptyCodeHash⟩ := by decide +kernel
  have hvalid : ∀ b ≤ 5, threeLeaves b sevenAtto.key = [] ∨
      ValidEncoding decodeLeaves (threeLeaves b sevenAtto.key) := by
    intro b _
    rcases Nat.eq_zero_or_pos b with rfl | hpos
    · exact Or.inl rfl
    · right
      by_cases hlt : b < 3
      · rw [threeLeaves, if_neg hpos.ne', if_pos hlt]
        exact ⟨_, hfive, 5, rfl, by decide⟩
      · rw [threeLeaves, if_neg hpos.ne', if_neg hlt]
        exact ⟨_, hseven, 7, rfl, by decide⟩
  have hpresent : threeLeaves 5 sevenAtto.key ≠ [] := by decide +kernel
  have hmatch : Matches decodeLeaves sevenAtto (threeLeaves 5 sevenAtto.key) :=
    ⟨_, hseven, rfl, by decide, rfl, rfl⟩
  obtain ⟨row, probed, hok, hlocated, -⟩ :=
    locateTransition_sound (fun _ => []) (by decide) hvalid hpresent hmatch
  exact ⟨row, probed, hok, hlocated⟩

end Transition

end Locator

end HarmonyMigration.LocateTransition
