import HarmonyMigration.Claims.EligibilityVerifyExact
import HarmonyMigration.Cutoff.ClaimsDiffExact

/-! `apply-eligibility-policy.py`: the rows of the ledger that reach the threshold, sorted into three files, and the
summary of the policy, for a ledger whose amounts are all written out. The program looks a row up under the spelling of
its address and the verification under its value; the verification accepts every run all the same. -/

namespace HarmonyMigration.Claims.EligibilityVerify

open Airdrop Airdrop.One1 Decimal Except

open ClaimsDiff (Lowercase)

open ContractReview (anyToHex requireAddressSecureKey fromhex hexPrefix hexText KeyError HashesTo normalizeAddress
  bech32ToHex)

/-- `--comparison`. -/
inductive Comparison
  | ge
  | gt
  deriving DecidableEq

def Comparison.text (c : Comparison) : Text := if c = .ge then "ge".toList else "gt".toList

structure ApplyArgs where
  input : List Row
  automaticCodeFiles : List AddressFile
  excludeAddress : List Text
  excludeAddressesFiles : List AddressFile
  minimum : ℤ
  comparison : Comparison

def ApplyArgs.Eligible (args : ApplyArgs) (row : Row) : Prop :=
  if args.comparison = .ge then args.minimum ≤ row.value else args.minimum < row.value

instance (args : ApplyArgs) (row : Row) : Decidable (args.Eligible row) := by unfold ApplyArgs.Eligible; infer_instance

inductive ApplyError
  /-- an error that the verification has as well -/
  | shared (e : Error)
  | unresolvedAddress
  | negativeComponent
  | excludedMissing
  deriving DecidableEq

/-- What the loop over the ledger keeps; `written` are the rows of the three files. -/
structure Sorting where
  previous : Option Text
  written : Category → List Row
  rows : Category → ℕ
  totals : Category → Component → ℤ
  inputRows : ℕ
  thresholdRows : ℕ
  belowThresholdRows : ℕ
  exactThresholdRows : ℕ
  seenExcluded : List Text
  seenAutomaticCode : List Text

def Sorting.start : Sorting := ⟨none, fun _ => [], fun _ => 0, fun _ _ => 0, 0, 0, 0, 0, [], []⟩

def Sorting.read (s : Sorting) (key : Text) (exact : Bool) : Sorting :=
  { s with
    previous := some key
    inputRows := s.inputRows + 1
    exactThresholdRows := if exact then s.exactThresholdRows + 1 else s.exactThresholdRows }

def Sorting.skip (s : Sorting) : Sorting := { s with belowThresholdRows := s.belowThresholdRows + 1 }

def Sorting.put (s : Sorting) (active : List Text) (c : Category) (address : Text) (row : Row) : Sorting :=
  { s with
    written := Function.update s.written c (s.written c ++ [row])
    rows := Function.update s.rows c (s.rows c + 1)
    totals := Function.update s.totals c fun component => s.totals c component + row.componentAtto component
    thresholdRows := s.thresholdRows + 1
    seenExcluded := if c = .excludedAddress then address :: s.seenExcluded else s.seenExcluded
    seenAutomaticCode :=
      if c = .automatic ∧ address ∈ active then address :: s.seenAutomaticCode else s.seenAutomaticCode }

section Apply
variable (u : Lower) (sha256 : List Row → Text)

def applyRow (args : ApplyArgs) (excluded active : List Text) (s : Sorting) (row : Row) : Except ApplyError Sorting :=
  let key := row.key u
  (require (∀ previous ∈ s.previous, previous < key) (.shared .keysNotIncreasing)).bind fun _ =>
  (require (row.address ≠ []) .unresolvedAddress).bind fun _ =>
  ((requireAddressSecureKey u row.address key).mapError fun e => .shared (.name e)).bind fun _ =>
  (ofOption (row.codeBearing u) (.shared .unresolvedCode)).bind fun hasCode =>
  let wallet := row.amount .walletAirdrop
  let vault := row.amount .stakedToVault
  let total := row.amount .totalClaim
  (require (0 ≤ wallet ∧ 0 ≤ vault ∧ 0 ≤ total ∧ wallet + vault = total) (.shared .allocationComponents)).bind fun _ =>
  let s := s.read key (row.value = args.minimum)
  if args.Eligible row then
    let address := u.lower row.address
    ((assigned excluded active address hasCode).mapError .shared).bind fun label =>
    (require (∀ c ∈ components, 0 ≤ row.componentAtto c) .negativeComponent).map fun _ =>
      s.put active label address row
  else .ok s.skip

structure Applied where
  files : Category → CategoryFile
  policy : Policy
  inputRows : ℕ
  thresholdRows : ℕ
  belowThresholdRows : ℕ
  excludedAddressesFound : List Text
  automaticCodeAddressSources : List Source
  automaticCodeAddressesFound : List Text
  automaticCodeAddressesSuppressed : List Text

/-- `sorted` of a set. -/
def sortedSet (l : List Text) : List Text := l.dedup.insertionSort (· ≤ ·)

def appliedOf (args : ApplyArgs) (excluded : List Text × List Source) (automaticCode : List Text × List Source)
    (s : Sorting) : Applied where
  files := fun c => ⟨s.written c, sha256 (s.written c)⟩
  policy := {
    comparison := args.comparison.text
    excludedAddressesRequested := sortedSet excluded.1
    excludedAddressSources := excluded.2
    automaticCodeAddressesRequested := sortedSet automaticCode.1
    exactThresholdRows := s.exactThresholdRows
    categories := fun c => ⟨s.rows c, sha256 (s.written c), fun component => renderInt (s.totals c component)⟩ }
  inputRows := s.inputRows
  thresholdRows := s.thresholdRows
  belowThresholdRows := s.belowThresholdRows
  excludedAddressesFound := sortedSet s.seenExcluded
  automaticCodeAddressSources := automaticCode.2
  automaticCodeAddressesFound := sortedSet s.seenAutomaticCode
  automaticCodeAddressesSuppressed := sortedSet (automaticCode.1.filter (· ∈ excluded.1))

/-- `main` of `apply-eligibility-policy.py`. -/
def applyPolicy (args : ApplyArgs) : Except ApplyError Applied :=
  ((loadExcludedAddresses u args.excludeAddress args.excludeAddressesFiles).mapError .shared).bind fun excluded =>
  ((loadAutomaticCodeAddresses u args.automaticCodeFiles).mapError .shared).bind fun automaticCode =>
  let active := activeCode excluded.1 automaticCode.1
  (args.input.foldlM (applyRow u args excluded.1 active) .start).bind fun s =>
  (require (SameSet s.seenExcluded excluded.1) .excludedMissing).bind fun _ =>
  (require (SameSet s.seenAutomaticCode active) (.shared .overrideMissing)).map fun _ =>
    appliedOf sha256 args excluded automaticCode s

end Apply

/-- The verification of what a run wrote, with or without the inputs that name the excluded addresses. -/
def Applied.verification (out : Applied) (args : ApplyArgs) (independent : Bool) : Input where
  input := args.input
  files := out.files
  automaticCodeFiles := args.automaticCodeFiles
  excludeAddress := if independent then args.excludeAddress else []
  excludeAddressesFiles := if independent then args.excludeAddressesFiles else []
  policy := out.policy

/-! ### Addresses that are listed -/

/-- An address as the lists have it. -/
structure Canonical (u : Lower) (a : Text) : Prop where
  lower : u.lower a = a
  length : a.length = 42
  hex : hexPrefix <+: a

section Address
variable {u : Lowercase} {a t : Text} {row row' : Row}

theorem canonical_of_normalizeAddress (ht : hexPrefix <+: u.lower t) (h : normalizeAddress u.toLower t = some a) :
    Canonical u.toLower a := by
  unfold normalizeAddress at h
  dsimp only at h
  rw [if_pos ht] at h
  split_ifs at h with hlength
  obtain rfl := Option.some.inj h
  exact ⟨u.lower_lower t, hlength, ht⟩

theorem canonical_of_bech32ToHex (h : bech32ToHex u.toLower t = some a) : Canonical u.toLower a := by
  unfold bech32ToHex at h
  dsimp only at h
  split_ifs at h with hhex hone hcharset hpolymod hlength
  · exact canonical_of_normalizeAddress hhex h
  · obtain rfl := Option.some.inj h
    refine ⟨ContractReview.lower_hexAddress u.toLower _, ?_, List.prefix_append _ _⟩
    rw [List.length_append, ContractReview.length_hexText, hlength]
    rfl

theorem canonical_of_anyToHex (h : anyToHex u.toLower t = some a) : Canonical u.toLower a := by
  unfold anyToHex at h
  split_ifs at h with hempty hhex
  · exact canonical_of_normalizeAddress hhex h
  · exact canonical_of_bech32ToHex h

theorem canonical_of_normalizedAddress (h : normalizedAddress u.toLower t = .ok a) : Canonical u.toLower a := by
  unfold normalizedAddress at h
  rw [ofOption_bind_ok] at h
  obtain ⟨address, haddress, h⟩ := h
  rw [ofOption_bind_ok] at h
  obtain ⟨raw, -, h⟩ := h
  obtain ⟨-, -, rfl⟩ := of_map_ok h
  exact canonical_of_anyToHex haddress

theorem canonical_of_automaticCodeAddress (h : automaticCodeAddress u.toLower t = .ok a) : Canonical u.toLower a := by
  unfold automaticCodeAddress at h
  obtain ⟨_, hform, rfl⟩ := of_map_ok h
  obtain ⟨hlength, hhex⟩ := of_require_ok hform
  exact ⟨u.lower_lower t, hlength, hhex⟩

theorem forall_of_readAddresses {P : Text → Prop} {normalize : Text → Except Error Text}
    (hP : ∀ t a, normalize t = .ok a → P a) {column found out : List Text} (hfound : ∀ a ∈ found, P a)
    (h : readAddresses normalize column found = .ok out) : ∀ a ∈ out, P a := by
  induction column generalizing found with
  | nil =>
    obtain rfl := Except.ok.inj h
    exact hfound
  | cons t rest ih =>
    obtain ⟨address, haddress, h⟩ := of_bind_ok h
    rw [require_bind_ok] at h
    apply ih _ h.2
    intro a ha
    rcases List.mem_append.mp ha with ha | ha
    · exact hfound a ha
    · rw [List.mem_singleton.mp ha]
      exact hP t address haddress

theorem canonical_of_loadAutomaticCode {files : List AddressFile} {out : List Text × List Source}
    (h : loadAutomaticCodeAddresses u.toLower files = .ok out) : ∀ a ∈ out.1, Canonical u.toLower a := by
  induction files generalizing out with
  | nil =>
    obtain rfl := Except.ok.inj h
    exact fun a ha => absurd ha List.not_mem_nil
  | cons file rest ih =>
    obtain ⟨found, hfound, h⟩ := of_bind_ok h
    obtain ⟨tail, htail, rfl⟩ := of_map_ok h
    intro a ha
    rcases List.mem_append.mp ha with ha | ha
    · exact forall_of_readAddresses (fun _ _ => canonical_of_automaticCodeAddress)
        (fun a ha => absurd ha List.not_mem_nil) hfound a ha
    · exact ih htail a ha

theorem canonical_of_loadExcludedFiles {files : List AddressFile} {addresses : List Text}
    {out : List Text × List Source} (haddresses : ∀ a ∈ addresses, Canonical u.toLower a)
    (h : loadExcludedFiles u.toLower files addresses = .ok out) : ∀ a ∈ out.1, Canonical u.toLower a := by
  induction files generalizing addresses out with
  | nil =>
    obtain rfl := Except.ok.inj h
    exact haddresses
  | cons file rest ih =>
    obtain ⟨found, hfound, h⟩ := of_bind_ok h
    rw [require_bind_ok] at h
    obtain ⟨⟨tail, sources⟩, htail, rfl⟩ := of_map_ok h.2
    have hread : ∀ a ∈ found, Canonical u.toLower a :=
      forall_of_readAddresses (fun _ _ => canonical_of_normalizedAddress) (fun a ha => absurd ha List.not_mem_nil) hfound
    intro a ha
    exact ih (fun b hb => (List.mem_append.mp hb).elim (haddresses b) (hread b)) htail a ha

theorem canonical_of_loadExcluded {values : List Text} {files : List AddressFile} {out : List Text × List Source}
    (h : loadExcludedAddresses u.toLower values files = .ok out) : ∀ a ∈ out.1, Canonical u.toLower a := by
  obtain ⟨addresses, hvalues, h⟩ := of_bind_ok h
  apply canonical_of_loadExcludedFiles _ h
  intro a ha
  obtain ⟨value, -, hvalue⟩ := ok_of_mem_right (forall₂_of_mapM_ok hvalues) ha
  exact canonical_of_normalizedAddress hvalue

/-- A row that spells a listed address is at that address. -/
theorem Canonical.addressOf_eq (h : Canonical u.toLower a) (ht : u.lower row.address = a) (hne : row.address ≠ []) :
    row.addressOf u.toLower = a := by
  have hhex : hexPrefix <+: u.lower row.address := ht ▸ h.hex
  unfold Row.addressOf anyToHex
  rw [if_neg hne, if_pos hhex]
  unfold normalizeAddress
  dsimp only
  rw [if_pos hhex, ht, if_pos h.length]
  rfl

/-- The key of a row is the hash of its address. -/
theorem key_eq_of_addressOf (hrow : HashesTo u.toLower row.address (row.key u.toLower))
    (hrow' : HashesTo u.toLower row'.address (row'.key u.toLower))
    (h : row.addressOf u.toLower = row'.addressOf u.toLower) : row.key u.toLower = row'.key u.toLower := by
  have hkey : ∀ r : Row, HashesTo u.toLower r.address (r.key u.toLower) →
      ∃ raw, fromhex ((r.addressOf u.toLower).drop 2) = some raw ∧
        r.key u.toLower = hexPrefix ++ hexText (Keccak256.keccak256Pure raw) := by
    rintro r ⟨normalized, hnormalized⟩
    have haddress := EligibilityVerify.addressOf_eq hnormalized
    unfold requireAddressSecureKey at hnormalized
    split at hnormalized
    · cases hnormalized
    · split at hnormalized
      · cases hnormalized
      · rename_i raw hraw
        dsimp only at hnormalized
        split_ifs at hnormalized with hexpected
        obtain rfl := Except.ok.inj hnormalized
        refine ⟨raw, haddress ▸ hraw, ?_⟩
        rw [← hexpected, Row.key, u.lower_lower]
  obtain ⟨raw, hraw, hk⟩ := hkey row hrow
  obtain ⟨raw', hraw', hk'⟩ := hkey row' hrow'
  rw [h, hraw'] at hraw
  rw [hk, hk', Option.some.inj hraw]

theorem eq_of_key_eq {rows : List Row} (h : (keysOf u.toLower rows).Pairwise (· < ·)) (hrow : row ∈ rows)
    (hrow' : row' ∈ rows) (hkey : row.key u.toLower = row'.key u.toLower) : row = row' :=
  List.inj_on_of_nodup_map (h.imp fun hlt => hlt.ne) hrow hrow' hkey

/-- Where every address of a list is spelled by a row, the spelling and the value of an address agree on the list. -/
theorem addressOf_mem_iff {rows : List Row} {l : List Text} (hl : ∀ a ∈ l, Canonical u.toLower a)
    (hseen : ∀ a ∈ l, ∃ row ∈ rows, u.lower row.address = a) (hincreasing : (keysOf u.toLower rows).Pairwise (· < ·))
    (hnamed : ∀ row ∈ rows, row.address ≠ [] ∧ HashesTo u.toLower row.address (row.key u.toLower)) (hrow : row ∈ rows) :
    row.addressOf u.toLower ∈ l ↔ u.lower row.address ∈ l := by
  refine ⟨fun h => ?_, fun h => ?_⟩
  · obtain ⟨row', hrow', hspelled⟩ := hseen _ h
    have hvalue := (hl _ h).addressOf_eq hspelled (hnamed row' hrow').1
    have hkey := key_eq_of_addressOf (hnamed row' hrow').2 (hnamed row hrow).2 hvalue
    rw [← eq_of_key_eq hincreasing hrow' hrow hkey] at h ⊢
    rwa [hspelled, ← hvalue]
  · rw [(hl _ h).addressOf_eq rfl (hnamed row hrow).1]
    exact h

end Address

/-! ### The rows that are written -/

/-- The file of a row of the ledger, looked up under the given address. -/
def ApplyArgs.label (u : Lower) (args : ApplyArgs) (excluded active : List Text) (address : Text) (row : Row) :
    Option Category :=
  if args.Eligible row then (row.codeBearing u).bind fun hasCode => (assigned excluded active address hasCode).toOption
  else none

/-- What the loop asks of a row. -/
structure RowRead (u : Lower) (row : Row) : Prop where
  address : row.address ≠ []
  named : HashesTo u row.address (row.key u)
  wallet : 0 ≤ row.amount .walletAirdrop
  vault : 0 ≤ row.amount .stakedToVault
  closes : row.amount .walletAirdrop + row.amount .stakedToVault = row.amount .totalClaim
  code : ∃ hasCode, row.codeBearing u = some hasCode

/-- What the loop has read after the rows `done`. -/
structure Scanned (u : Lower) (args : ApplyArgs) (done : List Row) (s : Sorting) : Prop where
  previous : s.previous = (keysOf u done).getLast?
  increasing : (keysOf u done).Pairwise (· < ·)
  read : ∀ row ∈ done, RowRead u row
  inputRows : s.inputRows = done.length
  exact : s.exactThresholdRows = (done.filter fun row => row.value = args.minimum).length

/-- What the loop has written after the rows `done`. -/
structure Sorted (u : Lower) (args : ApplyArgs) (excluded active : List Text) (done : List Row) (s : Sorting) : Prop where
  scanned : Scanned u args done s
  labelled : ∀ row ∈ done, args.Eligible row → ∃ c, args.label u excluded active (u.lower row.address) row = some c
  written : ∀ c, s.written c = done.filter fun row => args.label u excluded active (u.lower row.address) row = some c
  rows : ∀ c, s.rows c = (s.written c).length
  totals : ∀ c component, s.totals c component = ((s.written c).map fun row => row.componentAtto component).sum
  below : s.thresholdRows + s.belowThresholdRows = done.length
  threshold : s.thresholdRows = s.rows .automatic + s.rows .contractReview + s.rows .excludedAddress
  seenExcluded : ∀ a, a ∈ s.seenExcluded ↔ ∃ row ∈ s.written .excludedAddress, u.lower row.address = a
  seenAutomaticCode : ∀ a, a ∈ s.seenAutomaticCode ↔ a ∈ active ∧ ∃ row ∈ s.written .automatic, u.lower row.address = a

section Loop
variable {u : Lower} {args : ApplyArgs} {excluded active : List Text} {s s' : Sorting} {row : Row} {done : List Row}

theorem shared_iff {α : Type} {x : Except Error α} {a : α} : x.mapError ApplyError.shared = .ok a ↔ x = .ok a := by
  refine ⟨mapError_ok, fun h => ?_⟩
  rw [h]
  rfl

/-- What a row that is read does: below the threshold it is counted, and else it goes to its file. -/
theorem applyRow_ok (h : applyRow u args excluded active s row = .ok s') :
    (∀ previous ∈ s.previous, previous < row.key u) ∧ RowRead u row ∧
    (¬args.Eligible row ∧ s' = (s.read (row.key u) (row.value = args.minimum)).skip ∨
      args.Eligible row ∧ ∃ c, args.label u excluded active (u.lower row.address) row = some c ∧
        s' = (s.read (row.key u) (row.value = args.minimum)).put active c (u.lower row.address) row) := by
  unfold applyRow at h
  dsimp only at h
  rw [require_bind_ok, require_bind_ok] at h
  obtain ⟨hprevious, hne, h⟩ := h
  obtain ⟨normalized, hname, h⟩ := of_bind_ok h
  rw [ofOption_bind_ok] at h
  obtain ⟨hasCode, hcode, h⟩ := h
  rw [require_bind_ok] at h
  obtain ⟨⟨hwallet, hvault, -, hcloses⟩, h⟩ := h
  have hread : RowRead u row := ⟨hne, ⟨normalized, mapError_ok hname⟩, hwallet, hvault, hcloses, hasCode, hcode⟩
  refine ⟨hprevious, hread, ?_⟩
  by_cases heligible : args.Eligible row
  · rw [if_pos heligible] at h
    obtain ⟨c, hc, h⟩ := of_bind_ok h
    obtain ⟨_, -, rfl⟩ := of_map_ok h
    refine .inr ⟨heligible, c, ?_, rfl⟩
    rw [ApplyArgs.label, if_pos heligible, hcode, Option.bind_some, shared_iff.mp hc]
    rfl
  · rw [if_neg heligible] at h
    exact .inl ⟨heligible, (Except.ok.inj h).symm⟩

theorem pairwise_concat {keys : List Text} {key : Text} (h : keys.Pairwise (· < ·))
    (hlast : ∀ previous ∈ keys.getLast?, previous < key) : (keys ++ [key]).Pairwise (· < ·) := by
  rw [List.pairwise_append]
  refine ⟨h, List.pairwise_singleton _ _, fun k hk key' hkey' => ?_⟩
  obtain rfl := List.mem_singleton.mp hkey'
  obtain ⟨init, last, rfl⟩ := (List.eq_nil_or_concat' keys).resolve_left (List.ne_nil_of_mem hk)
  have hlt : last < key' := hlast last (by simp)
  rcases List.mem_append.mp hk with hk | hk
  · exact ((List.pairwise_append.mp h).2.2 k hk last (List.mem_singleton_self last)).trans hlt
  · exact List.mem_singleton.mp hk ▸ hlt

theorem Scanned.read_concat (h : Scanned u args done s) (hread : RowRead u row)
    (hprevious : ∀ previous ∈ s.previous, previous < row.key u) :
    Scanned u args (done ++ [row]) (s.read (row.key u) (row.value = args.minimum)) := by
  have hkeys : keysOf u (done ++ [row]) = keysOf u done ++ [row.key u] := by simp [keysOf]
  refine ⟨?_, ?_, fun r hr => ?_, ?_, ?_⟩
  · rw [hkeys, List.getLast?_concat]
    rfl
  · rw [hkeys]
    exact pairwise_concat h.increasing (h.previous ▸ hprevious)
  · rcases List.mem_append.mp hr with hr | hr
    · exact h.read r hr
    · exact List.mem_singleton.mp hr ▸ hread
  · rw [List.length_append, ← h.inputRows]
    rfl
  · rw [List.filter_append, List.length_append, ← h.exact]
    by_cases hexact : row.value = args.minimum
    · simp [Sorting.read, hexact]
    · simp [Sorting.read, hexact]

theorem filter_label_concat {label : Row → Option Category} {c : Category} :
    ((done ++ [row]).filter fun r => label r = some c) =
      (done.filter fun r => label r = some c) ++ if label row = some c then [row] else [] := by
  rw [List.filter_append]
  by_cases h : label row = some c <;> simp [h]

theorem Sorted.start : Sorted u args excluded active [] .start where
  scanned := ⟨rfl, .nil, fun _ h => absurd h List.not_mem_nil, rfl, rfl⟩
  labelled := fun _ h => absurd h List.not_mem_nil
  written := fun _ => rfl
  rows := fun _ => rfl
  totals := fun _ _ => rfl
  below := rfl
  threshold := rfl
  seenExcluded := fun a => by simp [Sorting.start]
  seenAutomaticCode := fun a => by simp [Sorting.start]

theorem Sorted.skip (h : Sorted u args excluded active done s)
    (hscanned : Scanned u args (done ++ [row]) (s.read (row.key u) (row.value = args.minimum)))
    (heligible : ¬args.Eligible row) :
    Sorted u args excluded active (done ++ [row]) (s.read (row.key u) (row.value = args.minimum)).skip where
  scanned := ⟨hscanned.previous, hscanned.increasing, hscanned.read, hscanned.inputRows, hscanned.exact⟩
  labelled := by
    intro r hr hr'
    rcases List.mem_append.mp hr with hr | hr
    · exact h.labelled r hr hr'
    · exact absurd (List.mem_singleton.mp hr ▸ hr') heligible
  written := by
    intro c
    have hnone : args.label u excluded active (u.lower row.address) row = none := if_neg heligible
    rw [filter_label_concat, hnone, if_neg (Option.some_ne_none c).symm, List.append_nil]
    exact h.written c
  rows := h.rows
  totals := h.totals
  below := by
    rw [List.length_append, ← h.below]
    rfl
  threshold := h.threshold
  seenExcluded := h.seenExcluded
  seenAutomaticCode := h.seenAutomaticCode

section Put
variable {c c' : Category} {address : Text}

@[simp] theorem read_written {key : Text} {exact : Bool} : (s.read key exact).written = s.written := rfl

@[simp] theorem read_rows {key : Text} {exact : Bool} : (s.read key exact).rows = s.rows := rfl

@[simp] theorem read_totals {key : Text} {exact : Bool} : (s.read key exact).totals = s.totals := rfl

theorem written_put : (s.put active c address row).written c' = s.written c' ++ if c = c' then [row] else [] := by
  by_cases hc : c = c'
  · subst hc
    simp [Sorting.put]
  · simp [Sorting.put, hc, Function.update_of_ne (Ne.symm hc)]

theorem rows_put : (s.put active c address row).rows c' = s.rows c' + if c = c' then 1 else 0 := by
  by_cases hc : c = c'
  · subst hc
    simp [Sorting.put]
  · simp [Sorting.put, hc, Function.update_of_ne (Ne.symm hc)]

theorem totals_put {component : Component} : (s.put active c address row).totals c' component =
    s.totals c' component + if c = c' then row.componentAtto component else 0 := by
  by_cases hc : c = c'
  · subst hc
    simp [Sorting.put]
  · simp [Sorting.put, hc, Function.update_of_ne (Ne.symm hc)]

/-- The row that is written is eligible, and its address is seen on the list that decided its file. -/
theorem assigned_of_label (h : args.label u excluded active address row = some c) :
    ∃ hasCode, row.codeBearing u = some hasCode ∧ assigned excluded active address hasCode = .ok c := by
  unfold ApplyArgs.label at h
  split_ifs at h
  obtain ⟨hasCode, hcode, h⟩ := Option.bind_eq_some_iff.mp h
  exact ⟨hasCode, hcode, eq_ok_of_toOption h⟩

end Put

theorem Sorted.put (h : Sorted u args excluded active done s) {c : Category}
    (hscanned : Scanned u args (done ++ [row]) (s.read (row.key u) (row.value = args.minimum)))
    (hlabel : args.label u excluded active (u.lower row.address) row = some c) :
    Sorted u args excluded active (done ++ [row])
      ((s.read (row.key u) (row.value = args.minimum)).put active c (u.lower row.address) row) where
  scanned := ⟨hscanned.previous, hscanned.increasing, hscanned.read, hscanned.inputRows, hscanned.exact⟩
  labelled := by
    intro r hr hr'
    rcases List.mem_append.mp hr with hr | hr
    · exact h.labelled r hr hr'
    · exact ⟨c, List.mem_singleton.mp hr ▸ hlabel⟩
  written := by
    intro c'
    rw [filter_label_concat, written_put, hlabel, ← h.written c', read_written]
    simp
  rows := by
    intro c'
    rw [rows_put, written_put, read_rows, read_written, List.length_append, ← h.rows c']
    split_ifs <;> rfl
  totals := by
    intro c' component
    rw [totals_put, written_put, read_totals, read_written, List.map_append, List.sum_append, ← h.totals c' component]
    split_ifs
    · rw [List.map_singleton, List.sum_singleton]
    · rfl
  below := by
    rw [List.length_append, ← h.below]
    simp only [Sorting.put, Sorting.read, List.length_singleton]
    omega
  threshold := by
    have hthreshold := h.threshold
    rw [rows_put, rows_put, rows_put]
    simp only [Sorting.put, Sorting.read]
    cases c with
    | automatic => simp; omega
    | contractReview => simp; omega
    | excludedAddress => simp; omega
  seenExcluded := by
    intro a
    have hseen := h.seenExcluded a
    rw [written_put]
    simp only [Sorting.put, Sorting.read]
    by_cases hc : c = .excludedAddress
    · simp [hc, hseen]
      grind
    · simp [hc, hseen]
  seenAutomaticCode := by
    intro a
    have hseen := h.seenAutomaticCode a
    rw [written_put]
    simp only [Sorting.put, Sorting.read]
    by_cases hc : c = .automatic
    · by_cases hactive : u.lower row.address ∈ active
      · simp [hc, hactive, hseen]
        grind
      · simp [hc, hactive, hseen]
        grind
    · simp [hc, hseen]

theorem applyRow_sorted (h : Sorted u args excluded active done s) (hrow : applyRow u args excluded active s row = .ok s') :
    Sorted u args excluded active (done ++ [row]) s' := by
  obtain ⟨hprevious, hread, hcases⟩ := applyRow_ok hrow
  have hscanned := h.scanned.read_concat hread hprevious
  rcases hcases with ⟨heligible, rfl⟩ | ⟨-, c, hlabel, rfl⟩
  · exact h.skip hscanned heligible
  · exact h.put hscanned hlabel

end Loop

/-! ### What a run writes -/

/-- What a run wrote: every eligible row of the ledger once, in the file of the value of its address and of its code. -/
structure Classified (u : Lower) (args : ApplyArgs) (out : Applied) (excluded active : List Text) : Prop where
  files : ∀ c, (out.files c).rows =
    args.input.filter fun row => args.label u excluded active (row.addressOf u) row = some c
  once : ∀ row ∈ args.input, args.Eligible row → ∃! c, row ∈ (out.files c).rows
  inputRows : out.inputRows = args.input.length
  below : out.thresholdRows + out.belowThresholdRows = args.input.length
  threshold : out.thresholdRows = (out.files .automatic).rows.length + (out.files .contractReview).rows.length +
    (out.files .excludedAddress).rows.length
  excludedFound : SameSet out.excludedAddressesFound excluded
  automaticCodeFound : SameSet out.automaticCodeAddressesFound active

section Whole
variable {u : Lowercase} {sha256 : List Row → Text} {args : ApplyArgs} {out : Applied} {excluded active : List Text}
  {s : Sorting} {row : Row}

theorem applyPolicy_ok {u : Lower} (h : applyPolicy u sha256 args = .ok out) : ∃ excluded automaticCode s,
    loadExcludedAddresses u args.excludeAddress args.excludeAddressesFiles = .ok excluded ∧
    loadAutomaticCodeAddresses u args.automaticCodeFiles = .ok automaticCode ∧
    Sorted u args excluded.1 (activeCode excluded.1 automaticCode.1) args.input s ∧
    SameSet s.seenExcluded excluded.1 ∧ SameSet s.seenAutomaticCode (activeCode excluded.1 automaticCode.1) ∧
    out = appliedOf sha256 args excluded automaticCode s := by
  unfold applyPolicy at h
  obtain ⟨excluded, hexcluded, h⟩ := of_bind_ok h
  obtain ⟨automaticCode, hautomaticCode, h⟩ := of_bind_ok h
  obtain ⟨s, hloop, h⟩ := of_bind_ok h
  rw [require_bind_ok] at h
  obtain ⟨hseen, h⟩ := h
  obtain ⟨_, hfound, rfl⟩ := of_map_ok h
  have hsorted : Sorted u args excluded.1 (activeCode excluded.1 automaticCode.1) args.input s :=
    foldlM_invariant (fun _ _ _ _ h hrow => applyRow_sorted h hrow) .start hloop
  exact ⟨excluded, automaticCode, s, shared_iff.mp hexcluded, shared_iff.mp hautomaticCode, hsorted, hseen,
    of_require_ok hfound, rfl⟩

/-- The end of a run: every listed address was seen. -/
structure Finished (u : Lowercase) (args : ApplyArgs) (excluded active : List Text) (s : Sorting) : Prop where
  sorted : Sorted u.toLower args excluded active args.input s
  canonicalExcluded : ∀ a ∈ excluded, Canonical u.toLower a
  canonicalActive : ∀ a ∈ active, Canonical u.toLower a
  seenExcluded : SameSet s.seenExcluded excluded
  seenAutomaticCode : SameSet s.seenAutomaticCode active

theorem Finished.mem_of_written (h : Finished u args excluded active s) {c : Category} (hrow : row ∈ s.written c) :
    row ∈ args.input ∧ args.label u.toLower excluded active (u.lower row.address) row = some c := by
  rw [h.sorted.written c, List.mem_filter, decide_eq_true_iff] at hrow
  exact hrow

theorem Finished.named (h : Finished u args excluded active s) :
    ∀ row ∈ args.input, row.address ≠ [] ∧ HashesTo u.toLower row.address (row.key u.toLower) := fun row hrow =>
  ⟨(h.sorted.scanned.read row hrow).address, (h.sorted.scanned.read row hrow).named⟩

theorem Finished.excluded_mem_iff (h : Finished u args excluded active s) (hrow : row ∈ args.input) :
    row.addressOf u.toLower ∈ excluded ↔ u.lower row.address ∈ excluded := by
  apply addressOf_mem_iff h.canonicalExcluded _ h.sorted.scanned.increasing h.named hrow
  intro a ha
  obtain ⟨r, hr, hspelled⟩ := (h.sorted.seenExcluded a).mp (h.seenExcluded.2 a ha)
  exact ⟨r, (h.mem_of_written hr).1, hspelled⟩

theorem Finished.active_mem_iff (h : Finished u args excluded active s) (hrow : row ∈ args.input) :
    row.addressOf u.toLower ∈ active ↔ u.lower row.address ∈ active := by
  apply addressOf_mem_iff h.canonicalActive _ h.sorted.scanned.increasing h.named hrow
  intro a ha
  obtain ⟨-, r, hr, hspelled⟩ := (h.sorted.seenAutomaticCode a).mp (h.seenAutomaticCode.2 a ha)
  exact ⟨r, (h.mem_of_written hr).1, hspelled⟩

theorem Finished.assigned_eq (h : Finished u args excluded active s) (hrow : row ∈ args.input) (hasCode : Bool) :
    assigned excluded active (row.addressOf u.toLower) hasCode = assigned excluded active (u.lower row.address) hasCode := by
  unfold assigned
  simp only [h.excluded_mem_iff hrow, h.active_mem_iff hrow]

theorem Finished.label_eq (h : Finished u args excluded active s) (hrow : row ∈ args.input) :
    args.label u.toLower excluded active (row.addressOf u.toLower) row =
      args.label u.toLower excluded active (u.lower row.address) row := by
  unfold ApplyArgs.label
  simp only [h.assigned_eq hrow]

theorem Finished.written_eq (h : Finished u args excluded active s) (c : Category) : s.written c =
    args.input.filter fun row => args.label u.toLower excluded active (row.addressOf u.toLower) row = some c := by
  rw [h.sorted.written c]
  exact List.filter_congr fun row hrow => by rw [h.label_eq hrow]

theorem Finished.mem_written_iff (h : Finished u args excluded active s) {c : Category} : row ∈ s.written c ↔
    row ∈ args.input ∧ args.label u.toLower excluded active (row.addressOf u.toLower) row = some c := by
  rw [h.written_eq c, List.mem_filter, decide_eq_true_iff]

theorem Finished.exists_written (h : Finished u args excluded active s) (hrow : row ∈ args.input)
    (heligible : args.Eligible row) : ∃ c, row ∈ s.written c := by
  obtain ⟨c, hc⟩ := h.sorted.labelled row hrow heligible
  rw [← h.label_eq hrow] at hc
  exact ⟨c, h.mem_written_iff.mpr ⟨hrow, hc⟩⟩

theorem mem_sortedSet {l : List Text} {a : Text} : a ∈ sortedSet l ↔ a ∈ l := by
  rw [sortedSet, List.mem_insertionSort, List.mem_dedup]

theorem Finished.classified (h : Finished u args excluded active s) {excludedSources codeSources : List Source}
    {automaticCode : List Text} : Classified u.toLower args
      (appliedOf sha256 args (excluded, excludedSources) (automaticCode, codeSources) s) excluded active where
  files := h.written_eq
  once := by
    intro row hrow heligible
    obtain ⟨c, hc⟩ := h.exists_written hrow heligible
    refine ⟨c, hc, fun c' hc' => ?_⟩
    exact Option.some.inj ((h.mem_of_written hc').2.symm.trans (h.mem_of_written hc).2)
  inputRows := h.sorted.scanned.inputRows
  below := h.sorted.below
  threshold := by
    have hthreshold := h.sorted.threshold
    rw [h.sorted.rows, h.sorted.rows, h.sorted.rows] at hthreshold
    exact hthreshold
  excludedFound := sameSet_iff.mpr fun a => mem_sortedSet.trans (sameSet_iff.mp h.seenExcluded a)
  automaticCodeFound := sameSet_iff.mpr fun a => mem_sortedSet.trans (sameSet_iff.mp h.seenAutomaticCode a)

/-! ### The verification of what was written -/

theorem activeCode_congr {excluded' automaticCode : List Text} (h : SameSet excluded' excluded) :
    activeCode excluded' automaticCode = activeCode excluded automaticCode := by
  unfold activeCode
  apply List.filter_congr
  intro a _
  rw [decide_eq_decide, sameSet_iff.mp h a]

/-- Without inputs of its own the verification takes the excluded addresses from the summary. -/
theorem excludedAddresses_verification {excluded automaticCode : List Text × List Source}
    (h : loadExcludedAddresses u.toLower args.excludeAddress args.excludeAddressesFiles = .ok excluded)
    (independent : Bool) : ∃ requested sources, SameSet requested excluded.1 ∧
      excludedAddresses u.toLower ((appliedOf sha256 args excluded automaticCode s).verification args independent) =
        .ok (requested, sources) := by
  have hset : SameSet (sortedSet excluded.1) excluded.1 := sameSet_iff.mpr fun a => mem_sortedSet
  unfold excludedAddresses
  dsimp only
  split_ifs with hnone
  · exact ⟨_, _, hset, rfl⟩
  · have hindependent : independent = true := by
      by_contra hfalse
      rw [Bool.not_eq_true] at hfalse
      exact hnone (by simp [Applied.verification, hfalse])
    refine ⟨excluded.1, excluded.2, sameSet_iff.mpr fun a => Iff.rfl, ?_⟩
    subst hindependent
    have hload : loadExcludedAddresses u.toLower
        ((appliedOf sha256 args excluded automaticCode s).verification args true).excludeAddress
        ((appliedOf sha256 args excluded automaticCode s).verification args true).excludeAddressesFiles = .ok excluded := h
    rw [hload, bind_ok_left, require_bind_ok]
    refine ⟨sameSet_iff.mpr fun a => mem_sortedSet.symm, ?_⟩
    have hsources : excluded.2 =
        ((appliedOf sha256 args excluded automaticCode s).verification args true).policy.excludedAddressSources := rfl
    rw [require_ok hsources]
    rfl

theorem eligible_iff (hmin : args.minimum = minimumAtto) (hge : args.comparison = .ge) :
    args.Eligible row ↔ minimumAtto ≤ row.value := by
  rw [ApplyArgs.Eligible, if_pos hge, hmin]

/-- The rules of the verification for the code of a row are those of the category that was assigned. -/
theorem codeOk_of_assigned {address : Text} {hasCode : Bool} {c : Category}
    (h : assigned excluded active address hasCode = .ok c) (hdisjoint : ∀ a ∈ active, a ∉ excluded) :
    CodeOk (address ∈ active) (hasCode = true) c ∧ (c = .excludedAddress ↔ address ∈ excluded) := by
  unfold assigned at h
  split_ifs at h with hexcluded hactive hcode
  · obtain rfl := Except.ok.inj h
    exact ⟨trivial, iff_of_true rfl hexcluded⟩
  · obtain ⟨_, hcode, rfl⟩ := of_map_ok h
    have hcode : hasCode = true := of_require_ok hcode
    exact ⟨iff_of_true hcode hactive, iff_of_false (fun hc => by cases hc) (hdisjoint address hactive)⟩
  · obtain rfl := Except.ok.inj h
    exact ⟨⟨hcode, hactive⟩, iff_of_false (fun hc => by cases hc) hexcluded⟩
  · obtain rfl := Except.ok.inj h
    exact ⟨iff_of_false hcode hactive, iff_of_false (fun hc => by cases hc) hexcluded⟩

theorem label_of_eligible {address : Text} {c : Category}
    (h : args.label u.toLower excluded active address row = some c) : args.Eligible row := by
  by_contra heligible
  rw [ApplyArgs.label, if_neg heligible] at h
  cases h

theorem hashesTo_secureKey (h : HashesTo u.toLower row.address (row.key u.toLower)) :
    HashesTo u.toLower row.address row.secureKey := by
  obtain ⟨normalized, h⟩ := h
  refine ⟨normalized, ?_⟩
  unfold requireAddressSecureKey at h ⊢
  rwa [Row.key, u.lower_lower] at h

section Verified
variable {automaticCode : List Text}

theorem not_excluded_of_active : ∀ a ∈ activeCode excluded automaticCode, a ∉ excluded := by
  intro a ha
  simpa using (List.mem_filter.mp ha).2

theorem Finished.rowOk (h : Finished u args excluded (activeCode excluded automaticCode) s) {c : Category}
    (hmin : args.minimum = minimumAtto) (hge : args.comparison = .ge) (hrow : row ∈ s.written c) :
    RowOk u.toLower c (activeCode excluded automaticCode) row := by
  obtain ⟨hinput, hlabel⟩ := h.mem_written_iff.mp hrow
  have hread := h.sorted.scanned.read row hinput
  obtain ⟨hasCode, hcode, hassigned⟩ := assigned_of_label hlabel
  exact ⟨hread.named, hread.wallet, hread.vault, hread.closes, (eligible_iff hmin hge).mp (label_of_eligible hlabel),
    hasCode, hcode, (codeOk_of_assigned hassigned not_excluded_of_active).1⟩

theorem Finished.keys_increasing (h : Finished u args excluded active s) (c : Category) :
    (keysOf u.toLower (s.written c)).Pairwise (· < ·) := by
  rw [h.sorted.written c]
  exact h.sorted.scanned.increasing.sublist (List.filter_sublist.map _)

/-- The category of a key is that of its row. -/
theorem Finished.mem_keys_iff (h : Finished u args excluded active s) {c : Category} (hrow : row ∈ args.input) :
    row.key u.toLower ∈ keysOf u.toLower (s.written c) ↔ row ∈ s.written c := by
  refine ⟨fun hk => ?_, fun hwritten => List.mem_map_of_mem hwritten⟩
  obtain ⟨r, hr, hkey⟩ := List.mem_map.mp hk
  rwa [← eq_of_key_eq h.sorted.scanned.increasing (h.mem_of_written hr).1 hrow hkey]

theorem Finished.row_of_key (h : Finished u args excluded active s) {c : Category} {k : Text}
    (hk : k ∈ keysOf u.toLower (s.written c)) : ∃ row ∈ args.input, row ∈ s.written c ∧ row.key u.toLower = k := by
  obtain ⟨row, hrow, hkey⟩ := List.mem_map.mp hk
  exact ⟨row, (h.mem_of_written hrow).1, hrow, hkey⟩

theorem Finished.disjoint_keys (h : Finished u args excluded active s) {c c' : Category} (hne : c ≠ c') {k : Text}
    (hk : k ∈ keysOf u.toLower (s.written c)) : k ∉ keysOf u.toLower (s.written c') := by
  intro hk'
  obtain ⟨row, hrow, hwritten, rfl⟩ := h.row_of_key hk
  have hwritten' := (h.mem_keys_iff hrow).mp hk'
  exact hne (Option.some.inj ((h.mem_of_written hwritten).2.symm.trans (h.mem_of_written hwritten').2))

theorem Finished.union_keys (h : Finished u args excluded active s) (k : Text) :
    (∃ c, k ∈ keysOf u.toLower (s.written c)) ↔ ∃ row ∈ args.input, args.Eligible row ∧ row.key u.toLower = k := by
  constructor
  · rintro ⟨c, hk⟩
    obtain ⟨row, hrow, hwritten, hkey⟩ := h.row_of_key hk
    exact ⟨row, hrow, label_of_eligible (h.mem_of_written hwritten).2, hkey⟩
  · rintro ⟨row, hrow, heligible, rfl⟩
    obtain ⟨c, hc⟩ := h.exists_written hrow heligible
    exact ⟨c, (h.mem_keys_iff hrow).mpr hc⟩

theorem Finished.written_excluded_iff (h : Finished u args excluded (activeCode excluded automaticCode) s) {c : Category}
    (hwritten : row ∈ s.written c) : c = .excludedAddress ↔ row.addressOf u.toLower ∈ excluded := by
  obtain ⟨hasCode, -, hassigned⟩ := assigned_of_label (h.mem_written_iff.mp hwritten).2
  exact (codeOk_of_assigned hassigned not_excluded_of_active).2

theorem Finished.excluded_keys (h : Finished u args excluded (activeCode excluded automaticCode) s) (k : Text) :
    k ∈ keysOf u.toLower (s.written .excludedAddress) ↔
      ∃ row ∈ args.input, (args.Eligible row ∧ row.addressOf u.toLower ∈ excluded) ∧ row.key u.toLower = k := by
  constructor
  · intro hk
    obtain ⟨row, hrow, hwritten, hkey⟩ := h.row_of_key hk
    exact ⟨row, hrow, ⟨label_of_eligible (h.mem_of_written hwritten).2, (h.written_excluded_iff hwritten).mp rfl⟩, hkey⟩
  · rintro ⟨row, hrow, ⟨heligible, hexcluded⟩, rfl⟩
    obtain ⟨c, hc⟩ := h.exists_written hrow heligible
    obtain rfl := (h.written_excluded_iff hc).mpr hexcluded
    exact (h.mem_keys_iff hrow).mpr hc

theorem Finished.override_row (h : Finished u args excluded active s) {a : Text} (ha : a ∈ active) :
    ∃ row ∈ s.written .automatic, row.addressOf u.toLower = a := by
  obtain ⟨-, row, hrow, hspelled⟩ := (h.sorted.seenAutomaticCode a).mp (h.seenAutomaticCode.2 a ha)
  exact ⟨row, hrow, (h.canonicalActive a ha).addressOf_eq hspelled (h.named row (h.mem_of_written hrow).1).1⟩

theorem Finished.conforms {excluded codes : List Text × List Source}
    (h : Finished u args excluded.1 (activeCode excluded.1 codes.1) s) (hmin : args.minimum = minimumAtto)
    (hge : args.comparison = .ge) {independent : Bool} {requested : List Text} {sources : List Source}
    (hload : loadAutomaticCodeAddresses u.toLower args.automaticCodeFiles = .ok codes)
    (hrequested : excludedAddresses u.toLower ((appliedOf sha256 args excluded codes s).verification args independent) =
      .ok (requested, sources)) (hset : SameSet requested excluded.1) :
    Conforms u.toLower ((appliedOf sha256 args excluded codes s).verification args independent) requested codes.1 where
  inclusive := by
    change args.comparison.text = _
    rw [hge]
    rfl
  exclusions := ⟨sources, hrequested⟩
  overrides := ⟨codes.2, hload⟩
  requested := sameSet_iff.mpr fun a => mem_sortedSet.symm
  input := fun row hrow => ⟨hashesTo_secureKey (h.sorted.scanned.read row hrow).named, (h.sorted.scanned.read row hrow).code⟩
  increasing := h.keys_increasing
  rows := by
    rw [activeCode_congr hset]
    exact fun c row hrow => h.rowOk hmin hge hrow
  overridesPresent := by
    rw [activeCode_congr hset]
    exact fun a ha => h.override_row ha
  disjoint := fun c c' hne k hk => h.disjoint_keys hne hk
  union := by
    intro k
    simp only [← eligible_iff hmin hge]
    exact h.union_keys k
  excludedKeys := by
    intro k
    simp only [← eligible_iff hmin hge, sameSet_iff.mp hset]
    exact h.excluded_keys k
  exact := by
    rw [← hmin]
    exact h.sorted.scanned.exact.symm
  summary := fun c =>
    ⟨(h.sorted.rows c).symm, rfl, fun component _ => congrArg renderInt (h.sorted.totals c component).symm⟩

end Verified

/-- Every eligible row is written once, in the file of the value of its address, and the verification of the threshold
accepts what was written exactly where the comparison is inclusive. -/
theorem applied_verifies {u : Lowercase} {sha256 : List Row → Text} {args : ApplyArgs} {out : Applied}
    (h : applyPolicy u.toLower sha256 args = .ok out) :
    (∃ excluded automaticCode,
      loadExcludedAddresses u.toLower args.excludeAddress args.excludeAddressesFiles = .ok excluded ∧
      loadAutomaticCodeAddresses u.toLower args.automaticCodeFiles = .ok automaticCode ∧
      Classified u.toLower args out excluded.1 (activeCode excluded.1 automaticCode.1)) ∧
    (args.minimum = minimumAtto → ∀ independent,
      (∃ result, main u.toLower (out.verification args independent) = .ok result) ↔ args.comparison = .ge) := by
  obtain ⟨excluded, automaticCode, s, hexcluded, hautomaticCode, hsorted, hseen, hfound, rfl⟩ := applyPolicy_ok h
  have hfinished : Finished u args excluded.1 (activeCode excluded.1 automaticCode.1) s :=
    ⟨hsorted, canonical_of_loadExcluded hexcluded, fun a ha =>
      canonical_of_loadAutomaticCode hautomaticCode a (List.mem_filter.mp ha).1, hseen, hfound⟩
  refine ⟨⟨excluded, automaticCode, hexcluded, hautomaticCode, hfinished.classified⟩, fun hmin independent => ?_⟩
  rw [exists_main_ok_iff_conforms]
  constructor
  · rintro ⟨requested, codes, hconforms⟩
    have hinclusive : args.comparison.text = "ge".toList := hconforms.inclusive
    by_contra hgt
    rw [Comparison.text, if_neg hgt] at hinclusive
    exact absurd hinclusive (by decide)
  · intro hge
    obtain ⟨requested, sources, hset, hrequested⟩ := excludedAddresses_verification hexcluded independent
    exact ⟨requested, automaticCode.1, hfinished.conforms hmin hge hautomaticCode hrequested hset⟩

end Whole

/-! ### The zero address excluded -/

open SupplyLedger (zeroKey zeroHex hashesTo_zeroKey)

open ClaimsDiff (asciiLowercase)

/-- The zero address has code, reaches the minimum exactly and is excluded. -/
def zeroArgs : ApplyArgs where
  input := [ledgerRow]
  automaticCodeFiles := []
  excludeAddress := [zeroHex]
  excludeAddressesFiles := []
  minimum := minimumAtto
  comparison := .ge

theorem applyRow_ledgerRow : applyRow asciiLower zeroArgs [zeroHex] [] .start ledgerRow =
    .ok ((Sorting.start.read zeroKey true).put [] .excludedAddress zeroHex ledgerRow) := by
  have hlower : asciiLower.lower ledgerRow.address = zeroHex := by decide +kernel
  have hkey : ledgerRow.key asciiLower = zeroKey := key_zeroRow _ _
  obtain ⟨normalized, hname⟩ := hashesTo_zeroKey (t := ledgerRow.address) (by decide +kernel)
  have hcode : ledgerRow.codeBearing asciiLower = some true := by decide +kernel
  have heligible : zeroArgs.Eligible ledgerRow := by decide
  have hassigned : assigned [zeroHex] [] zeroHex true = .ok .excludedAddress := if_pos (List.mem_singleton_self _)
  unfold applyRow
  dsimp only
  rw [hkey, hname, hcode, hlower, require_bind_ok, require_bind_ok]
  refine ⟨by simp [Sorting.start], by decide +kernel, ?_⟩
  simp only [Except.mapError, bind_ok_left, ofOption_bind_ok, Option.some.injEq, exists_eq_left', require_bind_ok,
    if_pos heligible, hassigned]
  refine ⟨by decide, ?_⟩
  rfl

theorem loadExcluded_zero : loadExcludedAddresses asciiLower [zeroHex] [] = .ok ([zeroHex], []) := by
  have hread : normalizedAddress asciiLower zeroHex = .ok zeroHex := by decide +kernel
  unfold loadExcludedAddresses
  rw [List.mapM_cons, hread]
  rfl

theorem zero_verifies : (∃ out, applyPolicy asciiLowercase.toLower (fun _ => []) zeroArgs = .ok out) ∧
    ∀ out, applyPolicy asciiLowercase.toLower (fun _ => []) zeroArgs = .ok out → ∀ independent,
      ∃ result, main asciiLowercase.toLower (out.verification zeroArgs independent) = .ok result := by
  refine ⟨?_, fun out h independent => ((applied_verifies h).2 rfl independent).mpr rfl⟩
  have hload : loadExcludedAddresses asciiLower zeroArgs.excludeAddress zeroArgs.excludeAddressesFiles =
      .ok ([zeroHex], []) := loadExcluded_zero
  have hloop : zeroArgs.input.foldlM (applyRow asciiLower zeroArgs [zeroHex] []) .start =
      .ok ((Sorting.start.read zeroKey true).put [] .excludedAddress zeroHex ledgerRow) := by
    change [ledgerRow].foldlM _ _ = _
    rw [List.foldlM_cons, applyRow_ledgerRow]
    rfl
  have hseen : SameSet [zeroHex] [zeroHex] := sameSet_iff.mpr fun _ => Iff.rfl
  have hcode : loadAutomaticCodeAddresses asciiLower zeroArgs.automaticCodeFiles = .ok ([], []) := rfl
  change ∃ out, applyPolicy asciiLower (fun _ => []) zeroArgs = .ok out
  unfold applyPolicy
  rw [hload, hcode]
  refine exists_bind_ok_iff.mpr ⟨_, rfl, exists_bind_ok_iff.mpr ⟨_, rfl, ?_⟩⟩
  have hactive : activeCode [zeroHex] [] = [] := rfl
  dsimp only
  rw [hactive]
  refine exists_bind_ok_iff.mpr ⟨_, hloop, exists_bind_ok_iff.mpr ⟨(), require_ok hseen, ?_⟩⟩
  exact exists_map_ok_iff.mpr ⟨(), rfl⟩

end HarmonyMigration.Claims.EligibilityVerify
