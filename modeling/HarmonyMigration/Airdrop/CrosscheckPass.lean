import HarmonyMigration.Airdrop.Crosscheck

/-! What a passed crosscheck means. The inventory keeps the first exchange that lists a wallet, so a
wallet that a named exchange lists before another one is let through. -/

namespace HarmonyMigration.Airdrop.Crosscheck

open Erc20 Except Slices
open scoped List

/-! ### The payment against the sheet -/

theorem payStep_foldl {nonce : ℕ} {l : List ((Address × ℕ) × ℕ)} {s : Paid}
    (h : (l.foldl (payStep nonce) s).problems = []) :
    s.problems = [] ∧ (l.foldl (payStep nonce) s).paid.entries =
      s.paid.entries ++ l.map fun t => (t.1.1, ⟨nonce, t.2, t.1.2⟩) := by
  induction l generalizing s with
  | nil => simpa using h
  | cons t l ih =>
    rw [List.foldl_cons] at h ⊢
    obtain ⟨hs, hentries⟩ := ih h
    rw [hentries]
    cases hget : s.paid.get? t.1.1 with
    | some first => simp [payStep, hget] at hs
    | none =>
      simp only [payStep, hget] at hs ⊢
      rw [Dict.entries_insert_of_notMem (Dict.get?_eq_none_iff.mp hget)]
      exact ⟨hs, by simp⟩

/-- One target's payments, in the order of its calls. -/
def Proposal.payments (t : Proposal) : List (Address × Payment) :=
  (t.transfers.zipIdx 1).map fun x => (x.1.1, ⟨t.nonce, x.2, x.1.2⟩)

theorem checkTarget_foldl {nextNonce : ℕ} {targets : List Proposal} {s : Paid}
    (h : (targets.foldl (checkTarget nextNonce) s).problems = []) :
    s.problems = [] ∧ (∀ t ∈ targets, t.unreadable = none ∧ t.otherCalls = []) ∧
      (targets.foldl (checkTarget nextNonce) s).paid.entries =
        s.paid.entries ++ targets.flatMap Proposal.payments := by
  induction targets generalizing s with
  | nil => simpa using h
  | cons t targets ih =>
    rw [List.foldl_cons] at h ⊢
    obtain ⟨ht, hrest, hentries⟩ := ih h
    obtain ⟨hproblems, hpaid⟩ := payStep_foldl ht
    have hclean : s.problems = [] ∧ t.unreadable = none ∧ t.otherCalls = [] := by
      simp only [List.append_eq_nil_iff, List.map_eq_nil_iff, Option.toList_eq_nil_iff] at hproblems
      exact ⟨hproblems.1.1.1, hproblems.1.1.2, hproblems.1.2⟩
    refine ⟨hclean.1, ?_, ?_⟩
    · rintro p (_ | ⟨_, hp⟩)
      · exact hclean.2
      · exact hrest p hp
    · rw [hentries]
      unfold checkTarget
      rw [hpaid, List.flatMap_cons, List.append_assoc]
      rfl

theorem listStep_foldl {rows : List SheetRow} {s : Listed} (h : (rows.foldl listStep s).problems = []) :
    s.problems = [] ∧ (rows.foldl listStep s).rows.entries = s.rows.entries ++ rows.map fun r => (r.address, r) := by
  induction rows generalizing s with
  | nil => simpa using h
  | cons row rows ih =>
    rw [List.foldl_cons] at h ⊢
    obtain ⟨hs, hentries⟩ := ih h
    rw [hentries]
    by_cases hmem : row.address ∈ s.rows.keys
    · simp [listStep, hmem] at hs
    · simp only [listStep, hmem, if_false] at hs ⊢
      rw [Dict.entries_insert_of_notMem hmem]
      exact ⟨hs, by simp⟩

theorem readLine_ok {l : SheetLine} {row : SheetRow} (h : readLine l = .ok row) :
    row.address = l.address ∧ ∃ d, l.amount = some d ∧ row.amount = d.digits * d.unit ∧ row.tolerance = d.unit / 2 := by
  unfold readLine at h
  obtain ⟨amount, hamount, h⟩ := of_bind_ok h
  obtain ⟨-, -, rfl⟩ := of_map_ok h
  cases hd : l.amount with
  | none => simp [sheetAmount, hd] at hamount
  | some d =>
    simp only [sheetAmount, hd, require_bind_ok] at hamount
    obtain ⟨-, hamount⟩ := hamount
    obtain ⟨-, -, rfl⟩ := of_map_ok hamount
    exact ⟨rfl, d, rfl, rfl, rfl⟩

theorem readSheet_ok {lines : List SheetLine} {rows : List SheetRow} (h : readSheet lines = .ok rows) :
    List.Forall₂ (fun l row => readLine l = .ok row) lines rows := by
  unfold readSheet at h
  obtain ⟨rows', hrows, h⟩ := of_bind_ok h
  obtain ⟨-, -, rfl⟩ := of_map_ok h
  exact forall₂_of_mapM_ok hrows

/-- What a clean first section says of the payments and the sheet. -/
theorem paySection_ok {nextNonce : ℕ} {targets : List Proposal} {sheet : List SheetRow} {paid : Dict Address Payment}
    {rows : Dict Address SheetRow} (h : paySection nextNonce targets sheet = (paid, rows, [])) :
    (∀ t ∈ targets, t.unreadable = none ∧ t.otherCalls = []) ∧
      paid.entries = targets.flatMap Proposal.payments ∧ unpaid paid rows = [] ∧
      (sheet.map SheetRow.address).Nodup ∧
      (targets.flatMap Proposal.payments).map Prod.fst ~ sheet.map SheetRow.address ∧
      ∀ e ∈ targets.flatMap Proposal.payments, ∃ row ∈ sheet, row.address = e.1 ∧ ¬differs e.2.amount row := by
  unfold paySection at h
  simp only [Prod.mk.injEq] at h
  obtain ⟨hpaidEq, hrowsEq, h⟩ := h
  simp only [List.append_eq_nil_iff, List.map_eq_nil_iff] at h
  obtain ⟨⟨⟨hpaid, hlisted⟩, hreasons⟩, hunpaid⟩ := h
  obtain ⟨-, hclean, hentries⟩ := checkTarget_foldl hpaid
  obtain ⟨-, hrows⟩ := listStep_foldl hlisted
  rw [show (Dict.empty : Dict Address Payment).entries = [] from rfl, List.nil_append] at hentries
  rw [show (Dict.empty : Dict Address SheetRow).entries = [] from rfl, List.nil_append] at hrows
  rw [hpaidEq] at hentries hreasons hunpaid
  rw [hrowsEq] at hrows hreasons hunpaid
  have hkeys : rows.keys = sheet.map SheetRow.address := by
    rw [Dict.keys, hrows, List.map_map]
    rfl
  have hpays : ∀ e ∈ targets.flatMap Proposal.payments, ∃ row ∈ sheet, row.address = e.1 ∧ ¬differs e.2.amount row := by
    intro e he
    have hreason := List.filterMap_eq_nil_iff.mp hreasons e (hentries ▸ he)
    unfold paymentReason at hreason
    cases hget : rows.get? e.1 with
    | none => simp [hget] at hreason
    | some row =>
      have hmem := Dict.get?_eq_some_iff.mp hget
      rw [hrows] at hmem
      obtain ⟨row', hrow', heq⟩ := List.mem_map.mp hmem
      obtain ⟨ha, rfl⟩ : row'.address = e.1 ∧ row' = row := by simpa using heq
      refine ⟨row', hrow', ha, fun hdiff => ?_⟩
      simp [hget, hdiff] at hreason
  have hnodup : (sheet.map SheetRow.address).Nodup := hkeys ▸ rows.nodup
  refine ⟨hclean, hentries, hunpaid, hnodup, ?_, hpays⟩
  have hpaidNodup : ((targets.flatMap Proposal.payments).map Prod.fst).Nodup := hentries ▸ paid.nodup
  refine (List.perm_ext_iff_of_nodup hpaidNodup hnodup).mpr fun a => ⟨fun ha => ?_, fun ha => ?_⟩
  · obtain ⟨e, he, rfl⟩ := List.mem_map.mp ha
    obtain ⟨row, hrow, hra, -⟩ := hpays e he
    exact List.mem_map.mpr ⟨row, hrow, hra⟩
  · have hall := List.filter_eq_nil_iff.mp hunpaid a (hkeys ▸ ha)
    have hmem : a ∈ paid.keys := by simpa using hall
    rwa [Dict.keys, hentries] at hmem

/-! ### The inventory -/

/-- The wallets in the order they are read, each with the exchange that lists it. -/
def Input.listings (i : Input) : List (Address × String) :=
  ((sortedFiles i.files).flatMap WalletFile.records).filterMap fun r => r.wallet.map fun w => (w, r.exchange)

def WalletRecord.Delivers (r : WalletRecord) (a : Address) : Prop :=
  r.destination = some a ∨ r.stakingDestination = some a

theorem readRecord_destinations {name : String} {inventory : Inventory} {r : WalletRecord × ℕ} {a : Address} :
    a ∈ (readRecord name inventory r).destinations.keys ↔
      a ∈ inventory.destinations.keys ∨ r.1.wallet.isSome ∧ r.1.Delivers a := by
  unfold readRecord WalletRecord.Delivers
  cases r.1.wallet with
  | none => simp
  | some w =>
    cases r.1.destination with
    | none =>
      cases r.1.stakingDestination with
      | none => simp
      | some t => simp [Dict.mem_keys_setdefault, eq_comm]
    | some d =>
      cases r.1.stakingDestination with
      | none => simp [Dict.mem_keys_setdefault, eq_comm]
      | some t => simp [Dict.mem_keys_setdefault, eq_comm, or_assoc]

theorem readRecord_foldl {name : String} (l : List (WalletRecord × ℕ)) (inventory : Inventory) :
    (∀ a, (l.foldl (readRecord name) inventory).wallets.get? a = (inventory.wallets.get? a).or
        (((l.filterMap fun r => r.1.wallet.map fun w => (w, r.1.exchange)).find? fun p => p.1 = a).map Prod.snd)) ∧
      (∀ a, a ∈ (l.foldl (readRecord name) inventory).destinations.keys ↔
        a ∈ inventory.destinations.keys ∨ ∃ r ∈ l, r.1.wallet.isSome ∧ r.1.Delivers a) ∧
      ((l.foldl (readRecord name) inventory).problems = [] → inventory.problems = [] ∧ ∀ r ∈ l, r.1.wallet.isSome) := by
  induction l generalizing inventory with
  | nil => simp
  | cons r l ih =>
    obtain ⟨hwallets, hdest, hproblems⟩ := ih (readRecord name inventory r)
    refine ⟨fun a => ?_, fun a => ?_, fun h => ?_⟩
    · rw [List.foldl_cons, hwallets, List.filterMap_cons]
      cases hw : r.1.wallet with
      | none => simp [readRecord, hw]
      | some w =>
        simp only [readRecord, hw, Option.map_some]
        rw [Dict.get?_setdefault, Option.or_assoc, List.find?_cons]
        by_cases ha : w = a
        · simp [ha]
        · simp [ha, Ne.symm ha]
    · rw [List.foldl_cons, hdest, readRecord_destinations, or_assoc]
      simp only [List.mem_cons, exists_eq_or_imp]
    · rw [List.foldl_cons] at h
      obtain ⟨hp, hall⟩ := hproblems h
      cases hw : r.1.wallet with
      | none => simp [readRecord, hw] at hp
      | some w =>
        simp only [readRecord, hw] at hp
        refine ⟨hp, ?_⟩
        rintro x (_ | ⟨_, hx⟩)
        · simp [hw]
        · exact hall x hx

theorem readFile_foldl (files : List WalletFile) (inventory : Inventory) :
    (∀ a, (files.foldl readFile inventory).wallets.get? a = (inventory.wallets.get? a).or
        ((((files.flatMap WalletFile.records).filterMap fun r => r.wallet.map fun w => (w, r.exchange)).find?
          fun p => p.1 = a).map Prod.snd)) ∧
      (∀ a, a ∈ (files.foldl readFile inventory).destinations.keys ↔
        a ∈ inventory.destinations.keys ∨ ∃ r ∈ files.flatMap WalletFile.records, r.wallet.isSome ∧ r.Delivers a) ∧
      ((files.foldl readFile inventory).problems = [] →
        inventory.problems = [] ∧ ∀ r ∈ files.flatMap WalletFile.records, r.wallet.isSome) := by
  induction files generalizing inventory with
  | nil => simp
  | cons file files ih =>
    have hrecords (k : ℕ) : (file.records.zipIdx k).map Prod.fst = file.records := by simp
    obtain ⟨hw, hd, hp⟩ := ih (readFile inventory file)
    obtain ⟨fw, fd, fp⟩ := @readRecord_foldl file.name (file.records.zipIdx 2) inventory
    have hlist : ((file.records.zipIdx 2).filterMap fun r => r.1.wallet.map fun w => (w, r.1.exchange)) =
        file.records.filterMap fun r => r.wallet.map fun w => (w, r.exchange) := by
      conv_rhs => rw [← hrecords 2, List.filterMap_map]
      rfl
    have hmem {P : WalletRecord → Prop} : (∃ r ∈ file.records.zipIdx 2, P r.1) ↔ ∃ r ∈ file.records, P r := by
      conv_rhs => rw [← hrecords 2]
      simp only [List.mem_map, exists_exists_and_eq_and]
    refine ⟨fun a => ?_, fun a => ?_, fun h => ?_⟩
    · rw [List.foldl_cons, hw, readFile, fw, hlist, List.flatMap_cons, List.filterMap_append, List.find?_append,
        Option.or_assoc, Option.map_or]
    · rw [List.foldl_cons, hd, readFile, fd, @hmem fun r => r.wallet.isSome ∧ r.Delivers a, or_assoc, List.flatMap_cons]
      simp only [List.mem_append, or_and_right, exists_or]
    · rw [List.foldl_cons] at h
      obtain ⟨h1, h2⟩ := hp h
      obtain ⟨h3, h4⟩ := fp h1
      refine ⟨h3, fun r hr => ?_⟩
      rw [List.flatMap_cons, List.mem_append] at hr
      rcases hr with hr | hr
      · rw [← hrecords 2] at hr
        obtain ⟨x, hx, rfl⟩ := List.mem_map.mp hr
        exact h4 x hx
      · exact h2 r hr

theorem mem_sortedFiles {files : List WalletFile} {r : WalletRecord} :
    r ∈ (sortedFiles files).flatMap WalletFile.records ↔ ∃ file ∈ files, r ∈ file.records := by
  simp [sortedFiles, List.mem_insertionSort]

theorem readInventory_ok {i : Input} {inventory : Inventory} (h : readInventory i.files i.summary = .ok inventory) :
    (∀ a, inventory.wallets.get? a = (i.listings.find? fun p => p.1 = a).map Prod.snd) ∧
      (∀ a, a ∈ inventory.destinations.keys ↔ ∃ file ∈ i.files, ∃ r ∈ file.records, r.wallet.isSome ∧ r.Delivers a) ∧
      (inventory.problems = [] → ∀ file ∈ i.files, ∀ r ∈ file.records, r.wallet.isSome) := by
  unfold readInventory at h
  rw [require_bind_ok] at h
  obtain ⟨-, h⟩ := h
  obtain ⟨-, -, h⟩ := of_map_ok h
  obtain ⟨hw, hd, hp⟩ := readFile_foldl (sortedFiles i.files) .empty
  have hfiles (P : WalletRecord → Prop) : (∃ r ∈ (sortedFiles i.files).flatMap WalletFile.records, P r) ↔
      ∃ file ∈ i.files, ∃ r ∈ file.records, P r := by
    simp only [mem_sortedFiles]
    exact ⟨fun ⟨r, ⟨f, hf, hr⟩, hP⟩ => ⟨f, hf, r, hr, hP⟩, fun ⟨f, hf, r, hr, hP⟩ => ⟨r, ⟨f, hf, hr⟩, hP⟩⟩
  have hread : (∀ a, ((sortedFiles i.files).foldl readFile .empty).wallets.get? a =
        (i.listings.find? fun p => p.1 = a).map Prod.snd) ∧
      (∀ a, a ∈ ((sortedFiles i.files).foldl readFile .empty).destinations.keys ↔
        ∃ file ∈ i.files, ∃ r ∈ file.records, r.wallet.isSome ∧ r.Delivers a) ∧
      (((sortedFiles i.files).foldl readFile .empty).problems = [] →
        ∀ file ∈ i.files, ∀ r ∈ file.records, r.wallet.isSome) := by
    refine ⟨fun a => (hw a).trans rfl, fun a => ?_, fun h0 file hf r hr => ?_⟩
    · rw [hd, hfiles fun r => r.wallet.isSome ∧ r.Delivers a]
      simp [Inventory.empty, Dict.empty, Dict.keys]
    · exact (hp h0).2 r (mem_sortedFiles.mpr ⟨file, hf, hr⟩)
  cases hs : i.summary with
  | none =>
    rw [hs] at h
    exact h ▸ hread
  | some listed =>
    rw [hs] at h
    subst h
    exact ⟨hread.1, hread.2.1, fun h0 => hread.2.2 (List.append_eq_nil_iff.mp h0).1⟩

/-! ### A passed check -/

/-- What is paid by the chosen transactions. -/
def paidBy (targets : List Proposal) : List (Address × ℕ) := targets.flatMap Proposal.transfers

/-- Everything `RESULT: PASS` says. -/
structure PassMeans (i : Input) (targets : List Proposal) : Prop where
  plain : ∀ t ∈ targets, ∃ record ∈ i.records, ∃ tx, t = readProposal i.chainId i.safe i.token record ∧
    serviceSafeTx record = some tx ∧ Airdrop.safeTxHash i.chainId i.safe tx = record.safeTxHash ∧
    PlainTransfers i.token tx t.transfers
  sheetOnce : (i.sheet.map SheetLine.address).Nodup
  pays : (paidBy targets).map Prod.fst ~ i.sheet.map SheetLine.address
  amounts : ∀ t ∈ paidBy targets, ∃ l ∈ i.sheet, ∃ d, l.address = t.1 ∧ l.amount = some d ∧
    2 * |(t.2 : ℤ) - d.digits * d.unit| ≤ d.unit
  notPaidBefore : ∀ p ∈ i.proposals, p.executed → p.successful → p.safeTxHash ∉ targets.map Proposal.safeTxHash →
    ∀ t ∈ paidBy targets, t.1 ∉ p.transfers.map Prod.fst
  notQueued : ∀ p ∈ i.proposals, p.Queued i.nextNonce → p.safeTxHash ∉ targets.map Proposal.safeTxHash →
    ∀ t ∈ paidBy targets, t.1 ∉ p.transfers.map Prod.fst
  notExcluded : ∀ addresses ∈ i.exclude, ∀ t ∈ paidBy targets, t.1 ∉ addresses
  notDelivery : ∀ file ∈ i.files, ∀ r ∈ file.records, ∀ t ∈ paidBy targets, ¬r.Delivers t.1
  notExchange : ∀ file ∈ i.files, ∀ r ∈ file.records, ∀ t ∈ paidBy targets, r.wallet = some t.1 →
    r.exchange ∈ i.exchange

/-- The first exchange that lists the wallet is named, a later one is not. -/
def Input.ListedBehindNamed (i : Input) (a : Address) : Prop :=
  (∃ e ∈ i.exchange, (i.listings.find? fun p => p.1 = a).map Prod.snd = some e) ∧
    ∃ p ∈ i.listings, p.1 = a ∧ p.2 ∉ i.exchange

theorem mem_listings {i : Input} {a : Address} {e : String} :
    (a, e) ∈ i.listings ↔ ∃ file ∈ i.files, ∃ r ∈ file.records, r.wallet = some a ∧ r.exchange = e := by
  unfold Input.listings
  simp only [List.mem_filterMap, Option.map_eq_some_iff, Prod.mk.injEq]
  constructor
  · rintro ⟨r, hr, w, hw, rfl, rfl⟩
    obtain ⟨file, hf, hr⟩ := mem_sortedFiles.mp hr
    exact ⟨file, hf, r, hr, hw, rfl⟩
  · rintro ⟨file, hf, r, hr, hw, rfl⟩
    exact ⟨r, mem_sortedFiles.mpr ⟨file, hf, hr⟩, a, hw, rfl, rfl⟩

theorem readProposal_plain {chainId : ℕ} {safe token : Address} {r : ServiceRecord}
    (hu : (readProposal chainId safe token r).unreadable = none)
    (ho : (readProposal chainId safe token r).otherCalls = []) :
    ∃ tx, serviceSafeTx r = some tx ∧ Airdrop.safeTxHash chainId safe tx = r.safeTxHash ∧
      PlainTransfers token tx (readProposal chainId safe token r).transfers := by
  unfold readProposal at hu ho ⊢
  by_cases hs : r.safe = safe
  · simp only [hs, ne_eq, not_true_eq_false, if_false] at hu ho ⊢
    cases htx : serviceSafeTx r with
    | none => simp [htx] at hu
    | some tx =>
      simp only [htx] at hu ho ⊢
      refine ⟨tx, rfl, ?_, tokenTransfers_plain ho⟩
      by_contra hne
      simp [hne] at hu
  · simp [hs] at hu

theorem overlap_eq_nil {everyone : List Address} {proposals : List Proposal} {reason : Proposal → ℕ → Reason}
    (h : overlap everyone proposals reason = []) {p : Proposal} (hp : p ∈ proposals) {a : Address}
    (ha : a ∈ everyone) : a ∉ p.transfers.map Prod.fst := by
  intro hmem
  obtain ⟨t, ht, rfl⟩ := List.mem_map.mp hmem
  have hp' := List.flatMap_eq_nil_iff.mp (List.flatMap_eq_nil_iff.mp h t.1 ha) p hp
  have hnil := List.filter_eq_nil_iff.mp (List.map_eq_nil_iff.mp hp') t ht
  simp at hnil

theorem payments_eq (targets : List Proposal) :
    (targets.flatMap Proposal.payments).map (fun e => (e.1, e.2.amount)) = paidBy targets := by
  unfold paidBy
  rw [List.map_flatMap]
  refine List.flatMap_congr fun t _ => ?_
  rw [Proposal.payments, List.map_map]
  conv_rhs => rw [← List.zipIdx_map_fst 1 t.transfers]
  rfl

theorem selectTargets_subset {i : Input} {proposals targets : List Proposal}
    (h : selectTargets i proposals = .ok targets) {t : Proposal} (ht : t ∈ targets) : t ∈ proposals := by
  unfold selectTargets at h
  simp only [require_bind_ok] at h
  obtain ⟨-, -, h⟩ := h
  obtain ⟨-, -, rfl⟩ := of_map_ok h
  rw [List.mem_insertionSort] at ht
  split_ifs at ht
  · exact List.mem_of_mem_filter ht
  · exact List.mem_of_mem_filter ht

theorem cmdCrosscheck_ok {i : Input} {r : Report} (h : cmdCrosscheck i = .ok r) :
    ∃ sheet inventory paid rows first, readSheet i.sheet = .ok sheet ∧
      readInventory i.files i.summary = .ok inventory ∧ selectTargets i i.proposals = .ok r.targets ∧
      paySection i.nextNonce r.targets sheet = (paid, rows, first) ∧
      r.sections = [first,
        historySection (paid.keys ++ unpaid paid rows)
          (i.proposals.filter fun p => p.executed ∧ p.safeTxHash ∉ r.targets.map Proposal.safeTxHash),
        queueSection (paid.keys ++ unpaid paid rows)
          (i.proposals.filter fun p => p.Queued i.nextNonce ∧ p.safeTxHash ∉ r.targets.map Proposal.safeTxHash),
        exchangeSection (paid.keys ++ unpaid paid rows) inventory i.exchange] ++
          i.exclude.map (excludeSection (paid.keys ++ unpaid paid rows)) := by
  unfold cmdCrosscheck at h
  obtain ⟨sheet, hsheet, h⟩ := of_bind_ok h
  obtain ⟨inventory, hinventory, h⟩ := of_bind_ok h
  obtain ⟨-, -, h⟩ := of_bind_ok h
  obtain ⟨targets, htargets, h⟩ := of_bind_ok h
  obtain rfl := Except.ok.inj h
  exact ⟨sheet, inventory, _, _, _, hsheet, hinventory, htargets, rfl, rfl⟩

/-- What a passed check has established, whoever lists a wallet first. -/
theorem passes_ok {i : Input} {r : Report} (h : cmdCrosscheck i = .ok r) (hpass : r.Passes) :
    ∃ inventory, readInventory i.files i.summary = .ok inventory ∧
      (∀ t ∈ paidBy r.targets, inventory.Known t.1 → inventory.Allowed i.exchange t.1) ∧
      ((∀ file ∈ i.files, ∀ x ∈ file.records, ∀ t ∈ paidBy r.targets, x.wallet = some t.1 → x.exchange ∈ i.exchange) →
        PassMeans i r.targets) ∧
      ∀ a, a ∈ (paidBy r.targets).map Prod.fst ↔ a ∈ i.sheet.map SheetLine.address := by
  obtain ⟨sheet, inventory, paid, rows, first, hsheet, hinventory, htargets, hpay, hsections⟩ := cmdCrosscheck_ok h
  set targets := r.targets
  have hsheet := readSheet_ok hsheet
  have hlines : i.sheet.map SheetLine.address = sheet.map SheetRow.address :=
    map_eq_of_forall₂ hsheet fun l row hr => (readLine_ok hr).1.symm
  -- the sections, each empty
  have hempty : ∀ s ∈ r.sections, s = [] := hpass
  rw [hsections] at hempty
  obtain rfl : first = [] := hempty first (by simp)
  obtain ⟨hclean, hentries, hunpaid, hnodup, hperm, hpays⟩ := paySection_ok hpay
  have hfst : (targets.flatMap Proposal.payments).map Prod.fst = (paidBy targets).map Prod.fst := by
    rw [← payments_eq, List.map_map]
    rfl
  have heveryone : paid.keys ++ unpaid paid rows = (paidBy targets).map Prod.fst := by
    rw [hunpaid, List.append_nil, Dict.keys, hentries, hfst]
  rw [heveryone] at hempty
  obtain ⟨hfour, hrest⟩ := List.forall_mem_append.mp hempty
  simp only [List.forall_mem_cons] at hfour
  obtain ⟨-, hhistory, hqueue, hexchange, -⟩ := hfour
  have hexclude : ∀ addresses ∈ i.exclude, excludeSection ((paidBy targets).map Prod.fst) addresses = [] :=
    fun addresses ha => hrest _ (List.mem_map_of_mem ha)
  have hsame : (paidBy targets).map Prod.fst ~ i.sheet.map SheetLine.address := by
    rw [← hfst, hlines]
    exact hperm
  obtain ⟨-, hbefore⟩ := List.append_eq_nil_iff.mp hhistory
  obtain ⟨-, hqueued⟩ := List.append_eq_nil_iff.mp hqueue
  obtain ⟨hproblems, hknown⟩ := List.append_eq_nil_iff.mp hexchange
  have hallowed : ∀ t ∈ paidBy targets, inventory.Known t.1 → inventory.Allowed i.exchange t.1 := by
    intro t ht hk
    by_contra hn
    have := List.filter_eq_nil_iff.mp (List.map_eq_nil_iff.mp hknown) t.1 (List.mem_map_of_mem ht)
    simp [hk, hn] at this
  obtain ⟨-, hdest, hsome⟩ := readInventory_ok hinventory
  refine ⟨inventory, hinventory, hallowed, fun hwallets => ?_, fun a => hsame.mem_iff⟩
  refine ⟨fun t ht => ?_, hlines ▸ hnodup, hsame, fun t ht => ?_, fun p hp he hok hc t ht => ?_,
    fun p hp hq hc t ht => ?_, fun addresses ha t ht hmem => ?_, fun file hf x hx t ht hdel => ?_, hwallets⟩
  · have hmem : t ∈ i.proposals := selectTargets_subset htargets ht
    obtain ⟨record, hrecord, rfl⟩ := List.mem_map.mp hmem
    obtain ⟨hu, ho⟩ := hclean _ ht
    obtain ⟨tx, htx, hhash, hplain⟩ := readProposal_plain hu ho
    exact ⟨record, hrecord, tx, rfl, htx, hhash, hplain⟩
  · rw [← payments_eq] at ht
    obtain ⟨e, he, rfl⟩ := List.mem_map.mp ht
    obtain ⟨row, hrow, ha, hdiff⟩ := hpays e he
    obtain ⟨l, hl, hlr⟩ := ok_of_mem_right hsheet hrow
    obtain ⟨haddr, d, hd, hamount, htol⟩ := readLine_ok hlr
    refine ⟨l, hl, d, haddr.symm.trans ha, hd, ?_⟩
    have hle : |(e.2.amount : ℤ) - row.amount| ≤ row.tolerance := not_lt.mp hdiff
    rw [hamount, htol] at hle
    push_cast at hle ⊢
    omega
  · refine overlap_eq_nil hbefore (List.mem_filter.mpr ⟨List.mem_filter.mpr ⟨hp, ?_⟩, by simpa using hok⟩)
      (List.mem_map_of_mem ht)
    simp [he, hc]
  · refine overlap_eq_nil hqueued (List.mem_filter.mpr ⟨hp, ?_⟩) (List.mem_map_of_mem ht)
    simp [hq, hc]
  · have := List.filter_eq_nil_iff.mp (List.map_eq_nil_iff.mp (hexclude addresses ha)) t.1 (List.mem_map_of_mem ht)
    simp [hmem] at this
  · have hmem : t.1 ∈ inventory.destinations.keys :=
      (hdest t.1).mpr ⟨file, hf, x, hx, hsome (List.map_eq_nil_iff.mp hproblems) file hf x hx, hdel⟩
    exact (hallowed t ht (Or.inr hmem)).2 hmem

/-- A passed check means what it says exactly when no wallet of the sheet is listed by an exchange
that is not named behind one that is. -/
theorem pass_means_iff {i : Input} {r : Report} (h : cmdCrosscheck i = .ok r) (hpass : r.Passes) :
    PassMeans i r.targets ↔ ∀ l ∈ i.sheet, ¬i.ListedBehindNamed l.address := by
  obtain ⟨inventory, hinventory, hallowed, hmeans, hpaid⟩ := passes_ok h hpass
  obtain ⟨hwallets, -, -⟩ := readInventory_ok hinventory
  refine ⟨fun hm l hl hbehind => ?_, fun hno => hmeans fun file hf x hx t ht hw => ?_⟩
  · obtain ⟨-, ⟨a, e⟩, hp, rfl, he⟩ := hbehind
    obtain ⟨file, hf, x, hx, hw, rfl⟩ := mem_listings.mp hp
    obtain ⟨t, ht, hta⟩ := List.mem_map.mp ((hpaid l.address).mpr (List.mem_map_of_mem hl))
    exact he (hm.notExchange file hf x hx t ht (hw.trans (by rw [hta])))
  · by_contra hne
    have hlisted : (t.1, x.exchange) ∈ i.listings := mem_listings.mpr ⟨file, hf, x, hx, hw, rfl⟩
    -- the wallet is known, so its first exchange must be one of the named
    have hknown : inventory.Known t.1 := by
      refine Or.inl (by_contra fun hn => ?_)
      have hnone := (hwallets t.1).symm.trans (Dict.get?_eq_none_iff.mpr hn)
      rw [Option.map_eq_none_iff, List.find?_eq_none] at hnone
      exact hnone _ hlisted (by simp)
    obtain ⟨hfirst, -⟩ := hallowed t ht hknown
    rw [hwallets, Option.any_eq_true] at hfirst
    obtain ⟨e, he, hown⟩ := hfirst
    obtain ⟨l, hl, hla⟩ := List.mem_map.mp ((hpaid t.1).mp (List.mem_map_of_mem ht))
    refine hno l hl ⟨⟨e, by simpa using hown, ?_⟩, (t.1, x.exchange), hlisted, hla.symm, hne⟩
    rw [hla]
    exact he

/-- One token to the wallet 7. -/
def smallCall : SafeCall where
  payee := 9
  value := 0
  data := transferSelector ++ addressWord 7 ++ word (10 ^ 18)
  operation := 0
  safeTxGas := 0
  baseGas := 0
  gasPrice := 0
  gasToken := 0
  refundReceiver := 0

def smallHash : Bytes := Airdrop.safeTxHash 1 5 { smallCall with nonce := 3 }

/-- The wallet 7 in the file of a named exchange, and `other` in one of another exchange. -/
def smallCheck (other : Address) : Input where
  chainId := 1
  safe := 5
  token := 9
  sheet := [⟨7, some ⟨true, false, 1, 0⟩, 2⟩]
  files := [⟨"a.csv", "", [⟨"crypto-com", some 7, none, none⟩]⟩, ⟨"b.csv", "", [⟨"okx", some other, none, none⟩]⟩]
  summary := some [⟨"crypto-com", "same_address", "a.csv", "", 1⟩, ⟨"okx", "aggregate", "b.csv", "", 1⟩]
  exchange := ["crypto-com"]
  exclude := []
  records := [⟨5, smallHash, 3, some smallCall, false, true⟩]
  nextNonce := 3
  wanted := []

def smallProposal : Proposal := ⟨3, smallHash, false, true, [(7, 10 ^ 18)], [], none⟩

theorem smallCheck_proposals (other : Address) : (smallCheck other).proposals = [smallProposal] := by
  have htransfers : tokenTransfers { smallCall with nonce := 3 } 9 = ([(7, 10 ^ 18)], []) := by decide +kernel
  simp only [Input.proposals, smallCheck, List.map_cons, List.map_nil, readProposal, serviceSafeTx, Option.map_some]
  rw [htransfers]
  simp [smallProposal, smallHash]

theorem smallCheck_run {other : Address}
    (hinv : ((readInventory (smallCheck other).files (smallCheck other).summary).toOption.map fun inventory =>
      ((checkNamed inventory ["crypto-com"]).toBool, exchangeSection [7] inventory ["crypto-com"])) = some (true, [])) :
    ∃ r, cmdCrosscheck (smallCheck other) = .ok r ∧ r.targets = [smallProposal] ∧ r.Passes := by
  have hsheet : readSheet [⟨7, some ⟨true, false, 1, 0⟩, 2⟩] = .ok [⟨7, 10 ^ 18, 10 ^ 18 / 2, 2⟩] := by
    decide +kernel
  have htargets : selectTargets (smallCheck other) [smallProposal] = .ok [smallProposal] := by
    simp [selectTargets, smallCheck, smallProposal, Proposal.Queued, Except.require, Except.bind, Except.map]
  obtain ⟨inventory, hread, hsections⟩ := Except.exists_ok_of_map hinv
  obtain ⟨hnamed, hexchange⟩ := Prod.mk.inj hsections
  obtain ⟨u, hcheck⟩ := Except.exists_ok_of_toBool hnamed
  have hpay : (paySection 3 [smallProposal] [⟨7, 10 ^ 18, 10 ^ 18 / 2, 2⟩]).2.2 = [] ∧
      (paySection 3 [smallProposal] [⟨7, 10 ^ 18, 10 ^ 18 / 2, 2⟩]).1.keys ++
        unpaid (paySection 3 [smallProposal] [⟨7, 10 ^ 18, 10 ^ 18 / 2, 2⟩]).1
          (paySection 3 [smallProposal] [⟨7, 10 ^ 18, 10 ^ 18 / 2, 2⟩]).2.1 = [7] := by decide +kernel
  have hrun : cmdCrosscheck (smallCheck other) =
      .ok ⟨[smallProposal], (paySection 3 [smallProposal] [⟨7, 10 ^ 18, 10 ^ 18 / 2, 2⟩]).1,
        [[], historySection [7] [], queueSection [7] [], []]⟩ := by
    unfold cmdCrosscheck
    rw [smallCheck_proposals, htargets, hread]
    change (readSheet [⟨7, some ⟨true, false, 1, 0⟩, 2⟩]).bind _ = _
    rw [hsheet]
    change (checkNamed inventory ["crypto-com"]).bind _ = _
    rw [hcheck]
    have hnext : (smallCheck other).nextNonce = 3 := rfl
    have hown : (smallCheck other).exchange = ["crypto-com"] := rfl
    have hnone : (smallCheck other).exclude = [] := rfl
    simp only [Except.bind]
    rw [hnext, hpay.1, hpay.2, hown, hexchange, hnone]
    simp [smallProposal, Proposal.Queued]
  refine ⟨_, hrun, rfl, ?_⟩
  simp [Report.Passes, historySection, queueSection, overlap]

theorem shared_wallet_passes :
    ∃ r, cmdCrosscheck (smallCheck 7) = .ok r ∧ r.Passes ∧ ¬PassMeans (smallCheck 7) r.targets := by
  obtain ⟨r, hrun, htargets, hpass⟩ := @smallCheck_run 7 (by decide +kernel)
  refine ⟨r, hrun, hpass, fun hm => ?_⟩
  have hpaid : ((7, 10 ^ 18) : Address × ℕ) ∈ paidBy r.targets := by simp [htargets, paidBy, smallProposal]
  have hnamed := hm.notExchange ⟨"b.csv", "", [⟨"okx", some 7, none, none⟩]⟩ (by simp [smallCheck])
    ⟨"okx", some 7, none, none⟩ (by simp) _ hpaid rfl
  simp [smallCheck] at hnamed

theorem pass_means_iff_apart :
    ∃ r, cmdCrosscheck (smallCheck 8) = .ok r ∧ r.Passes ∧ PassMeans (smallCheck 8) r.targets := by
  obtain ⟨r, hrun, htargets, hpass⟩ := @smallCheck_run 8 (by decide +kernel)
  have happart : ∀ l ∈ (smallCheck 8).sheet, ¬(smallCheck 8).ListedBehindNamed l.address := by
    have hlistings : (smallCheck 8).listings = [(7, "crypto-com"), (8, "okx")] := by decide +kernel
    rintro l hl ⟨-, p, hp, hpa, hne⟩
    obtain rfl : l = ⟨7, some ⟨true, false, 1, 0⟩, 2⟩ := by simpa [smallCheck] using hl
    rw [hlistings] at hp
    rcases List.mem_cons.mp hp with rfl | hp
    · simp [smallCheck] at hne
    · obtain rfl : p = (8, "okx") := by simpa using hp
      exact absurd hpa (by decide)
  exact ⟨r, hrun, hpass, (pass_means_iff hrun hpass).mpr happart⟩

end HarmonyMigration.Airdrop.Crosscheck
