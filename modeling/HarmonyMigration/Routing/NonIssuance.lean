import HarmonyMigration.Lib.Hex
import HarmonyMigration.Routing.LoadFacts

/-! `build-non-issuance-routes.py`: reviewed inventories become routes to the terminal destination. -/

namespace HarmonyMigration.Routing.NonIssuance

open Erc20 Except Decimal Claims

inductive InventoryError where
  | missingAddressHex
  | unsupportedSchema
  | negativeAmount
  | invalidAddress
  | duplicateAddress
  | unsupportedCategory
  | notNotIssued
  deriving DecidableEq

/-- A row of an inventory; the columns that its header lacks are not read. -/
structure InventoryRow where
  addressHex : Text
  category : String
  notIssuedAtto : ℤ
  retainedCapAtto : ℤ
  migrationTreatment : String

structure Inventory where
  path : String
  fields : List String
  rows : List InventoryRow

def retainedCap : String := "historical_incident_retained_cap"

def revertLeak : String := "revert_leak_credit_recipient"

def allowedCategories : List String :=
  ["blacklisted_extra_mint_recipient", "burn_or_inaccessible", retainedCap, "report_linked_theft_recipient",
    "reported_wallet_theft_perpetrator", revertLeak]

/-- `frozenset({c, d}) in STACKABLE_CATEGORIES`. -/
def Stackable (c d : String) : Prop := (c = retainedCap ∧ d = revertLeak) ∨ (c = revertLeak ∧ d = retainedCap)

instance (c d : String) : Decidable (Stackable c d) := by unfold Stackable; infer_instance

/-- The column of the amount, and the category where the file fixes it. -/
structure Schema where
  notIssued : Bool
  fixedCategory : Option String

def Inventory.schema (inventory : Inventory) : Option Schema :=
  let has := fun names : List String => names.all fun name => name ∈ inventory.fields
  if has ["category", "not_issued_atto"] then some ⟨true, none⟩
  else if has ["unbacked_credit_atto", "retained_cap_atto", "migration_treatment"] then some ⟨false, some revertLeak⟩
  else if has ["incident", "retained_cap_atto", "migration_treatment"] then some ⟨false, some retainedCap⟩
  else none

def Schema.amount (schema : Schema) (row : InventoryRow) : ℤ :=
  if schema.notIssued then row.notIssuedAtto else row.retainedCapAtto

def Schema.category (schema : Schema) (row : InventoryRow) : String := schema.fixedCategory.getD row.category

def parseAddress (t : Text) : Option Address := (Hex.parse 40 (t.map Char.toLower)).map (BitVec.ofNat 160)

structure Stats where
  inventoryRows : ℕ := 0
  routes : ℕ := 0
  amount : ℤ := 0

def Stats.add (s : Stats) (amount : ℤ) : Stats :=
  ⟨s.inventoryRows + 1, s.routes + if amount = 0 then 0 else 1, s.amount + amount⟩

/-- The figures of one inventory. -/
structure Record where
  path : String
  notIssued : Bool
  stats : Stats

structure State where
  rows : List RouteRow := []
  seen : Dict Address String := .empty
  total : ℤ := 0
  categories : Dict String Stats := .empty
  record : Stats := {}

def routeId (category : String) (address : Address) : String :=
  String.ofList ("not-issuing-".toList ++ category.toList ++ '-' :: Hex.digits 40 address.toNat)

def route (path category : String) (address : Address) (amount : ℤ) : RouteRow where
  routeId := routeId category address
  priority := 100
  source := address
  destinationId := notIssuingDestinationId
  destinationAddress := none
  status := none
  amount := .exact amount
  method := .walletFirstProRataVault
  reason := "not_issuing_" ++ category
  evidence := path
  policyState := none

/-- The body of the loop over an inventory's rows. -/
def addRow (path : String) (schema : Schema) (s : State) (row : InventoryRow) : Except InventoryError State :=
  let amount := schema.amount row
  let category := schema.category row
  (require (0 ≤ amount) .negativeAmount).bind fun _ =>
  (ofOption (parseAddress row.addressHex) .invalidAddress).bind fun address =>
  (require (∀ c ∈ s.seen.get? address, Stackable c category) .duplicateAddress).bind fun _ =>
  (require (category ∈ allowedCategories) .unsupportedCategory).bind fun _ =>
  (require (schema.fixedCategory.isSome → row.migrationTreatment = "not_issued") .notNotIssued).map fun _ =>
    { rows := if amount = 0 then s.rows else s.rows ++ [route path category address amount]
      seen := s.seen.insert address category
      total := s.total + amount
      categories := s.categories.update category fun stats => (stats.getD {}).add amount
      record := s.record.add amount }

def addInventory (s : State) (inventory : Inventory) : Except InventoryError (State × Record) :=
  (require ("address_hex" ∈ inventory.fields) .missingAddressHex).bind fun _ =>
  (ofOption inventory.schema .unsupportedSchema).bind fun schema =>
  (inventory.rows.foldlM (addRow inventory.path schema) { s with record := {} }).map fun s =>
    (s, ⟨inventory.path, schema.notIssued, s.record⟩)

def addInventories : List Inventory → State → Except InventoryError (State × List Record)
  | [], s => .ok (s, [])
  | inventory :: rest, s =>
    (addInventory s inventory).bind fun (s, record) =>
    (addInventories rest s).map fun (s, records) => (s, record :: records)

/-- The route file and the figures of the summary. -/
structure Output where
  rows : List RouteRow
  records : List Record
  inventoryRows : ℕ
  notIssued : ℤ
  categories : Dict String Stats

def RouteRow.order (row : RouteRow) : ℤ ×ₗ String := toLex (row.priority, row.routeId)

def main (inventories : List Inventory) : Except InventoryError Output :=
  (addInventories inventories {}).map fun (s, records) =>
    { rows := s.rows.insertionSort fun a b => RouteRow.order a ≤ RouteRow.order b
      records
      inventoryRows := s.seen.keys.length
      notIssued := s.total
      categories := s.categories }

/-! ### What the rows of the inventories say -/

/-- A row as it is read. -/
structure Entry where
  path : String
  notIssued : Bool
  address : Address
  category : String
  amount : ℤ
  deriving DecidableEq

def Inventory.entries (inventory : Inventory) : List Entry :=
  inventory.schema.elim [] fun schema => inventory.rows.filterMap fun row =>
    (parseAddress row.addressHex).map fun address =>
      ⟨inventory.path, schema.notIssued, address, schema.category row, schema.amount row⟩

def entriesOf (inventories : List Inventory) : List Entry := inventories.flatMap Inventory.entries

/-- The categories of an address, in the order of its rows. -/
def categoriesAt (entries : List Entry) (a : Address) : List String :=
  (entries.filter fun e => e.address = a).map Entry.category

/-- The file as the stage policy reads it: its amounts by address. -/
def Inventory.amounts (inventory : Inventory) : List (Address × ℤ) := inventory.entries.map fun e => (e.address, e.amount)

/-- The inventories of reviewed amounts, or of retained caps. -/
def filesOf (inventories : List Inventory) (notIssued : Bool) : List (List (Address × ℤ)) :=
  (inventories.filter fun i => i.schema.any fun schema => schema.notIssued = notIssued).map Inventory.amounts

/-! ### One row -/

section Step
variable {path : String} {schema : Schema} {s s' : State} {row : InventoryRow}

theorem addRow_ok (h : addRow path schema s row = .ok s') :
    ∃ address, parseAddress row.addressHex = some address ∧ 0 ≤ schema.amount row ∧
      (∀ c ∈ s.seen.get? address, Stackable c (schema.category row)) ∧ schema.category row ∈ allowedCategories ∧
      s'.seen = s.seen.insert address (schema.category row) ∧
      s'.rows = (if schema.amount row = 0 then s.rows
        else s.rows ++ [route path (schema.category row) address (schema.amount row)]) := by
  unfold addRow at h
  simp only [require_bind_ok, ofOption_bind_ok] at h
  obtain ⟨hnonneg, address, haddress, hseen, hallowed, h⟩ := h
  obtain ⟨_, -, rfl⟩ := of_map_ok h
  exact ⟨address, haddress, hnonneg, hseen, hallowed, rfl, rfl⟩

/-- What holds of the rows read so far. -/
structure Read (s : State) (entries : List Entry) : Prop where
  seen : ∀ a, s.seen.get? a = (categoriesAt entries a).getLast?
  rows : s.rows = (entries.filter fun e => e.amount ≠ 0).map fun e => route e.path e.category e.address e.amount
  chain : ∀ a, (categoriesAt entries a).IsChain Stackable
  allowed : ∀ e ∈ entries, e.category ∈ allowedCategories
  nonneg : ∀ e ∈ entries, 0 ≤ e.amount

theorem read_nil : Read {} [] := ⟨fun _ => rfl, rfl, fun _ => .nil, by simp, by simp⟩

theorem categoriesAt_append (l l' : List Entry) (a : Address) :
    categoriesAt (l ++ l') a = categoriesAt l a ++ categoriesAt l' a := by simp [categoriesAt]

theorem Read.snoc {entries : List Entry} (hread : Read s entries) {e : Entry} (hnonneg : 0 ≤ e.amount)
    (hseen : ∀ c ∈ s.seen.get? e.address, Stackable c e.category) (hallowed : e.category ∈ allowedCategories)
    (hs : s'.seen = s.seen.insert e.address e.category)
    (hr : s'.rows = if e.amount = 0 then s.rows else s.rows ++ [route e.path e.category e.address e.amount]) :
    Read s' (entries ++ [e]) where
  seen a := by
    rw [hs, Dict.get?_insert, categoriesAt_append]
    by_cases ha : a = e.address
    · simp [categoriesAt, ha]
    · rw [if_neg ha, hread.seen a]
      simp [categoriesAt, Ne.symm ha]
  rows := by
    rw [hr, List.filter_append, List.map_append, ← hread.rows]
    by_cases hz : e.amount = 0 <;> simp [hz]
  chain a := by
    rw [categoriesAt_append]
    by_cases ha : e.address = a
    · subst ha
      have hlast : ∀ c ∈ (categoriesAt entries e.address).getLast?, Stackable c e.category := by
        rw [← hread.seen]
        exact hseen
      refine List.isChain_append.mpr ⟨hread.chain _, by simp [categoriesAt], fun c hc d hd => ?_⟩
      obtain rfl : e.category = d := by simpa [categoriesAt] using hd
      exact hlast c hc
    · simpa [categoriesAt, ha] using hread.chain a
  allowed x hx := by
    rcases List.mem_append.mp hx with hx | hx
    · exact hread.allowed x hx
    · rwa [List.mem_singleton.mp hx]
  nonneg x hx := by
    rcases List.mem_append.mp hx with hx | hx
    · exact hread.nonneg x hx
    · rwa [List.mem_singleton.mp hx]

end Step

/-! ### A run -/

theorem addRows_ok {path : String} {schema : Schema} {rows : List InventoryRow} {s s' : State} {entries : List Entry}
    (h : rows.foldlM (addRow path schema) s = .ok s') (hread : Read s entries) :
    Read s' (entries ++ rows.filterMap fun row => (parseAddress row.addressHex).map fun address =>
      ⟨path, schema.notIssued, address, schema.category row, schema.amount row⟩) := by
  induction rows generalizing s entries with
  | nil =>
    obtain rfl := Except.ok.inj h
    simpa using hread
  | cons row rest ih =>
    rw [List.foldlM_cons] at h
    obtain ⟨t, ht, h⟩ := of_bind_ok h
    obtain ⟨address, haddress, hnonneg, hseen, hallowed, hs, hr⟩ := addRow_ok ht
    have hstep := hread.snoc (e := ⟨path, schema.notIssued, address, schema.category row, schema.amount row⟩) hnonneg
      hseen hallowed hs hr
    rw [List.filterMap_cons, haddress]
    simpa using ih h hstep

theorem addInventories_ok {inventories : List Inventory} {s s' : State} {records : List Record} {entries : List Entry}
    (h : addInventories inventories s = .ok (s', records)) (hread : Read s entries) :
    Read s' (entries ++ entriesOf inventories) := by
  induction inventories generalizing s records entries with
  | nil =>
    obtain ⟨rfl, -⟩ := Prod.mk.inj (Except.ok.inj h)
    simpa [entriesOf] using hread
  | cons inventory rest ih =>
    obtain ⟨⟨t, record⟩, ht, h⟩ := of_bind_ok h
    obtain ⟨⟨t', records'⟩, hrest, heq⟩ := of_map_ok h
    obtain ⟨rfl, -⟩ := Prod.mk.inj heq
    simp only [addInventory, require_bind_ok, ofOption_bind_ok] at ht
    obtain ⟨-, schema, hschema, ht⟩ := ht
    obtain ⟨t', hrows, heq⟩ := of_map_ok ht
    obtain ⟨rfl, -⟩ := Prod.mk.inj heq
    have hread' : Read { s with record := {} } entries := ⟨hread.seen, hread.rows, hread.chain, hread.allowed, hread.nonneg⟩
    have hnext := ih hrest (addRows_ok hrows hread')
    have hentries : inventory.entries = inventory.rows.filterMap fun row =>
        (parseAddress row.addressHex).map fun address =>
          ⟨inventory.path, schema.notIssued, address, schema.category row, schema.amount row⟩ := by
      rw [Inventory.entries, hschema]
      rfl
    rwa [← hentries, List.append_assoc] at hnext

/-- The rows of an accepted list of inventories, and the routes made of them. -/
theorem main_ok {inventories : List Inventory} {out : Output} (h : main inventories = .ok out) :
    ∃ s, Read s (entriesOf inventories) ∧
      out.rows = s.rows.insertionSort fun a b => RouteRow.order a ≤ RouteRow.order b := by
  obtain ⟨⟨s, records⟩, hs, rfl⟩ := of_map_ok h
  exact ⟨s, by simpa using addInventories_ok hs read_nil, rfl⟩

/-! ### Categories of one address -/

theorem nodup_of_chain {l : List String} (h : l.IsChain Stackable) (hlen : l.length ≤ 2) : l.Nodup := by
  match l, h, hlen with
  | [], _, _ => exact .nil
  | [c], _, _ => simp
  | [c, d], h, _ =>
    have hcd : Stackable c d := by simpa using h
    rcases hcd with ⟨rfl, rfl⟩ | ⟨rfl, rfl⟩ <;> decide

theorem length_le_of_chain {l : List String} (h : l.IsChain Stackable) (hnd : l.Nodup) : l.length ≤ 2 := by
  match l, h, hnd with
  | [], _, _ => simp
  | [c], _, _ => simp
  | [c, d], _, _ => simp
  | c :: d :: e :: l, h, hnd =>
    -- after two stackable steps the first category comes again
    obtain ⟨hcd, hde, -⟩ : Stackable c d ∧ Stackable d e ∧ (e :: l).IsChain Stackable := by simpa using h
    have hsame : c = e := by
      rcases hcd with ⟨rfl, rfl⟩ | ⟨rfl, rfl⟩
      · rcases hde with ⟨hne, -⟩ | ⟨-, rfl⟩
        · exact absurd hne (by decide)
        · rfl
      · rcases hde with ⟨-, rfl⟩ | ⟨hne, -⟩
        · rfl
        · exact absurd hne (by decide)
    subst hsame
    simp at hnd

theorem mem_of_chain {l : List String} (h : l.IsChain Stackable) (hlen : 2 ≤ l.length) :
    ∀ c ∈ l, c = retainedCap ∨ c = revertLeak := by
  induction l with
  | nil => simp
  | cons x l ih =>
    cases l with
    | nil => simp at hlen
    | cons y l =>
      obtain ⟨hxy, hrest⟩ := List.isChain_cons_cons.mp h
      have hboth : (x = retainedCap ∨ x = revertLeak) ∧ (y = retainedCap ∨ y = revertLeak) := by
        rcases hxy with ⟨hx, hy⟩ | ⟨hx, hy⟩
        · exact ⟨Or.inl hx, Or.inr hy⟩
        · exact ⟨Or.inr hx, Or.inl hy⟩
      intro c hc
      rcases List.mem_cons.mp hc with rfl | hc
      · exact hboth.1
      · cases l with
        | nil =>
          obtain rfl := List.mem_singleton.mp hc
          exact hboth.2
        | cons z l => exact ih hrest (by simp) c hc

/-- Two categories of one address are the two that stack. -/
theorem stackable_of_mem {l : List String} (h : l.IsChain Stackable) {c d : String} (hc : c ∈ l) (hd : d ∈ l)
    (hne : c ≠ d) : Stackable c d := by
  have hlen : 2 ≤ l.length := by
    match l, hc, hd with
    | [x], hc, hd => exact absurd ((List.mem_singleton.mp hc).trans (List.mem_singleton.mp hd).symm) hne
    | _ :: _ :: _, _, _ => simp
  rcases mem_of_chain h hlen c hc with rfl | rfl
  · exact Or.inl ⟨rfl, (mem_of_chain h hlen d hd).resolve_left (Ne.symm hne)⟩
  · exact Or.inr ⟨rfl, (mem_of_chain h hlen d hd).resolve_right (Ne.symm hne)⟩

/-- Pairs are distinct when the categories of every address are. -/
theorem pairs_nodup_iff {entries : List Entry} :
    (entries.map fun e => (e.address, e.category)).Nodup ↔ ∀ a, (categoriesAt entries a).Nodup := by
  induction entries with
  | nil => simp [categoriesAt]
  | cons e entries ih =>
    rw [List.map_cons, List.nodup_cons, ih]
    have hmem : (e.address, e.category) ∈ entries.map (fun e => (e.address, e.category)) ↔
        e.category ∈ categoriesAt entries e.address := by
      simp only [categoriesAt, List.mem_map, List.mem_filter, decide_eq_true_eq, Prod.mk.injEq]
      constructor
      · rintro ⟨x, hx, ha, hc⟩
        exact ⟨x, ⟨hx, ha⟩, hc⟩
      · rintro ⟨x, ⟨hx, ha⟩, hc⟩
        exact ⟨x, hx, ha, hc⟩
    rw [hmem]
    constructor
    · intro h a
      obtain ⟨hnew, hall⟩ := h
      by_cases ha : e.address = a
      · subst ha
        simpa [categoriesAt] using And.intro (by simpa [categoriesAt] using hnew) (hall e.address)
      · simpa [categoriesAt, ha] using hall a
    · intro h
      have hhead : (e.category :: categoriesAt entries e.address).Nodup := by
        simpa [categoriesAt] using h e.address
      refine ⟨(List.nodup_cons.mp hhead).1, fun a => ?_⟩
      refine (h a).sublist ?_
      exact ((List.sublist_cons_self e entries).filter _).map _

/-! ### Route ids and amounts -/

theorem routeId_injective {c d : String} {a b : Address} (h : routeId c a = routeId d b) : c = d ∧ a = b := by
  have htext := String.ofList_injective h
  obtain ⟨hname, hdigits⟩ := List.append_inj' htext (by simp)
  have hcategory := List.append_cancel_left hname
  have hvalue := congrArg Hex.value (List.cons.inj hdigits).2
  have hpow : 16 ^ 40 = 2 ^ 160 := by norm_num
  rw [Hex.value_digits, Hex.value_digits, Option.some.injEq, hpow, Nat.mod_eq_of_lt a.isLt, Nat.mod_eq_of_lt b.isLt]
    at hvalue
  exact ⟨String.toList_injective hcategory, BitVec.eq_of_toNat_eq hvalue⟩

theorem routeId_ne_nil (c : String) (a : Address) : routeId c a ≠ "" := by
  intro h
  have htext := String.ofList_injective (h.trans String.ofList_nil.symm)
  exact List.cons_ne_nil _ _ (List.append_eq_nil_iff.mp htext).2

/-- The amount of a route with an exact one. -/
def exactAmount (row : RouteRow) : ℤ :=
  match row.amount with
  | .exact amount => amount
  | _ => 0

theorem sum_routes {entries : List Entry} (a : Address) :
    ((((entries.filter fun e => e.amount ≠ 0).map fun e => route e.path e.category e.address e.amount).filter
      fun r => r.source = a).map exactAmount).sum = Dict.sumAt (entries.map fun e => (e.address, e.amount)) a := by
  induction entries with
  | nil => rfl
  | cons e entries ih =>
    rw [List.map_cons, Dict.sumAt_cons, ← ih]
    by_cases hz : e.amount = 0
    · simp [hz]
    · by_cases ha : e.address = a
      · simp [hz, ha, route, exactAmount]
      · simp [hz, ha, route]

theorem sumAt_perm {l l' : List (Address × ℤ)} (h : l.Perm l') (a : Address) : Dict.sumAt l a = Dict.sumAt l' a :=
  ((h.filter _).map Prod.snd).sum_eq

/-- An inventory is read as one of the two kinds. -/
theorem sumAt_entriesOf (inventories : List Inventory) (a : Address) :
    Dict.sumAt ((entriesOf inventories).map fun e => (e.address, e.amount)) a =
      Dict.sumAt (filesOf inventories true).flatten a + Dict.sumAt (filesOf inventories false).flatten a := by
  induction inventories with
  | nil => rfl
  | cons inventory rest ih =>
    have hcons : entriesOf (inventory :: rest) = inventory.entries ++ entriesOf rest := rfl
    rw [hcons, List.map_append, Dict.sumAt_append, ih]
    cases hschema : inventory.schema with
    | none =>
      have hnone : inventory.entries = [] := by rw [Inventory.entries, hschema]; rfl
      simp [hnone, filesOf, hschema, Dict.sumAt]
    | some schema =>
      obtain ⟨notIssued, fixedCategory⟩ := schema
      cases notIssued with
      | true =>
        simp only [filesOf, List.filter_cons, hschema, Option.any_some, decide_true, if_true, List.map_cons,
          List.flatten_cons, Dict.sumAt_append, Bool.true_eq_false, decide_false, Bool.false_eq_true, if_false]
        exact (add_assoc _ _ _).symm
      | false =>
        simp only [filesOf, List.filter_cons, hschema, Option.any_some, decide_true, if_true, List.map_cons,
          List.flatten_cons, Dict.sumAt_append, Bool.false_eq_true, decide_false, if_false]
        exact add_left_comm _ _ _

/-! ### Counted once -/

/-- Every reviewed deduction is one route, and the routes of an address are its deduction. -/
structure CountedOnce (inventories : List Inventory) (out : Output) : Prop where
  pairs : ((entriesOf inventories).map fun e => (e.address, e.category)).Nodup
  ids : (out.rows.map RouteRow.routeId).Nodup
  loads : ∀ destinations : Dict String Destination,
    destinations.get? notIssuingDestinationId = some ⟨none, .notIssuing⟩ →
    ∃ routes, loadRoutes out.rows destinations = .ok routes
  categories : ∀ r ∈ out.rows, ∀ r' ∈ out.rows, r.source = r'.source → r.reason ≠ r'.reason →
    ∃ c d, Stackable c d ∧ r.reason = "not_issuing_" ++ c ∧ r'.reason = "not_issuing_" ++ d
  deduction : ∀ existingFiles historicalFiles existing historical, existingFiles.Perm (filesOf inventories true) →
    historicalFiles.Perm (filesOf inventories false) →
    StagePolicy.mergeExisting existingFiles .empty = .ok existing →
    StagePolicy.mergeHistorical historicalFiles .empty = .ok historical →
    ∀ a, ((out.rows.filter fun r => r.source = a).map exactAmount).sum = existing.getD a 0 + historical.getD a 0

section Run
variable {inventories : List Inventory} {out : Output}

theorem mem_rows (h : main inventories = .ok out) {r : RouteRow} (hr : r ∈ out.rows) :
    ∃ e ∈ entriesOf inventories, 0 < e.amount ∧ r = route e.path e.category e.address e.amount := by
  obtain ⟨s, hread, hrows⟩ := main_ok h
  rw [hrows, List.mem_insertionSort, hread.rows] at hr
  obtain ⟨e, he, rfl⟩ := List.mem_map.mp hr
  obtain ⟨he, hne⟩ := List.mem_filter.mp he
  exact ⟨e, he, lt_of_le_of_ne (hread.nonneg e he) (Ne.symm (by simpa using hne)), rfl⟩

theorem routes_categories (h : main inventories = .ok out) {r r' : RouteRow} (hr : r ∈ out.rows) (hr' : r' ∈ out.rows)
    (hsource : r.source = r'.source) (hreason : r.reason ≠ r'.reason) :
    ∃ c d, Stackable c d ∧ r.reason = "not_issuing_" ++ c ∧ r'.reason = "not_issuing_" ++ d := by
  obtain ⟨s, hread, -⟩ := main_ok h
  obtain ⟨e, he, -, rfl⟩ := mem_rows h hr
  obtain ⟨e', he', -, rfl⟩ := mem_rows h hr'
  have hmem : ∀ x ∈ entriesOf inventories, x.category ∈ categoriesAt (entriesOf inventories) x.address := fun x hx =>
    List.mem_map_of_mem (List.mem_filter.mpr ⟨hx, by simp⟩)
  have haddress : e.address = e'.address := hsource
  have hne : e.category ≠ e'.category := fun heq => hreason (congrArg (fun c => "not_issuing_" ++ c) heq)
  exact ⟨e.category, e'.category, stackable_of_mem (hread.chain e.address) (hmem e he) (haddress ▸ hmem e' he') hne,
    rfl, rfl⟩

theorem routes_deduction (h : main inventories = .ok out) {existingFiles historicalFiles : List (List (Address × ℤ))}
    {existing historical : Dict Address ℤ} (hexisting : existingFiles.Perm (filesOf inventories true))
    (hhistorical : historicalFiles.Perm (filesOf inventories false))
    (he : StagePolicy.mergeExisting existingFiles .empty = .ok existing)
    (hh : StagePolicy.mergeHistorical historicalFiles .empty = .ok historical) (a : Address) :
    ((out.rows.filter fun r => r.source = a).map exactAmount).sum = existing.getD a 0 + historical.getD a 0 := by
  obtain ⟨s, hread, hrows⟩ := main_ok h
  have hperm : out.rows.Perm s.rows := hrows ▸ List.perm_insertionSort _ _
  have hempty : (Dict.empty : Dict Address ℤ).getD a 0 = 0 := rfl
  rw [((hperm.filter _).map exactAmount).sum_eq, hread.rows, sum_routes, sumAt_entriesOf,
    StagePolicy.mergeExisting_ok he, StagePolicy.mergeHistorical_ok hh, hempty, zero_add, zero_add,
    sumAt_perm hexisting.flatten, sumAt_perm hhistorical.flatten]

theorem routes_ids (h : main inventories = .ok out)
    (hpairs : ((entriesOf inventories).map fun e => (e.address, e.category)).Nodup) :
    (out.rows.map RouteRow.routeId).Nodup := by
  obtain ⟨s, hread, hrows⟩ := main_ok h
  have hperm : out.rows.Perm s.rows := hrows ▸ List.perm_insertionSort _ _
  rw [(hperm.map RouteRow.routeId).nodup_iff, hread.rows, List.map_map]
  have hsub : ((entriesOf inventories).filter fun e => e.amount ≠ 0).Sublist (entriesOf inventories) :=
    List.filter_sublist
  have hpairs' := hpairs.sublist (hsub.map fun e => (e.address, e.category))
  rw [List.Nodup, List.pairwise_map] at hpairs' ⊢
  refine hpairs'.imp fun {e e'} hne heq => hne ?_
  obtain ⟨hcategory, haddress⟩ := routeId_injective heq
  rw [hcategory, haddress]

theorem routes_load (h : main inventories = .ok out) (hids : (out.rows.map RouteRow.routeId).Nodup)
    {destinations : Dict String Destination}
    (hterminal : destinations.get? notIssuingDestinationId = some ⟨none, .notIssuing⟩) :
    ∃ routes, loadRoutes out.rows destinations = .ok routes := by
  have hrow : ∀ r ∈ out.rows, r.routeId ≠ "" ∧
      readRoute destinations r = .ok ⟨r.routeId, r.priority, r.source, notIssuingDestinationId, none, .notIssuing, r.amount,
        r.method, r.reason, r.evidence, r.policyState⟩ := by
    intro r hr
    obtain ⟨e, -, hpos, rfl⟩ := mem_rows h hr
    refine ⟨routeId_ne_nil _ _, ?_⟩
    simp only [notIssuingDestinationId] at hterminal
    simp [readRoute, route, resolveDestination, hterminal, require, Except.bind, Except.map, hpos, notIssuingDestinationId]
  have hread := mapM_ok_of_forall fun r hr => (hrow r hr).2
  refine ⟨_, loadRoutes_iff.mpr ⟨fun r hr => (hrow r hr).1, hids, _, hread, ?_, rfl⟩⟩
  have hnone : ((out.rows.map fun r => (⟨r.routeId, r.priority, r.source, notIssuingDestinationId, none, .notIssuing,
      r.amount, r.method, r.reason, r.evidence, r.policyState⟩ : Route)).filter fun r => r.amount = .all) = [] := by
    refine List.filter_eq_nil_iff.mpr fun r hr => ?_
    obtain ⟨row, hrow, rfl⟩ := List.mem_map.mp hr
    obtain ⟨e, -, -, rfl⟩ := mem_rows h hrow
    simp [route]
  rw [hnone]
  exact List.nodup_nil

/-- An accepted list of inventories counts every deduction once exactly when no address has three rows. -/
theorem counted_once_iff (h : main inventories = .ok out) : CountedOnce inventories out ↔
    ∀ a, ((entriesOf inventories).filter fun e => e.address = a).length ≤ 2 := by
  obtain ⟨s, hread, -⟩ := main_ok h
  constructor
  · intro honce a
    have hlen := length_le_of_chain (hread.chain a) (pairs_nodup_iff.mp honce.pairs a)
    rwa [categoriesAt, List.length_map] at hlen
  · intro hlen
    have hpairs := pairs_nodup_iff.mpr fun a => nodup_of_chain (hread.chain a) (by
      rw [categoriesAt, List.length_map]
      exact hlen a)
    have hids := routes_ids h hpairs
    exact ⟨hpairs, hids, fun destinations hterminal => routes_load h hids hterminal,
      fun r hr r' hr' => routes_categories h hr hr',
      fun existingFiles historicalFiles existing historical he hh => routes_deduction h he hh⟩

end Run

/-! ### Three rows of one address -/

def recipient : Text := "0x00000000000000000000000000000000000000a1".toList

def capFields : List String := ["address_hex", "incident", "retained_cap_atto", "migration_treatment"]

def leakFields : List String := ["address_hex", "unbacked_credit_atto", "retained_cap_atto", "migration_treatment"]

def twoInventories : List Inventory :=
  [⟨"cap.csv", capFields, [⟨recipient, "", 0, 5, "not_issued"⟩]⟩, ⟨"leak.csv", leakFields, [⟨recipient, "", 0, 3, "not_issued"⟩]⟩]

def threeInventories : List Inventory :=
  twoInventories ++ [⟨"cap-2.csv", capFields, [⟨recipient, "", 0, 7, "not_issued"⟩]⟩]

theorem counted_once_two : ∃ out, main twoInventories = .ok out ∧ (CountedOnce twoInventories out ↔
    ∀ a, ((entriesOf twoInventories).filter fun e => e.address = a).length ≤ 2) := by
  have hok : (main twoInventories).isOk = true := by decide +kernel
  obtain ⟨out, h⟩ := Except.exists_ok_of_toBool hok
  exact ⟨out, h, counted_once_iff h⟩

/-- A retained cap, a revert leak and a retained cap again: the second cap's route has the id of the first. -/
theorem third_row_counted_again : ∃ out, main threeInventories = .ok out ∧ ¬CountedOnce threeInventories out ∧
    ¬(out.rows.map RouteRow.routeId).Nodup := by
  have hids : ((main threeInventories).toOption.map fun out => decide (out.rows.map RouteRow.routeId).Nodup) =
      some false := by decide +kernel
  obtain ⟨out, h, hdecided⟩ := Except.exists_ok_of_map hids
  have hdup : ¬(out.rows.map RouteRow.routeId).Nodup := of_decide_eq_false hdecided
  exact ⟨out, h, fun honce => hdup honce.ids, hdup⟩

end HarmonyMigration.Routing.NonIssuance
