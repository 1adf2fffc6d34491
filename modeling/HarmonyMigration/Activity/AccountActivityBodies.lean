import HarmonyMigration.Activity.AccountActivity

/-! The scan of the bodies, from the cutoff down: in each block it keeps the last transaction of every candidate that no
later block had. -/

namespace HarmonyMigration.ChainActivity

open Except Decimal FirstPage
open DirectionalActivity (Address Hash Kind Key Entry LookupValue)

/-! ### One block -/

section Sightings
variable (db : Database) (shard : ℕ)

/-- What a transaction at an index shows, in the order that it is considered. -/
def regularSightings (tx : RegularTx × ℕ) : List (Address × Activity) :=
  (tx.1.sender.map fun sender => (tx.1.parties db sender).map fun p =>
    (p.1, baseActivity shard .regular tx.1.hashByType tx.2 p.2)).getD []

def stakingSightings (tx : StakingTx × ℕ) : List (Address × Activity) :=
  (tx.1.sender.map fun sender => (tx.1.parties sender).map fun p =>
    (p.1, baseActivity shard .staking tx.1.hash tx.2 p.2)).getD []

def Body.sightings (body : Body) : List (Address × Activity) :=
  body.transactions.zipIdx.reverse.flatMap (regularSightings db shard) ++
    body.stakingTransactions.zipIdx.reverse.flatMap (stakingSightings shard)

end Sightings

def considerAll (unresolved : Dict Address ℕ) (sightings : List (Address × Activity)) (blockMatches : Dict ℕ Activity) :
    Dict ℕ Activity := sightings.foldl (fun m s => consider unresolved s.1 s.2 m) blockMatches

section Block
variable {db : Database} {shard : ℕ} {unresolved : Dict Address ℕ} {body : Body}

theorem considerAll_append (l l' : List (Address × Activity)) (m : Dict ℕ Activity) :
    considerAll unresolved (l ++ l') m = considerAll unresolved l' (considerAll unresolved l m) := List.foldl_append

theorem foldlM_considerAll {τ : Type} {f : Dict ℕ Activity → τ → Except Fatal (Dict ℕ Activity)}
    {g : τ → List (Address × Activity)} {l : List τ} {m : Dict ℕ Activity}
    (h : ∀ x ∈ l, ∀ m, f m x = .ok (considerAll unresolved (g x) m)) :
    l.foldlM f m = .ok (considerAll unresolved (l.flatMap g) m) := by
  induction l generalizing m with
  | nil => rfl
  | cons x l ih =>
    obtain ⟨hx, hl⟩ := List.forall_mem_cons.mp h
    rw [List.foldlM_cons, hx, List.flatMap_cons, considerAll_append]
    exact ih hl

/-- A body is the list of what its transactions show. -/
theorem scanBody_eq (hregular : ∀ tx ∈ body.transactions, ∃ sender, tx.sender = some sender)
    (hstaking : ∀ tx ∈ body.stakingTransactions, ∃ sender, tx.sender = some sender) :
    scanBody db shard unresolved body = .ok (considerAll unresolved (body.sightings db shard) .empty) := by
  have hscanRegular : ∀ x ∈ body.transactions.zipIdx.reverse, ∀ m,
      scanRegular db shard unresolved m x = .ok (considerAll unresolved (regularSightings db shard x) m) := by
    intro x hx m
    obtain ⟨sender, hsender⟩ := hregular x.1 (List.fst_mem_of_mem_zipIdx (List.mem_reverse.mp hx))
    simp [scanRegular, regularSightings, considerAll, hsender, ofOption, Except.map, List.foldl_map]
  have hscanStaking : ∀ x ∈ body.stakingTransactions.zipIdx.reverse, ∀ m,
      scanStaking shard unresolved m x = .ok (considerAll unresolved (stakingSightings shard x) m) := by
    intro x hx m
    obtain ⟨sender, hsender⟩ := hstaking x.1 (List.fst_mem_of_mem_zipIdx (List.mem_reverse.mp hx))
    simp [scanStaking, stakingSightings, considerAll, hsender, ofOption, Except.map, List.foldl_map]
  rw [scanBody, foldlM_considerAll hscanRegular, bind_ok_left, foldlM_considerAll hscanStaking, Body.sightings,
    considerAll_append]

/-- What is shown is of a transaction of the body that concerns the address. -/
theorem concerns_of_mem_sightings {a : Address} {v : Activity} (h : (a, v) ∈ body.sightings db shard) :
    v.shard = shard ∧ Concerns db body v.kind v.index v.txHash a := by
  rcases List.mem_append.mp h with h | h
  · obtain ⟨⟨tx, index⟩, hx, hmem⟩ := List.mem_flatMap.mp h
    have htx := List.mem_zipIdx_iff_getElem?.mp (List.mem_reverse.mp hx)
    cases hsender : tx.sender with
    | none => simp [regularSightings, hsender] at hmem
    | some sender =>
      simp only [regularSightings, hsender, Option.map_some, Option.getD_some, List.mem_map] at hmem
      obtain ⟨party, hparty, heq⟩ := hmem
      obtain ⟨rfl, rfl⟩ := Prod.mk.inj heq
      exact ⟨rfl, tx, sender, htx, hsender, rfl, List.mem_map_of_mem hparty⟩
  · obtain ⟨⟨tx, index⟩, hx, hmem⟩ := List.mem_flatMap.mp h
    have htx := List.mem_zipIdx_iff_getElem?.mp (List.mem_reverse.mp hx)
    cases hsender : tx.sender with
    | none => simp [stakingSightings, hsender] at hmem
    | some sender =>
      simp only [stakingSightings, hsender, Option.map_some, Option.getD_some, List.mem_map] at hmem
      obtain ⟨party, hparty, heq⟩ := hmem
      obtain ⟨rfl, rfl⟩ := Prod.mk.inj heq
      exact ⟨rfl, tx, sender, htx, hsender, rfl, List.mem_map_of_mem hparty⟩

theorem exists_sighting (shard : ℕ) {kind : Kind} {index : ℕ} {txHash : Hash} {a : Address}
    (h : Concerns db body kind index txHash a) :
    ∃ v, (a, v) ∈ body.sightings db shard ∧ v.kind = kind ∧ v.index = index ∧ v.txHash = txHash := by
  cases kind with
  | regular =>
    obtain ⟨tx, sender, htx, hsender, rfl, hparty⟩ := h
    obtain ⟨party, hmem, rfl⟩ := List.mem_map.mp hparty
    refine ⟨baseActivity shard .regular tx.hashByType index party.2, ?_, rfl, rfl, rfl⟩
    refine List.mem_append_left _ (List.mem_flatMap.mpr ⟨(tx, index), ?_, ?_⟩)
    · exact List.mem_reverse.mpr (List.mem_zipIdx_iff_getElem?.mpr htx)
    · simp only [regularSightings, hsender, Option.map_some, Option.getD_some]
      exact List.mem_map.mpr ⟨party, hmem, rfl⟩
  | staking =>
    obtain ⟨tx, sender, htx, hsender, rfl, hparty⟩ := h
    obtain ⟨party, hmem, rfl⟩ := List.mem_map.mp hparty
    refine ⟨baseActivity shard .staking tx.hash index party.2, ?_, rfl, rfl, rfl⟩
    refine List.mem_append_right _ (List.mem_flatMap.mpr ⟨(tx, index), ?_, ?_⟩)
    · exact List.mem_reverse.mpr (List.mem_zipIdx_iff_getElem?.mpr htx)
    · simp only [stakingSightings, hsender, Option.map_some, Option.getD_some]
      exact List.mem_map.mpr ⟨party, hmem, rfl⟩

theorem index_lt_of_concerns {kind : Kind} {index : ℕ} {txHash : Hash} {a : Address}
    (h : Concerns db body kind index txHash a) (hregular : body.transactions.length ≤ 2 ^ 63)
    (hstaking : body.stakingTransactions.length ≤ 2 ^ 63) : index < 2 ^ 64 := by
  cases kind with
  | regular =>
    obtain ⟨tx, -, htx, -⟩ := h
    have hlt := (List.getElem?_eq_some_iff.mp htx).1
    omega
  | staking =>
    obtain ⟨tx, -, htx, -⟩ := h
    have hlt := (List.getElem?_eq_some_iff.mp htx).1
    omega

section Consider
variable {a : Address} {v : Activity} {m : Dict ℕ Activity} {j : ℕ}

theorem consider_resolved (h : unresolved.get? a = none) : consider unresolved a v m = m := by
  rw [consider, h]

theorem consider_first (h : unresolved.get? a = some j) (hm : m.get? j = none) :
    consider unresolved a v m = m.insert j v := by
  simp only [consider, h, hm]

theorem consider_again {current : Activity} (h : unresolved.get? a = some j) (hm : m.get? j = some current) :
    consider unresolved a v m = if eventKey current < eventKey v then m.insert j v else m := by
  simp only [consider, h, hm]

/-- The match of another index stays. -/
theorem get?_consider_of_ne {j' : ℕ} (h : unresolved.get? a = some j') (hj : j ≠ j') :
    (consider unresolved a v m).get? j = m.get? j := by
  cases hm : m.get? j' with
  | none => rw [consider_first h hm, Dict.get?_insert, if_neg hj]
  | some current =>
    rw [consider_again h hm]
    split_ifs
    · rw [Dict.get?_insert, if_neg hj]
    · rfl

theorem mem_keys_consider (hj : j ∈ (consider unresolved a v m).keys) : unresolved.get? a = some j ∨ j ∈ m.keys := by
  cases h : unresolved.get? a with
  | none =>
    rw [consider_resolved h] at hj
    exact .inr hj
  | some j' =>
    have hinsert : j ∈ (m.insert j' v).keys → some j' = some j ∨ j ∈ m.keys := fun hmem =>
      (Dict.mem_keys_insert.mp hmem).imp_left fun he => congrArg some he.symm
    cases hm : m.get? j' with
    | none => exact hinsert (consider_first h hm ▸ hj)
    | some current =>
      rw [consider_again h hm] at hj
      split_ifs at hj
      · exact hinsert hj
      · exact .inr hj

end Consider

/-- One more element, not below the best of the others, is the best. -/
theorem isBest_snoc {l : List Activity} {current v : Activity} (h : IsBest eventKey l (some current)) :
    IsBest eventKey (l ++ [v]) (some (if eventKey current < eventKey v then v else current)) := by
  split_ifs with hlt
  · refine ⟨by simp, fun y hy => ?_⟩
    rcases List.mem_append.mp hy with hy | hy
    · exact (h.2 y hy).trans hlt.le
    · exact List.mem_singleton.mp hy ▸ le_rfl
  · refine ⟨List.mem_append_left _ h.1, fun y hy => ?_⟩
    rcases List.mem_append.mp hy with hy | hy
    · exact h.2 y hy
    · exact List.mem_singleton.mp hy ▸ not_lt.mp hlt

/-- For every unresolved address the block's match has the largest key of what the block shows of it. -/
theorem isBest_considerAll (sightings : List (Address × Activity))
    (hinj : ∀ a a' j, unresolved.get? a = some j → unresolved.get? a' = some j → a = a') {a : Address} {j : ℕ}
    (ha : unresolved.get? a = some j) : IsBest eventKey ((sightings.filter fun s => s.1 = a).map Prod.snd)
      ((considerAll unresolved sightings .empty).get? j) := by
  induction sightings using List.reverseRecOn with
  | nil => exact rfl
  | append_singleton l s ih =>
    rw [considerAll_append, List.filter_append, List.map_append]
    change IsBest eventKey _ ((consider unresolved s.1 s.2 (considerAll unresolved l .empty)).get? j)
    generalize considerAll unresolved l .empty = m at ih ⊢
    by_cases hs : s.1 = a
    · have hfilter : ([s].filter fun s => s.1 = a).map Prod.snd = [s.2] := by simp [hs]
      rw [hfilter, hs]
      cases hm : m.get? j with
      | none =>
        rw [hm] at ih
        have hnil : (l.filter fun s => s.1 = a).map Prod.snd = [] := ih
        rw [hnil, consider_first ha hm, Dict.get?_insert, if_pos rfl]
        exact ⟨List.mem_singleton_self _, fun y hy => List.mem_singleton.mp hy ▸ le_rfl⟩
      | some current =>
        rw [hm] at ih
        have hnext : (consider unresolved a s.2 m).get? j =
            some (if eventKey current < eventKey s.2 then s.2 else current) := by
          rw [consider_again ha hm]
          split_ifs
          · rw [Dict.get?_insert, if_pos rfl]
          · exact hm
        rw [hnext]
        exact isBest_snoc ih
    · have hfilter : ([s].filter fun s => s.1 = a).map Prod.snd = [] := by simp [hs]
      have hsame : (consider unresolved s.1 s.2 m).get? j = m.get? j := by
        cases hother : unresolved.get? s.1 with
        | none => rw [consider_resolved hother]
        | some j' =>
          refine get?_consider_of_ne hother ?_
          rintro rfl
          exact hs (hinj s.1 a j hother ha)
      rw [hfilter, List.append_nil, hsame]
      exact ih

/-- Only unresolved addresses are matched. -/
theorem exists_of_mem_considerAll {sightings : List (Address × Activity)} {j : ℕ}
    (h : j ∈ (considerAll unresolved sightings .empty).keys) : ∃ a, unresolved.get? a = some j := by
  induction sightings using List.reverseRecOn with
  | nil => exact absurd h List.not_mem_nil
  | append_singleton l s ih =>
    rw [considerAll_append] at h
    rcases mem_keys_consider h with hs | h
    · exact ⟨s.1, hs⟩
    · exact ih h

end Block

/-! ### What a block settles -/

section Resolve
variable {candidates : List Address} {number timestamp : ℕ}

theorem get?_filterKeys {κ ν : Type*} [DecidableEq κ] (d : Dict κ ν) (p : κ → Bool) (k : κ) :
    (d.filterKeys p).get? k = if p k then d.get? k else none := by
  refine Option.ext fun v => ?_
  rw [Dict.get?_eq_some_iff, Dict.filterKeys, List.mem_filter]
  split_ifs with hp
  · rw [Dict.get?_eq_some_iff, and_iff_left hp]
  · exact ⟨fun h => absurd h.2 hp, fun h => by cases h⟩

/-- The event of a block's match. -/
def stamp (number timestamp : ℕ) (v : Activity) : Activity := { v with block := number, timestampUnix := timestamp }

/-- The matches of a block take their records' places, and their addresses are resolved. -/
structure ResolvedBy (candidates : List Address) (number timestamp : ℕ) (l : List (ℕ × Activity)) (p p' : Progress) :
    Prop where
  length : p'.records.length = p.records.length
  kept : ∀ j, j ∉ l.map Prod.fst → p'.records[j]? = p.records[j]?
  set : ∀ e ∈ l, e.1 < p.records.length → p'.records[e.1]? = some (some (stamp number timestamp e.2))
  resolved : ∀ a, (∃ e ∈ l, candidates[e.1]? = some a) → p'.unresolved.get? a = none
  unresolved : ∀ a, (∀ e ∈ l, candidates[e.1]? ≠ some a) → p'.unresolved.get? a = p.unresolved.get? a

theorem resolvedBy_foldl {l : List (ℕ × Activity)} (hnd : (l.map Prod.fst).Nodup) (p : Progress) :
    ResolvedBy candidates number timestamp l p (l.foldl (.resolve candidates number timestamp) p) := by
  induction l generalizing p with
  | nil => exact ⟨rfl, fun _ _ => rfl, by simp, by simp, fun _ _ => rfl⟩
  | cons e l ih =>
    obtain ⟨hhead, hnd⟩ := List.nodup_cons.mp hnd
    have hrest := ih hnd (p.resolve candidates number timestamp e)
    have hlength : (p.resolve candidates number timestamp e).records.length = p.records.length := List.length_set
    have hget : ∀ a, (p.resolve candidates number timestamp e).unresolved.get? a =
        if candidates[e.1]? ≠ some a then p.unresolved.get? a else none := fun a => by
      rw [Progress.resolve, get?_filterKeys]
      simp
    rw [List.foldl_cons]
    refine ⟨hrest.length.trans hlength, fun j hj => ?_, List.forall_mem_cons.mpr ⟨fun hlt => ?_, fun e' he' hlt => ?_⟩,
      fun a ha => ?_, fun a ha => ?_⟩
    · rw [List.map_cons, List.mem_cons, not_or] at hj
      rw [hrest.kept j hj.2, Progress.resolve, List.getElem?_set_ne (Ne.symm hj.1)]
    · rw [hrest.kept e.1 hhead, Progress.resolve, List.getElem?_set_self hlt]
      rfl
    · exact hrest.set e' he' (hlength ▸ hlt)
    · by_cases hl : ∃ e' ∈ l, candidates[e'.1]? = some a
      · exact hrest.resolved a hl
      · push Not at hl
        obtain ⟨e', he', hcandidate⟩ := ha
        rcases List.mem_cons.mp he' with rfl | he'
        · rw [hrest.unresolved a hl, hget, if_neg (not_not.mpr hcandidate)]
        · exact absurd hcandidate (hl e' he')
    · obtain ⟨he, hl⟩ := List.forall_mem_cons.mp ha
      rw [hrest.unresolved a hl, hget, if_pos he]

end Resolve

/-! ### From the cutoff down -/

section Down
variable {db : Database} {shard cutoff : ℕ} {candidates : List Address}

/-- The records are the last transactions in the blocks from `low` to the cutoff. -/
structure Scanned (db : Database) (shard cutoff : ℕ) (candidates : List Address) (low : ℕ) (p : Progress) : Prop where
  length : p.records.length = candidates.length
  settled : ∀ j a, candidates[j]? = some a → ∃ r : Option Activity, p.records[j]? = some r ∧
    IsLast (fun e => low ≤ e.block ∧ Occurs db cutoff a e) (r.map Activity.event) ∧
    (∀ v ∈ r, v.shard = shard ∧ db.timestamp v.block = some v.timestampUnix) ∧
    p.unresolved.get? a = r.elim (some j) fun _ => none
  indexes : ∀ a j, p.unresolved.get? a = some j → candidates[j]? = some a

/-- What a later block has is later than what this block has. -/
theorem isLast_or {P : Event → Prop} {n : ℕ} {r r' : Option Event} (h : IsLast (fun e => n + 1 ≤ e.block ∧ P e) r)
    (h' : r = none → IsLast (fun e => e.block = n ∧ P e) r') : IsLast (fun e => n ≤ e.block ∧ P e) (r.or r') := by
  cases r with
  | some e =>
    refine ⟨⟨Nat.le_of_succ_le h.1.1, h.1.2⟩, fun e' he' => ?_⟩
    rcases Nat.lt_or_ge n e'.block with hlt | hge
    · exact h.2 e' ⟨hlt, he'.2⟩
    · exact (Event.place_lt_iff.mpr (.inl (hge.trans_lt h.1.1))).le
  | none =>
    rw [Option.none_or]
    refine (h' rfl).congr fun e => ⟨fun he => ⟨he.1.ge, he.2⟩, fun he => ⟨?_, he.2⟩⟩
    by_contra hne
    exact h e ⟨by omega, he.2⟩

/-- Where nothing remains to be found, nothing earlier counts. -/
theorem IsLast.extend {P : Event → Prop} {n : ℕ} {e : Event} (h : IsLast (fun e => n ≤ e.block ∧ P e) (some e)) :
    IsLast (fun e => 0 ≤ e.block ∧ P e) (some e) := by
  refine ⟨⟨Nat.zero_le _, h.1.2⟩, fun e' he' => ?_⟩
  rcases Nat.lt_or_ge e'.block n with hlt | hge
  · exact (Event.place_lt_iff.mpr (.inl (hlt.trans_le h.1.1))).le
  · exact h.2 e' ⟨hge, he'.2⟩

/-- The match of an address is its last transaction in the block. -/
theorem isLast_match {unresolved : Dict Address ℕ} {body : Body} {n timestamp : ℕ} {a : Address} {j : ℕ}
    (hdb : Complete db shard cutoff) (hn : n ≤ cutoff) (hbody : db.body n = some body)
    (hinj : ∀ a a' j, unresolved.get? a = some j → unresolved.get? a' = some j → a = a')
    (ha : unresolved.get? a = some j) : IsLast (fun e => e.block = n ∧ Occurs db cutoff a e)
      ((((considerAll unresolved (body.sightings db shard) .empty).get? j).map (stamp n timestamp)).map Activity.event) := by
  have hoccurs : ∀ e, e.block = n ∧ Occurs db cutoff a e ↔ e.block = n ∧ Concerns db body e.kind e.index e.txHash a := by
    intro e
    refine and_congr_right fun hblock => ⟨fun he => ?_, fun he => ⟨hblock.trans_le hn, body, hblock ▸ hbody, he⟩⟩
    obtain ⟨-, body', hbody', hconcerns⟩ := he
    rw [hblock, hbody] at hbody'
    exact Option.some.inj hbody' ▸ hconcerns
  obtain ⟨hregular, hstaking⟩ := hdb.lengths n hn body hbody
  have hbest := isBest_considerAll (body.sightings db shard) hinj ha
  cases hmatch : (considerAll unresolved (body.sightings db shard) .empty).get? j with
  | none =>
    rw [hmatch] at hbest
    intro e he
    obtain ⟨v, hv, -⟩ := exists_sighting shard ((hoccurs e).mp he).2
    have hmem : v ∈ ((body.sightings db shard).filter fun s => s.1 = a).map Prod.snd :=
      List.mem_map.mpr ⟨(a, v), List.mem_filter.mpr ⟨hv, by simp⟩, rfl⟩
    rw [show ((body.sightings db shard).filter fun s => s.1 = a).map Prod.snd = [] from hbest] at hmem
    cases hmem
  | some v =>
    rw [hmatch] at hbest
    obtain ⟨hmem, hbest⟩ := hbest
    obtain ⟨⟨a', v'⟩, hs, rfl⟩ := List.mem_map.mp hmem
    obtain ⟨hshown, ha'⟩ := List.mem_filter.mp hs
    obtain rfl : a' = a := of_decide_eq_true ha'
    obtain ⟨-, hconcerns⟩ := concerns_of_mem_sightings hshown
    refine ⟨(hoccurs _).mpr ⟨rfl, hconcerns⟩, fun e he => not_lt.mp fun hlt => ?_⟩
    obtain ⟨hblock, hconcerns'⟩ := (hoccurs e).mp he
    obtain ⟨w, hw, hkind, hindex, -⟩ := exists_sighting shard hconcerns'
    have hle := hbest w (List.mem_map.mpr ⟨(a', w), List.mem_filter.mpr ⟨hw, by simp⟩, rfl⟩)
    refine absurd hle (not_le.mpr (eventKey_lt (index_lt_of_concerns hconcerns hregular hstaking) ?_ ?_))
    · rw [hindex]
      exact index_lt_of_concerns hconcerns' hregular hstaking
    · rw [hkind, hindex]
      have hplace := Event.place_lt_iff.mp hlt
      simp only [Activity.event, stamp, hblock] at hplace
      exact hplace.resolve_left (lt_irrefl n) |>.2

/-- The matches of the block are settled, whether there are any or not. -/
theorem scanBlock_eq {bitset : Bitset} {n : ℕ} {p : Progress} {body : Body} (hdb : Complete db shard cutoff)
    (hn : n ≤ cutoff) (hbody : db.body n = some body) (hmarked : hasBlock bitset n = true) {timestamp : ℕ}
    (htime : db.timestamp n = some timestamp) : scanBlock db shard bitset candidates n p =
      .ok ((considerAll p.unresolved (body.sightings db shard) .empty).entries.foldl
        (.resolve candidates n timestamp) p) := by
  obtain ⟨hregular, hstaking⟩ := hdb.senders n hn body hbody
  rw [scanBlock, if_pos hmarked, hbody, ofOption, Option.elim_some, bind_ok_left, scanBody_eq hregular hstaking,
    bind_ok_left, htime]
  split_ifs with hempty
  · rw [hempty]
    rfl
  · rfl

section Step
variable {n : ℕ} {p : Progress}

theorem Scanned.injective (h : Scanned db shard cutoff candidates n p) (a a' : Address) (j : ℕ)
    (ha : p.unresolved.get? a = some j) (ha' : p.unresolved.get? a' = some j) : a = a' :=
  Option.some.inj ((h.indexes a j ha).symm.trans (h.indexes a' j ha'))

/-- A block without transactions adds nothing. -/
theorem Scanned.skip (h : Scanned db shard cutoff candidates (n + 1) p)
    (hnone : ∀ a e, e.block = n → ¬Occurs db cutoff a e) : Scanned db shard cutoff candidates n p where
  length := h.length
  settled j a ha := by
    obtain ⟨r, hr, hlast, hrest⟩ := h.settled j a ha
    refine ⟨r, hr, ?_, hrest⟩
    rw [← Option.or_none (o := r.map Activity.event)]
    exact isLast_or hlast fun _ e he => hnone a e he.1 he.2
  indexes := h.indexes

/-- The records once a block is settled. -/
theorem Scanned.resolve {body : Body} {timestamp : ℕ} (hdb : Complete db shard cutoff) (hn : n ≤ cutoff)
    (hnd : candidates.Nodup) (hbody : db.body n = some body) (htime : db.timestamp n = some timestamp)
    (h : Scanned db shard cutoff candidates (n + 1) p) : Scanned db shard cutoff candidates n
      ((considerAll p.unresolved (body.sightings db shard) .empty).entries.foldl (.resolve candidates n timestamp) p) := by
  have hmatches : ∀ a j, p.unresolved.get? a = some j → IsLast (fun e => e.block = n ∧ Occurs db cutoff a e)
      ((((considerAll p.unresolved (body.sightings db shard) .empty).get? j).map (stamp n timestamp)).map
        Activity.event) := fun a j ha => isLast_match hdb hn hbody h.injective ha
  have hkeys : ∀ j ∈ (considerAll p.unresolved (body.sightings db shard) .empty).keys, ∃ a, p.unresolved.get? a = some j :=
    fun j hj => exists_of_mem_considerAll hj
  have hshard : ∀ j v, (considerAll p.unresolved (body.sightings db shard) .empty).get? j = some v → v.shard = shard := by
    intro j v hv
    obtain ⟨a, ha⟩ := hkeys j (List.mem_map_of_mem (Dict.get?_eq_some_iff.mp hv))
    have hbest := isBest_considerAll (body.sightings db shard) h.injective ha
    rw [hv] at hbest
    obtain ⟨s, hs, rfl⟩ := List.mem_map.mp hbest.1
    exact (concerns_of_mem_sightings (List.mem_filter.mp hs).1).1
  generalize considerAll p.unresolved (body.sightings db shard) .empty = m at hmatches hkeys hshard ⊢
  have hresolved : ResolvedBy candidates n timestamp m.entries p _ := resolvedBy_foldl m.nodup p
  refine ⟨hresolved.length.trans h.length, fun j a ha => ?_, fun a j haj => ?_⟩
  · obtain ⟨r, hr, hlast, hfields, hunresolved⟩ := h.settled j a ha
    have hindex : ∀ e ∈ m.entries, candidates[e.1]? = some a → e.1 = j := fun e _ he =>
      (List.getElem?_inj (List.getElem?_eq_some_iff.mp he).1 hnd).mp (he.trans ha.symm)
    cases r with
    | some v =>
      -- its address is resolved, so that no match has its index
      have hnot : j ∉ m.keys := by
        intro hj
        obtain ⟨a', ha'⟩ := hkeys j hj
        obtain rfl := Option.some.inj ((h.indexes a' j ha').symm.trans ha)
        cases ha'.symm.trans hunresolved
      have hkept : IsLast (fun e => n ≤ e.block ∧ Occurs db cutoff a e) ((some v.event).or none) :=
        isLast_or hlast fun hnone => by cases hnone
      refine ⟨some v, (hresolved.kept j hnot).trans hr, hkept, hfields, ?_⟩
      rw [hresolved.unresolved a fun e he hcandidate => hnot (hindex e he hcandidate ▸ List.mem_map_of_mem he)]
      exact hunresolved
    | none =>
      have hmatch := hmatches a j hunresolved
      have hnew := isLast_or hlast fun _ => hmatch
      cases hget : m.get? j with
      | none =>
        have hnot : j ∉ m.keys := Dict.get?_eq_none_iff.mp hget
        rw [hget] at hnew
        refine ⟨none, (hresolved.kept j hnot).trans hr, hnew, by simp, ?_⟩
        rw [hresolved.unresolved a fun e he hcandidate => hnot (hindex e he hcandidate ▸ List.mem_map_of_mem he)]
        exact hunresolved
      | some v =>
        have hmem : (j, v) ∈ m.entries := Dict.get?_eq_some_iff.mp hget
        have hlt : j < p.records.length := (List.getElem?_eq_some_iff.mp hr).1
        rw [hget] at hnew
        refine ⟨some (stamp n timestamp v), hresolved.set (j, v) hmem hlt, hnew, fun w hw => ?_, ?_⟩
        · obtain rfl := Option.some.inj hw
          exact ⟨hshard j v hget, htime⟩
        · exact hresolved.resolved a ⟨(j, v), hmem, ha⟩
  · by_cases hcandidate : ∃ e ∈ m.entries, candidates[e.1]? = some a
    · rw [hresolved.resolved a hcandidate] at haj
      cases haj
    · push Not at hcandidate
      rw [hresolved.unresolved a hcandidate] at haj
      exact h.indexes a j haj

theorem scanBlock_ok {bitset : Bitset} (hdb : Complete db shard cutoff) (hn : n ≤ cutoff) (hnd : candidates.Nodup)
    (hmarked : ∀ body, db.body n = some body → body.transactions ≠ [] ∨ body.stakingTransactions ≠ [] →
      hasBlock bitset n = true) (h : Scanned db shard cutoff candidates (n + 1) p) :
    ∃ p', scanBlock db shard bitset candidates n p = .ok p' ∧ Scanned db shard cutoff candidates n p' := by
  obtain ⟨body, hbody⟩ := hdb.body n hn
  obtain ⟨timestamp, htime⟩ := hdb.timestamp n hn
  by_cases hblock : hasBlock bitset n = true
  · exact ⟨_, scanBlock_eq hdb hn hbody hblock htime, h.resolve hdb hn hnd hbody htime⟩
  · refine ⟨p, if_neg hblock, h.skip fun a e he hoccurs => hblock (hmarked body hbody ?_)⟩
    obtain ⟨-, body', hbody', hconcerns⟩ := hoccurs
    rw [he, hbody] at hbody'
    obtain rfl := Option.some.inj hbody'
    cases hkind : e.kind with
    | regular =>
      rw [hkind] at hconcerns
      obtain ⟨tx, -, htx, -⟩ := hconcerns
      exact .inl (List.ne_nil_of_mem (List.mem_of_getElem? htx))
    | staking =>
      rw [hkind] at hconcerns
      obtain ⟨tx, -, htx, -⟩ := hconcerns
      exact .inr (List.ne_nil_of_mem (List.mem_of_getElem? htx))

end Step

/-- The scan comes to an end with every record, at the first block or before it. -/
theorem scanDown_ok {bitset : Bitset} (hdb : Complete db shard cutoff) (hnd : candidates.Nodup)
    (hmarked : ∀ n ≤ cutoff, ∀ body, db.body n = some body → body.transactions ≠ [] ∨ body.stakingTransactions ≠ [] →
      hasBlock bitset n = true) {n : ℕ} (hn : n ≤ cutoff) {p : Progress}
    (h : Scanned db shard cutoff candidates (n + 1) p) :
    ∃ p', scanDown db shard bitset candidates n p = .ok p' ∧ Scanned db shard cutoff candidates 0 p' := by
  induction n generalizing p with
  | zero => exact scanBlock_ok hdb hn hnd (hmarked 0 hn) h
  | succ n ih =>
    obtain ⟨p', hp', hscanned⟩ := scanBlock_ok hdb hn hnd (hmarked (n + 1) hn) h
    rw [scanDown, hp', bind_ok_left]
    by_cases hempty : p'.unresolved.entries = []
    · rw [if_pos hempty]
      refine ⟨p', rfl, hscanned.length, fun j a ha => ?_, hscanned.indexes⟩
      obtain ⟨r, hr, hlast, hfields, hunresolved⟩ := hscanned.settled j a ha
      have hnone : p'.unresolved.get? a = none := by
        rw [Dict.get?_eq_none_iff, Dict.keys, hempty]
        exact List.not_mem_nil
      cases r with
      | none => cases hnone.symm.trans hunresolved
      | some v => exact ⟨some v, hr, hlast.extend, hfields, hunresolved⟩
    · rw [if_neg hempty]
      exact ih (Nat.le_of_succ_le hn) hscanned

end Down

/-! ### Both scans -/

/-- Every candidate has its last transaction on record, and those without one remain. -/
structure Reports (db : Database) (shard cutoff : ℕ) (candidates : List Address) (p : Progress) : Prop where
  length : p.records.length = candidates.length
  record : ∀ j a, candidates[j]? = some a → ∃ r : Option Activity, p.records[j]? = some r ∧
    Recorded db shard cutoff a r ∧ p.unresolved.get? a = r.elim (some j) fun _ => none
  others : ∀ a, a ∉ candidates → p.unresolved.get? a = none

section Both
variable {db : Database} {explorer : Explorer} {shard cutoff : ℕ} {candidates : List Address}

theorem get?_ofList_zipIdx (hnd : candidates.Nodup) {a : Address} {j : ℕ} :
    (Dict.ofList candidates.zipIdx).get? a = some j ↔ candidates[j]? = some a := by
  have hfst : (candidates.zipIdx.map Prod.fst).Nodup := by rwa [List.zipIdx_map_fst]
  rw [Dict.get?_eq_some_iff, Dict.entries_ofList hfst, List.mem_zipIdx_iff_getElem?]

theorem scanBodies_ok (hdb : Complete db shard cutoff) (hnd : candidates.Nodup) :
    ∃ p, scanBodies db shard cutoff candidates = .ok p ∧ Reports db shard cutoff candidates p := by
  obtain ⟨bitset, hbitset, -, hmarked⟩ := @transactionBlocks_ok cutoff db.lookups (fun _ => 0) hdb.values
  have hmarks : ∀ n ≤ cutoff, ∀ body, db.body n = some body →
      body.transactions ≠ [] ∨ body.stakingTransactions ≠ [] → hasBlock bitset n = true := by
    intro n hn body hbody hnonempty
    obtain ⟨e, he, hlength, hdecode⟩ := hdb.lookups n hn body hbody hnonempty
    exact hmarked e he hlength n hn hdecode
  have hstart : Scanned db shard cutoff candidates (cutoff + 1)
      ⟨candidates.map fun _ => none, .ofList candidates.zipIdx⟩ := by
    refine ⟨List.length_map _, fun j a ha => ⟨none, ?_, fun e he => ?_, by simp, ?_⟩, fun a j ha => ?_⟩
    · rw [List.getElem?_map, ha]
      rfl
    · exact absurd he.2.1 (by omega)
    · exact (get?_ofList_zipIdx hnd).mpr ha
    · exact (get?_ofList_zipIdx hnd).mp ha
  obtain ⟨p, hp, hscanned⟩ := scanDown_ok hdb hnd hmarks le_rfl hstart
  have htail : (db.transactionIndexTail.all fun tail => tail = 0) = true := by
    cases htail : db.transactionIndexTail with
    | none => rfl
    | some t => exact decide_eq_true (hdb.tail t htail)
  refine ⟨p, ?_, hscanned.length, fun j a ha => ?_, fun a ha => ?_⟩
  · rw [scanBodies, require_ok htail, bind_ok_left, hbitset, bind_ok_left, hp]
  · obtain ⟨r, hr, hlast, hfields, hunresolved⟩ := hscanned.settled j a ha
    exact ⟨r, hr, ⟨hlast.congr fun e => and_iff_right (Nat.zero_le _), hfields⟩, hunresolved⟩
  · cases hget : p.unresolved.get? a with
    | none => rfl
    | some j => exact absurd (List.mem_of_getElem? (hscanned.indexes a j hget)) ha

theorem scanExplorerDatabase_ok (hdb : Complete db shard cutoff) (hcutoff : cutoff < 2 ^ 64) (hnd : candidates.Nodup)
    (hindex : ∀ a ∈ candidates, ∀ kind, (kind = .staking → shard = 0) → Indexed db (explorer kind a) cutoff kind a) :
    ∃ p, scanExplorerDatabase db explorer shard cutoff candidates = .ok p ∧ Reports db shard cutoff candidates p := by
  have hcandidate := fun a ha => scanCandidate_ok hdb hcutoff (hindex a ha)
  obtain ⟨records, hrecords⟩ := exists_mapM_ok_iff.mpr fun a ha => (hcandidate a ha).imp fun _ h => h.1
  have hforall := forall₂_of_mapM_ok hrecords
  have hlength : candidates.length = records.length := hforall.length_eq
  have hfst : (((candidates.zipIdx.zip records).filter fun p => p.2.isNone).map Prod.fst |>.map Prod.fst).Nodup := by
    have hall : ((candidates.zipIdx.zip records).map Prod.fst).map Prod.fst = candidates := by
      rw [List.map_fst_zip (by rw [List.length_zipIdx, hlength]), List.zipIdx_map_fst]
    exact (hall.symm ▸ hnd).sublist ((List.filter_sublist.map _).map _)
  have hunresolved : ∀ a j,
      (Dict.ofList (((candidates.zipIdx.zip records).filter fun p => p.2.isNone).map Prod.fst)).get? a = some j ↔
        candidates[j]? = some a ∧ records[j]? = some none := by
    intro a j
    rw [Dict.get?_eq_some_iff, Dict.entries_ofList hfst, List.mem_map]
    constructor
    · rintro ⟨⟨x, r⟩, hmem, rfl⟩
      obtain ⟨hzip, hnone⟩ := List.mem_filter.mp hmem
      obtain ⟨i, hi⟩ := List.mem_iff_getElem?.mp hzip
      obtain ⟨hx, hr⟩ := List.getElem?_zip_eq_some.mp hi
      rw [List.getElem?_zipIdx] at hx
      obtain ⟨a', ha', heq⟩ := Option.map_eq_some_iff.mp hx
      obtain ⟨rfl, rfl⟩ := Prod.mk.inj heq
      rw [Nat.zero_add]
      exact ⟨ha', by rw [hr, Option.isNone_iff_eq_none.mp hnone]⟩
    · rintro ⟨ha, hr⟩
      refine ⟨((a, j), none), List.mem_filter.mpr ⟨List.mem_iff_getElem?.mpr ⟨j, ?_⟩, rfl⟩, rfl⟩
      refine List.getElem?_zip_eq_some.mpr ⟨?_, hr⟩
      rw [List.getElem?_zipIdx, ha, Option.map_some, Nat.zero_add]
  refine ⟨⟨records, _⟩, by rw [scanExplorerDatabase, hrecords]; rfl, hlength.symm, fun j a ha => ?_, fun a ha => ?_⟩
  · have hlt : j < records.length := hlength ▸ (List.getElem?_eq_some_iff.mp ha).1
    have hget : records[j]? = some records[j] := List.getElem?_eq_getElem hlt
    have hscan : scanCandidate db explorer shard cutoff a = .ok records[j] := by
      have hboth := hforall.get (hlength ▸ hlt) hlt
      rwa [List.get_eq_getElem, (List.getElem?_eq_some_iff.mp ha).2] at hboth
    obtain ⟨r, hr, hrecorded⟩ := hcandidate a (List.mem_of_getElem? ha)
    obtain rfl := Except.ok.inj (hscan.symm.trans hr)
    refine ⟨records[j], hget, hrecorded, ?_⟩
    cases hrecord : records[j] with
    | none => exact (hunresolved a j).mpr ⟨ha, hrecord ▸ hget⟩
    | some v =>
      cases hfound : (Dict.ofList _).get? a with
      | none => rfl
      | some j' =>
        obtain ⟨ha', hnone⟩ := (hunresolved a j').mp hfound
        obtain rfl := (List.getElem?_inj (List.getElem?_eq_some_iff.mp ha).1 hnd).mp (ha.trans ha'.symm)
        rw [hget, hrecord] at hnone
        cases hnone
  · cases hfound : (Dict.ofList _).get? a with
    | none => rfl
    | some j => exact absurd (List.mem_of_getElem? ((hunresolved a j).mp hfound).1) ha

/-- Two reports differ in the detail of their records alone. -/
theorem Reports.eq {p q : Progress} (h : Reports db shard cutoff candidates p) (h' : Reports db shard cutoff candidates q) :
    p.records.map (Option.map Activity.undetailed) = q.records.map (Option.map Activity.undetailed) ∧
      ∀ a, p.unresolved.get? a = q.unresolved.get? a := by
  refine ⟨List.ext_getElem? fun j => ?_, fun a => ?_⟩
  · rw [List.getElem?_map, List.getElem?_map]
    cases ha : candidates[j]? with
    | none =>
      have hlt := List.getElem?_eq_none_iff.mp ha
      rw [List.getElem?_eq_none (h.length.trans_le hlt), List.getElem?_eq_none (h'.length.trans_le hlt)]
    | some a =>
      obtain ⟨r, hr, hrecorded, -⟩ := h.record j a ha
      obtain ⟨r', hr', hrecorded', -⟩ := h'.record j a ha
      rw [hr, hr', Option.map_some, Option.map_some, hrecorded.eq hrecorded']
  · by_cases ha : a ∈ candidates
    · obtain ⟨j, hj⟩ := List.mem_iff_getElem?.mp ha
      obtain ⟨r, -, hrecorded, hunresolved⟩ := h.record j a hj
      obtain ⟨r', -, hrecorded', hunresolved'⟩ := h'.record j a hj
      have heq := hrecorded.eq hrecorded'
      rw [hunresolved, hunresolved']
      cases r with
      | none =>
        cases r' with
        | none => rfl
        | some v => cases heq
      | some v =>
        cases r' with
        | none => cases heq
        | some v' => rfl
    · rw [h.others a ha, h'.others a ha]

/-- On a complete history with a faithful lookup table and index, both scans end, with the last transaction of every
candidate, and they differ in the detail of the records alone. -/
theorem scans_agree (hdb : Complete db shard cutoff) (hcutoff : cutoff < 2 ^ 64) (hnd : candidates.Nodup)
    (hindex : ∀ a ∈ candidates, ∀ kind, (kind = .staking → shard = 0) → Indexed db (explorer kind a) cutoff kind a) :
    ∃ p q, scanBodies db shard cutoff candidates = .ok p ∧
      scanExplorerDatabase db explorer shard cutoff candidates = .ok q ∧ Reports db shard cutoff candidates p ∧
      Reports db shard cutoff candidates q ∧
      p.records.map (Option.map Activity.undetailed) = q.records.map (Option.map Activity.undetailed) ∧
      ∀ a, p.unresolved.get? a = q.unresolved.get? a := by
  obtain ⟨p, hp, hreports⟩ := scanBodies_ok hdb hnd
  obtain ⟨q, hq, hreports'⟩ := scanExplorerDatabase_ok hdb hcutoff hnd hindex
  exact ⟨p, q, hp, hq, hreports, hreports', hreports.eq hreports'⟩

end Both

/-! ### A transaction, a stale entry and a late one -/

def plainDatabase : Database where
  body n := some ⟨if n = 1 then [⟨7, 8, some 1, 0, some 3⟩] else [], []⟩
  timestamp n := some (100 + n)
  lookups := [(33, .bytes 1 1)]
  transactionIndexTail := none
  createAddress _ nonce := BitVec.ofNat 160 nonce

def plainExplorer : Explorer := fun kind a =>
  if kind = .regular ∧ a = 1 then [⟨some ⟨2, 0, 9⟩, [1]⟩, ⟨some ⟨1, 5, 9⟩, [2]⟩, ⟨some ⟨1, 0, 8⟩, [1]⟩] else []

theorem plainDatabase_complete : Complete plainDatabase 1 1 where
  body n _ := ⟨_, rfl⟩
  timestamp n _ := ⟨_, rfl⟩
  senders n _ body hbody := by
    obtain rfl := Option.some.inj hbody
    refine ⟨fun tx htx => ?_, by simp⟩
    split_ifs at htx
    · obtain rfl := List.mem_singleton.mp htx
      exact ⟨1, rfl⟩
    · cases htx
  lengths n _ body hbody := by
    obtain rfl := Option.some.inj hbody
    refine ⟨?_, by simp⟩
    split_ifs <;> simp
  staking _ n _ body hbody := by
    obtain rfl := Option.some.inj hbody
    rfl
  values e he _ := by
    obtain rfl := List.mem_singleton.mp he
    exact ⟨1, rfl⟩
  lookups n _ body hbody hnonempty := by
    obtain rfl := Option.some.inj hbody
    by_cases hn : n = 1
    · subst hn
      exact ⟨_, List.mem_singleton_self _, rfl, rfl⟩
    · simp [hn] at hnonempty
  tail t ht := by cases ht

/-- The one transaction is in block 1, from address 1 to address 3. -/
theorem plainDatabase_occurs {a : Address} {e : Event} (h : Occurs plainDatabase 1 a e) :
    e = ⟨1, 0, .regular, 7⟩ ∧ (a = 1 ∨ a = 3) := by
  obtain ⟨block, index, kind, txHash⟩ := e
  obtain ⟨-, body, hbody, hconcerns⟩ := h
  obtain rfl := Option.some.inj hbody
  cases kind with
  | staking =>
    obtain ⟨tx, -, htx, -⟩ := hconcerns
    cases htx
  | regular =>
    obtain ⟨tx, sender, htx, hsender, rfl, hparty⟩ := hconcerns
    by_cases hblock : block = 1
    · cases index with
      | zero =>
        simp only [hblock, if_pos, List.getElem?_cons_zero, Option.some.injEq] at htx
        subst htx
        obtain rfl := Option.some.inj hsender
        simp [RegularTx.parties] at hparty
        exact ⟨by rw [hblock], hparty⟩
      | succ index => simp [hblock] at htx
    · simp [hblock] at htx

theorem plainExplorer_indexed {a : Address} (ha : a ∈ ([1, 2] : List Address)) {kind : Kind} (hkind : kind = .regular) :
    Indexed plainDatabase (plainExplorer kind a) 1 kind a := by
  subst hkind
  rcases List.mem_pair.mp ha with rfl | rfl
  · refine ⟨by simp [plainExplorer], by simp [plainExplorer], by simp [plainExplorer], fun e he _ => ?_,
      fun entry hentry key hkey hblock txHash hverify => ?_⟩
    · obtain ⟨rfl, -⟩ := plainDatabase_occurs he
      exact ⟨⟨some ⟨1, 0, 8⟩, [1]⟩, by simp [plainExplorer], ⟨1, 0, 8⟩, rfl, rfl, rfl, by decide⟩
    · simp only [plainExplorer, and_self, if_true, List.mem_cons, List.not_mem_nil, or_false] at hentry
      rcases hentry with rfl | rfl | rfl
      · obtain rfl := Option.some.inj hkey
        exact absurd hblock (by decide)
      · obtain rfl := Option.some.inj hkey
        exact absurd hverify (by simp [verifyCanonicalActivity, plainDatabase, ofOption, require, Except.bind, Except.map])
      · obtain rfl := Option.some.inj hkey
        have hhash : verifyCanonicalActivity plainDatabase .regular ⟨1, 0, 8⟩ = .ok (some 7) := by decide
        obtain rfl := Option.some.inj (Except.ok.inj (hhash.symm.trans hverify))
        exact ⟨le_rfl, _, rfl, ⟨7, 8, some 1, 0, some 3⟩, 1, rfl, rfl, rfl, by decide⟩
  · refine ⟨by simp [plainExplorer], by simp [plainExplorer], by simp [plainExplorer], fun e he _ => ?_,
      by simp [plainExplorer]⟩
    exact absurd (plainDatabase_occurs he).2 (by decide)

/-- The transaction is on record for its sender, and the other candidate remains. -/
theorem plain_scans_agree : ∃ p q, scanBodies plainDatabase 1 1 [1, 2] = .ok p ∧
    scanExplorerDatabase plainDatabase plainExplorer 1 1 [1, 2] = .ok q ∧
    p.records.map (Option.map Activity.undetailed) = q.records.map (Option.map Activity.undetailed) ∧
    q.records = [some ⟨101, 1, 1, .regular, 7, 0, .sender⟩, none] := by
  obtain ⟨p, q, hp, hq, -, -, heq, -⟩ := scans_agree plainDatabase_complete (by decide) (by decide)
    (fun a ha kind hkind => plainExplorer_indexed ha (by cases kind with
      | regular => rfl
      | staking => exact absurd (hkind rfl) (by decide)))
  refine ⟨p, q, hp, hq, heq, ?_⟩
  have hscan : (scanExplorerDatabase plainDatabase plainExplorer 1 1 [1, 2]).toOption.map Progress.records =
      some [some ⟨101, 1, 1, .regular, 7, 0, .sender⟩, none] := by decide +kernel
  rw [hq] at hscan
  exact Option.some.inj hscan

end HarmonyMigration.ChainActivity
