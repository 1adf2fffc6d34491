import HarmonyMigration.Holders.ScanExact
import HarmonyMigration.Holders.Verify

/-! What a verification shows. The balances that it accepts are those of the chain, whatever was replayed and repaired
before, and a log that was repaired was in no balance before. -/

namespace HarmonyMigration.TokenHolders

open Erc20 Except Decimal

section Reads

variable {ε : Type}

/-- A node that answers `balanceOf` with the balances of the chain, where it answers. -/
def Tells (read : Address → Except ε ℤ) (B : Address →₀ ℕ) : Prop := ∀ a v, read a = .ok v → v = B a

variable {read : Address → Except ε ℤ} {B : Address →₀ ℕ} {l : List Address}

theorem Tells.mapM {values : List (Address × ℤ)} (hread : Tells read B)
    (h : l.mapM (fun a => (read a).map fun value => (a, value)) = .ok values) : values = l.map fun a => (a, (B a : ℤ)) := by
  have hpairs := forall₂_of_mapM_ok h
  clear h
  induction hpairs with
  | nil => rfl
  | cons hb _ ih =>
    obtain ⟨v, hv, rfl⟩ := of_map_ok hb
    rw [List.map_cons, ih, hread _ _ hv]

theorem sum_map_cast : (l.map fun a => (B a : ℤ)).sum = ((l.map B).sum : ℕ) := by
  induction l with
  | nil => rfl
  | cons a l ih => rw [List.map_cons, List.map_cons, List.sum_cons, List.sum_cons, ih, Nat.cast_add]

/-- No balance is negative, so accounts that hold the whole supply leave nothing to any other. -/
theorem eq_zero_of_sum (hl : l.Nodup) (h : (l.map B).sum = B.sum fun _ n => n) {a : Address} (ha : a ∉ l) : B a = 0 := by
  by_contra hne
  have hsub : l.toFinset ∩ B.support ⊆ B.support := Finset.inter_subset_right
  have hlist : (l.map B).sum = ∑ a ∈ l.toFinset ∩ B.support, B a := by
    rw [← List.sum_toFinset _ hl]
    refine (Finset.sum_subset Finset.inter_subset_left fun x hx hx' => ?_).symm
    by_contra h0
    exact hx' (Finset.mem_inter.mpr ⟨hx, Finsupp.mem_support_iff.mpr h0⟩)
  have hlt : ∑ a ∈ l.toFinset ∩ B.support, B a < ∑ a ∈ B.support, B a :=
    Finset.sum_lt_sum_of_subset hsub (Finsupp.mem_support_iff.mpr hne) (by simp [ha]) (Nat.pos_of_ne_zero hne)
      fun _ _ _ => Nat.zero_le _
  rw [hlist, Finsupp.sum] at h
  omega

theorem sum_eq_of_support (hl : l.Nodup) (h : ∀ a, B a ≠ 0 → a ∈ l) : (l.map B).sum = B.sum fun _ n => n := by
  rw [← List.sum_toFinset _ hl, Finsupp.sum]
  refine (Finset.sum_subset (fun a ha => ?_) fun a _ ha => ?_).symm
  · exact List.mem_toFinset.mpr (h a (Finsupp.mem_support_iff.mp ha))
  · exact Finsupp.notMem_support_iff.mp ha

/-- `balances[address] = onChain[address]` for all of the list. -/
theorem getD_foldl_values {d : Dict Address ℤ} (hl : l.Nodup) (a : Address) :
    ((l.map fun a => (a, (B a : ℤ))).foldl (fun b p => b.insert p.1 p.2) d).getD a 0 =
      if a ∈ l then (B a : ℤ) else d.getD a 0 := by
  induction l generalizing d with
  | nil => rfl
  | cons x l ih =>
    obtain ⟨hx, hl⟩ := List.nodup_cons.mp hl
    rw [List.map_cons, List.foldl_cons, ih hl, Dict.getD_insert]
    by_cases ha : a = x
    · subst ha
      simp [hx]
    · simp [ha]

end Reads

variable {ε : Type} {toLower : Text → Text} {token : Address} {start stop : ℕ} {opts : Options} {B : Address →₀ ℕ}

theorem mem_candidates {d : Dict Address ℤ} {a : Address} : a ∈ d.keys.insertionSort addressLe ↔ a ∈ d.keys :=
  List.mem_insertionSort _

theorem nodup_candidates (d : Dict Address ℤ) : (d.keys.insertionSort addressLe).Nodup :=
  (List.perm_insertionSort _ _).nodup_iff.mpr d.nodup

/-! ### A round -/

variable {totalSupply : ℤ} {left : ℕ} {nodes : ℕ → RoundNode ε} {s : Replay} {repaired : List RpcLog} {v : Verified}

theorem verifyAndRepair_of_sum {onChain : List (Address × ℤ)} (hread : readCandidates (nodes 0) s = .ok onChain)
    (hsum : (onChain.map Prod.snd).sum = totalSupply) :
    verifyAndRepair toLower token start stop opts totalSupply left nodes s repaired = .ok (accepted s onChain repaired) := by
  unfold verifyAndRepair
  rw [hread]
  exact if_pos hsum

/-- A round accepts the balances, ends with a problem, or repairs the first gap that it can and goes on. -/
theorem verifyAndRepair_cases (h : verifyAndRepair toLower token start stop opts totalSupply left nodes s repaired = .ok v) :
    ∃ onChain, readCandidates (nodes 0) s = .ok onChain ∧
      ((onChain.map Prod.snd).sum = totalSupply ∧ v = accepted s onChain repaired ∨
        (∃ problem, v = ⟨s, 0, repaired, [problem]⟩) ∨
        ∃ left' t, left = left' + 1 ∧
          repairFirst toLower token start stop (nodes 0) s ((gapsOf s onChain).insertionSort gapLe) = .ok (some t) ∧
          verifyAndRepair toLower token start stop opts totalSupply left' (fun n => nodes (n + 1)) t.1 (repaired ++ t.2) =
            .ok v) := by
  unfold verifyAndRepair at h
  obtain ⟨onChain, honChain, h⟩ := of_bind_ok h
  refine ⟨onChain, mapError_ok honChain, ?_⟩
  by_cases hsum : (onChain.map Prod.snd).sum = totalSupply
  · rw [if_pos hsum] at h
    exact .inl ⟨hsum, (Except.ok.inj h).symm⟩
  · rw [if_neg hsum] at h
    cases left with
    | zero => exact .inr (.inl ⟨_, (Except.ok.inj h).symm⟩)
    | succ left =>
      dsimp only at h
      by_cases hstop : opts.repair = false ∨ gapsOf s onChain = []
      · rw [if_pos hstop] at h
        exact .inr (.inl ⟨_, (Except.ok.inj h).symm⟩)
      · rw [if_neg hstop] at h
        obtain ⟨o, ho, h⟩ := of_bind_ok h
        cases o with
        | none => exact .inr (.inl ⟨_, (Except.ok.inj h).symm⟩)
        | some t => exact .inr (.inr ⟨left, t, rfl, ho, h⟩)

/-! ### Acceptance -/

/-- The balances that are accepted are all there are: they add up to the supply. -/
theorem accepted_balances {onChain : List (Address × ℤ)} (hread : Tells (nodes 0).balanceOf B)
    (h : readCandidates (nodes 0) s = .ok onChain) (hsum : (onChain.map Prod.snd).sum = ((B.sum fun _ n => n : ℕ) : ℤ))
    (a : Address) : (accepted s onChain repaired).state.balances.getD a 0 = B a := by
  obtain rfl := hread.mapM h
  rw [List.map_map] at hsum
  have hsupply : ((s.balances.keys.insertionSort addressLe).map B).sum = B.sum fun _ n => n := by
    rw [← Nat.cast_inj (R := ℤ), ← sum_map_cast]
    exact hsum
  change (List.foldl _ _ _ : Dict Address ℤ).getD a 0 = _
  rw [getD_foldl_values (nodup_candidates _)]
  split_ifs with ha
  · rfl
  · rw [eq_zero_of_sum (nodup_candidates _) hsupply ha, Dict.getD_of_notMem (mem_candidates.not.mp ha)]
    rfl

/-- A verification without issues has read the balance of every account, whatever its rounds have repaired. -/
theorem verifyAndRepair_accepts (hread : ∀ n, Tells (nodes n).balanceOf B)
    (h : verifyAndRepair toLower token start stop opts ((B.sum fun _ n => n : ℕ) : ℤ) left nodes s repaired = .ok v)
    (hv : v.issues = []) (a : Address) : v.state.balances.getD a 0 = B a := by
  induction left generalizing nodes s repaired with
  | zero =>
    obtain ⟨onChain, honChain, ⟨hsum, rfl⟩ | ⟨problem, rfl⟩ | ⟨left', t, hleft, -, -⟩⟩ := verifyAndRepair_cases h
    · exact accepted_balances (hread 0) honChain hsum a
    · cases hv
    · cases hleft
  | succ left ih =>
    obtain ⟨onChain, honChain, ⟨hsum, rfl⟩ | ⟨problem, rfl⟩ | ⟨left', t, hleft, -, hrest⟩⟩ := verifyAndRepair_cases h
    · exact accepted_balances (hread 0) honChain hsum a
    · cases hv
    · obtain rfl := Nat.succ.inj hleft
      exact ih (fun n => hread (n + 1)) hrest

/-! ### The table of holders -/

theorem mem_holdersOf {d : Dict Address ℤ} {a : Address} :
    a ∈ holdersOf d ↔ 0 < d.getD a 0 := by
  rw [holdersOf, List.mem_insertionSort, List.mem_map]
  constructor
  · rintro ⟨p, hp, rfl⟩
    obtain ⟨hmem, hpos⟩ := List.mem_filter.mp hp
    rw [Dict.getD_of_mem hmem]
    exact of_decide_eq_true hpos
  · intro hpos
    cases hget : d.get? a with
    | none =>
      rw [Dict.getD, hget] at hpos
      exact absurd hpos (lt_irrefl 0)
    | some n =>
      have hmem := Dict.get?_eq_some_iff.mp hget
      rw [Dict.getD_of_mem hmem] at hpos
      exact ⟨(a, n), List.mem_filter.mpr ⟨hmem, decide_eq_true hpos⟩, rfl⟩

theorem pairwise_holdersOf (d : Dict Address ℤ) :
    (holdersOf d).Pairwise fun a b => a.toNat < b.toNat := by
  have hnd : (holdersOf d).Nodup :=
    (List.perm_insertionSort _ _).nodup_iff.mpr (d.nodup.sublist (List.filter_sublist.map Prod.fst))
  have htotal : Std.Total addressLe := ⟨fun a b => Nat.le_total a.toNat b.toNat⟩
  have htrans : IsTrans Address addressLe := ⟨fun _ _ _ => Nat.le_trans⟩
  refine ((List.pairwise_insertionSort addressLe _).and hnd).imp fun {a b} hab => ?_
  exact lt_of_le_of_ne hab.1 fun he => hab.2 (address_toNat_injective he)

variable {hash : Address → ℕ} {spot : Address → Except ε ℤ} {supply : Except ε ℤ} {problems : List Problem} {out : Output}

/-- Where every address is read, a `finalize` that writes is the verification and its table. -/
theorem finalize_ok (hall : opts.verifyAll = true)
    (h : finalize toLower hash token start stop opts supply nodes spot s = .ok (problems, some out)) :
    ∃ totalSupply v, supply = .ok totalSupply ∧
      verifyAndRepair toLower token start stop opts totalSupply opts.repairRounds nodes s [] = .ok v ∧
      out = outputOf opts v totalSupply [] := by
  unfold finalize at h
  obtain ⟨totalSupply, hsupply, h⟩ := of_bind_ok h
  obtain ⟨v, hv, h⟩ := of_bind_ok h
  rw [if_pos hall] at hv
  obtain ⟨checks, hchecks, h⟩ := of_bind_ok h
  rw [if_pos hall] at hchecks
  obtain rfl : [] = checks := Except.ok.inj hchecks
  refine ⟨totalSupply, v, mapError_ok hsupply, hv, ?_⟩
  by_cases hp : problemsOf v totalSupply [] ≠ [] ∧ opts.allowMismatch = false
  · rw [if_pos hp] at h
    cases h
  · rw [if_neg hp] at h
    exact (Option.some.inj (Prod.mk.inj (Except.ok.inj h)).2).symm

theorem issues_of_passed {totalSupply : ℤ} {checks : List (Address × ℤ × ℤ)}
    (h : (outputOf opts v totalSupply checks).passed = true) : v.issues = [] := by
  have hnil := List.append_eq_nil_iff.mp (of_decide_eq_true h)
  exact (List.append_eq_nil_iff.mp (List.append_eq_nil_iff.mp hnil.1).1).1

/-- The rows of a table that passed are the accounts of the chain. -/
theorem mem_rows (hall : opts.verifyAll = true) (hread : ∀ n, Tells (nodes n).balanceOf B)
    (hsupply : supply = .ok ((B.sum fun _ n => n : ℕ) : ℤ))
    (h : finalize toLower hash token start stop opts supply nodes spot s = .ok (problems, some out))
    (hp : out.passed = true) (a : Address) (n : ℤ) : (a, n) ∈ out.rows ↔ n = B a ∧ 0 < B a := by
  obtain ⟨totalSupply, v, hs, hv, rfl⟩ := finalize_ok hall h
  obtain rfl := Except.ok.inj (hsupply.symm.trans hs)
  have hbalance := verifyAndRepair_accepts hread hv (issues_of_passed hp)
  change (a, n) ∈ (holdersOf _).map _ ↔ _
  rw [List.mem_map]
  constructor
  · rintro ⟨x, hx, he⟩
    obtain ⟨rfl, rfl⟩ := Prod.mk.inj he
    rw [mem_holdersOf, hbalance] at hx
    exact ⟨hbalance x, by omega⟩
  · rintro ⟨rfl, hpos⟩
    refine ⟨a, mem_holdersOf.mpr ?_, by rw [hbalance]⟩
    rw [hbalance]
    omega

theorem pairwise_rows (hall : opts.verifyAll = true)
    (h : finalize toLower hash token start stop opts supply nodes spot s = .ok (problems, some out)) :
    out.rows.Pairwise fun p q => p.1.toNat < q.1.toNat := by
  obtain ⟨totalSupply, v, -, -, rfl⟩ := finalize_ok hall h
  change ((holdersOf _).map _).Pairwise _
  rw [List.pairwise_map]
  exact pairwise_holdersOf _

/-- A table that passed lists, in the order of their addresses, exactly the accounts that hold the token at the block, each
with its balance: whatever was replayed, missed or repaired before, since balances that are never negative and add up to
the supply leave nothing to anyone else. -/
theorem finalize_exact (hall : opts.verifyAll = true) (hread : ∀ n, Tells (nodes n).balanceOf B)
    (hsupply : supply = .ok ((B.sum fun _ n => n : ℕ) : ℤ))
    (h : finalize toLower hash token start stop opts supply nodes spot s = .ok (problems, some out))
    (hp : out.passed = true) :
    (∀ a n, (a, n) ∈ out.rows ↔ n = B a ∧ 0 < B a) ∧ (out.rows.Pairwise fun p q => p.1.toNat < q.1.toNat) ∧
      out.holderCount = B.support.card ∧ out.verifiedHolders = B.support.card := by
  have hmem := mem_rows hall hread hsupply h hp
  have hpair := pairwise_rows hall h
  obtain ⟨totalSupply, v, -, -, rfl⟩ := finalize_ok hall h
  set out := outputOf opts v totalSupply []
  have hlength : out.rows.length = B.support.card := by
    have hnd : (out.rows.map Prod.fst).Nodup := by
      rw [List.Nodup, List.pairwise_map]
      exact hpair.imp fun hlt he => absurd (congrArg BitVec.toNat he) (Nat.ne_of_lt hlt)
    have hset : (out.rows.map Prod.fst).toFinset = B.support := by
      ext a
      rw [List.mem_toFinset, List.mem_map, Finsupp.mem_support_iff]
      constructor
      · rintro ⟨p, hp, rfl⟩
        exact Nat.pos_iff_ne_zero.mp ((hmem p.1 p.2).mp hp).2
      · exact fun hne => ⟨(a, B a), (hmem a (B a)).mpr ⟨rfl, Nat.pos_of_ne_zero hne⟩, rfl⟩
    rw [← List.length_map (f := Prod.fst), ← List.toFinset_card_of_nodup hnd, hset]
  have hcount : (holdersOf v.state.balances).length = B.support.card := (List.length_map _).symm.trans hlength
  exact ⟨hmem, hpair, hcount, (if_pos ⟨hall, issues_of_passed hp⟩).trans hcount⟩

section Mint

/-- Account 2 holds all of token 1. -/
def readMint (a : Address) : Except Unit ℤ := .ok (if a = 2 then 7 else 0)

theorem readMint_eq (a : Address) : readMint a = .ok (Finsupp.single (2 : Address) 7 a : ℕ) := by
  rw [Finsupp.single_apply, readMint]
  by_cases ha : a = 2
  · rw [if_pos ha, if_pos ha.symm]
    rfl
  · rw [if_neg ha, if_neg (Ne.symm ha)]
    rfl

theorem tells_mint : Tells readMint (Finsupp.single (2 : Address) 7) := fun a _ hv =>
  (Except.ok.inj ((readMint_eq a).symm.trans hv)).symm

theorem sum_mint : (((Finsupp.single (2 : Address) 7).sum fun _ n => n : ℕ) : ℤ) = 7 := by
  rw [Finsupp.sum_single_index rfl]
  rfl

/-- A node whose filtered queries leave out what its query of a block has. -/
def mintNode : RoundNode Unit where
  balanceOf := readMint
  repair _ :=
    { own := .ok []
      balanceAt := fun block => .ok (if 5 ≤ block then 7 else 0)
      blockLogs := fun block => .ok (if block = 5 then [mintLog, mintLog] else []) }

def mintOptions : Options := ⟨0, 0, true, true, 1, false⟩

/-- Five of seven units were replayed. -/
theorem finalize_exact_mint : ∃ out, finalize id (fun _ => 0) 1 5 6 mintOptions (.ok 7) (fun _ => mintNode) readMint
      ⟨.ofList [(2, 5)], ∅⟩ = .ok ([], some out) ∧ ∀ a n, (a, n) ∈ out.rows ↔
      n = (Finsupp.single (2 : Address) 7 a : ℕ) ∧ 0 < Finsupp.single (2 : Address) 7 a := by
  obtain ⟨out, hout, hp⟩ : ∃ out, finalize id (fun _ => 0) 1 5 6 mintOptions (.ok 7) (fun _ => mintNode) readMint
      ⟨.ofList [(2, 5)], ∅⟩ = .ok ([], some out) ∧ out.passed = true := ⟨_, rfl, rfl⟩
  exact ⟨out, hout, (finalize_exact rfl (fun n => tells_mint) (congrArg Except.ok sum_mint.symm) hout hp).1⟩

end Mint

/-! ### Repairs -/

variable (toLower token) in
/-- The balances and keys of one token are those of a set of its logs, each taken once. -/
structure Holds (logs : Finset RpcLog) (s : Replay) : Prop where
  seen : s.seen = logs.image (logKey toLower)
  balance : ∀ account, s.balances.getD account 0 = ∑ log ∈ logs, delta account log
  token : ∀ log ∈ logs, tokenOf log = some token

theorem Holds.replayed {logs : Finset RpcLog} (hs : Holds toLower token logs s) :
    Replayed toLower logs (.ofList [(token, s.balances)], .ofList [(token, s.seen)]) := by
  have hfilter (token' : Address) :
      logs.filter (fun log => tokenOf log = some token') = if token' = token then logs else ∅ := by
    split_ifs with he
    · subst he
      exact Finset.filter_true_of_mem hs.token
    · refine Finset.filter_false_of_mem fun log hlog heq => he ?_
      exact Option.some.inj (heq.symm.trans (hs.token log hlog))
  constructor
  · intro token'
    change (Dict.empty.insert token s.seen).getD token' ∅ = _
    rw [hfilter, Dict.getD_insert]
    split_ifs
    · exact hs.seen
    · rfl
  · intro token' account
    change ((Dict.empty.insert token s.balances).getD token' .empty).getD account 0 = _
    rw [hfilter, Dict.getD_insert]
    split_ifs
    · exact hs.balance account
    · rfl

/-- The logs of a run of repairs: they were not there before, and there is none twice. -/
structure Repaired (U logs : Finset RpcLog) (new : List RpcLog) : Prop where
  nodup : new.Nodup
  notMem : ∀ log ∈ new, log ∉ logs
  mem : ∀ log ∈ new, log ∈ U

theorem Repaired.nil {U logs : Finset RpcLog} : Repaired U logs [] := ⟨List.nodup_nil, by simp, by simp⟩

theorem Repaired.append {U logs : Finset RpcLog} {new new' : List RpcLog} (h : Repaired U logs new)
    (h' : Repaired U (logs ∪ new.toFinset) new') : Repaired U logs (new ++ new') where
  nodup := List.nodup_append.mpr ⟨h.nodup, h'.nodup, by
    rintro log hlog log' hlog' rfl
    exact h'.notMem log hlog' (Finset.mem_union_right _ (List.mem_toFinset.mpr hlog))⟩
  notMem log hlog hmem := by
    rcases List.mem_append.mp hlog with hlog | hlog
    · exact h.notMem log hlog hmem
    · exact h'.notMem log hlog (Finset.mem_union_left _ hmem)
  mem log hlog := (List.mem_append.mp hlog).elim (h.mem log) (h'.mem log)

variable {U logs : Finset RpcLog}

theorem applyOne_holds {log : RpcLog} {t : Replay} (hU : Set.InjOn (logKey toLower) (↑U : Set RpcLog)) (hlogs : logs ⊆ U)
    (hlog : log ∈ U) (hs : Holds toLower token logs s) (h : applyOne toLower token s log = .ok t) :
    Holds toLower token (insert log logs) t := by
  obtain ⟨r, hr, rfl⟩ := of_map_ok h
  obtain ⟨token', htoken, hmem, -⟩ := applyLog_ok hr
  obtain rfl := List.mem_singleton.mp hmem
  have hnext := replayed_applyLog (fun log' hlog' heq => hU (hlogs hlog') hlog heq) hs.replayed hr
  have htoken' : ∀ log' ∈ insert log logs, tokenOf log' = some token' := fun log' hlog' =>
    (Finset.mem_insert.mp hlog').elim (fun he => he ▸ htoken) (hs.token log')
  have hall := Finset.filter_true_of_mem htoken'
  refine ⟨?_, fun account => ?_, htoken'⟩
  · have hkeys := hnext.keysOf token'
    rwa [hall] at hkeys
  · have hbalance := hnext.balance token' account
    rwa [hall] at hbalance

theorem applyMissed_holds {list : List RpcLog} {found : List RpcLog} {t : Replay × List RpcLog}
    (hU : Set.InjOn (logKey toLower) (↑U : Set RpcLog)) (hlogs : logs ⊆ U) (hlist : ∀ log ∈ list, log ∈ U)
    (hs : Holds toLower token logs s) (h : list.foldlM (applyMissed toLower token) (s, found) = .ok t) :
    ∃ new, t.2 = found ++ new ∧ Repaired U logs new ∧ Holds toLower token (logs ∪ new.toFinset) t.1 := by
  induction list generalizing logs s found with
  | nil =>
    obtain rfl := Except.ok.inj h
    exact ⟨[], by simp, .nil, by simpa using hs⟩
  | cons log list ih =>
    obtain ⟨u, hu, h⟩ := foldlM_cons_ok h
    have hlog := hlist log List.mem_cons_self
    unfold applyMissed at hu
    split_ifs at hu with hseen
    · obtain rfl := Except.ok.inj hu
      exact ih hlogs (fun log' hlog' => hlist log' (List.mem_cons_of_mem _ hlog')) hs h
    · obtain ⟨s', hs', rfl⟩ := of_map_ok hu
      have hholds := applyOne_holds hU hlogs hlog hs hs'
      have hnew : log ∉ logs := fun hmem => hseen (hs.seen ▸ Finset.mem_image_of_mem _ hmem)
      obtain ⟨new, ht, hnew', hend⟩ := ih (Finset.insert_subset hlog hlogs)
        (fun log' hlog' => hlist log' (List.mem_cons_of_mem _ hlog')) hholds h
      have hset : insert log logs = logs ∪ [log].toFinset := by
        rw [List.toFinset_cons, List.toFinset_nil, Finset.insert_empty, Finset.union_comm]
        rfl
      have hone : Repaired U logs [log] := ⟨List.nodup_singleton _, by simpa using hnew, by simpa using hlog⟩
      refine ⟨log :: new, by rw [ht, List.append_assoc]; rfl, hone.append (hset ▸ hnew'), ?_⟩
      rw [hset, Finset.union_assoc, ← List.toFinset_append] at hend
      exact hend

/-- All that the node tells while one address is repaired. -/
def RepairNode.Within (node : RepairNode ε) (U : Finset RpcLog) : Prop :=
  (∀ list, node.own = .ok list → ∀ log ∈ list, log ∈ U) ∧
    ∀ block list, node.blockLogs block = .ok list → ∀ log ∈ list, log ∈ U

theorem repairAddress_holds {address : Address} {node : RepairNode ε} {t : Replay × List RpcLog}
    (hU : Set.InjOn (logKey toLower) (↑U : Set RpcLog)) (hlogs : logs ⊆ U) (hnode : node.Within U)
    (hs : Holds toLower token logs s) (h : repairAddress toLower token address start stop node s = .ok t) :
    Repaired U logs t.2 ∧ Holds toLower token (logs ∪ t.2.toFinset) t.1 := by
  unfold repairAddress at h
  obtain ⟨own, hown, h⟩ := of_bind_ok h
  obtain ⟨u, hu, h⟩ := of_bind_ok h
  obtain ⟨new, hnew, hrepaired, hholds⟩ := applyMissed_holds hU hlogs (hnode.1 own hown) hs (mapError_ok hu)
  rw [List.nil_append] at hnew
  subst hnew
  by_cases hne : u.2 ≠ []
  · rw [if_pos hne] at h
    obtain rfl := Except.ok.inj h
    exact ⟨hrepaired, hholds⟩
  · rw [if_neg hne] at h
    obtain ⟨changes, -, h⟩ := of_bind_ok h
    obtain ⟨first, -, h⟩ := of_bind_ok h
    obtain ⟨high, -, h⟩ := of_bind_ok h
    obtain ⟨list, hlist, h⟩ := of_bind_ok h
    rw [not_not.mp hne, List.toFinset_nil, Finset.union_empty] at hholds
    obtain ⟨new, hnew, hrest⟩ := applyMissed_holds hU hlogs (hnode.2 high list hlist) hholds (mapError_ok h)
    rw [List.nil_append] at hnew
    exact hnew ▸ hrest

theorem repairFirst_holds {gaps : List (Address × ℕ)} {node : RoundNode ε} {t : Replay × List RpcLog}
    (hU : Set.InjOn (logKey toLower) (↑U : Set RpcLog)) (hlogs : logs ⊆ U) (hnode : ∀ a, (node.repair a).Within U)
    (hs : Holds toLower token logs s) (h : repairFirst toLower token start stop node s gaps = .ok (some t)) :
    t.2 ≠ [] ∧ Repaired U logs t.2 ∧ Holds toLower token (logs ∪ t.2.toFinset) t.1 := by
  induction gaps generalizing s with
  | nil => cases h
  | cons gap gaps ih =>
    rw [repairFirst] at h
    obtain ⟨u, hu, h⟩ := of_bind_ok h
    have hrepair := repairAddress_holds hU hlogs (hnode gap.1) hs hu
    by_cases hne : u.2 ≠ []
    · rw [if_pos hne] at h
      obtain rfl := Option.some.inj (Except.ok.inj h)
      exact ⟨hne, hrepair⟩
    · rw [if_neg hne] at h
      rw [not_not.mp hne, List.toFinset_nil, Finset.union_empty] at hrepair
      exact ih hrepair.2 h

section Divergence

variable {differs : ℕ → Except ε Bool} {low high b : ℕ}

theorem firstDivergence_of_true (hgap : 1 < high - low) (hd : differs (low + (high - low) / 2) = .ok true) :
    firstDivergence differs low high = firstDivergence differs low (low + (high - low) / 2) := by
  conv_lhs => rw [firstDivergence, if_pos hgap, hd]
  rfl

theorem firstDivergence_of_false (hgap : 1 < high - low) (hd : differs (low + (high - low) / 2) = .ok false) :
    firstDivergence differs low high = firstDivergence differs (low + (high - low) / 2) high := by
  conv_lhs => rw [firstDivergence, if_pos hgap, hd]
  rfl

theorem firstDivergence_of_not_lt (hgap : ¬1 < high - low) : firstDivergence differs low high = .ok high := by
  rw [firstDivergence, if_neg hgap]

theorem firstDivergence_spec (hlow : differs low = .ok false) (hlt : low < high)
    (h : firstDivergence differs low high = .ok b) :
    (low < b ∧ b ≤ high) ∧ differs (b - 1) = .ok false ∧ (b = high ∨ differs b = .ok true) := by
  induction low, high using firstDivergence.induct with
  | case1 low high hgap ihleft ihright =>
    have hmiddle : low < low + (high - low) / 2 ∧ low + (high - low) / 2 < high := by omega
    cases hd : differs (low + (high - low) / 2) with
    | error e =>
      rw [firstDivergence, if_pos hgap, hd] at h
      cases h
    | ok d =>
      cases d with
      | true =>
        rw [firstDivergence_of_true hgap hd] at h
        obtain ⟨hb, hbefore, hat⟩ := ihleft hlow hmiddle.1 h
        exact ⟨⟨hb.1, by omega⟩, hbefore, .inr (hat.elim (fun he => he ▸ hd) id)⟩
      | false =>
        rw [firstDivergence_of_false hgap hd] at h
        obtain ⟨hb, hbefore, hat⟩ := ihright hd hmiddle.2 h
        exact ⟨⟨by omega, hb.2⟩, hbefore, hat⟩
  | case2 low high hgap =>
    obtain rfl := Except.ok.inj ((firstDivergence_of_not_lt hgap).symm.trans h)
    have hnext : high - 1 = low := by omega
    exact ⟨⟨hlt, le_rfl⟩, hnext ▸ hlow, .inl rfl⟩

end Divergence

/-- The block in which a balance leaves its replay. -/
def Departs (balance replay : ℕ → ℤ) (start b : ℕ) : Prop :=
  (b = start ∨ start < b ∧ balance (b - 1) = replay (b - 1)) ∧ balance b ≠ replay b

theorem applyMissed_known {list : List RpcLog} (hknown : ∀ log ∈ list, logKey toLower log ∈ s.seen) :
    list.foldlM (applyMissed toLower token) (s, []) = .ok (s, []) := by
  induction list with
  | nil => rfl
  | cons log list ih =>
    have hskip : applyMissed toLower token (s, []) log = .ok (s, []) := if_pos (hknown log List.mem_cons_self)
    rw [List.foldlM_cons, hskip]
    exact ih fun log' hlog' => hknown log' (List.mem_cons_of_mem _ hlog')

theorem applyMissed_mem {list : List RpcLog} {u t : Replay × List RpcLog}
    (h : list.foldlM (applyMissed toLower token) u = .ok t) {log : RpcLog} (hlog : log ∈ t.2) : log ∈ u.2 ∨ log ∈ list := by
  induction list generalizing u with
  | nil =>
    obtain rfl := Except.ok.inj h
    exact .inl hlog
  | cons log' list ih =>
    obtain ⟨w, hw, h⟩ := foldlM_cons_ok h
    have hstep : log ∈ w.2 → log ∈ u.2 ∨ log = log' := by
      unfold applyMissed at hw
      split_ifs at hw
      · obtain rfl := Except.ok.inj hw
        exact .inl
      · obtain ⟨s', -, rfl⟩ := of_map_ok hw
        simp
    rcases ih h with hw' | hlist
    · rcases hstep hw' with hu | rfl
      · exact .inl hu
      · exact .inr List.mem_cons_self
    · exact .inr (List.mem_cons_of_mem _ hlist)

/-- Balances that are those of the chain are accepted in the first round, and nothing is repaired. -/
theorem finalize_of_balances (hall : opts.verifyAll = true) (hs : ∀ a, s.balances.getD a 0 = B a)
    (hread : ∀ a, (nodes 0).balanceOf a = .ok (B a)) (hsupply : supply = .ok ((B.sum fun _ n => n : ℕ) : ℤ)) :
    ∃ out, finalize toLower hash token start stop opts supply nodes spot s = .ok ([], some out) ∧ out.passed = true ∧
      out.replayMismatches = 0 ∧ out.repairedLogs = [] := by
  set onChain := (s.balances.keys.insertionSort addressLe).map fun a => (a, (B a : ℤ))
  have honChain : readCandidates (nodes 0) s = .ok onChain := by
    refine mapM_ok_of_forall fun a _ => ?_
    rw [hread]
    rfl
  have hkeys : ∀ a, B a ≠ 0 → a ∈ s.balances.keys.insertionSort addressLe := by
    intro a ha
    rw [mem_candidates]
    by_contra hmem
    have hzero := hs a
    rw [Dict.getD_of_notMem hmem] at hzero
    exact ha (by exact_mod_cast hzero.symm)
  have hsum : (onChain.map Prod.snd).sum = ((B.sum fun _ n => n : ℕ) : ℤ) := by
    rw [List.map_map]
    exact sum_map_cast.trans (congrArg _ (sum_eq_of_support (nodup_candidates _) hkeys))
  have hv : verifyAndRepair toLower token start stop opts ((B.sum fun _ n => n : ℕ) : ℤ) opts.repairRounds nodes s [] =
      .ok (accepted s onChain []) := verifyAndRepair_of_sum honChain hsum
  set v := accepted s onChain []
  have hbalance : ∀ a, v.state.balances.getD a 0 = B a :=
    accepted_balances (fun a n hn => (Except.ok.inj ((hread a).symm.trans hn)).symm) honChain hsum
  have hgaps : gapsOf s onChain = [] := by
    refine List.filter_eq_nil_iff.mpr fun p hp => ?_
    obtain ⟨q, hq, rfl⟩ := List.mem_map.mp hp
    obtain ⟨a, -, rfl⟩ := List.mem_map.mp hq
    simp [hs]
  have htotal : holderTotal v.state.balances = ((B.sum fun _ n => n : ℕ) : ℤ) := by
    have hnd : (holdersOf v.state.balances).Nodup :=
      (pairwise_holdersOf _).imp fun hlt he => absurd (congrArg BitVec.toNat he) (Nat.ne_of_lt hlt)
    have hmem : ∀ a, B a ≠ 0 → a ∈ holdersOf v.state.balances := fun a ha => by
      rw [mem_holdersOf, hbalance]
      omega
    unfold holderTotal
    simp only [hbalance]
    exact sum_map_cast.trans (congrArg _ (sum_eq_of_support hnd hmem))
  have hproblems : problemsOf v ((B.sum fun _ n => n : ℕ) : ℤ) [] = [] := by
    have hnegative : v.state.balances.entries.filter (fun p => p.2 < 0) = [] := by
      refine List.filter_eq_nil_iff.mpr fun p hp => ?_
      have hval := hbalance p.1
      rw [Dict.getD_of_mem hp] at hval
      simp [hval]
    unfold problemsOf
    rw [hnegative, htotal, sub_self]
    rfl
  refine ⟨outputOf opts v ((B.sum fun _ n => n : ℕ) : ℤ) [], ?_, decide_eq_true hproblems, ?_, rfl⟩
  · unfold finalize
    rw [hsupply]
    change Except.bind (if opts.verifyAll then _ else _) _ = _
    rw [if_pos hall, hv, bind_ok_left]
    generalize ((B.sum fun _ n => n : ℕ) : ℤ) = total at hproblems
    simp [hall, hproblems, pure, Except.pure, Except.mapError, Except.bind]
  · exact congrArg List.length hgaps

/-- The balances and keys of one token, out of a scan. -/
def replayOf (r : BalanceSet × SeenSet) (token : Address) : Replay := ⟨r.1.getD token .empty, r.2.keysOf token⟩

end HarmonyMigration.TokenHolders
