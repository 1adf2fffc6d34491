import HarmonyMigration.Routing.Conservation

/-! The exceptions of a run: what they say about a source that is never implicit. -/

namespace HarmonyMigration.Routing

open Erc20 Except Claims

variable {K : Keys} {i : Input} {l : Loaded} {c : Compiled} {o : Output}

theorem mem_routingExceptions {e : ExceptionRow} : e ∈ routingExceptions c ↔
    (∃ r ∈ c.walletRows, r.delivery.exceptionType ≠ .blank ∧ r.exception = e) ∨
      ∃ r ∈ c.shareRows, r.delivery.exceptionType ≠ .blank ∧ r.exception = e := by
  simp only [routingExceptions, exceptionsOf, List.mem_insertionSort, List.mem_append, List.mem_map, List.mem_filter,
    decide_eq_true_iff, and_assoc]

/-- A sum over the exceptions is one over the rows behind them. -/
theorem sum_exceptions (c : Compiled) (P : ExceptionRow → Bool) :
    (((routingExceptions c).filter P).map ExceptionRow.amount).sum =
      ((c.walletRows.filter fun r => r.delivery.exceptionType ≠ .blank ∧ P r.exception).map WalletRow.amount).sum +
        ((c.shareRows.filter fun r => r.delivery.exceptionType ≠ .blank ∧ P r.exception).map CompiledShare.amount).sum := by
  have hperm := List.perm_insertionSort (fun a b : ExceptionRow => a.order ≤ b.order) (exceptionsOf c)
  rw [routingExceptions, ((hperm.filter P).map ExceptionRow.amount).sum_eq, exceptionsOf, List.filter_append,
    List.map_append, List.sum_append, List.filter_map, List.filter_map, List.map_map, List.map_map,
    List.filter_filter, List.filter_filter]
  congr 2 <;> congr 1 <;> refine List.filter_congr fun r _ => ?_ <;> simp [Bool.and_comm]

/-- Only an automatic claim has an implicit delivery. -/
theorem Delivered.not_blank {path : String} {s : Source} {routes : List Route} {d : Delivery}
    (h : Delivered path s routes d) (hs : s.category ≠ .automatic) : d.exceptionType ≠ .blank := by
  rcases h with ⟨r, -, t, -, rfl⟩ | rfl
  · simp [Route.delivery]
  · unfold defaultDelivery
    dsimp only
    split_ifs <;> simp

theorem ofRoute_not_blank {d : Delivery} {id : String} (h : d.ofRoute id = true) : d.exceptionType ≠ .blank := by
  simp only [Delivery.ofRoute, decide_eq_true_iff] at h
  rw [h.1]
  simp

/-- What a route contributes stands in the exceptions. -/
theorem sum_exceptions_ofRoute (c : Compiled) (id : String) :
    (((routingExceptions c).filter fun e => e.delivery.ofRoute id).map ExceptionRow.amount).sum =
      contributed c.walletRows c.shareRows id := by
  have hroute : ∀ d : Delivery, decide (d.exceptionType ≠ .blank ∧ d.ofRoute id = true) = d.ofRoute id := fun d => by
    rw [Bool.eq_iff_iff, decide_eq_true_iff]
    exact and_iff_right_of_imp fun h => ofRoute_not_blank h
  rw [sum_exceptions, contributed]
  congr 2 <;> congr 1
  · exact List.filter_congr fun r _ => hroute r.delivery
  · exact List.filter_congr fun r _ => hroute r.delivery

namespace CompileRun

theorem wallet_delivered (r : CompileRun K i l c) {row : WalletRow} (h : row ∈ c.walletRows) :
    ∃ s ∈ l.sources.values, PaidBy s row ∧ Delivered i.validatorPath s (routesOf l.routes s.address) row.delivery := by
  obtain ⟨s, hs, rows, hbody, hrow⟩ := r.walletRow_source h
  have hown := r.sourceRows hbody
  exact ⟨s, hs, hown.walletRow row hrow, hown.walletDelivery row hrow⟩

theorem share_delivered (r : CompileRun K i l c) {row : CompiledShare} (h : row ∈ c.shareRows) :
    ∃ s ∈ l.sources.values, row.delegatorAddress = s.address ∧ row.sourceCodeBearing = s.codeBearing ∧
      Delivered i.validatorPath s (routesOf l.routes s.address) row.delivery := by
  obtain ⟨s, hs, rows, hbody, hrow⟩ := r.shareRow_source h
  have hown := r.sourceRows hbody
  have hcut := (hown.shareRow row hrow).2
  refine ⟨s, hs, (r.delegator_of_cutFrom hcut).1, ?_, hown.shareDelivery row hrow⟩
  obtain ⟨p, hp, -, -, -, -, -, hcode⟩ := hcut
  obtain ⟨hp, ha⟩ := (LoadRun.mem_positionsOf _ _ _).mp hp
  obtain ⟨-, -, -, s', hs', -, hcode'⟩ := r.load.position_ok hp
  have heq : s' = s := by
    have h1 := Dict.get?_eq_some_iff.mpr hs'
    rw [ha, Dict.get?_eq_some_iff.mpr (r.load.mem_values hs)] at h1
    exact (Option.some.inj h1).symm
  rw [hcode, hcode', heq]

theorem source_eq (r : CompileRun K i l c) {s s' : Source} (h : s ∈ l.sources.values) (h' : s' ∈ l.sources.values)
    (heq : s.address = s'.address) : s = s' := by
  have h1 := Dict.get?_eq_some_iff.mpr (r.load.mem_values h)
  rw [heq, Dict.get?_eq_some_iff.mpr (r.load.mem_values h')] at h1
  exact (Option.some.inj h1).symm

/-- An exception carries the code flag of its source. -/
theorem exception_code (r : CompileRun K i l c) {s : Source} (h : s ∈ l.sources.values) {e : ExceptionRow}
    (he : e ∈ routingExceptions c) (ha : e.sourceAddress = s.address) : e.sourceCodeBearing = s.codeBearing := by
  rcases mem_routingExceptions.mp he with ⟨row, hrow, -, rfl⟩ | ⟨row, hrow, -, rfl⟩
  · obtain ⟨s', hs', hpaid, -⟩ := r.wallet_delivered hrow
    rw [← r.source_eq hs' h (hpaid.2.1.symm.trans ha)]
    exact hpaid.2.2.2
  · obtain ⟨s', hs', haddress, hcode, -⟩ := r.share_delivered hrow
    rw [← r.source_eq hs' h (haddress.symm.trans ha)]
    exact hcode

/-- The wallet of a source that is never implicit, from the exceptions. -/
theorem exceptions_wallet (r : CompileRun K i l c) {s : Source} (h : s ∈ l.sources.values)
    (hcat : s.category ≠ .automatic) :
    (((routingExceptions c).filter fun e => e.component = .walletAirdrop ∧ e.sourceAddress = s.address).map
      ExceptionRow.amount).sum = s.wallet := by
  have hwallet : (c.walletRows.filter fun row => row.delivery.exceptionType ≠ .blank ∧
      decide (row.exception.component = .walletAirdrop ∧ row.exception.sourceAddress = s.address) = true) =
        c.walletRows.filter fun row => row.sourceAddress = s.address := by
    refine List.filter_congr fun row hrow => decide_eq_decide.mpr ?_
    rw [decide_eq_true_iff]
    refine ⟨fun hp => hp.2.2, fun ha => ⟨?_, rfl, ha⟩⟩
    obtain ⟨s', hs', hpaid, hd⟩ := r.wallet_delivered hrow
    rw [r.source_eq hs' h (hpaid.2.1.symm.trans ha)] at hd
    exact hd.not_blank hcat
  have hshares : (c.shareRows.filter fun row => row.delivery.exceptionType ≠ .blank ∧
      decide (row.exception.component = .walletAirdrop ∧ row.exception.sourceAddress = s.address) = true) = [] :=
    List.filter_eq_nil_iff.mpr fun row _ => by simp [CompiledShare.exception]
  rw [sum_exceptions, hwallet, hshares, r.wallet_conserved h]
  simp

theorem shares_of_source (r : CompileRun K i l c) {s : Source} (h : s ∈ l.sources.values) :
    ((c.shareRows.filter fun row => row.delegatorAddress = s.address).map CompiledShare.amount).sum = s.staked := by
  obtain ⟨rows, hbody⟩ := r.body_ok h
  have hown := r.sourceRows hbody
  have hperm := r.filter_shareRows h hbody (P := fun row => row.delegatorAddress = s.address)
    fun s' hs' rows' hbody' hne => List.filter_eq_nil_iff.mpr fun row hrow => by
      rw [(r.delegator_of_cutFrom ((r.sourceRows hbody').shareRow row hrow).2).1]
      simpa using hne
  have hself : rows.2.filter (fun row => row.delegatorAddress = s.address) = rows.2 :=
    List.filter_eq_self.mpr fun row hrow => by
      simpa using (r.delegator_of_cutFrom (hown.shareRow row hrow).2).1
  rw [(hperm.map CompiledShare.amount).sum_eq, hself, hown.staked, r.load.staked_ok s h]

theorem exceptions_staked (r : CompileRun K i l c) {s : Source} (h : s ∈ l.sources.values)
    (hcat : s.category ≠ .automatic) :
    (((routingExceptions c).filter fun e => e.component = .vaultShares ∧ e.sourceAddress = s.address).map
      ExceptionRow.amount).sum = s.staked := by
  have hshares : (c.shareRows.filter fun row => row.delivery.exceptionType ≠ .blank ∧
      decide (row.exception.component = .vaultShares ∧ row.exception.sourceAddress = s.address) = true) =
        c.shareRows.filter fun row => row.delegatorAddress = s.address := by
    refine List.filter_congr fun row hrow => decide_eq_decide.mpr ?_
    rw [decide_eq_true_iff]
    refine ⟨fun hp => hp.2.2, fun ha => ⟨?_, rfl, ha⟩⟩
    obtain ⟨s', hs', haddress, -, hd⟩ := r.share_delivered hrow
    rw [r.source_eq hs' h (haddress.symm.trans ha)] at hd
    exact hd.not_blank hcat
  have hwallet : (c.walletRows.filter fun row => row.delivery.exceptionType ≠ .blank ∧
      decide (row.exception.component = .vaultShares ∧ row.exception.sourceAddress = s.address) = true) = [] :=
    List.filter_eq_nil_iff.mpr fun row _ => by simp [WalletRow.exception]
  rw [sum_exceptions, hwallet, hshares, r.shares_of_source h]
  simp

/-- The liquid column that a route has asked for. -/
theorem liquid_contribution (r : CompileRun K i l c) {s : Source} (h : s ∈ l.sources.values) {route : Route}
    (hroute : route ∈ routesOf l.routes s.address) (hamount : route.amount = .shard0Liquid) :
    s.liquidShard0 = some (contributed c.walletRows c.shareRows route.routeId) := by
  obtain ⟨pre, post, hroutes⟩ := List.append_of_mem hroute
  have hcontribution := r.route_contribution h hroutes
  rw [routeAmount, hamount] at hcontribution
  cases hl : s.liquidShard0 with
  | none => simp [hl] at hcontribution
  | some liquid =>
    rw [hl] at hcontribution
    rw [Except.ok.inj hcontribution]

end CompileRun

end HarmonyMigration.Routing
