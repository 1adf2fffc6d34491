import HarmonyMigration.Release.Plan

/-! A release runs through and leaves every setting as it was read, and a release that
stops partway is recognised: from the first call to the last the verifier config names
the owner, in the library that is read. -/

namespace HarmonyMigration.Release

open Erc20 Slices

variable {S : Site}

/-- What `receive_state` read, when it did not refuse. -/
theorem receiveState_ok {s : Escrow} {eid : ℕ} {safe : Address} {e : ReceiveState}
    (h : receiveState S s eid safe = .ok e) :
    S.libraryVersion (S.libraryLookup (receiveVersion S s)) = receiveUln301Version ∧
      s.storedPayload eid (packed safe S.escrow) = false ∧
      e = ⟨eid, s.storedVersion, receiveVersion S s, S.libraryLookup (receiveVersion S s),
        s.inboundNonce eid (packed safe S.escrow) + 1, s.trustedRemote eid,
        s.uln (S.libraryLookup (receiveVersion S s)) eid,
        s.executor (S.libraryLookup (receiveVersion S s)) eid⟩ := by
  unfold receiveState at h
  simp only at h
  split_ifs at h with h1 h2 h3
  exact ⟨not_not.mp h1, by simpa using h2, (Except.ok.inj h).symm⟩

/-- The version that holds when `v` is stored. -/
def effective (S : Site) (v : ℕ) : ℕ := if v = 0 then S.defaultVersion else v

theorem receiveVersion_eq (s : Escrow) : receiveVersion S s = effective S s.storedVersion := rfl

/-- Storing the version in effect, which happens when another one is stored, keeps it. -/
theorem effective_pin {v : ℕ} (h : v ≠ effective S v) : effective S (effective S v) = effective S v := by
  unfold effective at *
  split_ifs at * <;> simp_all

/-- A release is under way: in the library that is read, the verifier config names the owner. -/
structure Started (S : Site) (version eid : ℕ) (s : Escrow) : Prop where
  uln : s.uln (S.libraryLookup version) eid = ulnConfig S.owner
  version : effective S s.storedVersion = version

/-- Calls that leave the verifier config and the version in effect alone. -/
def Inner (S : Site) (version : ℕ) : Call → Prop
  | .setConfig _ _ .uln _ => False
  | .setReceiveVersion v => effective S v = version
  | _ => True

theorem Started.step {version eid : ℕ} {s s' : Escrow} {c : Call} (hs : Started S version eid s)
    (hc : Inner S version c) (h : step S s c = some s') : Started S version eid s' := by
  cases c with
  | setConfig v i t config =>
    cases t with
    | uln => exact hc.elim
    | executor => cases h; exact ⟨hs.uln, hs.version⟩
  | setTrustedRemote i path => cases h; exact ⟨hs.uln, hs.version⟩
  | setReceiveVersion v => cases h; exact ⟨hs.uln, hc⟩
  | verify l hd p n => cases h; exact ⟨hs.uln, hs.version⟩
  | commitVerification l hd m g =>
    simp only [Release.step] at h
    split_ifs at h
    cases h
    exact ⟨hs.uln, hs.version⟩

theorem Started.exec {version eid : ℕ} {s s' : Escrow} {calls : List Call} (hs : Started S version eid s)
    (hc : ∀ c ∈ calls, Inner S version c) (h : exec S s calls = some s') : Started S version eid s' := by
  induction calls generalizing s with
  | nil => cases h; exact hs
  | cons c calls ih =>
    obtain ⟨t, ht, h⟩ := Option.bind_eq_some_iff.mp h
    exact ih (hs.step (hc c (by simp)) ht) (fun d hd => hc d (by simp [hd])) h

theorem Started.refused {eid : ℕ} {s : Escrow} (hs : Started S (receiveVersion S s) eid s) (safe : Address) :
    ∃ r, receiveState S s eid safe = .error r := by
  unfold receiveState
  simp only
  split_ifs with h1 h2 h3
  · exact ⟨_, rfl⟩
  · exact ⟨_, rfl⟩
  · exact ⟨_, rfl⟩
  · exact absurd (Or.inr (Or.inr hs.uln)) h3

/-- What was stored and what was in effect are both safe to store again. -/
theorem inner_innerCalls {s : Escrow} {eid : ℕ} {safe : Address} {e : ReceiveState}
    (h : receiveState S s eid safe = .ok e) (lockedRaw : ℕ) :
    ∀ c ∈ innerCalls S e lockedRaw safe, Inner S e.receiveVersion c := by
  obtain ⟨-, -, rfl⟩ := receiveState_ok h
  intro c hc
  simp only [innerCalls, List.append_assoc, List.mem_append, List.mem_cons, List.not_mem_nil, or_false] at hc
  rcases hc with rfl | hc | (rfl | rfl | rfl | rfl) | hc | rfl
  · trivial
  · split_ifs at hc with hp
    · rw [List.mem_singleton.mp hc]
      exact effective_pin (of_decide_eq_true hp)
    · simp at hc
  · trivial
  · trivial
  · trivial
  · trivial
  · split_ifs at hc with hp
    · rw [List.mem_singleton.mp hc]
      rfl
    · simp at hc
  · trivial

/-- The escrow right before the delivery, with `v` stored as receive version. -/
def prepared (S : Site) (s : Escrow) (e : ReceiveState) (lockedRaw : ℕ) (safe : Address) (v : ℕ) :
    Escrow :=
  let library := S.libraryLookup e.receiveVersion
  let header := releaseHeader S e safe
  { s with
    uln := Function.update s.uln library
      (Function.update (s.uln library) e.lzChainId (ulnConfig S.owner))
    executor := Function.update s.executor library
      (Function.update (s.executor library) e.lzChainId (addressWord S.owner))
    storedVersion := v
    trustedRemote := Function.update s.trustedRemote e.lzChainId (packed safe S.escrow)
    attestations :=
      ⟨S.owner, header, S.payloadHash header ⟨S.packetType, safe, lockedRaw⟩, confirmations⟩ ::
        s.attestations }

/-- The escrow after a whole release. -/
def released (S : Site) (s : Escrow) (eid : ℕ) (safe : Address) : Escrow :=
  let path := packed safe S.escrow
  { s with
    inboundNonce := Function.update s.inboundNonce eid
      (Function.update (s.inboundNonce eid) path (s.inboundNonce eid path + 1))
    attestations := s.attestations.filter fun a =>
      a.header ≠ ⟨s.inboundNonce eid path + 1, eid, safe, eid, S.escrow⟩
    balance := 0
    received := Function.update s.received safe (s.received safe + s.balance) }

/-- Once prepared, the packet of the whole balance is deliverable. -/
theorem deliverable_prepared {s : Escrow} {eid : ℕ} {safe : Address} {e : ReceiveState}
    (h : receiveState S s eid safe = .ok e) {v : ℕ} (hv : effective S v = e.receiveVersion) :
    Deliverable S (prepared S s e s.balance safe v) e.receiveLibrary (releaseHeader S e safe)
      ⟨S.packetType, safe, s.balance⟩ := by
  obtain ⟨-, hclear, rfl⟩ := receiveState_ok h
  refine ⟨?_, ?_, ?_, rfl, hclear, rfl, ?_, rfl, le_rfl⟩
  · simp only [prepared, releaseHeader, Function.update_self]
    exact S.sole_verifier _ _ _ _ (by simp)
  · simp [prepared, releaseHeader]
  · exact congrArg S.libraryLookup hv.symm
  · simp [prepared, releaseHeader]

/-- All calls in order: only the balance, the nonce and the attestations differ afterwards. -/
theorem exec_releaseCalls {s : Escrow} {eid : ℕ} {safe : Address} {e : ReceiveState}
    (h : receiveState S s eid safe = .ok e) :
    exec S s (releaseCalls S e s.balance safe) = some (released S s eid safe) := by
  have hdel := fun v hv => deliverable_prepared h (v := v) hv
  obtain ⟨-, -, rfl⟩ := receiveState_ok h
  by_cases hp : s.storedVersion ≠ receiveVersion S s
  · have hd := hdel (receiveVersion S s) (effective_pin hp)
    simp only [prepared, releaseHeader] at hd
    simp [exec, releaseCalls, innerCalls, hp, step, hd, released, releaseHeader]
  · have hd := hdel s.storedVersion rfl
    simp only [prepared, releaseHeader] at hd
    simp [exec, releaseCalls, innerCalls, hp, step, hd, released, releaseHeader]

theorem exec_cons (s : Escrow) (c : Call) (calls : List Call) :
    exec S s (c :: calls) = (step S s c).bind fun t => exec S t calls := rfl

theorem exec_append (s : Escrow) (a b : List Call) :
    exec S s (a ++ b) = (exec S s a).bind fun t => exec S t b := List.foldlM_append

/-- A proper prefix of the calls, not empty, runs through and leaves a started release. -/
theorem started_take {s : Escrow} {eid : ℕ} {safe : Address} {e : ReceiveState}
    (h : receiveState S s eid safe = .ok e) {k : ℕ} (h0 : 0 < k)
    (hk : k < (releaseCalls S e s.balance safe).length) :
    ∃ s', exec S s ((releaseCalls S e s.balance safe).take k) = some s' ∧
      Started S e.receiveVersion eid s' := by
  have hall := exec_releaseCalls h
  rw [← List.take_append_drop k (releaseCalls S e s.balance safe), exec_append] at hall
  obtain ⟨s', hs', -⟩ := Option.bind_eq_some_iff.mp hall
  refine ⟨s', hs', ?_⟩
  -- the prefix is the first call and inner calls only: the last one is cut off
  obtain ⟨n, rfl⟩ : ∃ n, k = n + 1 := ⟨k - 1, by omega⟩
  have hn : n ≤ (innerCalls S e s.balance safe).length := by
    simp only [releaseCalls, List.length_cons, List.length_append, List.length_nil] at hk
    omega
  rw [releaseCalls, List.take_succ_cons, List.take_append_of_le_length hn] at hs'
  rw [exec_cons] at hs'
  obtain ⟨t, ht, hs'⟩ := Option.bind_eq_some_iff.mp hs'
  have hinner := inner_innerCalls h s.balance
  obtain ⟨-, -, rfl⟩ := receiveState_ok h
  have hst : Started S (receiveVersion S s) eid t := by
    cases ht
    exact ⟨by simp, rfl⟩
  exact hst.exec (fun c hc => hinner c (List.mem_of_mem_take hc)) hs'

/-- From every escrow whose state can be read for a release: all calls in order succeed, pay
exactly the locked balance to the Safe, advance the path's nonce by one and leave every
setting as it was, and after any proper prefix the state is refused. -/
theorem release_restores_and_is_detected {s : Escrow} {eid : ℕ} {safe : Address} {e : ReceiveState}
    (h : receiveState S s eid safe = .ok e) :
    (∃ s', exec S s (releaseCalls S e s.balance safe) = some s' ∧
      s'.balance = 0 ∧
      s'.received = Function.update s.received safe (s.received safe + s.balance) ∧
      s'.inboundNonce eid (packed safe S.escrow) = s.inboundNonce eid (packed safe S.escrow) + 1 ∧
      s'.trustedRemote = s.trustedRemote ∧ s'.uln = s.uln ∧ s'.executor = s.executor ∧
      s'.storedVersion = s.storedVersion) ∧
    ∀ k, 0 < k → k < (releaseCalls S e s.balance safe).length →
      ∃ s', exec S s ((releaseCalls S e s.balance safe).take k) = some s' ∧
        ∃ r, receiveState S s' eid safe = .error r := by
  refine ⟨⟨released S s eid safe, exec_releaseCalls h, rfl, rfl, ?_, rfl, rfl, rfl, rfl⟩, ?_⟩
  · simp [released]
  · intro k h0 hk
    obtain ⟨s', hs', hst⟩ := started_take h h0 hk
    have hv : receiveVersion S s' = e.receiveVersion := hst.version
    exact ⟨s', hs', Started.refused (hv ▸ hst) safe⟩

/-- A site whose verification is exactly the attestation of the configured verifier. -/
def plainSite : Site where
  escrow := 0xe5c
  owner := 0x0a1
  packetType := true
  defaultVersion := 5
  libraryLookup := fun v => BitVec.ofNat 160 v
  libraryVersion := fun l => if l = 5 then (3, 0, 1) else (0, 0, 0)
  payloadHash := fun h m => toBytes 8 h.nonce ++ toBytes 32 m.amount
  verifiable := fun config attestations header hash =>
    attestations.any fun a => config = ulnConfig a.dvn ∧ a.header = header ∧ a.payloadHash = hash ∧
      confirmations ≤ a.confirmations
  sole_verifier := fun dvn attestations header hash h =>
    List.any_eq_true.mpr ⟨_, h, by simp⟩

/-- 1000 locked, no version stored, a stale trusted remote. -/
def plainEscrow : Escrow where
  trustedRemote := fun eid => if eid = 101 then packed 0x0d4 0xe5c else []
  uln := fun _ _ => []
  executor := fun _ _ => toBytes 32 0
  storedVersion := 0
  inboundNonce := fun _ _ => 3
  storedPayload := fun _ _ => false
  attestations := []
  balance := 1000
  received := fun _ => 0

theorem release_restores_and_is_detected_unpinned :
    ∃ e, receiveState plainSite plainEscrow 101 0x5afe = .ok e ∧
      (releaseCalls plainSite e 1000 0x5afe).length = 10 ∧
      (∃ s', exec plainSite plainEscrow (releaseCalls plainSite e 1000 0x5afe) = some s' ∧
        s'.received 0x5afe = 1000) :=
  ⟨_, rfl, rfl, by
    have hstate : receiveState plainSite plainEscrow 101 0x5afe = .ok _ := rfl
    obtain ⟨⟨s', hs', -, hr, -⟩, -⟩ := release_restores_and_is_detected hstate
    exact ⟨s', hs', by rw [hr]; rfl⟩⟩

end HarmonyMigration.Release
