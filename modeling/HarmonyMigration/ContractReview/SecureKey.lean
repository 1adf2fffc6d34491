import HarmonyMigration.Airdrop.One1
import HarmonyMigration.ContractReview.RlpWrapper
import HarmonyMigration.Tree.Keccak256

/-! `require_address_secure_key` of `contract_review_lib.py`: an address, as hexadecimal or bech32 text, against the
hash that keys its account in the state. -/

namespace HarmonyMigration.ContractReview

open Airdrop Airdrop.One1 Decimal Keccak256 Slices

section Names

variable (u : Lower)

def hexPrefix : Text := ['0', 'x']

def normalizeAddress (value : Text) : Option Text :=
  let value := u.lower value
  let value := if hexPrefix <+: value then value else hexPrefix ++ value
  if value.length = 42 then some value else none

/-- `text.rsplit("1", 1)`. -/
def rsplitOne (text : Text) : Text × Text :=
  let data := (text.reverse.takeWhile (· ≠ '1')).reverse
  (text.take (text.length - data.length - 1), data)

def bech32ToHex (text : Text) : Option Text :=
  let text := strip text
  if hexPrefix <+: u.lower text then normalizeAddress u text
  else
    let text := u.lower text
    if '1' ∉ text then none
    else
      let (hrp, data) := rsplitOne text
      if ∃ c ∈ data, c ∉ charset then none
      else
        let values := data.map fun c => charset.idxOf c
        if polymod (expanded hrp ++ values) ≠ 1 then none
        else
          let out := (Regroup.regroup 5 8 (values.take (values.length - 6))).out.map UInt8.ofNat
          if out.length = 20 then some (hexPrefix ++ hexText out) else none

def anyToHex (value : Text) : Option Text :=
  if value = [] then none
  else if hexPrefix <+: u.lower value then normalizeAddress u value
  else bech32ToHex u value

inductive KeyError
  | invalidAddress
  | otherKey
  deriving DecidableEq

def requireAddressSecureKey (address secureKey : Text) : Except KeyError Text :=
  match anyToHex u address with
  | none => .error .invalidAddress
  | some normalized =>
    match fromhex (normalized.drop 2) with
    | none => .error .invalidAddress
    | some raw =>
      let expected := hexPrefix ++ hexText (keccak256Pure raw)
      if u.lower secureKey = expected then .ok normalized else .error .otherKey

/-- The address has this key. -/
def HashesTo (address secureKey : Text) : Prop := ∃ normalized, requireAddressSecureKey u address secureKey = .ok normalized

theorem lower_hexAddress (data : Bytes) : u.lower (hexPrefix ++ hexText data) = hexPrefix ++ hexText data := by
  have hlower : (hexPrefix ++ hexText data).map Char.toLower = hexPrefix ++ hexText data := by
    rw [List.map_append, lower_hexText]
    rfl
  rw [u.ascii _ fun c hc => ?_, hlower]
  rcases List.mem_append.mp hc with hc | hc
  · have hall : ∀ c ∈ hexPrefix, c.toNat < 128 := by decide
    exact hall c hc
  · exact ascii_of_mem_hexText hc

end Names

end HarmonyMigration.ContractReview
