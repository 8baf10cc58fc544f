import LogoCore.ByteLanes
import Mathlib.Tactic.IntervalCases
import Mathlib.Tactic.Ring

namespace LogoCore.Ethernet

open ByteLanes

/-- The union of four octets and a word, on a machine that stores the low byte first. -/
structure IPAddress where
  dword : BitVec 32
deriving DecidableEq

namespace IPAddress

def ofOctets (first second third fourth : BitVec 8) : IPAddress := ⟨fourth ++ third ++ second ++ first⟩

def octet (ip : IPAddress) (index : ℕ) : BitVec 8 := getLane ip.dword index

def setOctet (ip : IPAddress) (index : ℕ) (b : BitVec 8) : IPAddress := ⟨setLane ip.dword index b⟩

end IPAddress

def htonl (n : BitVec 32) : BitVec 32 :=
  ((n &&& 0xff#32) <<< 24) ||| ((n &&& 0xff00#32) <<< 8) ||| ((n &&& 0xff0000#32) >>> 8) |||
    ((n &&& 0xff000000#32) >>> 24)

def classASubnet : IPAddress := .ofOctets 255 0 0 0

def classBSubnet : IPAddress := .ofOctets 255 255 0 0

def classCSubnet : IPAddress := .ofOctets 255 255 255 0

/-- The words of the flash and of the controller that begin() reads a MAC address from. -/
structure MacSources where
  emacH : BitVec 32
  emacL : BitVec 32
  user0 : BitVec 32
  user1 : BitVec 32

def MacSources.macArray (m : MacSources) : List (BitVec 8) :=
  if m.emacL ≠ 0xFFFFFFFF#32 ∧ m.emacH &&& 0xFFFF#32 ≠ 0xFFFF#32 ∧ (m.emacL ≠ 0 ∨ m.emacH &&& 0xFFFF#32 ≠ 0) then
    [getLane m.emacL 0, getLane m.emacL 1, getLane m.emacL 2, getLane m.emacL 3,
      getLane m.emacH 0, getLane m.emacH 1]
  else if m.user0 = 0xFFFFFFFF#32 ∧ m.user1 = 0xFFFFFFFF#32 then [0x02, 0x00, 0x00, 0x00, 0x00, 0x01]
  else
    [getLane m.user0 0, getLane m.user0 1, getLane m.user0 2,
      getLane m.user1 0, getLane m.user1 1, getLane m.user1 2]

inductive IpMode
  | useStatic
  | useDhcp
deriving DecidableEq

/-- The arguments of lwIPInit() and of lwIPDNSAddrSet(). -/
structure LwipSetup where
  mac : List (BitVec 8)
  ipAddr : BitVec 32
  netMask : BitVec 32
  gwAddr : BitVec 32
  ipMode : IpMode
  dnsServer : BitVec 32
deriving DecidableEq

-- the high bits of the word are those of the last octet
def defaultSubnet (localIp : IPAddress) : IPAddress :=
  if localIp.dword >>> 31 = 0x0#32 then classASubnet
  else if localIp.dword >>> 30 = 0x2#32 then classBSubnet
  else if localIp.dword >>> 29 = 0x6#32 then classCSubnet
  else ⟨0⟩

/-- begin() with every argument; the MAC address that the caller gives is not read. -/
def beginSubnet (m : MacSources) (localIp dnsServer gateway subnet : IPAddress) : LwipSetup where
  mac := m.macArray
  ipAddr := htonl localIp.dword
  netMask := htonl (if subnet.dword = 0 then defaultSubnet localIp else subnet).dword
  gwAddr := htonl gateway.dword
  ipMode := if localIp.dword = 0 then .useDhcp else .useStatic
  dnsServer := dnsServer.dword

def beginGateway (m : MacSources) (localIp dnsServer gateway : IPAddress) : LwipSetup :=
  beginSubnet m localIp dnsServer gateway (.ofOctets 0 0 0 0)

def beginDns (m : MacSources) (localIp dnsServer : IPAddress) : LwipSetup :=
  beginGateway m localIp dnsServer (localIp.setOctet 3 1)

def beginAddress (m : MacSources) (localIp : IPAddress) : LwipSetup := beginDns m localIp (localIp.setOctet 3 1)

inductive BeginCall
  | address
  | dns (dnsServer : IPAddress)
  | gateway (dnsServer gw : IPAddress)

def BeginCall.run (m : MacSources) (localIp : IPAddress) : BeginCall → LwipSetup
  | .address => beginAddress m localIp
  | .dns dnsServer => beginDns m localIp dnsServer
  | .gateway dnsServer gw => beginGateway m localIp dnsServer gw

/-- The number that lwIPInit() takes for an address in dotted notation. -/
def dotted (first second third fourth : BitVec 8) : BitVec 32 := first ++ second ++ third ++ fourth

inductive AddressClass
  | a
  | b
  | c
  | other
deriving DecidableEq

def octetClass (octet : BitVec 8) : AddressClass :=
  if octet.toNat < 128 then .a
  else if octet.toNat < 192 then .b
  else if octet.toNat < 224 then .c
  else .other

def AddressClass.mask : AddressClass → BitVec 32
  | .a => dotted 255 0 0 0
  | .b => dotted 255 255 0 0
  | .c => dotted 255 255 255 0
  | .other => 0

def ClassfulMask (first : BitVec 8) (netMask : BitVec 32) : Prop :=
  (first.toNat < 128 → netMask = dotted 255 0 0 0) ∧
    (128 ≤ first.toNat → first.toNat < 192 → netMask = dotted 255 255 0 0) ∧
      (192 ≤ first.toNat → first.toNat < 224 → netMask = dotted 255 255 255 0)

section Words

variable (a b c d : BitVec 8)

theorem getLsbD_htonl (n : BitVec 32) {i : ℕ} (hi : i < 32) :
    (htonl n).getLsbD i = n.getLsbD (8 * (3 - i / 8) + i % 8) := by
  interval_cases i <;> simp [htonl]

theorem htonl_ofOctets : htonl (IPAddress.ofOctets a b c d).dword = dotted a b c d := by
  apply BitVec.eq_of_getLsbD_eq
  intro i hi
  rw [getLsbD_htonl _ hi, IPAddress.ofOctets, dotted]
  simp only [BitVec.getLsbD_append]
  interval_cases i <;> rfl

theorem toNat_ofOctets : (IPAddress.ofOctets a b c d).dword.toNat =
    d.toNat * 2 ^ 24 + c.toNat * 2 ^ 16 + b.toNat * 2 ^ 8 + a.toNat := by
  simp only [IPAddress.ofOctets, BitVec.toNat_append]
  rw [← Nat.shiftLeft_add_eq_or_of_lt a.isLt, ← Nat.shiftLeft_add_eq_or_of_lt b.isLt,
    ← Nat.shiftLeft_add_eq_or_of_lt c.isLt]
  simp only [Nat.shiftLeft_eq]
  ring

theorem shift_eq_iff {k n : ℕ} (hn : n < 2 ^ 32) :
    (IPAddress.ofOctets a b c d).dword >>> (24 + k) = BitVec.ofNat 32 n ↔ d.toNat / 2 ^ k = n := by
  have hword : (IPAddress.ofOctets a b c d).dword.toNat / 2 ^ 24 = d.toNat := by
    have ha := a.isLt
    have hb := b.isLt
    have hc := c.isLt
    rw [toNat_ofOctets]
    omega
  rw [← BitVec.toNat_inj, BitVec.toNat_ushiftRight, Nat.shiftRight_eq_div_pow, BitVec.toNat_ofNat,
    Nat.mod_eq_of_lt hn, Nat.pow_add, ← Nat.div_div_eq_div_mul, hword]

end Words

section Masks

variable (m : MacSources) (a b c d : BitVec 8)

theorem octetClass_mask_inj {x y : AddressClass} : x.mask = y.mask ↔ x = y := by
  refine ⟨fun h => ?_, fun h => h ▸ rfl⟩
  revert h
  cases x <;> cases y <;> decide

theorem defaultSubnet_ofOctets : htonl (defaultSubnet (.ofOctets a b c d)).dword = (octetClass d).mask := by
  have hd := d.isLt
  have hA := shift_eq_iff a b c d (k := 7) (n := 0) (by decide)
  have hB := shift_eq_iff a b c d (k := 6) (n := 2) (by decide)
  have hC := shift_eq_iff a b c d (k := 5) (n := 6) (by decide)
  rw [defaultSubnet, octetClass]
  by_cases h128 : d.toNat < 128
  · rw [if_pos (hA.mpr (by omega)), if_pos h128]
    exact htonl_ofOctets 255 0 0 0
  · rw [if_neg (fun h => h128 (by have := hA.mp h; omega)), if_neg h128]
    by_cases h192 : d.toNat < 192
    · rw [if_pos (hB.mpr (by omega)), if_pos h192]
      exact htonl_ofOctets 255 255 0 0
    · rw [if_neg (fun h => h192 (by have := hB.mp h; omega)), if_neg h192]
      by_cases h224 : d.toNat < 224
      · rw [if_pos (hC.mpr (by omega)), if_pos h224]
        exact htonl_ofOctets 255 255 255 0
      · rw [if_neg (fun h => h224 (by have := hC.mp h; omega)), if_neg h224]
        decide

theorem netMask_run (call : BeginCall) : (call.run m (.ofOctets a b c d)).netMask = (octetClass d).mask := by
  have hzero : (IPAddress.ofOctets 0 0 0 0).dword = 0 := by decide
  rw [← defaultSubnet_ofOctets a b c d]
  cases call <;> exact congrArg (fun x : IPAddress => htonl x.dword) (if_pos hzero)

theorem classfulMask_iff (x : AddressClass) :
    ClassfulMask a x.mask ↔ octetClass a = .other ∨ x = octetClass a := by
  have hclass : ClassfulMask a x.mask ↔ (a.toNat < 128 → x = .a) ∧ (128 ≤ a.toNat → a.toNat < 192 → x = .b) ∧
      (192 ≤ a.toNat → a.toNat < 224 → x = .c) := by
    simp only [← octetClass_mask_inj]
    rfl
  rw [hclass, octetClass]
  split
  · rename_i h
    exact ⟨fun hx => .inr (hx.1 h), fun hx => ⟨fun _ => hx.resolve_left nofun, by omega, by omega⟩⟩
  split
  · rename_i h128 h
    exact ⟨fun hx => .inr (hx.2.1 (by omega) h), fun hx => ⟨by omega, fun _ _ => hx.resolve_left nofun, by omega⟩⟩
  split
  · rename_i h192 h
    exact ⟨fun hx => .inr (hx.2.2 (by omega) h), fun hx => ⟨by omega, by omega, fun _ _ => hx.resolve_left nofun⟩⟩
  · exact ⟨fun _ => .inl rfl, fun _ => ⟨by omega, by omega, by omega⟩⟩

end Masks

theorem default_mask_classful_iff (m : MacSources) (call : BeginCall) (a b c d : BitVec 8) :
    (ClassfulMask a (call.run m (.ofOctets a b c d)).netMask ↔
      octetClass a = .other ∨ octetClass d = octetClass a) ∧
    ∀ b' c' d', (call.run m (.ofOctets a b c d)).netMask = (call.run m (.ofOctets a b' c' d')).netMask ↔
      octetClass d = octetClass d' := by
  refine ⟨?_, fun b' c' d' => ?_⟩
  · rw [netMask_run, classfulMask_iff]
  · rw [netMask_run, netMask_run, octetClass_mask_inj]

/-- 192.168.1.10 gets 255.0.0.0, and 192.168.1.200 gets 255.255.255.0. -/
theorem default_mask_of_last_octet :
    (BeginCall.run ⟨0, 0, 0xFFFFFFFF, 0xFFFFFFFF⟩ (.ofOctets 192 168 1 10) .address).netMask = dotted 255 0 0 0 ∧
      (BeginCall.run ⟨0, 0, 0xFFFFFFFF, 0xFFFFFFFF⟩ (.ofOctets 192 168 1 200) .address).netMask =
        dotted 255 255 255 0 := by
  decide +kernel

end LogoCore.Ethernet
