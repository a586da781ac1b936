/-
This file models the fork switches of params/config.go and
params/consensus_params.go that block processing and the consensus engine
consult. The source picks one of three chain configurations by a global
network flag; here the configuration is passed explicitly. A switch is a block
number from which a rule holds: SIP001 (chief update transactions pay no gas
and give their gas back to the pool), SIP002 (signers must wait out their
period) and SIP100 (chief 1.0.0: chief calls skip the balance check). The chief
contracts are recognised by address, and a chief update by the four-byte
selector of its call data.

chiefAddressList and the list of chiefs before 1.0.0 share one cached global in
the source, so the list a node uses is the one built by whichever of the two
ran first; the model gives the full list that chiefAddressList builds.
-/

import Meshbox.Common.Types

namespace Meshbox.Params

/-- ChiefInfo: a chief contract version, the block it starts at and its
address. -/
structure ChiefInfo where
  StartNumber : Nat
  Version : String
  Addr : Address
deriving DecidableEq, Repr

/-- The fork switches and chief contracts of one network. Chief100Block is
nil when the network never switches to chief 1.0.0. -/
structure ChainConfig where
  HomesteadBlock : Nat
  SIP001Block : Nat
  SIP002Block : Nat
  Chief100Block : Option Nat
  chiefAddressList : List ChiefInfo
deriving DecidableEq, Repr

/-- The zero address, common.HexToAddress("0x"). -/
def zeroAddress : Address := Vector.replicate 20 0

/-! ### The networks -/

def MainnetChief005Address : Address :=
  #v[0xf0, 0xd2, 0xad, 0x4e, 0x0d, 0x25, 0xcf, 0xea, 0x98, 0xe9,
    0x64, 0x03, 0x29, 0x99, 0x3b, 0xbc, 0x52, 0x39, 0x6a, 0xbd]

def MainnetChief006Address : Address :=
  #v[0xba, 0x7f, 0x50, 0x7d, 0x5a, 0xab, 0x3e, 0x93, 0x13, 0x12,
    0x51, 0x2c, 0x23, 0x4f, 0xbe, 0xb8, 0x5c, 0xbd, 0x9d, 0xce]

def MainnetChiefBaseAddress : Address :=
  #v[0xe1, 0xc7, 0x49, 0xf4, 0x5e, 0xe1, 0x41, 0x80, 0x85, 0x3e,
    0x55, 0x2d, 0x33, 0x49, 0xcc, 0x58, 0x97, 0x2c, 0xd0, 0x82]

def MainnetPocAddress : Address :=
  #v[0xb9, 0xb4, 0xec, 0xe9, 0x52, 0xc8, 0x00, 0x5f, 0x00, 0x98,
    0x01, 0xe5, 0xec, 0x78, 0xe1, 0x16, 0xf5, 0x28, 0xc1, 0xd0]

def MainnetChief100Address : Address :=
  #v[0x89, 0x0e, 0xb8, 0x56, 0x65, 0x50, 0xe7, 0x33, 0x7c, 0x77,
    0x88, 0xff, 0x97, 0x1a, 0x39, 0x96, 0x86, 0x0c, 0x51, 0xb5]

def TestnetChief002Address : Address :=
  #v[0x9e, 0xc5, 0x5c, 0x1d, 0xaf, 0xd4, 0xa4, 0x87, 0xe4, 0x1d,
    0xa3, 0x3e, 0x34, 0x4a, 0xef, 0x86, 0xda, 0x41, 0xab, 0x82]

def TestnetChief003Address : Address :=
  #v[0xac, 0x28, 0xe5, 0x32, 0xb3, 0xfa, 0xc8, 0x25, 0x54, 0xfc,
    0x7b, 0x0b, 0x8b, 0x62, 0x54, 0x9d, 0xee, 0xeb, 0x33, 0xa9]

def TestnetChief004Address : Address :=
  #v[0xe2, 0x42, 0xe2, 0xbc, 0xf5, 0xb0, 0xda, 0x65, 0x18, 0x32,
    0x02, 0x10, 0xfa, 0xb0, 0xa2, 0x74, 0x58, 0xbc, 0x06, 0x74]

def TestnetChief005Address : Address :=
  #v[0xe9, 0x0d, 0xa8, 0x17, 0x59, 0x22, 0x92, 0x5d, 0xfb, 0x40,
    0xe6, 0x50, 0x5b, 0x50, 0x8f, 0x10, 0x42, 0xe8, 0x07, 0xaa]

def TestnetChief006Address : Address :=
  #v[0x53, 0xcb, 0x83, 0x88, 0x8e, 0x6d, 0x28, 0xcf, 0x7e, 0xc1,
    0x68, 0x30, 0x8c, 0x65, 0x17, 0x20, 0x01, 0xf4, 0x41, 0xaa]

def TestnetChiefBaseAddress : Address :=
  #v[0xeb, 0x97, 0xd5, 0x20, 0x1a, 0x79, 0x71, 0x76, 0x75, 0xc0,
    0x3e, 0x80, 0xef, 0x3e, 0xd0, 0xc0, 0x0e, 0xc7, 0x77, 0xfc]

def TestnetPocAddress : Address :=
  #v[0xe3, 0xd5, 0x62, 0x7f, 0x6f, 0x85, 0x44, 0x81, 0xb2, 0x3d,
    0xa3, 0x7c, 0xea, 0x62, 0x34, 0x11, 0xbf, 0x09, 0x08, 0x81]

def TestnetChief100Address : Address :=
  #v[0x69, 0x52, 0x49, 0xd9, 0x87, 0xd1, 0x0b, 0xcc, 0xcd, 0xa9,
    0xbc, 0xaa, 0x30, 0x90, 0xdb, 0x85, 0x65, 0xc3, 0x17, 0xd1]

def DevnetChief007Address : Address :=
  #v[0x57, 0xd2, 0xbc, 0xd8, 0xd7, 0x02, 0x99, 0x9d, 0xaf, 0x24,
    0x07, 0x93, 0x91, 0x96, 0x75, 0xc9, 0x0b, 0x12, 0xa1, 0x7a]

def DevnetChiefBaseAddress : Address :=
  #v[0xf0, 0x96, 0xd7, 0xf8, 0xae, 0x3c, 0xd0, 0xa8, 0x5e, 0x59,
    0x3a, 0xcc, 0xac, 0x5e, 0x7b, 0xc3, 0x8a, 0x75, 0x61, 0x11]

def DevnetPocAddress : Address :=
  #v[0x48, 0xe0, 0xf0, 0x7f, 0xaf, 0x58, 0xbc, 0x6e, 0x71, 0x3d,
    0x5c, 0x63, 0x73, 0xce, 0x4f, 0x2a, 0x8b, 0x5c, 0x35, 0x9a]

def DevnetChief100Address : Address :=
  #v[0x21, 0xc5, 0xdc, 0x40, 0x91, 0x38, 0x20, 0x52, 0x91, 0xd6,
    0xa7, 0xef, 0x2d, 0xbb, 0x17, 0x01, 0xac, 0x02, 0xff, 0x96]

/-- MainnetChainConfig: the switches of the main network and the chiefs
chiefAddressList lists for it. -/
def MainnetChainConfig : ChainConfig where
  HomesteadBlock := 0
  SIP001Block := 0
  SIP002Block := 588888
  Chief100Block := some 2823366
  chiefAddressList :=
    [⟨2, "0.0.5", MainnetChief005Address⟩, ⟨595888, "0.0.6", MainnetChief006Address⟩,
      ⟨2823366, "1.0.0", MainnetChief100Address⟩]

/-- TestnetChainConfig: the switches of the test network. -/
def TestnetChainConfig : ChainConfig where
  HomesteadBlock := 0
  SIP001Block := 176222
  SIP002Block := 525233
  Chief100Block := some 1310056
  chiefAddressList :=
    [⟨2, "0.0.2", TestnetChief002Address⟩, ⟨113772, "0.0.3", TestnetChief003Address⟩,
      ⟨120305, "0.0.4", TestnetChief004Address⟩, ⟨176244, "0.0.5", TestnetChief005Address⟩,
      ⟨595710, "0.0.6", TestnetChief006Address⟩, ⟨1310056, "1.0.0", TestnetChief100Address⟩]

/-- DevnetChainConfig: the switches of the development network. -/
def DevnetChainConfig : ChainConfig where
  HomesteadBlock := 0
  SIP001Block := 0
  SIP002Block := 1
  Chief100Block := some 63
  chiefAddressList :=
    [⟨3, "0.0.7", DevnetChief007Address⟩, ⟨63, "1.0.0", DevnetChief100Address⟩]

/-! ### Fork switches -/

/-- IsHomestead: whether the Homestead rules hold at a block. -/
def ChainConfig.IsHomestead (config : ChainConfig) (num : Nat) : Bool :=
  config.HomesteadBlock ≤ num

/-- IsSIP001Block: chief update transactions are free from this block on. -/
def IsSIP001Block (config : ChainConfig) (num : Nat) : Bool :=
  config.SIP001Block ≤ num

/-- IsSIP002Block: a switch at block zero counts as never set. -/
def IsSIP002Block (config : ChainConfig) (num : Nat) : Bool :=
  0 < config.SIP002Block ∧ config.SIP002Block ≤ num

/-- IsSIP100Block: chief 1.0.0 rules, from a positive Chief100Block on. -/
def IsSIP100Block (config : ChainConfig) (num : Nat) : Bool :=
  match config.Chief100Block with
  | some block => 0 < block ∧ block ≤ num
  | none => false

/-! ### Chief contracts -/

/-- isChiefAddress: whether addr is one of the listed chief contracts; the zero
address never is. -/
def isChiefAddress (list : List ChiefInfo) (addr : Address) : Bool :=
  if addr = zeroAddress then false else list.any (fun ci => ci.Addr = addr)

/-- IsChiefAddress: isChiefAddress on the network's chief list. -/
def IsChiefAddress (config : ChainConfig) (addr : Address) : Bool :=
  isChiefAddress config.chiefAddressList addr

/-- chiefCalledMap: the contract each chief 1.0.0 contract calls, on all three
networks at once: the chief calls its base contract and the base contract its
proof-of-capacity contract. -/
def chiefCalledMap : List (Address × Address) :=
  [(TestnetChief100Address, TestnetChiefBaseAddress), (TestnetChiefBaseAddress, TestnetPocAddress),
    (MainnetChief100Address, MainnetChiefBaseAddress), (MainnetChiefBaseAddress, MainnetPocAddress),
    (DevnetChief100Address, DevnetChiefBaseAddress), (DevnetChiefBaseAddress, DevnetPocAddress)]

/-- IsChiefCalled: whether the call from src to dst is one chief contract calling
the next. The map is keyed by the caller. -/
def IsChiefCalled (src dst : Address) : Bool :=
  match chiefCalledMap.lookup src with
  | some target => target = dst
  | none => false

/-- The selector of the chief's update function. -/
def chiefUpdateSelector : List UInt8 := [28, 27, 135, 114]

/-- IsChiefUpdate: whether call data starts with the chief update selector. -/
def IsChiefUpdate (data : List UInt8) : Bool :=
  if data.length < 4 then false else data.take 4 = chiefUpdateSelector

/-! ### Switches are monotone in the block number -/

theorem IsSIP001Block_mono {config : ChainConfig} {num later : Nat} (le : num ≤ later)
    (active : IsSIP001Block config num = true) : IsSIP001Block config later = true := by
  simp only [IsSIP001Block, decide_eq_true_eq] at active ⊢
  exact Nat.le_trans active le

theorem IsSIP100Block_mono {config : ChainConfig} {num later : Nat} (le : num ≤ later)
    (active : IsSIP100Block config num = true) : IsSIP100Block config later = true := by
  unfold IsSIP100Block at active ⊢
  split at active
  · simp only [decide_eq_true_eq] at active ⊢
    exact ⟨active.1, Nat.le_trans active.2 le⟩
  · cases active

theorem isChiefAddress_ne_zero {list : List ChiefInfo} {addr : Address}
    (chief : isChiefAddress list addr = true) : addr ≠ zeroAddress := by
  intro zero
  simp [isChiefAddress, zero] at chief

end Meshbox.Params
