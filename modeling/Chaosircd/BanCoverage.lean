import Chaosircd.BanList
import Chaosircd.StrMatch

/-!
# What a typed K-line stands for

An operator types a mask for the user and one for the host, or a network in the place of the
second.  `mo_kline` cuts and filters both, reads the address and looks for an entry that
meets the two texts as if they belonged to a client: a `?` of the entry meets a `*` that was
typed, and a network of the entry meets every wider one with the same first address.
-/

namespace Chaosircd

namespace BanList

open Wildcards

/-! ## The command -/

/-- `mo_kline`, for a command that is not for another server. -/
def moKline (list : List Entry) (arg info : CString) (mtime : Nat) (reason : CString) :
    LineAnswer :=
  lineCommand list arg info mtime (some reason)

/-! ## The meaning of a mask -/

/-- A client as the bans see it; the texts fit their arrays. -/
structure Identity where
  user : CString
  host : CString
  addr : Address
  userFits : user.length ≤ 16
  hostFits : host.length ≤ 64
  deriving DecidableEq

/-- Host names are compared without case. -/
def HostFits (host mask : CString) : Prop :=
  MaskFits (host.map strTolower) (mask.map strTolower)

/-- The clients that a typed mask stands for. -/
def StandsFor (arg : CString) (id : Identity) : Prop :=
  MaskFits id.user (typedParts arg).1 ∧
    match readNetwork (typedParts arg).2 with
    | none => HostFits id.host (typedParts arg).2
    | some (addr, mbc) => id.addr >>> (32 - mbc) = addr >>> (32 - mbc)

/-- A refused mask brings nothing new for the client, and the entry of an accepted one meets
the client if and only if the mask stands for it. -/
def Enforced (list : List Entry) (arg info : CString) (mtime : Nat) (reason : CString)
    (id : Identity) : Prop :=
  match moKline list arg info mtime reason with
  | .invalid => True
  | .already _ => StandsFor arg id → ∃ entry ∈ list, entry.meets id.user id.host id.addr
  | .added entry => entry.meets id.user id.host id.addr ↔ StandsFor arg id

/-! ## Where the command keeps to the meaning -/

/-- The matcher does not give up on the name of a host. -/
def HostDecided (host mask : CString) : Prop :=
  Decides (host.map strTolower) (mask.map strTolower)

/-- A typed network is read as it is written: it is within the 31 bytes that are looked at,
its length is one, and its first address is not `0.0.0.0`. -/
def WellRead (host : CString) : Prop :=
  readNetwork (strlcpy host 32) = readNetwork host ∧
    ∀ network ∈ readNetwork host,
      network.2 ≤ 32 ∧ network.1 &&& clearBits (32 - network.2) ≠ 0

/-- No `*` of the typed mask falls to a `?` of the entry, and a typed network is not wider
than the one of the entry. -/
def Subsumes (entry : Entry) (arg : CString) : Prop :=
  Covers Allows (maskTokens entry.user) (maskTokens (typedParts arg).1) ∧
    match readNetwork (typedParts arg).2 with
    | none =>
      entry.addr = 0 ∧
        Covers Allows (maskTokens (entry.host.map strTolower))
          (maskTokens ((typedParts arg).2.map strTolower))
    | some (_, mbc) =>
      if entry.addr = 0 then
        Covers Allows (maskTokens (entry.host.map strTolower)) (maskTokens ['*'])
      else
        (lineSplit arg).host = (typedParts arg).2 ∧ WellRead (typedParts arg).2 ∧
          entry.mask &&& clearBits (32 - mbc) = entry.mask

/-- The condition: a refused mask is subsumed by the entry that is found, and of an accepted
one nothing is cut off. -/
def Understood (list : List Entry) (arg : CString) (id : Identity) : Prop :=
  let parts := lineSplit arg
  match lineFind list parts.user parts.host (lineMask parts.host).1 with
  | some entry => Subsumes entry arg ∧ (entry.addr = 0 → HostDecided id.host entry.host)
  | none =>
    parts.user = (typedParts arg).1 ∧ parts.host = (typedParts arg).2 ∧
      WellRead parts.host ∧ (readNetwork parts.host = none → HostDecided id.host parts.host)

/-! ## Netmasks -/

theorem clearBits_succ (mbc : Nat) :
    clearBits (mbc + 1) = clearBits mbc &&& ~~~((1 : Address) <<< mbc) := by
  rw [clearBits, List.range_succ, List.foldl_append]
  rfl

theorem getLsbD_clearBits {mbc i : Nat} (inside : i < 32) :
    (clearBits mbc).getLsbD i = decide (mbc ≤ i) := by
  induction mbc with
  | zero =>
      have ones : clearBits 0 = BitVec.allOnes 32 := by decide
      rw [ones, BitVec.getLsbD_allOnes]
      simp [inside]
  | succ mbc induction =>
      simp only [clearBits_succ, BitVec.getLsbD_and, induction, BitVec.getLsbD_not, inside,
        decide_true, Bool.true_and, BitVec.getLsbD_shiftLeft]
      by_cases here : i = mbc
      · simp [here]
      · rcases Nat.lt_or_ge i mbc with less | least
        · simp [less, Nat.not_le_of_lt less, Nat.not_le_of_lt (Nat.lt_succ_of_lt less)]
        · simp [least, show i - mbc ≠ 0 by omega, show mbc + 1 ≤ i by omega]

/-- Two addresses are in one network when they agree but for the last bits. -/
theorem land_clearBits_eq_iff {x y : Address} {mbc : Nat} :
    x &&& clearBits mbc = y &&& clearBits mbc ↔ x >>> mbc = y >>> mbc := by
  constructor
  · intro same
    ext i inside
    rw [← BitVec.getLsbD_eq_getElem, ← BitVec.getLsbD_eq_getElem,
      BitVec.getLsbD_ushiftRight, BitVec.getLsbD_ushiftRight]
    by_cases within : mbc + i < 32
    · have bits := congrArg (fun v : Address => v.getLsbD (mbc + i)) same
      simpa only [BitVec.getLsbD_and, getLsbD_clearBits within, Nat.le_add_right, decide_true,
        Bool.and_true] using bits
    · rw [BitVec.getLsbD_of_ge x _ (by omega), BitVec.getLsbD_of_ge y _ (by omega)]
  · intro same
    ext i inside
    rw [← BitVec.getLsbD_eq_getElem, ← BitVec.getLsbD_eq_getElem, BitVec.getLsbD_and,
      BitVec.getLsbD_and, getLsbD_clearBits inside]
    by_cases upper : mbc ≤ i
    · have bits := congrArg (fun v : Address => v.getLsbD (i - mbc)) same
      simp only [BitVec.getLsbD_ushiftRight, Nat.add_sub_cancel' upper] at bits
      rw [bits]
    · simp [upper]

theorem reduceBits_of_le {mbc : Nat} (isLength : mbc ≤ 32) : reduceBits mbc mbc = mbc := by
  cases mbc with
  | zero => rfl
  | succ mbc => rw [reduceBits, if_neg (by omega)]

theorem lineMask_eq_zero {host : CString} (whole : readNetwork (strlcpy host 32) = none) :
    lineMask host = (0, 0) := by
  rw [lineMask, whole]

theorem lineMask_eq {host : CString} {addr : Address} {mbc : Nat} (wellRead : WellRead host)
    (isNetwork : readNetwork host = some (addr, mbc)) :
    lineMask host = (addr &&& clearBits (32 - mbc), clearBits (32 - mbc)) := by
  obtain ⟨isLength, notAny⟩ := wellRead.2 _ isNetwork
  have isAddress : addr ≠ 0 := by
    rintro rfl
    exact notAny (BitVec.zero_and)
  rw [lineMask, wellRead.1, isNetwork]
  dsimp only at isLength ⊢
  rw [if_pos isAddress, reduceBits_of_le isLength]

/-! ## Refused and accepted masks -/

section

variable {list : List Entry} {arg info : CString} {mtime : Nat} {reason : CString}
  {id : Identity} {entry : Entry}

theorem strMatch_user_iff (entry : Entry) (id : Identity) :
    strMatch id.user entry.user ↔ MaskFits id.user entry.user := by
  refine strMatch_iff (decides_of_length ?_)
  have product : (id.user.length + 1) * (entry.user.length + 1) ≤ 17 * 16 :=
    Nat.mul_le_mul (Nat.succ_le_succ id.userFits) entry.userFits
  omega

/-- Where the text has no use, the address decides. -/
theorem meets_network (isNetwork : entry.addr ≠ 0) :
    entry.meets id.user id.host id.addr ↔
      MaskFits id.user entry.user ∧ id.addr &&& entry.mask = entry.addr := by
  rw [Entry.meets, if_pos isNetwork, Bool.and_eq_true, strMatch_user_iff, decide_eq_true_eq]

theorem meets_host (isHost : entry.addr = 0) (decided : HostDecided id.host entry.host) :
    entry.meets id.user id.host id.addr ↔
      MaskFits id.user entry.user ∧ HostFits id.host entry.host := by
  rw [Entry.meets, if_neg (not_not.mpr isHost), Bool.and_eq_true, strMatch_user_iff, strImatch,
    strMatch_iff decided, HostFits]

theorem Subsumes.meets (subsumes : Subsumes entry arg)
    (decided : entry.addr = 0 → HostDecided id.host entry.host)
    (found : entry.meets (lineSplit arg).user (lineSplit arg).host
      (lineMask (lineSplit arg).host).1)
    (stands : StandsFor arg id) : entry.meets id.user id.host id.addr := by
  obtain ⟨users, hosts⟩ := subsumes
  obtain ⟨userStands, hostStands⟩ := stands
  have user := MaskFits.of_covers users userStands
  cases isNetwork : readNetwork (typedParts arg).2 with
  | none =>
      rw [isNetwork] at hosts hostStands
      exact (meets_host hosts.1 (decided hosts.1)).mpr
        ⟨user, MaskFits.of_covers hosts.2 hostStands⟩
  | some network =>
      obtain ⟨addr, mbc⟩ := network
      rw [isNetwork] at hosts hostStands
      dsimp only at hosts hostStands
      by_cases isHost : entry.addr = 0
      · rw [if_pos isHost] at hosts
        have everything : MaskFits (id.host.map strTolower) ['*'] :=
          fits_many.mpr ⟨[], List.nil_suffix, fits_nil.mpr rfl⟩
        exact (meets_host isHost (decided isHost)).mpr
          ⟨user, MaskFits.of_covers hosts everything⟩
      · rw [if_neg isHost] at hosts
        obtain ⟨whole, wellRead, wider⟩ := hosts
        rw [Entry.meets, if_pos isHost, Bool.and_eq_true, decide_eq_true_eq, whole,
          lineMask_eq wellRead isNetwork] at found
        refine (meets_network isHost).mpr ⟨user, ?_⟩
        calc id.addr &&& entry.mask
            = id.addr &&& clearBits (32 - mbc) &&& entry.mask := by
              rw [BitVec.and_assoc, BitVec.and_comm (clearBits _), wider]
          _ = addr &&& clearBits (32 - mbc) &&& entry.mask := by
              rw [land_clearBits_eq_iff.mpr hostStands]
          _ = entry.addr := found.2

theorem lineNew_meets_iff (userWhole : (lineSplit arg).user = (typedParts arg).1)
    (hostWhole : (lineSplit arg).host = (typedParts arg).2)
    (wellRead : WellRead (lineSplit arg).host)
    (decided : readNetwork (lineSplit arg).host = none →
      HostDecided id.host (lineSplit arg).host) :
    (lineNew (lineSplit arg).user (lineSplit arg).host info mtime (some reason)).meets
      id.user id.host id.addr ↔ StandsFor arg id := by
  have userSame : (lineNew (lineSplit arg).user (lineSplit arg).host info mtime
      (some reason)).user = (lineSplit arg).user :=
    strlcpy_eq_self (length_filtered_lt _ (by decide))
  have hostSame : (lineNew (lineSplit arg).user (lineSplit arg).host info mtime
      (some reason)).host = (lineSplit arg).host :=
    strlcpy_eq_self (length_filtered_lt _ (by decide))
  rw [StandsFor, ← userWhole, ← hostWhole]
  cases isNetwork : readNetwork (lineSplit arg).host with
  | none =>
      have isHost : (lineMask (lineSplit arg).host).1 = 0 := by
        rw [lineMask_eq_zero (wellRead.1.trans isNetwork)]
      rw [meets_host isHost (by rw [hostSame]; exact decided isNetwork), userSame, hostSame]
  | some network =>
      obtain ⟨addr, mbc⟩ := network
      have isMask := lineMask_eq wellRead isNetwork
      have isFirst : (lineMask (lineSplit arg).host).1 = addr &&& clearBits (32 - mbc) := by
        rw [isMask]
      rw [meets_network (isFirst.trans_ne (wellRead.2 _ isNetwork).2), userSame]
      refine and_congr_right fun _ => ?_
      change id.addr &&& (lineMask _).2 = (lineMask _).1 ↔ _
      rw [isMask]
      exact land_clearBits_eq_iff

/-- A ban on a network. -/
def smallNetwork : Entry :=
  lineNew "*".toList "10.0.0.0/16".toList "oper!root@localhost".toList 1000
    (some "spam".toList)

/-- A client of the wider network around it. -/
def outsider : Identity where
  user := "joe".toList
  host := "host.example".toList
  addr := 0x0a010203
  userFits := by decide
  hostFits := by decide

/-- A narrower network is refused rightly. -/
theorem narrower_network_understood :
    Understood [smallNetwork] "joe@10.0.0.0/24".toList outsider := by
  have found : lineFind [smallNetwork] (lineSplit "joe@10.0.0.0/24".toList).user
      (lineSplit "joe@10.0.0.0/24".toList).host
      (lineMask (lineSplit "joe@10.0.0.0/24".toList).host).1 = some smallNetwork := by
    repeat rw [String.toList_ofList]
    decide +kernel
  have isNetwork : readNetwork (typedParts "joe@10.0.0.0/24".toList).2 =
      some (0x0a000000, 24) := by
    rw [String.toList_ofList]
    decide +kernel
  have isNonzero : smallNetwork.addr ≠ 0 := by decide +kernel
  rw [Understood, found]
  refine ⟨⟨by decide +kernel, ?_⟩, fun isHost => absurd isHost isNonzero⟩
  rw [isNetwork]
  dsimp only
  rw [if_neg isNonzero]
  refine ⟨by decide +kernel, ⟨by decide +kernel, fun network member => ?_⟩, by decide +kernel⟩
  rw [isNetwork, Option.mem_some_iff] at member
  rw [← member]
  decide

end

end BanList

end Chaosircd
