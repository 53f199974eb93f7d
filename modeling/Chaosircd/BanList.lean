import Chaosircd.ModeChange
import Chaosircd.NetAddress

/-!
# Ban lists

A K-line and a G-line are the same kind of entry: a mask for the user name and a mask for
the host.  Where the host mask is the text of an address, maybe with the length of a network
behind it, the entry has the address and the netmask as well and the text is no longer looked
at.  The functions below are in `m_kline.c` and once more in `m_gline.c`.
-/

namespace Chaosircd

namespace BanList

open Modes (cutAt after)

/-- A `net_addr_t` in host order; `0` is `net_addr_any`. -/
abbrev Address := BitVec 32

/-- `while(mbc > 32) mbc -= 32`, for at most so many turns. -/
def reduceBits : Nat → Nat → Nat
  | 0, mbc => mbc
  | turns + 1, mbc => if 32 < mbc then reduceBits turns (mbc - 32) else mbc

/-- `for(i = 0; i < mbc; i++) *mask &= ~htonl(1 << i)`. -/
def clearBits (mbc : Nat) : Address :=
  (List.range mbc).foldl (fun mask i => mask &&& ~~~((1 : Address) <<< i)) 0xffffffff

/-- What the text of a host mask names: an address and the length that is given with it, if
it is one. -/
def readNetwork (host : CString) : Option (Address × Nat) :=
  (netAton (cutAt '/' host)).map fun addr =>
    (BitVec.ofNat 32 addr,
      if '/' ∈ host then strToul (after '/' host) % 2 ^ 32 else 32)

/-- `m_kline_mask`, `m_gline_mask`: the address and the netmask. -/
def lineMask (host : CString) : Address × Address :=
  match readNetwork (strlcpy host 32) with
  | none => (0, 0)
  | some (addr, mbc) =>
    if addr ≠ 0 then
      let mask := clearBits (32 - reduceBits mbc mbc)
      (addr &&& mask, mask)
    else (0, 0)

theorem lineMask_land (host : CString) :
    (lineMask host).1 &&& (lineMask host).2 = (lineMask host).1 := by
  rw [lineMask]
  split
  · rfl
  · split
    · dsimp only
      rw [BitVec.and_assoc, BitVec.and_self]
    · rfl

/-! ## Entries -/

/-- `struct m_kline_entry` and `struct m_gline_entry`; the texts fit their arrays, and an
address is the first one of its network. -/
structure Entry where
  ts : Nat
  user : CString
  host : CString
  info : CString
  reason : CString
  addr : Address
  mask : Address
  userFits : user.length < 16
  hostFits : host.length < 64
  isFirst : addr &&& mask = addr
  deriving DecidableEq

/-- The entry that `m_kline_new` and `m_gline_new` link at the tail; `none` is a null
pointer. -/
def lineNew (user host info : CString) (ts : Nat) (reason : Option CString) : Entry where
  ts := ts
  user := strlcpy user 16
  host := strlcpy host 64
  info := strlcpy info 114
  reason := strlcpy (reason.getD []) 256
  addr := (lineMask host).1
  mask := (lineMask host).2
  userFits := strlcpy_length_lt user (by decide)
  hostFits := strlcpy_length_lt host (by decide)
  isFirst := lineMask_land host

theorem lineNew_eq {user host info : CString} {ts : Nat} {reason : Option CString}
    (userFits : user.length < 16) (hostFits : host.length < 64) :
    (lineNew user host info ts reason).user = user ∧
      (lineNew user host info ts reason).host = host :=
  ⟨strlcpy_eq_self userFits, strlcpy_eq_self hostFits⟩

/-- `str_imatch`: the loop of `str_match` on lowered bytes. -/
def strImatch (str mask : CString) : Bool :=
  strMatch (str.map strTolower) (mask.map strTolower)

/-- The test of `m_kline_find` and `m_gline_find`. -/
def Entry.meets (user host : CString) (addr : Address) (entry : Entry) : Bool :=
  strMatch user entry.user &&
    if entry.addr ≠ 0 then addr &&& entry.mask = entry.addr else strImatch host entry.host

/-- `m_kline_find`, `m_gline_find`. -/
def lineFind (list : List Entry) (user host : CString) (addr : Address) : Option Entry :=
  list.find? (Entry.meets user host addr)

/-! ## Typed masks -/

/-- The two parts of a mask that is typed, with a star for what is not there. -/
def typedParts (arg : CString) : CString × CString :=
  let part := fun text : CString => if text = [] then ['*'] else text
  if '@' ∈ arg then (part (cutAt '@' arg), part (after '@' arg)) else (['*'], part arg)

/-- The bytes of a part that the loops of the split functions go over. -/
def kept (allowed : Char → Bool) (part : CString) : CString :=
  part.takeWhile fun c => charsIskwildchar c || allowed c

/-- A part after its loop; a bad first byte becomes a star. -/
def filtered (allowed : Char → Bool) (part : CString) : CString :=
  if kept allowed part = [] ∧ part ≠ [] then ['*'] else kept allowed part

/-- The bytes for a host mask. -/
def hostAllowed (c : Char) : Bool :=
  charsIshostchar c || c == '/'

structure SplitMask where
  user : CString
  host : CString
  invalid : Bool
  deriving DecidableEq

/-- `m_kline_split`, `m_gline_split`. -/
def lineSplit (arg : CString) : SplitMask :=
  let user := strlcpy (typedParts arg).1 16
  let host := strlcpy (typedParts arg).2 64
  let seen := kept charsIsuserchar user ++ kept hostAllowed host
  { user := filtered charsIsuserchar user
    host := filtered hostAllowed host
    invalid := seen.countP (!charsIskwildchar ·) ≤ seen.countP charsIskwildchar }

theorem length_filtered_lt {allowed : Char → Bool} {size : Nat} (part : CString)
    (room : 2 ≤ size) : (filtered allowed (strlcpy part size)).length < size := by
  rw [filtered]
  split
  · exact room
  · have shorter : (kept allowed (strlcpy part size)).length ≤ (strlcpy part size).length :=
      (List.takeWhile_sublist _).length_le
    have bounded := strlcpy_length_lt part (show 0 < size by omega)
    omega

/-- `m_kline.c` and `m_gline.c`. -/
inductive Module where
  | kline
  | gline
  deriving DecidableEq

/-- The masks of a removal command; `mo_unkline` copies its argument first. -/
def removalSplit (module : Module) (arg : CString) : SplitMask :=
  match module with
  | .kline => lineSplit (strlcpy arg 114)
  | .gline => lineSplit arg

/-- What a command does with a mask: a notice, or a new entry at the tail. -/
inductive LineAnswer where
  | invalid
  | already (entry : Entry)
  | added (entry : Entry)
  deriving DecidableEq

/-- The part of `mo_kline` and `mo_gline` that is about the list. -/
def lineCommand (list : List Entry) (arg info : CString) (mtime : Nat)
    (reason : Option CString) : LineAnswer :=
  let parts := lineSplit arg
  if parts.invalid then .invalid
  else
    match lineFind list parts.user parts.host (lineMask parts.host).1 with
    | some entry => .already entry
    | none => .added (lineNew parts.user parts.host info mtime reason)

theorem lineCommand_eq_added_iff {list : List Entry} {arg info : CString} {mtime : Nat}
    {reason : Option CString} {entry : Entry} :
    lineCommand list arg info mtime reason = .added entry ↔
      (¬ (lineSplit arg).invalid ∧
        lineFind list (lineSplit arg).user (lineSplit arg).host
          (lineMask (lineSplit arg).host).1 = none) ∧
      lineNew (lineSplit arg).user (lineSplit arg).host info mtime reason = entry := by
  rw [lineCommand]
  by_cases invalid : (lineSplit arg).invalid
  · simp [invalid]
  · simp only [invalid, if_false, Bool.false_eq_true, not_false_eq_true, true_and]
    cases lineFind list (lineSplit arg).user (lineSplit arg).host
        (lineMask (lineSplit arg).host).1 <;> simp

/-! ## Removed and updated entries -/

/-- The list after `m_kline_delete` or `m_gline_delete` of the entry that is found. -/
def lineDelete (list : List Entry) (user host : CString) (addr : Address) : List Entry :=
  list.eraseP (Entry.meets user host addr)

/-- The list after a change of the entry that is found. -/
def lineChange (change : Entry → Entry) (user host : CString) (addr : Address) :
    List Entry → List Entry
  | [] => []
  | entry :: list =>
    if entry.meets user host addr then change entry :: list
    else entry :: lineChange change user host addr list

/-- The fields that `ms_gline` writes into an entry it knows. -/
def Entry.update (info : CString) (ts : Nat) (reason : Option CString) (entry : Entry) : Entry :=
  { entry with
    info := strlcpy info 114
    ts := ts
    reason := (reason.map (strlcpy · 256)).getD entry.reason }

/-- What is found is the first entry that meets what is asked for. -/
theorem lineFind_split {list : List Entry} {user host : CString} {addr : Address}
    {entry : Entry} (found : lineFind list user host addr = some entry) :
    entry.meets user host addr ∧ ∃ before behind, list = before ++ entry :: behind ∧
      ∀ other ∈ before, ¬ other.meets user host addr := by
  obtain ⟨meets, before, behind, isList, passed⟩ := List.find?_eq_some_iff_append.mp found
  refine ⟨meets, before, behind, isList, fun other member meets => ?_⟩
  simpa [meets] using passed other member

theorem lineFind_eq_some {list : List Entry} {user host : CString} {addr : Address}
    {entry : Entry} (found : lineFind list user host addr = some entry) :
    ∃ before behind, list = before ++ entry :: behind ∧
      lineDelete list user host addr = before ++ behind := by
  obtain ⟨meets, before, behind, isList, unmet⟩ := lineFind_split found
  refine ⟨before, behind, isList, ?_⟩
  rw [lineDelete, isList, List.eraseP_append_right _ unmet, List.eraseP_cons_of_pos meets]

/-- What no change touches is the same in the changed list. -/
theorem map_lineChange {β : Type*} {change : Entry → Entry} {view : Entry → β}
    (untouched : ∀ entry, view (change entry) = view entry) (user host : CString)
    (addr : Address) (list : List Entry) :
    (lineChange change user host addr list).map view = list.map view := by
  induction list with
  | nil => rfl
  | cons entry list induction =>
      rw [lineChange]
      split
      · rw [List.map_cons, List.map_cons, untouched]
      · rw [List.map_cons, List.map_cons, induction]

/-! ## Local clients -/

/-- What the checks read of a `struct lclient`. -/
structure Client where
  user : CString
  host : CString
  hostip : CString
  addrRemote : Address
  deriving DecidableEq

/-- The entry for which `m_kline_hook` and `m_gline_hook` turn a client away. -/
def lineHook (list : List Entry) (lcptr : Client) : Option Entry :=
  match lineFind list lcptr.user lcptr.host lcptr.addrRemote with
  | none => lineFind list lcptr.user lcptr.hostip lcptr.addrRemote
  | some entry => some entry

/-- `m_kline_match` and `m_gline_match`: the registered clients that exit. -/
def lineMatch (entry : Entry) (users : List Client) : List Client :=
  users.filter fun lcptr =>
    strMatch lcptr.user entry.user &&
      ((entry.addr ≠ 0 && entry.addr &&& entry.mask = lcptr.addrRemote &&& entry.mask) ||
        strImatch lcptr.host entry.host || strImatch lcptr.hostip entry.host)

/-- The client is outside of the network of the entry, and one of its names is written like
the address. -/
def NamedLikeNetwork (entry : Entry) (lcptr : Client) : Prop :=
  entry.addr ≠ 0 ∧ lcptr.addrRemote &&& entry.mask ≠ entry.addr ∧
    strMatch lcptr.user entry.user ∧
      (strImatch lcptr.host entry.host ∨ strImatch lcptr.hostip entry.host)

instance (entry : Entry) (lcptr : Client) : Decidable (NamedLikeNetwork entry lcptr) :=
  inferInstanceAs (Decidable (_ ∧ _))

theorem isSome_lineHook {list : List Entry} {lcptr : Client} :
    (lineHook list lcptr).isSome ↔
      ∃ entry ∈ list, entry.meets lcptr.user lcptr.host lcptr.addrRemote ∨
        entry.meets lcptr.user lcptr.hostip lcptr.addrRemote := by
  have found {host : CString} : (lineFind list lcptr.user host lcptr.addrRemote).isSome ↔
      ∃ entry ∈ list, entry.meets lcptr.user host lcptr.addrRemote := List.find?_isSome
  rw [lineHook]
  cases first : lineFind list lcptr.user lcptr.host lcptr.addrRemote with
  | none =>
      have missed : ∀ entry ∈ list, ¬ entry.meets lcptr.user lcptr.host lcptr.addrRemote :=
        List.find?_eq_none.mp first
      rw [found]
      constructor
      · rintro ⟨entry, member, meets⟩
        exact ⟨entry, member, .inr meets⟩
      · rintro ⟨entry, member, meets⟩
        exact ⟨entry, member, meets.resolve_left (missed entry member)⟩
  | some entry =>
      have here : (lineFind list lcptr.user lcptr.host lcptr.addrRemote).isSome := by
        rw [first]
        rfl
      obtain ⟨other, member, meets⟩ := found.mp here
      exact iff_of_true rfl ⟨other, member, .inl meets⟩

/-- Another way in makes no difference unless it is the only one. -/
theorem agree_iff (user inside named : Prop) :
    (user ∧ (inside ∨ named) ↔ user ∧ inside) ↔ ¬ (¬ inside ∧ user ∧ named) := by
  tauto

/-- A new entry takes the registered clients that a list of it alone turns away, but for
those with a name that is written like the address of the entry. -/
theorem mem_lineMatch_iff_lineHook (entry : Entry) {users : List Client} {lcptr : Client}
    (registered : lcptr ∈ users) :
    (lcptr ∈ lineMatch entry users ↔ (lineHook [entry] lcptr).isSome) ↔
      ¬ NamedLikeNetwork entry lcptr := by
  have hooked : (lineHook [entry] lcptr).isSome ↔
      entry.meets lcptr.user lcptr.host lcptr.addrRemote ∨
        entry.meets lcptr.user lcptr.hostip lcptr.addrRemote := by
    simp only [isSome_lineHook, List.mem_singleton, exists_eq_left]
  have inNetwork : entry.addr &&& entry.mask = lcptr.addrRemote &&& entry.mask ↔
      lcptr.addrRemote &&& entry.mask = entry.addr := by
    rw [entry.isFirst, eq_comm]
  have exits : lcptr ∈ lineMatch entry users ↔
      strMatch lcptr.user entry.user ∧
        ((entry.addr ≠ 0 ∧ lcptr.addrRemote &&& entry.mask = entry.addr) ∨
          strImatch lcptr.host entry.host ∨ strImatch lcptr.hostip entry.host) := by
    simp only [lineMatch, List.mem_filter, registered, true_and, Bool.and_eq_true,
      Bool.or_eq_true, decide_eq_true_eq, inNetwork, or_assoc]
  rw [hooked, exits, Entry.meets, Entry.meets]
  by_cases isHost : entry.addr = 0
  · -- both tests come down to the names
    refine iff_of_true ?_ (fun named => named.1 isHost)
    simp only [isHost, ne_eq, not_true_eq_false, if_false, false_and, false_or,
      Bool.and_eq_true, ← and_or_left]
  · rw [NamedLikeNetwork]
    simp only [ne_eq, isHost, not_false_eq_true, if_true, true_and, or_self, Bool.and_eq_true,
      decide_eq_true_eq]
    exact agree_iff _ _ _

/-- A K-line on an address. -/
def bareAddress : Entry :=
  lineNew "*".toList "10.0.0.1".toList "oper!root@localhost".toList 1000 (some "spam".toList)

/-- A client with that address as the name that its own name server gave. -/
def misnamed : Client where
  user := "joe".toList
  host := "10.0.0.1".toList
  hostip := "192.168.7.7".toList
  addrRemote := 0xc0a80707

theorem misnamed_exits_unhooked :
    misnamed ∈ lineMatch bareAddress [misnamed] ∧ lineHook [bareAddress] misnamed = none := by
  decide +kernel

theorem mem_lineMatch_iff_lineHook_misnamed :
    (misnamed ∈ lineMatch bareAddress [misnamed] ↔
      (lineHook [bareAddress] misnamed).isSome) ↔ ¬ NamedLikeNetwork bareAddress misnamed :=
  mem_lineMatch_iff_lineHook bareAddress (List.mem_singleton_self misnamed)

end BanList

end Chaosircd
