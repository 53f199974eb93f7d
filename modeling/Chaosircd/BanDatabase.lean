import Chaosircd.BanList
import Chaosircd.TransitionSystem
import Mathlib.Data.List.Forall2
import Mathlib.Data.List.TakeWhile

/-!
# The database of a ban list

Each new entry is written into a section of an ini file, which is named by the masks of the
entry, and the section goes with the entry.  The loader reads the sections in order; it looks
each one up among the entries it has made so far, and the variable for the reason is not
cleared in between.
-/

namespace Chaosircd

namespace BanList

open Modes (cutAt after)

/-! ## Sections -/

/-- The section of an entry; a section without the key has no reason. -/
structure BanSection where
  name : CString
  ts : Nat
  info : CString
  reason : Option CString
  deriving DecidableEq

/-- The name in `m_kline_add`, `m_kline_delete`, `m_gline_add` and `m_gline_delete`. -/
def sectionName (user host : CString) : CString :=
  strlcpy (user ++ '@' :: host) 114

/-- The section that is found gets new values, where there are any. -/
def writeSection (name info : CString) (ts : Nat) (reason : Option CString) :
    List BanSection → List BanSection
  | [] => [⟨name, ts, info, reason⟩]
  | isptr :: ini =>
    if isptr.name = name then ⟨name, ts, info, reason.or isptr.reason⟩ :: ini
    else isptr :: writeSection name info ts reason ini

/-- The list and its sections. -/
structure Database where
  list : List Entry
  ini : List BanSection
  deriving DecidableEq

namespace Database

/-- `m_kline_add`, `m_gline_add`. -/
def add (s : Database) (user host info : CString) (ts : Nat) (reason : Option CString) :
    Database where
  list := s.list ++ [lineNew user host info ts reason]
  ini := writeSection (sectionName user host) info ts reason s.ini

/-- `m_kline_delete`, `m_gline_delete` of the entry that is found. -/
def delete (s : Database) (user host : CString) (addr : Address) : Database :=
  match lineFind s.list user host addr with
  | none => s
  | some entry =>
    { list := lineDelete s.list user host addr
      ini := s.ini.eraseP fun isptr => isptr.name = sectionName entry.user entry.host }

end Database

/-! ## The loader -/

/-- The loop of `m_kline_loaddb` and `m_gline_loaddb`: the entries and the variable
`reason`. -/
def loadSection (loaded : List Entry × Option CString) (isptr : BanSection) :
    List Entry × Option CString :=
  let mask := strlcpy isptr.name 114
  if '@' ∈ mask then
    let host := after '@' mask
    let reason := isptr.reason.or loaded.2
    match lineFind loaded.1 (cutAt '@' mask) host (lineMask host).1 with
    | some _ =>
      (lineChange (Entry.update isptr.info isptr.ts reason) (cutAt '@' mask) host
        (lineMask host).1 loaded.1, reason)
    | none =>
      (loaded.1 ++ [lineNew (cutAt '@' mask) host isptr.info isptr.ts reason], reason)
  else loaded

/-- `m_kline_loaddb`, `m_gline_loaddb` into an empty list. -/
def loaddb (ini : List BanSection) : List Entry :=
  (ini.foldl loadSection ([], none)).1

/-! ## Commands -/

namespace Database

/-- The commands that change a list. -/
inductive Event where
  | line (arg info : CString) (mtime : Nat) (reason : Option CString)
  | remoteLine (user host info : CString) (ts : Nat) (reason : Option CString)
  | unline (module : Module) (arg : CString)
  | remoteUnline (user host : CString)

/-- `mo_kline` and `mo_gline`, `ms_gline`, `mo_unkline` and `mo_ungline`, `ms_ungline`. -/
def exec (s : Database) : Event → Database
  | .line arg info mtime reason =>
    let parts := lineSplit arg
    match lineCommand s.list arg info mtime reason with
    | .added _ => s.add parts.user parts.host (strlcpy info 114) mtime reason
    | .invalid | .already _ => s
  | .remoteLine user host info ts reason =>
    match lineFind s.list user host (lineMask host).1 with
    | none => s.add user host info ts reason
    | some _ =>
      { s with
        list := lineChange (Entry.update info ts reason) user host (lineMask host).1 s.list }
  | .unline module arg =>
    let parts := removalSplit module arg
    if parts.invalid then s else s.delete parts.user parts.host (lineMask parts.host).1
  | .remoteUnline user host => s.delete user host (lineMask host).1

/-- The sections make the list. -/
def Persists (s : Database) : Prop :=
  loaddb s.ini = s.list

instance (s : Database) : Decidable s.Persists :=
  inferInstanceAs (Decidable (_ = _))

/-! ## The condition -/

/-- The new section has a name of its own, and it has a reason, unless no section has one. -/
def Fresh (s : Database) (user host : CString) (reason : Option CString) : Prop :=
  (∀ isptr ∈ s.ini, isptr.name ≠ user ++ '@' :: host) ∧
    (reason = none → ∀ isptr ∈ s.ini, isptr.reason.getD [] = [])

/-- The masks can be read again from the name of the section. -/
def Readable (user host : CString) : Prop :=
  '@' ∉ user ∧ user.length < 16 ∧ host.length < 64

/-- The condition on a command: a new entry fits into the database, and another server says
nothing new of an entry that is there. -/
def Fits (s : Database) : Event → Prop
  | .line arg _ _ reason =>
    let parts := lineSplit arg
    ¬ parts.invalid → lineFind s.list parts.user parts.host (lineMask parts.host).1 = none →
      s.Fresh parts.user parts.host reason
  | .remoteLine user host info ts reason =>
    (lineFind s.list user host (lineMask host).1 = none →
      Readable user host ∧ s.Fresh user host reason) ∧
    ∀ entry ∈ lineFind s.list user host (lineMask host).1, entry.update info ts reason = entry
  | .unline _ _ => True
  | .remoteUnline _ _ => True

instance (s : Database) (user host : CString) (reason : Option CString) :
    Decidable (s.Fresh user host reason) :=
  inferInstanceAs (Decidable (_ ∧ (_ → _)))

instance (user host : CString) : Decidable (Readable user host) :=
  inferInstanceAs (Decidable (_ ∧ _))

instance (s : Database) (event : Event) : Decidable (s.Fits event) :=
  match event with
  | .line _ _ _ _ => inferInstanceAs (Decidable (_ → _ → _))
  | .remoteLine _ _ _ _ _ => inferInstanceAs (Decidable ((_ → _) ∧ _))
  | .unline _ _ => .isTrue trivial
  | .remoteUnline _ _ => .isTrue trivial

/-! ## Entries and their sections -/

/-- The section is the one of the entry. -/
structure Stores (isptr : BanSection) (entry : Entry) : Prop where
  plain : '@' ∉ entry.user
  named : isptr.name = entry.user ++ '@' :: entry.host
  made : entry = lineNew entry.user entry.host isptr.info isptr.ts isptr.reason

/-- The sections are those of the entries, in the same order, with names that differ; no
entry is met by the masks of a later one; before a section without a reason there is none
with one. -/
structure Stored (s : Database) : Prop where
  each : List.Forall₂ Stores s.ini s.list
  names : (s.ini.map BanSection.name).Nodup
  apart : s.list.Pairwise fun entry later => ¬ entry.meets later.user later.host later.addr
  reasons : s.ini.Pairwise fun isptr later =>
    later.reason = none → isptr.reason.getD [] = []

theorem lineNew_congr {reason other : Option CString} (same : reason.getD [] = other.getD [])
    (user host info : CString) (ts : Nat) :
    lineNew user host info ts reason = lineNew user host info ts other := by
  simp only [lineNew, same]

theorem sectionName_eq {user host : CString} (userFits : user.length < 16)
    (hostFits : host.length < 64) : sectionName user host = user ++ '@' :: host := by
  refine strlcpy_eq_self ?_
  rw [List.length_append, List.length_cons]
  omega

theorem Stores.addr {isptr : BanSection} {entry : Entry} (stores : Stores isptr entry) :
    entry.addr = (lineMask entry.host).1 := by
  have made := congrArg Entry.addr stores.made
  exact made

/-! ## Loading -/

/-- The section of an entry that none of the loaded ones meets makes the entry. -/
theorem loadSection_eq {isptr : BanSection} {entry : Entry} {loaded : List Entry}
    {reason : Option CString} (stores : Stores isptr entry)
    (apart : ∀ other ∈ loaded, ¬ other.meets entry.user entry.host entry.addr)
    (noReason : isptr.reason = none → reason.getD [] = []) :
    loadSection (loaded, reason) isptr = (loaded ++ [entry], isptr.reason.or reason) := by
  have whole : strlcpy isptr.name 114 = entry.user ++ '@' :: entry.host := by
    rw [stores.named]
    exact sectionName_eq entry.userFits entry.hostFits
  have unknown : lineFind loaded entry.user entry.host (lineMask entry.host).1 = none := by
    rw [← stores.addr]
    exact List.find?_eq_none.mpr apart
  have made : lineNew entry.user entry.host isptr.info isptr.ts (isptr.reason.or reason) =
      entry := by
    refine (lineNew_congr ?_ ..).trans stores.made.symm
    cases given : isptr.reason with
    | none =>
        rw [Option.none_or]
        exact noReason given
    | some text => rfl
  rw [loadSection, whole, if_pos (by simp), Modes.cutAt_append_cons _ stores.plain,
    Modes.after_append_cons _ stores.plain]
  dsimp only
  rw [unknown, made]

/-- The loop over the sections that are left makes the entries that are left. -/
theorem foldl_loadSection {ini : List BanSection} {list : List Entry}
    (each : List.Forall₂ Stores ini list)
    (reasons : ini.Pairwise fun isptr later => later.reason = none → isptr.reason.getD [] = [])
    {loaded : List Entry} {reason : Option CString}
    (apart : (loaded ++ list).Pairwise fun entry later =>
      ¬ entry.meets later.user later.host later.addr)
    (noReason : ∀ isptr ∈ ini, isptr.reason = none → reason.getD [] = []) :
    (ini.foldl loadSection (loaded, reason)).1 = loaded ++ list := by
  induction each generalizing loaded reason with
  | nil => exact (List.append_nil loaded).symm
  | cons stores each induction =>
      rename_i isptr entry ini list
      obtain ⟨before, reasons⟩ := List.pairwise_cons.mp reasons
      have ahead : ∀ other ∈ loaded, ¬ other.meets entry.user entry.host entry.addr :=
        fun other member =>
          (List.pairwise_append.mp apart).2.2 other member entry List.mem_cons_self
      rw [List.foldl_cons, loadSection_eq stores ahead (noReason isptr List.mem_cons_self)]
      rw [List.append_cons] at apart
      rw [List.append_cons loaded entry list]
      refine induction reasons apart fun later member isNone => ?_
      cases given : isptr.reason with
      | none =>
          rw [Option.none_or]
          exact noReason later (List.mem_cons_of_mem _ member) isNone
      | some text =>
          have isEmpty := before later member isNone
          rw [given] at isEmpty
          exact isEmpty

theorem Stored.persists {s : Database} (stored : s.Stored) : s.Persists := by
  rw [Persists, loaddb]
  exact foldl_loadSection stored.each stored.reasons stored.apart fun _ _ _ => rfl

/-! ## One command -/

theorem writeSection_eq {name info : CString} {ts : Nat} {reason : Option CString}
    {ini : List BanSection} (fresh : ∀ isptr ∈ ini, isptr.name ≠ name) :
    writeSection name info ts reason ini = ini ++ [⟨name, ts, info, reason⟩] := by
  induction ini with
  | nil => rfl
  | cons isptr ini induction =>
      rw [writeSection, if_neg (fresh isptr List.mem_cons_self),
        induction fun other member => fresh other (List.mem_cons_of_mem _ member),
        List.cons_append]

theorem Stored.add {s : Database} (stored : s.Stored) {user host info : CString} {ts : Nat}
    {reason : Option CString} (readable : Readable user host)
    (fits : s.Fresh user host reason)
    (unknown : lineFind s.list user host (lineMask host).1 = none) :
    (s.add user host info ts reason).Stored := by
  obtain ⟨plain, userFits, hostFits⟩ := readable
  obtain ⟨fresh, noReason⟩ := fits
  have isName := sectionName_eq userFits hostFits
  obtain ⟨sameUser, sameHost⟩ := @lineNew_eq user host info ts reason userFits hostFits
  have isIni : (s.add user host info ts reason).ini =
      s.ini ++ [⟨user ++ '@' :: host, ts, info, reason⟩] := by
    rw [Database.add, isName]
    exact writeSection_eq fresh
  have isNew : Stores ⟨user ++ '@' :: host, ts, info, reason⟩
      (lineNew user host info ts reason) :=
    { plain := by rw [sameUser]; exact plain
      named := by rw [sameUser, sameHost]
      made := by rw [sameUser, sameHost] }
  constructor
  case each =>
    rw [isIni]
    exact List.rel_append stored.each (.cons isNew .nil)
  case names =>
    rw [isIni, List.map_append, List.nodup_append]
    refine ⟨stored.names, List.nodup_singleton _, ?_⟩
    intro name member other isOther same
    obtain ⟨isptr, member, isName⟩ := List.mem_map.mp member
    rw [List.map_singleton, List.mem_singleton] at isOther
    exact fresh isptr member (isName.trans (same.trans isOther))
  case apart =>
    refine List.pairwise_append.mpr ⟨stored.apart, List.pairwise_singleton _ _, ?_⟩
    intro entry member later isLater
    rw [List.mem_singleton] at isLater
    rw [isLater, sameUser, sameHost]
    exact List.find?_eq_none.mp unknown entry member
  case reasons =>
    rw [isIni]
    refine List.pairwise_append.mpr ⟨stored.reasons, List.pairwise_singleton _ _, ?_⟩
    intro isptr member later isLater isNone
    rw [List.mem_singleton] at isLater
    rw [isLater] at isNone
    exact noReason isNone isptr member

/-- The entry and the section that go are a pair. -/
theorem forall₂_eraseP {ini : List BanSection} {list : List Entry}
    (each : List.Forall₂ Stores ini list) (names : (ini.map BanSection.name).Nodup)
    {user host : CString} {addr : Address} {entry : Entry}
    (found : lineFind list user host addr = some entry) :
    List.Forall₂ Stores
      (ini.eraseP fun isptr => isptr.name = sectionName entry.user entry.host)
      (lineDelete list user host addr) := by
  rw [sectionName_eq entry.userFits entry.hostFits]
  induction each with
  | nil => cases found
  | cons stores each induction =>
      rename_i isptr first ini list
      rw [List.map_cons, List.nodup_cons] at names
      rw [lineFind, List.find?_cons] at found
      rw [lineDelete]
      cases meets : first.meets user host addr with
      | true =>
          rw [meets] at found
          have isFirst : first = entry := Option.some.inj found
          have named : decide (isptr.name = entry.user ++ '@' :: entry.host) = true := by
            rw [← isFirst]
            exact decide_eq_true stores.named
          rw [List.eraseP_cons_of_pos meets, List.eraseP_cons_of_pos
            (p := fun isptr : BanSection => isptr.name = entry.user ++ '@' :: entry.host) named]
          exact each
      | false =>
          rw [meets] at found
          have other : isptr.name ≠ entry.user ++ '@' :: entry.host := by
            intro same
            obtain ⟨later, member, storesEntry⟩ : ∃ later ∈ ini, Stores later entry := by
              obtain ⟨place, inside, isEntry⟩ :=
                List.mem_iff_getElem.mp (List.mem_of_find?_eq_some found)
              have within : place < ini.length := by
                rw [each.length_eq]
                exact inside
              refine ⟨ini[place], List.getElem_mem within, ?_⟩
              rw [← isEntry]
              exact each.get within inside
            refine names.1 ?_
            rw [same, ← storesEntry.named]
            exact List.mem_map_of_mem member
          have unnamed : ¬ decide (isptr.name = entry.user ++ '@' :: entry.host) = true := by
            simpa using other
          have unmet : ¬ first.meets user host addr = true := by rw [meets]; decide
          rw [List.eraseP_cons_of_neg unmet, List.eraseP_cons_of_neg
            (p := fun isptr : BanSection => isptr.name = entry.user ++ '@' :: entry.host) unnamed]
          exact .cons stores (induction names.2 found)

theorem Stored.delete {s : Database} (stored : s.Stored) (user host : CString) (addr : Address) :
    (s.delete user host addr).Stored := by
  rw [Database.delete]
  split
  case h_1 => exact stored
  case h_2 entry found =>
    exact
      { each := forall₂_eraseP stored.each stored.names found
        names := stored.names.sublist ((List.eraseP_sublist ..).map _)
        apart := stored.apart.sublist (List.eraseP_sublist ..)
        reasons := stored.reasons.sublist (List.eraseP_sublist ..) }

theorem lineChange_eq_self {change : Entry → Entry} {user host : CString} {addr : Address}
    {list : List Entry} {entry : Entry} (found : lineFind list user host addr = some entry)
    (same : change entry = entry) : lineChange change user host addr list = list := by
  induction list with
  | nil => cases found
  | cons first list induction =>
      rw [lineFind, List.find?_cons] at found
      rw [lineChange]
      cases meets : first.meets user host addr with
      | true =>
          rw [meets] at found
          rw [if_pos rfl, Option.some.inj found, same]
      | false =>
          rw [meets] at found
          rw [if_neg (by decide), induction found]

theorem not_mem_typedParts (arg : CString) : '@' ∉ (typedParts arg).1 := by
  have noAt : '@' ∉ cutAt '@' arg := fun member => by
    simpa using List.mem_takeWhile_imp member
  rw [typedParts]
  split
  · dsimp only
    split
    · decide
    · exact noAt
  · exact fun member => absurd (List.mem_singleton.mp member) (by decide)

theorem not_mem_lineSplit (arg : CString) : '@' ∉ (lineSplit arg).user := by
  intro member
  rw [lineSplit, filtered] at member
  dsimp only at member
  split at member
  · exact absurd member (by decide)
  · exact not_mem_typedParts arg
      ((List.take_sublist _ _).mem ((List.takeWhile_sublist _).mem member))

theorem Stored.exec {s : Database} (stored : s.Stored) {event : Event} (fits : s.Fits event) :
    (s.exec event).Stored := by
  cases event with
  | line arg info mtime reason =>
      rw [Database.exec]
      cases answer : lineCommand s.list arg info mtime reason with
      | invalid => exact stored
      | already entry => exact stored
      | added entry =>
          obtain ⟨valid, unknown⟩ := (lineCommand_eq_added_iff.mp answer).1
          have room (part : CString) {allowed : Char → Bool} {size : Nat} (least : 2 ≤ size) :
              (filtered allowed (strlcpy part size)).length < size :=
            length_filtered_lt part least
          exact stored.add ⟨not_mem_lineSplit arg, room _ (by decide), room _ (by decide)⟩
            (fits valid unknown) unknown
  | remoteLine user host info ts reason =>
      obtain ⟨new, known⟩ := fits
      rw [Database.exec]
      cases found : lineFind s.list user host (lineMask host).1 with
      | none => exact stored.add (new found).1 (new found).2 found
      | some entry =>
          dsimp only
          rw [lineChange_eq_self found (known entry found)]
          exact stored
  | unline module arg =>
      rw [Database.exec]
      split
      · exact stored
      · exact stored.delete ..
  | remoteUnline user host => exact stored.delete ..

/-! ## Runs -/

/-- No entries and no sections. -/
def start : Database where
  list := []
  ini := []

theorem start_stored : start.Stored where
  each := .nil
  names := List.nodup_nil
  apart := .nil
  reasons := .nil

/-- A G-line with a reason and one without. -/
def secondWithout : List Event :=
  [.line "*@one.example.com".toList "oper!root@localhost".toList 1000 (some "spam".toList),
    .line "*@two.example.com".toList "oper!root@localhost".toList 2000 none]

/-- Two bans, the first of which is lifted. -/
def firstLifted : List Event :=
  [.line "*@one.example.com".toList "oper!root@localhost".toList 1000 none,
    .line "*@10.0.0.0/8".toList "oper!root@localhost".toList 2000 (some "spam".toList),
    .unline .gline "*@one.example.com".toList]

end Database

end BanList

end Chaosircd
