import Chaosircd.ChanmodeTable
import Mathlib.Data.Finset.Card

/-!
# Prefixes and the privileges they stand for

`chanmode_prefix_make` looks again and again for the privilege of highest order below the
one it wrote last, and `chanmode_prefix_parse` looks up one character after the other.
Where prefixes and orders tell the registered privileges apart, the string is sorted and
stands for the flags it was made of, whatever nick follows it.
-/

namespace Chaosircd

namespace ChanmodeTable

/-- The registered privileges have orders and prefixes that tell them apart.  An order is
that of an `int`. -/
structure Ranked (table : ChanmodeTable) : Prop where
  order : ∀ {letter mode}, table.ofType .privilege letter = some mode →
    0 < mode.order ∧ mode.order < 2 ^ 31
  orders : ∀ {letter letter' mode mode'}, table.ofType .privilege letter = some mode →
    table.ofType .privilege letter' = some mode' → mode.order = mode'.order → mode = mode'
  pfx : ∀ {letter mode}, table.ofType .privilege letter = some mode →
    ∃ c, mode.pfx = some c ∧ c ≠ '\x00' ∧ c ≠ ':'
  pfxs : ∀ {letter letter' mode mode'}, table.ofType .privilege letter = some mode →
    table.ofType .privilege letter' = some mode' → mode.pfx = mode'.pfx → mode = mode'

/-- A registered privilege whose flag is set. -/
def Held (table : ChanmodeTable) (flags : Finset Char) (mode : Chanmode) : Prop :=
  table.ofType .privilege mode.letter = some mode ∧ mode.letter ∈ flags

variable {table : ChanmodeTable} {flags : Finset Char}

theorem letter_of_ofType {type : ChanmodeType} {letter : Char} {mode : Chanmode}
    (found : table.ofType type letter = some mode) :
    mode.letter = letter ∧ letter ∈ chanmodeLetters := by
  rw [ofType, Option.filter_eq_some_iff] at found
  exact ⟨table.letter_eq found.1, (table.registrable found.1).2⟩

/-! ## The scan for the highest privilege -/

/-- The body of the scan. -/
def better (table : ChanmodeTable) (flags : Finset Char) (top : Nat) (best : Option Chanmode)
    (letter : Char) : Option Chanmode :=
  match table.ofType .privilege letter with
  | none => best
  | some mode =>
      if mode.order < top ∧ (best.map Chanmode.order).getD 0 < mode.order ∧
          mode.letter ∈ flags then
        some mode
      else best

theorem topPrivilege_eq (top : Nat) :
    table.topPrivilege flags top = chanmodeLetters.foldl (table.better flags top) none :=
  rfl

/-- What is found is held and below the bound, and no lower than what was found before. -/
theorem better_cases (ranked : Ranked table) (top : Nat) (best : Option Chanmode)
    (letter : Char) :
    (∀ mode ∈ table.better flags top best letter,
        mode ∈ best ∨ (Held table flags mode ∧ mode.order < top)) ∧
      (∀ before ∈ best, ∃ mode ∈ table.better flags top best letter,
        before.order ≤ mode.order) ∧
      ∀ mode, table.ofType .privilege letter = some mode → mode.letter ∈ flags →
        mode.order < top →
          ∃ found ∈ table.better flags top best letter, mode.order ≤ found.order := by
  rw [better]
  cases found : table.ofType .privilege letter with
  | none =>
      refine ⟨fun mode member => .inl member, fun before member => ⟨before, member, le_rfl⟩, ?_⟩
      intro mode isMode
      cases isMode
  | some mode =>
      have sameLetter := (letter_of_ofType found).1
      dsimp only
      split
      · rename_i taken
        refine ⟨?_, ?_, ?_⟩
        · rintro other ⟨⟩
          exact .inr ⟨⟨by rw [sameLetter]; exact found, taken.2.2⟩, taken.1⟩
        · rintro before ⟨⟩
          exact ⟨mode, rfl, Nat.le_of_lt taken.2.1⟩
        · rintro other ⟨⟩ _ _
          exact ⟨mode, rfl, le_rfl⟩
      · rename_i passed
        refine ⟨fun other member => .inl member, fun before member => ⟨before, member, le_rfl⟩, ?_⟩
        rintro other ⟨⟩ flag low
        have positive := (ranked.order found).1
        cases best with
        | none => exact absurd ⟨low, positive, flag⟩ passed
        | some before =>
            refine ⟨before, rfl, ?_⟩
            by_contra higher
            exact passed ⟨low, Nat.lt_of_not_le higher, flag⟩

theorem foldl_better (ranked : Ranked table) (top : Nat) (letters : List Char)
    (best : Option Chanmode) :
    (∀ mode ∈ letters.foldl (table.better flags top) best,
        mode ∈ best ∨ (Held table flags mode ∧ mode.order < top)) ∧
      (∀ before ∈ best, ∃ mode ∈ letters.foldl (table.better flags top) best,
        before.order ≤ mode.order) ∧
      ∀ letter ∈ letters, ∀ mode, table.ofType .privilege letter = some mode →
        mode.letter ∈ flags → mode.order < top →
          ∃ found ∈ letters.foldl (table.better flags top) best,
            mode.order ≤ found.order := by
  induction letters generalizing best with
  | nil => exact ⟨fun mode member => .inl member, fun before member => ⟨before, member, le_rfl⟩,
      nofun⟩
  | cons letter letters induction =>
      obtain ⟨held, kept, seen⟩ := @better_cases table flags ranked top best letter
      obtain ⟨held', kept', seen'⟩ := induction (table.better flags top best letter)
      rw [List.foldl_cons]
      refine ⟨?_, ?_, ?_⟩
      · intro mode member
        rcases held' mode member with earlier | here
        · exact held mode earlier
        · exact .inr here
      · intro before member
        obtain ⟨mode, found, lower⟩ := kept before member
        obtain ⟨last, there, lower'⟩ := kept' mode found
        exact ⟨last, there, lower.trans lower'⟩
      · intro other member mode found flag low
        rcases List.mem_cons.mp member with rfl | later
        · obtain ⟨first, there, lower⟩ := seen mode found flag low
          obtain ⟨last, there', lower'⟩ := kept' first there
          exact ⟨last, there', lower.trans lower'⟩
        · exact seen' other later mode found flag low

/-- The scan finds the highest privilege that is held below the bound. -/
theorem topPrivilege_spec (ranked : Ranked table) (top : Nat) :
    (∀ mode ∈ table.topPrivilege flags top, Held table flags mode ∧ mode.order < top) ∧
      ∀ mode, Held table flags mode → mode.order < top →
        ∃ found ∈ table.topPrivilege flags top, mode.order ≤ found.order := by
  obtain ⟨held, _, seen⟩ := @foldl_better table flags ranked top chanmodeLetters none
  rw [topPrivilege_eq]
  refine ⟨fun mode member => (held mode member).resolve_left nofun, ?_⟩
  intro mode holds low
  exact seen mode.letter (letter_of_ofType holds.1).2 mode holds.1 holds.2 low

/-! ## The privileges from the highest down -/

/-- The letters of the privileges that are held below a bound. -/
def lettersBelow (table : ChanmodeTable) (flags : Finset Char) (top : Nat) : Finset Char :=
  chanmodeLetters.toFinset.filter fun letter =>
    ∃ mode ∈ table.ofType .privilege letter, letter ∈ flags ∧ mode.order < top

theorem mem_lettersBelow {top : Nat} {mode : Chanmode} (holds : Held table flags mode) :
    mode.letter ∈ table.lettersBelow flags top ↔ mode.order < top := by
  have listed := (letter_of_ofType holds.1).2
  rw [lettersBelow, Finset.mem_filter, List.mem_toFinset]
  constructor
  · rintro ⟨_, other, found, _, low⟩
    rw [Option.mem_def, holds.1, Option.some.injEq] at found
    rwa [found]
  · intro low
    exact ⟨listed, mode, holds.1, holds.2, low⟩

theorem lettersBelow_mono {low high : Nat} (le : low ≤ high) :
    table.lettersBelow flags low ⊆ table.lettersBelow flags high := by
  intro letter member
  rw [lettersBelow, Finset.mem_filter] at member ⊢
  obtain ⟨listed, mode, found, flag, below⟩ := member
  exact ⟨listed, mode, found, flag, below.trans_le le⟩

theorem privilegesBelow_spec (ranked : Ranked table) {rounds top : Nat}
    (enough : (table.lettersBelow flags top).card ≤ rounds) :
    (∀ mode, mode ∈ table.privilegesBelow flags rounds top ↔
        Held table flags mode ∧ mode.order < top) ∧
      (table.privilegesBelow flags rounds top).Pairwise fun first second =>
        second.order < first.order := by
  induction rounds generalizing top with
  | zero =>
      have none := Finset.card_eq_zero.mp (Nat.le_zero.mp enough)
      refine ⟨fun mode => iff_of_false List.not_mem_nil ?_, List.Pairwise.nil⟩
      rintro ⟨holds, low⟩
      rw [← mem_lettersBelow holds, none] at low
      exact Finset.notMem_empty _ low
  | succ rounds induction =>
      obtain ⟨held, highest⟩ := @topPrivilege_spec table flags ranked top
      rw [privilegesBelow]
      cases found : table.topPrivilege flags top with
      | none =>
          refine ⟨fun mode => iff_of_false List.not_mem_nil ?_, List.Pairwise.nil⟩
          rintro ⟨holds, low⟩
          obtain ⟨other, there, _⟩ := highest mode holds low
          rw [found] at there
          cases there
      | some mode =>
          obtain ⟨holds, low⟩ := held mode found
          have fewer : (table.lettersBelow flags mode.order).card ≤ rounds := by
            have strict : table.lettersBelow flags mode.order ⊂ table.lettersBelow flags top := by
              refine Finset.ssubset_iff_subset_ne.mpr ⟨lettersBelow_mono low.le, fun same => ?_⟩
              have here := (mem_lettersBelow holds).mpr low
              rw [← same, mem_lettersBelow holds] at here
              exact Nat.lt_irrefl _ here
            have smaller := Finset.card_lt_card strict
            omega
          obtain ⟨rest, sorted⟩ := induction fewer
          refine ⟨fun other => ?_, List.pairwise_cons.mpr ⟨?_, sorted⟩⟩
          · rw [List.mem_cons, rest]
            constructor
            · rintro (rfl | ⟨holds', low'⟩)
              · exact ⟨holds, low⟩
              · exact ⟨holds', low'.trans low⟩
            · rintro ⟨holds', low'⟩
              obtain ⟨top', there, le⟩ := highest other holds' low'
              rw [found] at there
              cases there
              rcases Nat.eq_or_lt_of_le le with same | less
              · exact .inl (ranked.orders holds'.1 holds.1 same)
              · exact .inr ⟨holds', less⟩
          · intro other member
            exact ((rest other).mp member).2

/-- The privileges that a string of prefixes is made of. -/
def heldModes (table : ChanmodeTable) (flags : Finset Char) : List Chanmode :=
  table.privilegesBelow flags 64 (2 ^ 32 - 1)

theorem heldModes_spec (ranked : Ranked table) (flags : Finset Char) :
    (∀ mode, mode ∈ table.heldModes flags ↔ Held table flags mode) ∧
      (table.heldModes flags).Pairwise fun first second => second.order < first.order := by
  have enough : (table.lettersBelow flags (2 ^ 32 - 1)).card ≤ 64 := by
    calc (table.lettersBelow flags (2 ^ 32 - 1)).card
      _ ≤ chanmodeLetters.toFinset.card := Finset.card_filter_le _ _
      _ ≤ chanmodeLetters.length := List.toFinset_card_le _
      _ = 64 := by rw [chanmodeLetters, List.length_map, List.length_range]
  obtain ⟨members, sorted⟩ := privilegesBelow_spec ranked enough
  refine ⟨fun mode => (members mode).trans (and_iff_left_of_imp fun holds => ?_), sorted⟩
  have bound := (ranked.order holds.1).2
  omega

/-! ## Reading the prefixes back -/

theorem privilegeOfPfx_of_mem (ranked : Ranked table) {letter : Char} {mode : Chanmode} {c : Char}
    (found : table.ofType .privilege letter = some mode) (same : mode.pfx = some c) :
    table.privilegeOfPfx c = some mode := by
  have listed := (letter_of_ofType found).2
  cases first : table.privilegeOfPfx c with
  | none =>
      have missing := List.findSome?_eq_none_iff.mp first letter listed
      rw [found, Option.filter_eq_none_iff] at missing
      exact absurd (decide_eq_true same) (missing mode rfl)
  | some other =>
      obtain ⟨letter', _, there⟩ := List.exists_of_findSome?_eq_some first
      rw [Option.filter_eq_some_iff, decide_eq_true_eq] at there
      rw [ranked.pfxs there.1 found (there.2.trans same.symm)]

theorem privilegeOfPfx_eq_none {c : Char}
    (plain : ∀ letter mode, table.ofType .privilege letter = some mode → mode.pfx ≠ some c) :
    table.privilegeOfPfx c = none := by
  rw [privilegeOfPfx, List.findSome?_eq_none_iff]
  intro letter _
  rw [Option.filter_eq_none_iff]
  intro mode found
  simpa using plain letter mode found

/-- What does not begin with a prefix stands for no flag. -/
theorem chanmodePrefixParse_nick {nick : CString}
    (plain : ∀ c ∈ nick.head?, ∀ letter mode, table.ofType .privilege letter = some mode →
      mode.pfx ≠ some c) : table.chanmodePrefixParse nick = ∅ := by
  cases nick with
  | nil => rfl
  | cons c nick =>
      rw [chanmodePrefixParse, privilegeOfPfx_eq_none (plain c rfl)]
      split <;> rfl

/-- The prefixes of some privileges stand for their letters. -/
theorem chanmodePrefixParse_append (ranked : Ranked table) {modes : List Chanmode}
    (registered : ∀ mode ∈ modes, table.ofType .privilege mode.letter = some mode)
    {nick : CString} (rest : table.chanmodePrefixParse nick = ∅) :
    table.chanmodePrefixParse ((modes.map fun mode => mode.pfx.getD '\x00') ++ nick) =
      (modes.map Chanmode.letter).toFinset := by
  induction modes with
  | nil => exact rest
  | cons mode modes induction =>
      rw [List.forall_mem_cons] at registered
      obtain ⟨c, same, _, notColon⟩ := ranked.pfx registered.1
      have found := privilegeOfPfx_of_mem ranked registered.1 same
      rw [List.map_cons, List.cons_append, same, Option.getD_some, chanmodePrefixParse,
        if_neg notColon, found]
      dsimp only
      rw [induction registered.2, List.map_cons, List.toFinset_cons]

/-- The string that is made of a set of privileges is sorted by falling order, and stands
for exactly that set in front of any nick that does not begin with a prefix. -/
theorem prefix_inverse (ranked : Ranked table)
    (privileges : ∀ letter ∈ flags, (table.ofType .privilege letter).isSome) :
    (∃ modes : List Chanmode,
        table.chanmodePrefixMake flags = (modes.map fun mode => mode.pfx.getD '\x00') ∧
        (∀ mode ∈ modes, table.ofType .privilege mode.letter = some mode) ∧
        (modes.Pairwise fun first second => second.order < first.order) ∧
        (modes.map Chanmode.letter).toFinset = flags) ∧
      ∀ nick : CString,
        (∀ c ∈ nick.head?, ∀ letter mode, table.ofType .privilege letter = some mode →
          mode.pfx ≠ some c) →
        table.chanmodePrefixParse (table.chanmodePrefixMake flags ++ nick) = flags := by
  obtain ⟨members, sorted⟩ := heldModes_spec ranked flags
  have registered : ∀ mode ∈ table.heldModes flags,
      table.ofType .privilege mode.letter = some mode :=
    fun mode member => ((members mode).mp member).1
  have letters : ((table.heldModes flags).map Chanmode.letter).toFinset = flags := by
    ext letter
    rw [List.mem_toFinset, List.mem_map]
    constructor
    · rintro ⟨mode, member, rfl⟩
      exact ((members mode).mp member).2
    · intro flag
      obtain ⟨mode, found⟩ := Option.isSome_iff_exists.mp (privileges letter flag)
      have same := (letter_of_ofType found).1
      subst same
      exact ⟨mode, (members mode).mpr ⟨found, flag⟩, rfl⟩
  refine ⟨⟨table.heldModes flags, rfl, registered, sorted, letters⟩, fun nick plain => ?_⟩
  have read := chanmodePrefixParse_append ranked registered (chanmodePrefixParse_nick plain)
  rw [letters] at read
  exact read

/-! ## The modes that are shipped -/

theorem mem_shippedModes {letter : Char} {mode : Chanmode}
    (found : shipped.ofType .privilege letter = some mode) :
    mode ∈ shippedModes.filter fun mode => mode.type = .privilege := by
  rw [ofType, Option.filter_eq_some_iff] at found
  have listed : shippedModes.find? (fun mode => mode.letter = letter) = some mode := found.1
  exact List.mem_filter.mpr ⟨List.mem_of_find?_eq_some listed, found.2⟩

theorem shipped_ranked : Ranked shipped where
  order found := by
    have all : ∀ mode ∈ shippedModes.filter fun mode => mode.type = .privilege,
        0 < mode.order ∧ mode.order < 2 ^ 31 := by decide
    exact all _ (mem_shippedModes found)
  orders found found' same := by
    have all : ∀ mode ∈ shippedModes.filter fun mode => mode.type = .privilege,
        ∀ mode' ∈ shippedModes.filter fun mode => mode.type = .privilege,
          mode.order = mode'.order → mode = mode' := by decide
    exact all _ (mem_shippedModes found) _ (mem_shippedModes found') same
  pfx found := by
    have all : ∀ mode ∈ shippedModes.filter fun mode => mode.type = .privilege,
        mode.pfx.any fun c => c ≠ '\x00' ∧ c ≠ ':' := by decide
    obtain ⟨c, same, apart⟩ := (Option.any_eq_true _ _).mp (all _ (mem_shippedModes found))
    exact ⟨c, same, of_decide_eq_true apart⟩
  pfxs found found' same := by
    have all : ∀ mode ∈ shippedModes.filter fun mode => mode.type = .privilege,
        ∀ mode' ∈ shippedModes.filter fun mode => mode.type = .privilege,
          mode.pfx = mode'.pfx → mode = mode' := by decide
    exact all _ (mem_shippedModes found) _ (mem_shippedModes found') same

/-- An operator with a voice. -/
theorem prefix_inverse_shipped :
    shipped.chanmodePrefixParse (shipped.chanmodePrefixMake {'o', 'v'} ++ "alice".toList) =
      {'o', 'v'} :=
  (prefix_inverse shipped_ranked (by
    intro letter member
    rcases Finset.mem_insert.mp member with rfl | member
    · decide +kernel
    · rw [Finset.mem_singleton.mp member]
      decide +kernel)).2 "alice".toList (by
    rintro c ⟨⟩ letter mode found same
    have all : ∀ mode ∈ shippedModes.filter fun mode => mode.type = .privilege,
        mode.pfx ≠ some 'a' := by decide
    exact all mode (mem_shippedModes found) same)

end ChanmodeTable

end Chaosircd
