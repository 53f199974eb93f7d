import Mathlib.Data.Bool.Basic
import Mathlib.Logic.Function.Basic
import Mathlib.Order.Lattice

/-!
# Merging two tables of named entries

Two sides merge their tables.  Each introduces its entries to the other one, and
a side that finds the nick of a newcomer taken by an entry that is not younger
registers the newcomer under another nick and bounces it, which tells its home
the new nick.  What a side receives are introductions first and bounces
afterwards.

Both sides decide on their own, and a nick that one of them chooses is compared
with its own table only.  When no choice hits an entry of the other side, the
two tables agree in the end and all nicks are apart.
-/

namespace Chaosircd

namespace NickMerge

variable {U N T : Type*}

structure Entry (N T : Type*) where
  nick : N
  ts : T

/-- The tables of the two sides and what each of them has yet to receive. -/
structure State (U N T : Type*) where
  table : Bool → U → Option (Entry N T)
  intros : Bool → List (U × Entry N T)
  bounces : Bool → List (U × N)

/-- The user holds the nick on a side. -/
def State.Holder (Same : N → N → Prop) (state : State U N T) (side : Bool)
    (nick : N) (user : U) : Prop :=
  ∃ entry, state.table side user = some entry ∧ Same entry.nick nick

variable [DecidableEq U]

/-- The tables after an entry has been written. -/
def setEntry (table : Bool → U → Option (Entry N T)) (side : Bool) (user : U)
    (entry : Entry N T) : Bool → U → Option (Entry N T) :=
  Function.update table side (Function.update (table side) user (some entry))

variable [LinearOrder T]

/-- One delivery.  A newcomer keeps its nick when nobody holds it, or when it is
the older one; otherwise it gets a nick that nobody holds, here or at its home. -/
inductive Deliver (Same : N → N → Prop) (state : State U N T) :
    State U N T → Prop
  | keep {side : Bool} {user : U} {entry : Entry N T}
      {rest : List (U × Entry N T)}
      (next : state.intros side = (user, entry) :: rest)
      (wins : (∀ other, ¬ state.Holder Same side entry.nick other) ∨
        ∃ other holder, state.table side other = some holder ∧
          Same holder.nick entry.nick ∧ entry.ts < holder.ts) :
      Deliver Same state
        { state with
          table := setEntry state.table side user entry
          intros := Function.update state.intros side rest }
  | rename {side : Bool} {user : U} {entry : Entry N T}
      {rest : List (U × Entry N T)} (nick : N) (ts : T)
      (next : state.intros side = (user, entry) :: rest)
      (free : ∀ other, ¬ state.Holder Same side nick other)
      (freeAtHome : ∀ other, other ≠ user →
        ¬ state.Holder Same (!side) nick other) :
      Deliver Same state
        { table := setEntry state.table side user ⟨nick, ts⟩
          intros := Function.update state.intros side rest
          bounces := Function.update state.bounces (!side)
            (state.bounces (!side) ++ [(user, nick)]) }
  | bounce {side : Bool} {user : U} {nick : N} {rest : List (U × N)} (ts : T)
      (introduced : state.intros side = [])
      (next : state.bounces side = (user, nick) :: rest) :
      Deliver Same state
        { state with
          table := setEntry state.table side user ⟨nick, ts⟩
          bounces := Function.update state.bounces side rest }

/-- The nick of a user that was decided on last: the one it is registered with
on the other side, if it is. -/
def State.latest (state : State U N T) (side : Bool) (user : U)
    (entry : Entry N T) : N :=
  ((state.table (!side) user).map Entry.nick).getD entry.nick

/-- The tables that a merge can start from. -/
structure Mergeable (Same : N → N → Prop)
    (start : Bool → U → Option (Entry N T)) : Prop where
  disjoint : ∀ side user entry, start side user = some entry →
    start (!side) user = none
  apart : ∀ side user other entry entry', start side user = some entry →
    start side other = some entry' → Same entry.nick entry'.nick → user = other

/-- What holds during a merge.  Entries that have the same nick are of different
sides, have both kept it, and where one of them is introduced it is older. -/
structure Merging (Same : N → N → Prop) (start : Bool → U → Option (Entry N T))
    (state : State U N T) : Prop where
  home : ∀ side user entry, start side user = some entry →
    ∃ near, state.table side user = some near
  known : ∀ side user entry, state.table side user = some entry →
    (∃ near, start side user = some near) ∨ ∃ far, start (!side) user = some far
  waiting : ∀ side user entry, (user, entry) ∈ state.intros side ↔
    start (!side) user = some entry ∧ state.table side user = none
  introsDistinct : ∀ side, ((state.intros side).map Prod.fst).Nodup
  bouncesDistinct : ∀ side, ((state.bounces side).map Prod.fst).Nodup
  untouched : ∀ side, state.intros side ≠ [] → ∀ user entry,
    start side user = some entry → state.table side user = some entry
  unknown : ∀ side user entry, start side user = some entry →
    state.table (!side) user = none → state.table side user = some entry
  bounced : ∀ side user nick, (user, nick) ∈ state.bounces side →
    (∃ near, start side user = some near) ∧
      ∃ far, state.table (!side) user = some far ∧ far.nick = nick
  agreed : ∀ side user entry far, start side user = some entry →
    state.table (!side) user = some far →
      (∀ nick, (user, nick) ∉ state.bounces side) →
        ∃ near, state.table side user = some near ∧ near.nick = far.nick
  apart : ∀ side side' user other entry entry',
    start side user = some entry → start side' other = some entry' →
      user ≠ other →
        Same (state.latest side user entry) (state.latest side' other entry') →
          side' = !side ∧ state.latest side user entry = entry.nick ∧
            state.latest side' other entry' = entry'.nick ∧
            (state.table (!side) user ≠ none → entry.ts < entry'.ts) ∧
            (state.table (!side') other ≠ none → entry'.ts < entry.ts)

section

omit [LinearOrder T]

theorem setEntry_self (table : Bool → U → Option (Entry N T)) (side : Bool)
    (user : U) (entry : Entry N T) :
    setEntry table side user entry side user = some entry := by
  simp [setEntry]

theorem setEntry_side (table : Bool → U → Option (Entry N T)) (side : Bool)
    (user : U) (entry : Entry N T) :
    setEntry table side user entry side =
      Function.update (table side) user (some entry) :=
  Function.update_self _ _ _

theorem setEntry_flip (table : Bool → U → Option (Entry N T)) (side : Bool)
    (user : U) (entry : Entry N T) :
    setEntry table side user entry (!side) = table (!side) :=
  Function.update_of_ne (by simp) _ _

omit [DecidableEq U] in
theorem same_of_not_differ {side side' : Bool} {user other : U}
    (same : ¬ (side' ≠ side ∨ other ≠ user)) : side' = side ∧ other = user := by
  simpa only [not_or, ne_eq, not_not] using same

omit [DecidableEq U] in
/-- Where the entries of a table differ, so do the places. -/
theorem differ_of_ne {table : Bool → U → Option (Entry N T)} {side side' : Bool}
    {user other : U} (distinct : table side' other ≠ table side user) :
    side' ≠ side ∨ other ≠ user := by
  by_contra same
  obtain ⟨rfl, rfl⟩ := same_of_not_differ same
  exact distinct rfl

omit [DecidableEq U] in
theorem differ_of_not_home {side side' : Bool} {user other : U}
    (abroad : ¬ (side' = !side ∧ other = user)) :
    (!side') ≠ side ∨ other ≠ user := by
  by_contra same
  obtain ⟨isSide, isUser⟩ := same_of_not_differ same
  exact abroad ⟨by rw [← isSide, Bool.not_not], isUser⟩

theorem setEntry_of_ne (table : Bool → U → Option (Entry N T))
    {side side' : Bool} {user other : U} (entry : Entry N T)
    (differs : side' ≠ side ∨ other ≠ user) :
    setEntry table side user entry side' other = table side' other := by
  by_cases sameSide : side' = side
  · subst sameSide
    simp [setEntry, Function.update_of_ne (differs.resolve_left fun h => h rfl)]
  · simp [setEntry, Function.update_of_ne sameSide]

end

variable {Same : N → N → Prop} {start : Bool → U → Option (Entry N T)}
  {state next : State U N T}

omit [DecidableEq U] in
/-- The merge starts with all introductions under way. -/
theorem Mergeable.merging (mergeable : Mergeable Same start)
    {intros : Bool → List (U × Entry N T)}
    (distinct : ∀ side, ((intros side).map Prod.fst).Nodup)
    (complete : ∀ side user entry, (user, entry) ∈ intros side ↔
      start (!side) user = some entry) :
    Merging Same start ⟨start, intros, fun _ => []⟩ where
  home := fun _ _ entry isStart => ⟨entry, isStart⟩
  known := fun _ _ entry isStart => .inl ⟨entry, isStart⟩
  waiting := by
    intro side user entry
    rw [complete]
    refine ⟨fun isStart => ⟨isStart, ?_⟩, And.left⟩
    have none := mergeable.disjoint (!side) user entry isStart
    rwa [Bool.not_not] at none
  introsDistinct := distinct
  bouncesDistinct := fun _ => List.nodup_nil
  untouched := fun _ _ _ _ isStart => isStart
  unknown := fun _ _ _ isStart _ => isStart
  bounced := fun _ _ _ member => absurd member List.not_mem_nil
  agreed := by
    intro side user entry far isStart isFar
    have none := mergeable.disjoint side user entry isStart
    exact absurd (isFar.symm.trans none) (by simp)
  apart := by
    intro side side' user other entry entry' isStart isStart' different same
    have none := mergeable.disjoint side user entry isStart
    have none' := mergeable.disjoint side' other entry' isStart'
    simp only [State.latest, none, none', Option.map_none,
      Option.getD_none] at same ⊢
    refine ⟨?_, trivial, trivial, fun some => absurd rfl some,
      fun some => absurd rfl some⟩
    by_contra sameSide
    have isSide : side' = side := by
      cases side <;> cases side' <;> simp_all
    subst isSide
    exact different
      (mergeable.apart side' user other entry entry' isStart isStart' same)

omit [DecidableEq U] in
/-- After the merge both sides have the same nick for every user, and all nicks
are apart. -/
theorem Merging.finished (merging : Merging Same start state)
    (noIntros : ∀ side, state.intros side = [])
    (noBounces : ∀ side, state.bounces side = []) :
    (∀ side user entry, start side user = some entry →
      ∃ near far, state.table side user = some near ∧
        state.table (!side) user = some far ∧ near.nick = far.nick) ∧
    ∀ side user other entry entry', state.table side user = some entry →
      state.table side other = some entry' → Same entry.nick entry'.nick →
        user = other := by
  have agreed : ∀ side user entry, start side user = some entry →
      ∃ near far, state.table side user = some near ∧
        state.table (!side) user = some far ∧ near.nick = far.nick := by
    intro side user entry isStart
    cases isFar : state.table (!side) user with
    | none =>
        have waiting := (merging.waiting (!side) user entry).mpr
          ⟨by rwa [Bool.not_not], isFar⟩
        rw [noIntros] at waiting
        exact absurd waiting List.not_mem_nil
    | some far =>
        obtain ⟨near, isNear, same⟩ := merging.agreed side user entry far isStart
          isFar fun nick member => by
            rw [noBounces] at member
            exact absurd member List.not_mem_nil
        exact ⟨near, far, isNear, rfl, same⟩
  refine ⟨agreed, ?_⟩
  -- every nick in a table is the one decided on last
  have latest : ∀ side user entry, state.table side user = some entry →
      ∃ side' entry', start side' user = some entry' ∧
        state.table (!side') user ≠ none ∧
          state.latest side' user entry' = entry.nick := by
    intro side user entry isEntry
    rcases merging.known side user entry isEntry with ⟨near, isStart⟩ | ⟨far, isStart⟩
    · obtain ⟨near', far', isNear, isFar, same⟩ := agreed side user near isStart
      obtain rfl := Option.some.inj (isNear.symm.trans isEntry)
      refine ⟨side, near, isStart, by simp [isFar], ?_⟩
      simp [State.latest, isFar, same]
    · refine ⟨!side, far, isStart, by simp [isEntry], ?_⟩
      simp [State.latest, isEntry]
  intro side user other entry entry' isEntry isEntry' same
  by_contra different
  obtain ⟨side₁, start₁, isStart₁, far₁, latest₁⟩ := latest side user entry isEntry
  obtain ⟨side₂, start₂, isStart₂, far₂, latest₂⟩ :=
    latest side other entry' isEntry'
  rw [← latest₁, ← latest₂] at same
  obtain ⟨-, -, -, older, older'⟩ := merging.apart side₁ side₂ user other start₁
    start₂ isStart₁ isStart₂ different same
  exact lt_asymm (older far₁) (older' far₂)

/-! ## A newcomer is registered -/

section Register

variable {side : Bool} {user : U} {entry : Entry N T}
  {rest : List (U × Entry N T)}

omit [DecidableEq U] in
theorem Merging.newcomer (merging : Merging Same start state)
    (next : state.intros side = (user, entry) :: rest) :
    start (!side) user = some entry ∧ state.table side user = none ∧
      state.table (!side) user = some entry := by
  have member : (user, entry) ∈ state.intros side := by
    rw [next]
    exact List.mem_cons_self
  obtain ⟨isStart, none⟩ := (merging.waiting side user entry).mp member
  exact ⟨isStart, none, merging.unknown (!side) user entry isStart
    (by rwa [Bool.not_not])⟩

omit [DecidableEq U] in
/-- No bounce of a newcomer is under way. -/
theorem Merging.not_bounced (merging : Merging Same start state)
    (next : state.intros side = (user, entry) :: rest) (nick : N) :
    (user, nick) ∉ state.bounces (!side) := by
  intro member
  obtain ⟨-, far, isFar, -⟩ := merging.bounced (!side) user nick member
  rw [Bool.not_not, (merging.newcomer next).2.1] at isFar
  cases isFar

omit [LinearOrder T] in
/-- The nicks decided on last, after a newcomer has been registered. -/
theorem latest_register (state : State U N T) (side : Bool) (user : U)
    (entry : Entry N T) (next : State U N T)
    (isTable : next.table = setEntry state.table side user entry)
    (side' : Bool) (other : U) (start : Entry N T) :
    next.latest side' other start =
      if side' = !side ∧ other = user then entry.nick
      else state.latest side' other start := by
  split_ifs with isUser
  · obtain ⟨rfl, rfl⟩ := isUser
    simp [State.latest, isTable, Bool.not_not, setEntry_self]
  · simp only [State.latest, isTable]
    rw [setEntry_of_ne _ _ (differ_of_not_home isUser)]

/-- Everything but the last clause of the invariant survives a registration,
with a bounce or under the old nick. -/
theorem Merging.register (merging : Merging Same start state)
    (mergeable : Mergeable Same start)
    (isNext : state.intros side = (user, entry) :: rest) (entry' : Entry N T)
    (isTable : next.table = setEntry state.table side user entry')
    (isIntros : next.intros = Function.update state.intros side rest)
    (isBounces : next.bounces = state.bounces ∧ entry'.nick = entry.nick ∨
      next.bounces = Function.update state.bounces (!side)
        (state.bounces (!side) ++ [(user, entry'.nick)]))
    (apart : ∀ side side' user other entry entry',
      start side user = some entry → start side' other = some entry' →
        user ≠ other →
          Same (next.latest side user entry) (next.latest side' other entry') →
            side' = !side ∧ next.latest side user entry = entry.nick ∧
              next.latest side' other entry' = entry'.nick ∧
              (next.table (!side) user ≠ none → entry.ts < entry'.ts) ∧
              (next.table (!side') other ≠ none → entry'.ts < entry.ts)) :
    Merging Same start next := by
  obtain ⟨isStart, wasNone, isHome⟩ := merging.newcomer isNext
  have notHere : start side user = none := by
    have none := mergeable.disjoint (!side) user entry isStart
    rwa [Bool.not_not] at none
  have written : next.table side user = some entry' := by
    rw [isTable, setEntry_self]
  have kept : ∀ side' other, side' ≠ side ∨ other ≠ user →
      next.table side' other = state.table side' other := by
    intro side' other differs
    rw [isTable, setEntry_of_ne _ _ differs]
  -- a user of the side is not the newcomer
  have atHome : ∀ side' other entry, start side' other = some entry →
      side' ≠ side ∨ other ≠ user := by
    intro side' other entry isEntry
    have distinct : start side' other ≠ start side user := by
      simp [isEntry, notHere]
    exact differ_of_ne distinct
  have oldBounce : ∀ side' other nick, (other, nick) ∈ state.bounces side' →
      (other, nick) ∈ next.bounces side' := by
    intro side' other nick member
    rcases isBounces with ⟨same, -⟩ | added
    · rwa [same]
    · rw [added]
      by_cases isHome' : side' = !side
      · subst isHome'
        rw [Function.update_self]
        exact List.mem_append_left _ member
      · rwa [Function.update_of_ne isHome']
  constructor
  · intro side' other near isNear
    obtain ⟨near', isNear'⟩ := merging.home side' other near isNear
    exact ⟨near', (kept _ _ (atHome side' other near isNear)).trans isNear'⟩
  · intro side' other shown isShown
    by_cases differs : side' ≠ side ∨ other ≠ user
    · rw [kept _ _ differs] at isShown
      exact merging.known side' other shown isShown
    · obtain ⟨rfl, rfl⟩ := same_of_not_differ differs
      exact .inr ⟨entry, isStart⟩
  · intro side' other shown
    have waiting := merging.waiting side' other shown
    by_cases isSide : side' = side
    · subst isSide
      rw [isNext, List.mem_cons] at waiting
      rw [isIntros, Function.update_self]
      have distinct := merging.introsDistinct side'
      rw [isNext, List.map_cons, List.nodup_cons] at distinct
      by_cases isUser : other = user
      · subst isUser
        refine iff_of_false (fun member => distinct.1 ?_) fun both => ?_
        · exact List.mem_map.mpr ⟨_, member, rfl⟩
        · rw [written] at both
          exact absurd both.2 (by simp)
      · rw [kept _ _ (.inr isUser), ← waiting]
        simp [isUser]
    · rw [isIntros, Function.update_of_ne isSide, kept _ _ (.inl isSide)]
      exact waiting
  · intro side'
    rw [isIntros]
    by_cases isSide : side' = side
    · subst isSide
      have distinct := merging.introsDistinct side'
      rw [isNext, List.map_cons, List.nodup_cons] at distinct
      rw [Function.update_self]
      exact distinct.2
    · rw [Function.update_of_ne isSide]
      exact merging.introsDistinct side'
  · intro side'
    rcases isBounces with ⟨same, -⟩ | added
    · rw [same]
      exact merging.bouncesDistinct side'
    · rw [added]
      by_cases isHome' : side' = !side
      · subst isHome'
        rw [Function.update_self, List.map_append, List.map_singleton]
        refine List.nodup_append.mpr
          ⟨merging.bouncesDistinct (!side), by simp, ?_⟩
        rintro other member user' isUser rfl
        obtain ⟨⟨other', nick⟩, bounce, rfl⟩ := List.mem_map.mp member
        obtain rfl : other' = user := List.mem_singleton.mp isUser
        exact merging.not_bounced isNext nick bounce
      · rw [Function.update_of_ne isHome']
        exact merging.bouncesDistinct side'
  · intro side' pending other near isNear
    rw [kept _ _ (atHome side' other near isNear)]
    refine merging.untouched side' ?_ other near isNear
    by_cases isSide : side' = side
    · rw [isSide, isNext]
      exact List.cons_ne_nil _ _
    · rwa [isIntros, Function.update_of_ne isSide] at pending
  · intro side' other near isNear isNone
    rw [kept _ _ (atHome side' other near isNear)]
    refine merging.unknown side' other near isNear ?_
    have distinct : next.table (!side') other ≠ next.table side user := by
      simp [isNone, written]
    rw [← kept _ _ (differ_of_ne distinct)]
    exact isNone
  · intro side' other nick member
    have old : (other, nick) ∈ state.bounces side' →
        (∃ near, start side' other = some near) ∧
          ∃ far, next.table (!side') other = some far ∧ far.nick = nick := by
      intro member
      obtain ⟨near, far, isFar, isNick⟩ := merging.bounced side' other nick member
      have distinct : state.table (!side') other ≠ state.table side user := by
        simp [isFar, wasNone]
      refine ⟨near, far, ?_, isNick⟩
      rw [kept _ _ (differ_of_ne distinct)]
      exact isFar
    rcases isBounces with ⟨same, -⟩ | added
    · rw [same] at member
      exact old member
    · rw [added] at member
      by_cases isHome' : side' = !side
      · subst isHome'
        rw [Function.update_self] at member
        rcases List.mem_append.mp member with earlier | new
        · exact old earlier
        · obtain ⟨rfl, rfl⟩ := Prod.mk.inj (List.mem_singleton.mp new)
          refine ⟨⟨entry, isStart⟩, entry', ?_, rfl⟩
          rw [Bool.not_not]
          exact written
      · rw [Function.update_of_ne isHome'] at member
        exact old member
  · intro side' other near far isNear isFar noBounce
    rw [kept _ _ (atHome side' other near isNear)]
    by_cases differs : (!side') ≠ side ∨ other ≠ user
    · rw [kept _ _ differs] at isFar
      exact merging.agreed side' other near far isNear isFar fun nick member =>
        noBounce nick (oldBounce side' other nick member)
    · obtain ⟨isSide, rfl⟩ := same_of_not_differ differs
      have isSide' : side' = !side := by rw [← isSide, Bool.not_not]
      rw [isSide, written] at isFar
      obtain rfl := Option.some.inj isFar
      rcases isBounces with ⟨-, sameNick⟩ | added
      · exact ⟨entry, by rw [isSide', isHome], sameNick.symm⟩
      · refine absurd ?_ (noBounce entry'.nick)
        rw [added, isSide', Function.update_self]
        exact List.mem_append_right _ (List.mem_singleton_self _)
  · exact apart

omit [DecidableEq U] in
/-- A newcomer that keeps its nick is older than the user of the side that has
the same one. -/
theorem Merging.older (equivalence : Equivalence Same)
    (merging : Merging Same start state) (mergeable : Mergeable Same start)
    (isNext : state.intros side = (user, entry) :: rest)
    (wins : (∀ other, ¬ state.Holder Same side entry.nick other) ∨
      ∃ other holder, state.table side other = some holder ∧
        Same holder.nick entry.nick ∧ entry.ts < holder.ts)
    {other : U} {entry' : Entry N T} (isOther : start side other = some entry')
    (same : Same entry.nick entry'.nick) : entry.ts < entry'.ts := by
  obtain ⟨isStart, wasNone, -⟩ := merging.newcomer isNext
  have untouched := merging.untouched side (by rw [isNext]; exact List.cons_ne_nil _ _)
  have isEntry' := untouched other entry' isOther
  rcases wins with nobody | ⟨third, holder, isHolder, sameNick, older⟩
  · exact absurd ⟨entry', isEntry', equivalence.symm same⟩ (nobody other)
  · rcases merging.known side third holder isHolder with
      ⟨near, isNear⟩ | ⟨far, isFar⟩
    · -- a user of the side still has the nick it started with
      obtain rfl := Option.some.inj
        (isHolder.symm.trans (untouched third near isNear))
      obtain rfl := mergeable.apart side third other holder entry' isNear isOther
        (equivalence.trans sameNick same)
      obtain rfl := Option.some.inj (isNear.symm.trans isOther)
      exact older
    · -- another newcomer cannot have the nick
      have different : third ≠ user := by
        rintro rfl
        rw [wasNone] at isHolder
        cases isHolder
      have latest : state.latest (!side) third far = holder.nick := by
        simp [State.latest, isHolder]
      have latest' : state.latest (!side) user entry = entry.nick := by
        simp [State.latest, wasNone]
      obtain ⟨flipped, -⟩ := merging.apart (!side) (!side) third user far entry
        isFar isStart different (by rw [latest, latest']; exact sameNick)
      exact absurd flipped (by simp)

theorem Merging.keep (equivalence : Equivalence Same)
    (merging : Merging Same start state) (mergeable : Mergeable Same start)
    (isNext : state.intros side = (user, entry) :: rest)
    (wins : (∀ other, ¬ state.Holder Same side entry.nick other) ∨
      ∃ other holder, state.table side other = some holder ∧
        Same holder.nick entry.nick ∧ entry.ts < holder.ts) :
    Merging Same start
      { state with
        table := setEntry state.table side user entry
        intros := Function.update state.intros side rest } := by
  obtain ⟨isStart, wasNone, -⟩ := merging.newcomer isNext
  refine merging.register mergeable isNext entry rfl rfl (.inl ⟨rfl, rfl⟩) ?_
  intro side₁ side₂ user₁ user₂ entry₁ entry₂ isStart₁ isStart₂ different same
  have latest : ∀ side' other shown, start side' other = some shown →
      State.latest { state with
        table := setEntry state.table side user entry
        intros := Function.update state.intros side rest } side' other shown =
          state.latest side' other shown := by
    intro side' other shown isShown
    rw [latest_register state side user entry _ rfl]
    split_ifs with isUser
    · obtain ⟨rfl, rfl⟩ := isUser
      obtain rfl := Option.some.inj (isStart.symm.trans isShown)
      simp [State.latest, wasNone]
    · rfl
  -- whoever is introduced now or was before is the older one
  have older : ∀ side' first second entry₁ entry₂,
      start side' first = some entry₁ → start (!side') second = some entry₂ →
        Same entry₁.nick entry₂.nick →
          (state.table (!side') first ≠ none → entry₁.ts < entry₂.ts) →
            setEntry state.table side user entry (!side') first ≠ none →
              entry₁.ts < entry₂.ts := by
    intro side' first second entry₁ entry₂ isStart₁ isStart₂ sameNick before some
    by_cases differs : (!side') ≠ side ∨ first ≠ user
    · rw [setEntry_of_ne _ _ differs] at some
      exact before some
    · obtain ⟨isSide, rfl⟩ := same_of_not_differ differs
      subst isSide
      rw [Bool.not_not] at isStart
      obtain rfl := Option.some.inj (isStart.symm.trans isStart₁)
      exact merging.older equivalence mergeable isNext wins isStart₂ sameNick
  rw [latest side₁ user₁ entry₁ isStart₁, latest side₂ user₂ entry₂ isStart₂] at *
  obtain ⟨rfl, kept₁, kept₂, before₁, before₂⟩ := merging.apart side₁ side₂ user₁
    user₂ entry₁ entry₂ isStart₁ isStart₂ different same
  rw [kept₁, kept₂] at same
  refine ⟨rfl, kept₁, kept₂, ?_, ?_⟩
  · exact older side₁ user₁ user₂ entry₁ entry₂ isStart₁ isStart₂ same before₁
  · refine older (!side₁) user₂ user₁ entry₂ entry₁ isStart₂ ?_
      (equivalence.symm same) before₂
    rwa [Bool.not_not]

omit [DecidableEq U] in
/-- No user has the nick that a newcomer is given. -/
theorem Merging.latest_free (merging : Merging Same start state) {nick : N}
    (free : ∀ other, ¬ state.Holder Same side nick other)
    (freeAtHome : ∀ other, other ≠ user →
      ¬ state.Holder Same (!side) nick other)
    {side' : Bool} {other : U} {shown : Entry N T}
    (isShown : start side' other = some shown) (different : other ≠ user) :
    ¬ Same (state.latest side' other shown) nick := by
  have notHeld : ∀ side' entry, state.table side' other = some entry →
      ¬ Same entry.nick nick := by
    intro side' entry isEntry same
    rcases Bool.eq_or_eq_not side' side with rfl | rfl
    · exact free other ⟨entry, isEntry, same⟩
    · exact freeAtHome other different ⟨entry, isEntry, same⟩
  cases isFar : state.table (!side') other with
  | none =>
      have isNear := merging.unknown side' other shown isShown isFar
      simpa [State.latest, isFar] using notHeld side' shown isNear
  | some far => simpa [State.latest, isFar] using notHeld (!side') far isFar

theorem Merging.rename (equivalence : Equivalence Same)
    (merging : Merging Same start state) (mergeable : Mergeable Same start)
    (isNext : state.intros side = (user, entry) :: rest) {nick : N} {ts : T}
    (free : ∀ other, ¬ state.Holder Same side nick other)
    (freeAtHome : ∀ other, other ≠ user →
      ¬ state.Holder Same (!side) nick other) :
    Merging Same start
      { table := setEntry state.table side user ⟨nick, ts⟩
        intros := Function.update state.intros side rest
        bounces := Function.update state.bounces (!side)
          (state.bounces (!side) ++ [(user, nick)]) } := by
  obtain ⟨isStart, wasNone, -⟩ := merging.newcomer isNext
  refine merging.register mergeable isNext ⟨nick, ts⟩ rfl rfl (.inr rfl) ?_
  intro side₁ side₂ user₁ user₂ entry₁ entry₂ isStart₁ isStart₂ different same
  have latest := latest_register state side user ⟨nick, ts⟩
    { table := setEntry state.table side user ⟨nick, ts⟩
      intros := Function.update state.intros side rest
      bounces := Function.update state.bounces (!side)
        (state.bounces (!side) ++ [(user, nick)]) } rfl
  rw [latest side₁ user₁ entry₁, latest side₂ user₂ entry₂] at same ⊢
  by_cases first : side₁ = !side ∧ user₁ = user
  · obtain ⟨rfl, rfl⟩ := first
    rw [if_pos ⟨rfl, rfl⟩, if_neg fun both => different both.2.symm] at same
    exact absurd (equivalence.symm same)
      (merging.latest_free free freeAtHome isStart₂ (Ne.symm different))
  · by_cases second : side₂ = !side ∧ user₂ = user
    · obtain ⟨rfl, rfl⟩ := second
      rw [if_neg first, if_pos ⟨rfl, rfl⟩] at same
      exact absurd same
        (merging.latest_free free freeAtHome isStart₁ different)
    · rw [if_neg first, if_neg second] at same ⊢
      have unchanged : ∀ side' other shown, start side' other = some shown →
          ¬ (side' = !side ∧ other = user) →
            setEntry state.table side user ⟨nick, ts⟩ (!side') other =
              state.table (!side') other := by
        intro side' other shown isShown notUser
        exact setEntry_of_ne _ _ (differ_of_not_home notUser)
      dsimp only
      rw [unchanged side₁ user₁ entry₁ isStart₁ first,
        unchanged side₂ user₂ entry₂ isStart₂ second]
      exact merging.apart side₁ side₂ user₁ user₂ entry₁ entry₂ isStart₁ isStart₂
        different same

end Register

/-! ## A bounce reaches its user -/

theorem Merging.bounce (merging : Merging Same start state)
    (mergeable : Mergeable Same start) {side : Bool} {user : U} {nick : N}
    {rest : List (U × N)} (ts : T) (introduced : state.intros side = [])
    (isNext : state.bounces side = (user, nick) :: rest) :
    Merging Same start
      { state with
        table := setEntry state.table side user ⟨nick, ts⟩
        bounces := Function.update state.bounces side rest } := by
  have isBounce : (user, nick) ∈ state.bounces side := by
    rw [isNext]
    exact List.mem_cons_self
  obtain ⟨⟨start₀, isStart⟩, far, isFar, isNick⟩ :=
    merging.bounced side user nick isBounce
  have notThere := mergeable.disjoint side user start₀ isStart
  have distinct := merging.bouncesDistinct side
  rw [isNext, List.map_cons, List.nodup_cons] at distinct
  have written := setEntry_self state.table side user ⟨nick, ts⟩
  -- the tables differ at the home of the user only
  have abroad : ∀ side' other shown, start side' other = some shown →
      setEntry state.table side user ⟨nick, ts⟩ (!side') other =
        state.table (!side') other := by
    intro side' other shown isShown
    have distinct : start side' other ≠ start (!side) user := by
      simp [isShown, notThere]
    refine setEntry_of_ne _ _ ((differ_of_ne distinct).imp_left fun differs same => ?_)
    exact differs (by rw [← same, Bool.not_not])
  constructor
  · intro side' other near isNear
    by_cases differs : side' ≠ side ∨ other ≠ user
    · obtain ⟨near', isNear'⟩ := merging.home side' other near isNear
      exact ⟨near', (setEntry_of_ne _ _ differs).trans isNear'⟩
    · obtain ⟨rfl, rfl⟩ := same_of_not_differ differs
      exact ⟨_, written⟩
  · intro side' other shown isShown
    by_cases differs : side' ≠ side ∨ other ≠ user
    · exact merging.known side' other shown
        ((setEntry_of_ne _ _ differs).symm.trans isShown)
    · obtain ⟨rfl, rfl⟩ := same_of_not_differ differs
      exact .inl ⟨start₀, isStart⟩
  · intro side' other shown
    by_cases differs : side' ≠ side ∨ other ≠ user
    · dsimp only
      rw [setEntry_of_ne _ _ differs]
      exact merging.waiting side' other shown
    · obtain ⟨rfl, rfl⟩ := same_of_not_differ differs
      dsimp only
      rw [introduced, written]
      exact iff_of_false List.not_mem_nil fun both => by simp at both
  · exact merging.introsDistinct
  · intro side'
    dsimp only
    by_cases isSide : side' = side
    · subst isSide
      rw [Function.update_self]
      exact distinct.2
    · rw [Function.update_of_ne isSide]
      exact merging.bouncesDistinct side'
  · intro side' pending other near isNear
    have notSide : side' ≠ side := by
      rintro rfl
      exact pending introduced
    exact (setEntry_of_ne _ _ (.inl notSide)).trans
      (merging.untouched side' pending other near isNear)
  · intro side' other near isNear isNone
    dsimp only at isNone ⊢
    rw [abroad side' other near isNear] at isNone
    have distinct : state.table (!side') other ≠ state.table (!side) user := by
      simp [isNone, isFar]
    have differs := (differ_of_ne distinct).imp_left fun differs same =>
      differs (congrArg not same)
    rw [setEntry_of_ne _ _ differs]
    exact merging.unknown side' other near isNear isNone
  · intro side' other nick' member
    have old : (other, nick') ∈ state.bounces side' := by
      dsimp only at member
      by_cases isSide : side' = side
      · subst isSide
        rw [Function.update_self] at member
        rw [isNext]
        exact List.mem_cons_of_mem _ member
      · rwa [Function.update_of_ne isSide] at member
    obtain ⟨⟨near, isNear⟩, far', isFar', isNick'⟩ :=
      merging.bounced side' other nick' old
    exact ⟨⟨near, isNear⟩, far',
      (abroad side' other near isNear).trans isFar', isNick'⟩
  · intro side' other near far' isNear isFar' noBounce
    dsimp only at isFar' noBounce ⊢
    rw [abroad side' other near isNear] at isFar'
    by_cases differs : side' ≠ side ∨ other ≠ user
    · rw [setEntry_of_ne _ _ differs]
      refine merging.agreed side' other near far' isNear isFar' fun nick' member =>
        noBounce nick' ?_
      by_cases isSide : side' = side
      · subst isSide
        rw [isNext, List.mem_cons] at member
        rw [Function.update_self]
        refine member.resolve_left fun same => ?_
        exact differs.resolve_left (fun h => h rfl) (Prod.mk.inj same).1
      · rwa [Function.update_of_ne isSide]
    · obtain ⟨rfl, rfl⟩ := same_of_not_differ differs
      obtain rfl := Option.some.inj (isFar.symm.trans isFar')
      exact ⟨_, written, isNick.symm⟩
  · intro side₁ side₂ user₁ user₂ entry₁ entry₂ isStart₁ isStart₂
    simp only [State.latest]
    rw [abroad side₁ user₁ entry₁ isStart₁, abroad side₂ user₂ entry₂ isStart₂]
    exact merging.apart side₁ side₂ user₁ user₂ entry₁ entry₂ isStart₁ isStart₂

/-- Every delivery keeps the invariant. -/
theorem Merging.deliver (equivalence : Equivalence Same)
    (mergeable : Mergeable Same start) (merging : Merging Same start state)
    (delivered : Deliver Same state next) : Merging Same start next := by
  cases delivered with
  | keep isNext wins => exact merging.keep equivalence mergeable isNext wins
  | rename nick ts isNext free freeAtHome =>
      exact merging.rename equivalence mergeable isNext free freeAtHome
  | bounce ts introduced isNext =>
      exact merging.bounce mergeable ts introduced isNext

end NickMerge

end Chaosircd
