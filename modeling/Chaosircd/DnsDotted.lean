import Chaosircd.DnsText

/-!
# Names with dots

A host name has dots between its labels where a name in a packet has their lengths before
them.  `dns_dot_to_dn` collects a label and then a name in two buffers of its own and takes
the bytes behind a backslash as they are, or as an octal number; every backslash counts as a
byte of the output that will not be needed.
-/

namespace Chaosircd

namespace Dns

/-! ## From dots to lengths -/

/-- `memcpy(dst + at, src, size)` copies the cells as they are; behind the end of the source
there are bytes of which nothing is known. -/
def memcpy (dst : Region) (at_ : Nat) (src : Region) (size : Nat) : Except Fault Region :=
  if at_ + size ≤ dst.length then
    .ok (dst.take at_ ++ (src ++ Region.fresh (size - src.length)).take size ++
      dst.drop (at_ + size))
  else .error .overrun

/-- The variables of `dns_dot_to_dn`, with the position of `d`. -/
structure DnWalk where
  label : Region
  labellen : Nat
  name : Region
  namelen : Nat
  n : Nat
  d : Nat
  deriving DecidableEq

/-- `ch >= '0' && ch <= '7'` -/
def isOctal (ch : UInt8) : Bool :=
  48 ≤ ch && ch ≤ 55

/-- Puts the label behind the name; no walk stands for `return 0`. -/
def DnWalk.flush (walk : DnWalk) : Except Fault (Option DnWalk) :=
  if 255 < walk.namelen + walk.labellen + 1 then .ok none
  else do
    let name ← walk.name.write walk.namelen (UInt8.ofNat walk.labellen)
    let name ← memcpy name (walk.namelen + 1) walk.label walk.labellen
    pure (some { walk with
      name := name, namelen := walk.namelen + 1 + walk.labellen, labellen := 0 })

/-- One more octal digit, where there is room and there is one. -/
def octalDigit (src : Region) (ch : UInt8) (walk : DnWalk) :
    Except Fault (Option (UInt8 × DnWalk)) :=
  if walk.n = 0 then .ok none
  else do
    let next ← src.read walk.d
    if isOctal next then
      pure (some (ch * 8 + (next - 48), { walk with d := walk.d + 1, n := walk.n - 1 }))
    else pure none

/-- What is behind a backslash, which is already counted. -/
def octalEscape (src : Region) (walk : DnWalk) : Except Fault (UInt8 × DnWalk) := do
  let ch ← src.read walk.d
  let walk := { walk with d := walk.d + 1 }
  if isOctal ch then
    match ← octalDigit src (ch - 48) walk with
    | none => pure (ch - 48, walk)
    | some (ch, walk) =>
      match ← octalDigit src ch walk with
      | none => pure (ch, walk)
      | some (ch, walk) => pure (ch, walk)
  else pure (ch, walk)

/-- How a turn of the loop ends: with `return 0`, behind the loop, or before the next one. -/
inductive Turn where
  | fail
  | stop (walk : DnWalk)
  | next (walk : DnWalk)
  deriving DecidableEq

/-- The end of a turn, which puts a byte in the label. -/
def DnWalk.append (walk : DnWalk) (ch : UInt8) : Except Fault Turn :=
  if 63 ≤ walk.labellen then .ok .fail
  else if walk.n < walk.namelen then .ok (.stop walk)
  else do
    let label ← walk.label.write walk.labellen ch
    pure (.next { walk with label := label, labellen := walk.labellen + 1 })

/-- A dot in `dns_dot_to_dn`. -/
def DnWalk.dot (walk : DnWalk) : Except Fault Turn :=
  if walk.labellen = 0 then .ok (.next walk)
  else do
    match ← walk.flush with
    | none => pure .fail
    | some walk => pure (.next walk)

/-- A backslash; `n` is a `size_t`. -/
def DnWalk.escape (src : Region) (walk : DnWalk) : Except Fault Turn :=
  if walk.n = 0 then .ok (.stop { walk with n := 2 ^ 64 - 1 })
  else do
    let (ch, walk) ← octalEscape src { walk with n := walk.n - 1 }
    walk.append ch

/-- `while(*d)` in `dns_dot_to_dn`, once. -/
def dotToDnTurn (src : Region) (walk : DnWalk) : Except Fault Turn := do
  let ch ← src.read walk.d
  if ch = 0 then pure (.stop walk)
  else
    let walk := { walk with d := walk.d + 1 }
    if ch = 46 then walk.dot
    else if ch = 92 then walk.escape src
    else walk.append ch

/-- The loop of `dns_dot_to_dn`; no walk stands for `return 0`. -/
def dotToDnLoop (src : Region) : Nat → DnWalk → Except Fault (Option DnWalk)
  | 0, _ => .error .endless
  | turns + 1, walk =>
    match dotToDnTurn src walk with
    | .error fault => .error fault
    | .ok .fail => .ok none
    | .ok (.stop walk) => .ok (some walk)
    | .ok (.next walk) => dotToDnLoop src turns walk

/-- The root behind the name, and the copy of it. -/
def DnWalk.close (walk : DnWalk) (out : Region) : Except Fault (Nat × Region) :=
  if 255 < walk.namelen + 1 then .ok (0, out)
  else do
    let name ← walk.name.write walk.namelen 0
    let out ← memcpy out 0 name walk.n
    pure (walk.namelen + 1, out)

/-- What `dns_dot_to_dn` does behind its loop. -/
def DnWalk.finish (walk : DnWalk) (out : Region) : Except Fault (Nat × Region) :=
  if walk.labellen = 0 then walk.close out
  else
    match walk.flush with
    | .error fault => .error fault
    | .ok none => .ok (0, out)
    | .ok (some walk) => walk.close out

/-- `dns_dot_to_dn`: the length of the name, and what `out` is then. -/
def dnsDotToDn (out src : Region) (n : Nat) : Except Fault (Nat × Region) :=
  match dotToDnLoop src (src.length + 1) ⟨Region.fresh 63, 0, Region.fresh 255, 0, n, 0⟩ with
  | .error fault => .error fault
  | .ok none => .ok (0, out)
  | .ok (some walk) => walk.finish out

/-! ## The turns of `dns_dot_to_dn` -/

variable {bytes left : List UInt8} {ch : UInt8} {d : Nat}

theorem read_of_drop (at_d : bytes.drop d = ch :: left) :
    (Region.ofBytes bytes).read d = .ok ch ∧ bytes.drop (d + 1) = left := by
  constructor
  · refine Region.read_ofBytes ?_
    have first := congrArg List.head? at_d
    rwa [List.head?_drop] at first
  · rw [← List.drop_drop, at_d]
    rfl

theorem read_of_drop_nil (at_d : bytes.drop d = []) :
    (Region.ofBytes bytes).read d = .error .overread := by
  have beyond : (Region.ofBytes bytes)[d]? = none := by
    rw [List.getElem?_eq_none_iff, Region.length_ofBytes]
    exact List.drop_eq_nil_iff.mp at_d
  rw [Region.read, beyond]

/-- How many more octal digits are taken behind the first byte of an escape. -/
def octalTaken (n : Nat) : List UInt8 → Nat
  | ch :: next :: later =>
    if isOctal ch ∧ n ≠ 0 ∧ isOctal next then
      if n ≠ 1 ∧ later.head?.any isOctal then 2 else 1
    else 0
  | _ => 0

theorem octalTaken_le (n : Nat) (text : List UInt8) : octalTaken n text ≤ 2 := by
  unfold octalTaken
  split
  · split_ifs <;> omega
  · omega

theorem octalDigit_nil {walk : DnWalk} (at_d : bytes.drop walk.d = []) (some : walk.n ≠ 0)
    (ch : UInt8) : octalDigit (Region.ofBytes bytes) ch walk = .error .overread := by
  rw [octalDigit, if_neg some, read_of_drop_nil at_d]
  rfl

theorem octalDigit_cons {walk : DnWalk} {next : UInt8} (at_d : bytes.drop walk.d = next :: left)
    (some : walk.n ≠ 0) (ch : UInt8) : octalDigit (Region.ofBytes bytes) ch walk =
      if isOctal next then
        .ok (Option.some (ch * 8 + (next - 48), { walk with d := walk.d + 1, n := walk.n - 1 }))
      else .ok none := by
  rw [octalDigit, if_neg some, (read_of_drop at_d).1]
  change (if isOctal next = true then _ else _) = _
  split <;> rfl

/-- An escape takes the bytes that are counted for it, or runs into the end of the memory. -/
theorem octalEscape_cases {walk : DnWalk} (at_d : bytes.drop walk.d = ch :: left) :
    (∃ ch', octalEscape (Region.ofBytes bytes) walk =
      .ok (ch', { walk with
        d := walk.d + 1 + octalTaken walk.n (ch :: left)
        n := walk.n - octalTaken walk.n (ch :: left) })) ∨
    octalEscape (Region.ofBytes bytes) walk = .error .overread ∧
      left.drop (octalTaken walk.n (ch :: left)) = [] := by
  obtain ⟨reads, behind⟩ := read_of_drop at_d
  have unfolded : octalEscape (Region.ofBytes bytes) walk =
      if isOctal ch then
        octalDigit (Region.ofBytes bytes) (ch - 48) { walk with d := walk.d + 1 } >>= fun first =>
          match first with
          | none => pure (ch - 48, { walk with d := walk.d + 1 })
          | some (ch, walk) =>
            octalDigit (Region.ofBytes bytes) ch walk >>= fun second =>
              match second with
              | none => pure (ch, walk)
              | some (ch, walk) => pure (ch, walk)
      else .ok (ch, { walk with d := walk.d + 1 }) := by
    rw [octalEscape, reads]
    rfl
  rw [unfolded]
  by_cases digit : isOctal ch = true
  · rw [if_pos digit]
    by_cases spent : walk.n = 0
    · have none : octalTaken walk.n (ch :: left) = 0 := by cases left <;> simp [octalTaken, spent]
      rw [octalDigit, if_pos spent, none]
      exact .inl ⟨_, rfl⟩
    · cases left with
      | nil =>
          rw [@octalDigit_nil bytes { walk with d := walk.d + 1 } behind spent]
          exact .inr ⟨rfl, rfl⟩
      | cons next later =>
          rw [@octalDigit_cons bytes later { walk with d := walk.d + 1 } next behind spent]
          by_cases digit' : isOctal next = true
          · have behind' := (read_of_drop behind).2
            rw [if_pos digit']
            change (∃ ch', (octalDigit _ _ { walk with d := walk.d + 1 + 1, n := walk.n - 1 } >>= _) =
              _) ∨ (octalDigit _ _ { walk with d := walk.d + 1 + 1, n := walk.n - 1 } >>= _) = _ ∧ _
            by_cases last : walk.n = 1
            · have one : octalTaken walk.n (ch :: next :: later) = 1 := by
                simp [octalTaken, digit, digit', last]
              rw [octalDigit, if_pos (by dsimp only; omega), one]
              exact .inl ⟨_, rfl⟩
            · have more : walk.n - 1 ≠ 0 := by omega
              cases later with
              | nil =>
                  have one : octalTaken walk.n [ch, next] = 1 := by
                    simp [octalTaken, digit, digit', spent]
                  rw [@octalDigit_nil bytes { walk with d := walk.d + 1 + 1, n := walk.n - 1 }
                    behind' more, one]
                  exact .inr ⟨rfl, rfl⟩
              | cons third later =>
                  rw [@octalDigit_cons bytes later { walk with d := walk.d + 1 + 1, n := walk.n - 1 }
                    third behind' more]
                  by_cases digit₂ : isOctal third = true
                  · have two : octalTaken walk.n (ch :: next :: third :: later) = 2 := by
                      simp [octalTaken, digit, digit', spent, last, digit₂]
                    rw [if_pos digit₂, two]
                    exact .inl ⟨_, rfl⟩
                  · have one : octalTaken walk.n (ch :: next :: third :: later) = 1 := by
                      simp [octalTaken, digit, digit', spent, digit₂]
                    rw [if_neg digit₂, one]
                    exact .inl ⟨_, rfl⟩
          · have none : octalTaken walk.n (ch :: next :: later) = 0 := by
              simp [octalTaken, digit']
            rw [if_neg digit', none]
            exact .inl ⟨_, rfl⟩
  · have none : octalTaken walk.n (ch :: left) = 0 := by cases left <;> simp [octalTaken, digit]
    rw [if_neg digit, none]
    exact .inl ⟨_, rfl⟩

theorem turn_nil {walk : DnWalk} (at_d : bytes.drop walk.d = []) :
    dotToDnTurn (Region.ofBytes bytes) walk = .error .overread := by
  rw [dotToDnTurn, read_of_drop_nil at_d]
  rfl

/-- A turn by the byte it finds. -/
theorem turn_cons {walk : DnWalk} (at_d : bytes.drop walk.d = ch :: left) :
    dotToDnTurn (Region.ofBytes bytes) walk =
      if ch = 0 then .ok (.stop walk)
      else if ch = 46 then DnWalk.dot { walk with d := walk.d + 1 }
      else if ch = 92 then DnWalk.escape (Region.ofBytes bytes) { walk with d := walk.d + 1 }
      else DnWalk.append { walk with d := walk.d + 1 } ch := by
  rw [dotToDnTurn, (read_of_drop at_d).1]
  rfl

theorem length_memcpy {dst src' dst' : Region} {at_ size : Nat}
    (copied : memcpy dst at_ src' size = .ok dst') : dst'.length = dst.length := by
  rw [memcpy] at copied
  split at copied
  · next fits =>
      cases copied
      simp only [List.length_append, List.length_take, List.length_drop, Region.length_fresh]
      omega
  · cases copied

/-- The two buffers of `dns_dot_to_dn` and what is used of them. -/
structure Sized (walk : DnWalk) : Prop where
  label : walk.label.length = 63
  labellen : walk.labellen ≤ 63
  name : walk.name.length = 255
  namelen : walk.namelen ≤ 255

namespace Sized

variable {walk : DnWalk}

theorem flush_cases (sized : Sized walk) :
    (255 < walk.namelen + walk.labellen + 1 ∧ walk.flush = .ok none) ∨
    walk.namelen + walk.labellen + 1 ≤ 255 ∧ ∃ name,
      walk.flush = .ok (some { walk with
        name := name, namelen := walk.namelen + 1 + walk.labellen, labellen := 0 }) ∧
      Sized { walk with
        name := name, namelen := walk.namelen + 1 + walk.labellen, labellen := 0 } := by
  by_cases long : 255 < walk.namelen + walk.labellen + 1
  · exact .inl ⟨long, if_pos long⟩
  · refine .inr ⟨Nat.le_of_not_lt long, ?_⟩
    have inside : walk.namelen < walk.name.length := by
      rw [sized.name]
      omega
    rw [DnWalk.flush, if_neg long, Region.write, if_pos inside]
    change ∃ name, (memcpy _ _ _ _ >>= _) = _ ∧ _
    rw [memcpy, if_pos (by rw [List.length_set, sized.name]; omega)]
    refine ⟨_, rfl, sized.label, Nat.zero_le _, ?_, by dsimp only; omega⟩
    simp only [List.length_append, List.length_take, List.length_drop, Region.length_fresh,
      List.length_set, sized.name]
    omega

theorem append_cases (sized : Sized walk) (ch : UInt8) :
    (63 ≤ walk.labellen ∧ walk.append ch = .ok .fail) ∨
    (walk.labellen < 63 ∧ walk.n < walk.namelen ∧ walk.append ch = .ok (.stop walk)) ∨
    walk.labellen < 63 ∧ walk.namelen ≤ walk.n ∧ ∃ label, walk.append ch =
        .ok (.next { walk with label := label, labellen := walk.labellen + 1 }) ∧
      label.length = 63 := by
  by_cases long : 63 ≤ walk.labellen
  · exact .inl ⟨long, if_pos long⟩
  · right
    by_cases spent : walk.n < walk.namelen
    · refine .inl ⟨Nat.lt_of_not_le long, spent, ?_⟩
      rw [DnWalk.append, if_neg long, if_pos spent]
    · refine .inr ⟨Nat.lt_of_not_le long, Nat.le_of_not_lt spent, ?_⟩
      rw [DnWalk.append, if_neg long, if_neg spent, Region.write,
        if_pos (by rw [sized.label]; omega)]
      exact ⟨_, rfl, by rw [List.length_set, sized.label]⟩

end Sized

/-! ## Backslashes -/

/-- The scan comes to a backslash when nothing is left of `n`, with so many bytes in its first
label and nothing behind but dots. -/
inductive Spends : Nat → Nat → List UInt8 → Prop
  | backslash (labellen : Nat) (text : List UInt8) : Spends 0 labellen (92 :: text)
  | dot {n : Nat} {text : List UInt8} (later : Spends n 0 text) : Spends n 0 (46 :: text)
  | plain {n labellen : Nat} {ch : UInt8} {text : List UInt8} (other : ch ≠ 0 ∧ ch ≠ 46 ∧ ch ≠ 92)
      (room : labellen < 63) (later : Spends n (labellen + 1) text) : Spends n labellen (ch :: text)
  | escape {n labellen : Nat} {ch : UInt8} {text : List UInt8} (room : labellen < 63)
      (later : Spends (n - octalTaken n (ch :: text)) (labellen + 1)
        (text.drop (octalTaken n (ch :: text)))) : Spends (n + 1) labellen (92 :: ch :: text)
  | dots {labellen : Nat} {text : List UInt8} (some : labellen ≠ 0)
      (later : (text.dropWhile (· = 46)).head? = Option.some 92) : Spends 0 labellen (46 :: text)

theorem Spends.ne_nil {n labellen : Nat} {text : List UInt8} (spends : Spends n labellen text) :
    text ≠ [] := by
  cases spends <;> exact List.cons_ne_nil _ _

theorem Spends.le {n labellen : Nat} {text : List UInt8} (spends : Spends n labellen text)
    (short : labellen ≤ 63) : n + 3 * labellen ≤ 189 := by
  induction spends with
  | backslash labellen text => omega
  | dot later ih => exact ih short
  | plain other room later ih =>
      have := ih room
      omega
  | @escape n labellen ch text room later ih =>
      have := ih room
      have := octalTaken_le n (ch :: text)
      omega
  | dots some later => omega

/-- A walk that does not come to such a backslash: nothing is in the name yet and it is not
met in the first label, or there is something in the name, and some of `n` is left or no
backslash follows at once. -/
def Quiet (bytes : List UInt8) (walk : DnWalk) : Prop :=
  if walk.namelen = 0 then ¬ Spends walk.n walk.labellen (bytes.drop walk.d)
  else walk.n = 0 → walk.labellen = 0 ∧
    ((bytes.drop walk.d).dropWhile (· = 46)).head? ≠ some 92

/-- How a turn of a quiet walk ends. -/
def Keeps (bytes : List UInt8) (size : Nat) : Except Fault Turn → Prop
  | .error fault => fault ≠ .overrun
  | .ok .fail => True
  | .ok (.stop walk) => Sized walk ∧ walk.n ≤ size
  | .ok (.next walk) => Sized walk ∧ walk.n ≤ size ∧ Quiet bytes walk

variable {walk : DnWalk} {size : Nat}

theorem Sized.keeps_append (sized : Sized walk) (ch : UInt8) (within : walk.n ≤ size)
    (quiet : walk.labellen < 63 → walk.namelen ≤ walk.n →
      if walk.namelen = 0 then ¬ Spends walk.n (walk.labellen + 1) (bytes.drop walk.d)
      else walk.n ≠ 0) :
    Keeps bytes size (walk.append ch) := by
  rcases sized.append_cases ch with ⟨-, result⟩ | ⟨-, -, result⟩ |
    ⟨room, enough, label, result, length⟩
  · rw [result]
    exact trivial
  · rw [result]
    exact ⟨sized, within⟩
  · rw [result]
    refine ⟨⟨length, room, sized.name, sized.namelen⟩, within, ?_⟩
    have later := quiet room enough
    rw [Quiet]
    dsimp only
    split at later
    · next none => rwa [if_pos none]
    · next some =>
        rw [if_neg some]
        exact fun spent => absurd spent later

/-- A dot ends the label, or stands behind another dot. -/
theorem Sized.keeps_dot (sized : Sized walk) (within : walk.n ≤ size)
    (behind : bytes.drop walk.d = left)
    (quiet : if walk.namelen = 0 then ¬ Spends walk.n walk.labellen (46 :: left)
      else walk.n = 0 → walk.labellen = 0 ∧
        ((46 :: left).dropWhile (· = 46)).head? ≠ Option.some 92) :
    Keeps bytes size walk.dot := by
  rw [DnWalk.dot]
  by_cases empty : walk.labellen = 0
  · rw [if_pos empty]
    refine ⟨sized, within, ?_⟩
    rw [Quiet, behind]
    split at quiet
    · next none =>
        rw [if_pos none]
        rw [empty] at quiet ⊢
        exact fun later => quiet (.dot later)
    · next some =>
        rw [if_neg some]
        exact quiet
  · rw [if_neg empty]
    rcases sized.flush_cases with ⟨-, result⟩ | ⟨fits, name, result, flushed⟩
    · rw [result]
      exact trivial
    · rw [result]
      refine ⟨flushed, within, ?_⟩
      rw [Quiet, if_neg (by dsimp only; omega)]
      dsimp only
      intro spent
      rw [spent] at quiet
      refine ⟨rfl, fun later => ?_⟩
      rw [behind] at later
      split at quiet
      · exact quiet (.dots empty later)
      · exact empty (quiet rfl).1

/-- A backslash, which is not met when nothing is left of `n`. -/
theorem Sized.keeps_escape (sized : Sized walk) (within : walk.n ≤ size)
    (behind : bytes.drop walk.d = left)
    (quiet : if walk.namelen = 0 then ¬ Spends walk.n walk.labellen (92 :: left)
      else walk.n = 0 → walk.labellen = 0 ∧
        ((92 :: left).dropWhile (· = 46)).head? ≠ Option.some 92) :
    Keeps bytes size (walk.escape (Region.ofBytes bytes)) := by
  have some : walk.n ≠ 0 := by
    intro spent
    rw [spent] at quiet
    split at quiet
    · exact quiet (.backslash walk.labellen left)
    · exact (quiet rfl).2 rfl
  rw [DnWalk.escape, if_neg some]
  cases left with
  | nil =>
      have cut : octalEscape (Region.ofBytes bytes) { walk with n := walk.n - 1 } =
          .error .overread := by
        rw [octalEscape, read_of_drop_nil behind]
        rfl
      rw [cut]
      exact (by decide : Fault.overread ≠ .overrun)
  | cons ch text =>
      rcases @octalEscape_cases bytes text ch { walk with n := walk.n - 1 } behind with
        ⟨ch', result⟩ | ⟨cut, -⟩
      · rw [result]
        have sized' : Sized { walk with
            d := walk.d + 1 + octalTaken (walk.n - 1) (ch :: text)
            n := walk.n - 1 - octalTaken (walk.n - 1) (ch :: text) } :=
          ⟨sized.label, sized.labellen, sized.name, sized.namelen⟩
        refine sized'.keeps_append ch' (by dsimp only; omega) fun room enough => ?_
        dsimp only at room enough ⊢
        have ahead : bytes.drop (walk.d + 1 + octalTaken (walk.n - 1) (ch :: text)) =
            text.drop (octalTaken (walk.n - 1) (ch :: text)) := by
          rw [← List.drop_drop, (read_of_drop behind).2]
        split at quiet
        · next none =>
            rw [if_pos none, ahead]
            intro later
            have again : walk.n - 1 + 1 = walk.n := by omega
            rw [← again] at quiet
            exact quiet (.escape room later)
        · next named =>
            rw [if_neg named]
            omega
      · rw [cut]
        exact (by decide : Fault.overread ≠ .overrun)

theorem Quiet.turn (sized : Sized walk) (within : walk.n ≤ size) (quiet : Quiet bytes walk) :
    Keeps bytes size (dotToDnTurn (Region.ofBytes bytes) walk) := by
  cases at_d : bytes.drop walk.d with
  | nil =>
      rw [turn_nil at_d]
      exact (by decide : Fault.overread ≠ .overrun)
  | cons ch left =>
      have behind := (read_of_drop at_d).2
      have sized' : Sized { walk with d := walk.d + 1 } :=
        ⟨sized.label, sized.labellen, sized.name, sized.namelen⟩
      rw [Quiet, at_d] at quiet
      rw [turn_cons at_d]
      by_cases zero : ch = 0
      · rw [if_pos zero]
        exact ⟨sized, within⟩
      by_cases dot : ch = 46
      · subst dot
        rw [if_neg zero, if_pos rfl]
        exact sized'.keeps_dot within behind quiet
      by_cases backslash : ch = 92
      · subst backslash
        rw [if_neg zero, if_neg dot, if_pos rfl]
        exact sized'.keeps_escape within behind quiet
      · rw [if_neg zero, if_neg dot, if_neg backslash]
        refine sized'.keeps_append ch within fun room enough => ?_
        dsimp only at room enough ⊢
        rw [behind]
        split at quiet
        · next none =>
            rw [if_pos none]
            exact fun later => quiet (.plain ⟨zero, dot, backslash⟩ room later)
        · next some =>
            rw [if_neg some]
            omega

/-- The loop of a quiet walk counts no more than it was given. -/
theorem Quiet.loop (sized : Sized walk) (within : walk.n ≤ size) (quiet : Quiet bytes walk)
    (turns : Nat) :
    dotToDnLoop (Region.ofBytes bytes) turns walk ≠ .error .overrun ∧
      ∀ walk', dotToDnLoop (Region.ofBytes bytes) turns walk = .ok (some walk') →
        Sized walk' ∧ walk'.n ≤ size := by
  induction turns generalizing walk with
  | zero => exact ⟨by simp [dotToDnLoop], fun walk' result => by cases result⟩
  | succ turns ih =>
      have keeps := quiet.turn sized within
      rw [dotToDnLoop]
      cases turn : dotToDnTurn (Region.ofBytes bytes) walk with
      | error fault =>
          rw [turn] at keeps
          refine ⟨fun same => ?_, fun walk' result => by cases result⟩
          cases same
          exact keeps rfl
      | ok turn' =>
          rw [turn] at keeps
          cases turn' with
          | fail => exact ⟨by simp, fun walk' result => by cases result⟩
          | stop walk₂ =>
              refine ⟨by simp, fun walk' result => ?_⟩
              cases result
              exact keeps
          | next walk₂ => exact ih keeps.1 keeps.2.1 keeps.2.2

theorem Sized.close_of_le (sized : Sized walk) {out : Region} (within : walk.n ≤ out.length) :
    walk.close out ≠ .error .overrun := by
  rw [DnWalk.close]
  split
  · simp
  · next fits =>
      rw [Region.write, if_pos (by rw [sized.name]; omega)]
      change (memcpy out 0 _ walk.n >>= _) ≠ _
      rw [memcpy, if_pos (by omega)]
      exact fun same => by cases same

theorem Sized.finish_of_le (sized : Sized walk) {out : Region} (within : walk.n ≤ out.length) :
    walk.finish out ≠ .error .overrun := by
  rw [DnWalk.finish]
  split
  · exact sized.close_of_le within
  · rcases sized.flush_cases with ⟨-, result⟩ | ⟨fits, name, result, flushed⟩
    · rw [result]
      simp
    · rw [result]
      exact flushed.close_of_le within

/-- A count that wrapped is no size of an output. -/
theorem Sized.close_of_lt (sized : Sized walk) {out : Region} (short : walk.namelen + 1 ≤ 255)
    (wrapped : out.length < walk.n) : walk.close out = .error .overrun := by
  rw [DnWalk.close, if_neg (by omega), Region.write, if_pos (by rw [sized.name]; omega)]
  change (memcpy out 0 _ walk.n >>= _) = _
  rw [memcpy, if_neg (by omega)]
  rfl

theorem Sized.finish_of_lt (sized : Sized walk) {out : Region}
    (short : walk.namelen + walk.labellen ≤ 64) (wrapped : out.length < walk.n) :
    walk.finish out = .error .overrun := by
  rw [DnWalk.finish]
  split
  · exact sized.close_of_lt (by omega) wrapped
  · rcases sized.flush_cases with ⟨long, -⟩ | ⟨fits, name, result, flushed⟩
    · omega
    · rw [result]
      exact flushed.close_of_lt (by dsimp only; omega) wrapped

/-- What a walk is that has met a backslash with nothing left. -/
structure Wrapped (walk : DnWalk) : Prop where
  sized : Sized walk
  n : walk.n = 2 ^ 64 - 1
  short : walk.namelen + walk.labellen ≤ 64

theorem loop_of_turn_next {walk' : DnWalk}
    (turn : dotToDnTurn (Region.ofBytes bytes) walk = .ok (.next walk')) (turns : Nat) :
    dotToDnLoop (Region.ofBytes bytes) (turns + 1) walk =
      dotToDnLoop (Region.ofBytes bytes) turns walk' := by
  rw [dotToDnLoop, turn]

theorem turn_backslash_spent (at_d : bytes.drop walk.d = 92 :: left) (spent : walk.n = 0) :
    dotToDnTurn (Region.ofBytes bytes) walk =
      .ok (.stop { walk with d := walk.d + 1, n := 2 ^ 64 - 1 }) := by
  rw [turn_cons at_d]
  exact if_pos spent

/-- Behind the first label there are only dots before the backslash. -/
theorem loop_dots (sized : Sized walk) (spent : walk.n = 0) (empty : walk.labellen = 0)
    (short : walk.namelen ≤ 64) (at_d : bytes.drop walk.d = left)
    (backslash : (left.dropWhile (· = 46)).head? = some 92) {turns : Nat}
    (enough : left.length < turns) :
    ∃ walk', dotToDnLoop (Region.ofBytes bytes) turns walk = .ok (some walk') ∧
      Wrapped walk' := by
  induction left generalizing walk turns with
  | nil => cases backslash
  | cons ch left ih =>
      obtain ⟨turns, rfl⟩ := Nat.exists_eq_add_one.mpr (Nat.zero_lt_of_lt enough)
      by_cases dot : ch = 46
      · subst dot
        have turn : dotToDnTurn (Region.ofBytes bytes) walk =
            .ok (.next { walk with d := walk.d + 1 }) := by
          rw [turn_cons at_d]
          exact if_pos empty
        rw [loop_of_turn_next turn]
        exact @ih { walk with d := walk.d + 1 }
          ⟨sized.label, sized.labellen, sized.name, sized.namelen⟩ spent empty short
          (read_of_drop at_d).2 backslash _ (Nat.lt_of_succ_lt_succ enough)
      · have isBackslash : ch = 92 := by simpa [List.dropWhile_cons, dot] using backslash
        subst isBackslash
        rw [dotToDnLoop, turn_backslash_spent at_d spent]
        exact ⟨_, rfl, ⟨sized.label, sized.labellen, sized.name, sized.namelen⟩, rfl,
          by dsimp only; omega⟩

/-- A byte that is no dot goes to the first label. -/
theorem append_first (sized : Sized walk) (first : walk.namelen = 0) (room : walk.labellen < 63)
    (ch : UInt8) : ∃ label,
      walk.append ch = .ok (.next { walk with label := label, labellen := walk.labellen + 1 }) ∧
        Sized { walk with label := label, labellen := walk.labellen + 1 } := by
  rcases sized.append_cases ch with ⟨long, -⟩ | ⟨-, spent, -⟩ | ⟨-, -, label, result, length⟩
  · omega
  · omega
  · exact ⟨label, result, length, room, sized.name, sized.namelen⟩

/-- The scan that spends all of `n` on its first label ends with a count that wrapped. -/
theorem Spends.loop {n labellen : Nat} {text : List UInt8} (spends : Spends n labellen text)
    (sized : Sized walk) (isN : walk.n = n) (isLabellen : walk.labellen = labellen)
    (first : walk.namelen = 0) (at_d : bytes.drop walk.d = text) {turns : Nat}
    (enough : text.length < turns) :
    ∃ walk', dotToDnLoop (Region.ofBytes bytes) turns walk = .ok (some walk') ∧
      Wrapped walk' := by
  induction spends generalizing walk turns with
  | backslash labellen text =>
      obtain ⟨turns, rfl⟩ := Nat.exists_eq_add_one.mpr (Nat.zero_lt_of_lt enough)
      rw [dotToDnLoop, turn_backslash_spent at_d isN]
      have short := sized.labellen
      exact ⟨_, rfl, ⟨sized.label, sized.labellen, sized.name, sized.namelen⟩, rfl,
        by dsimp only; omega⟩
  | dot later ih =>
      obtain ⟨turns, rfl⟩ := Nat.exists_eq_add_one.mpr (Nat.zero_lt_of_lt enough)
      have turn : dotToDnTurn (Region.ofBytes bytes) walk =
          .ok (.next { walk with d := walk.d + 1 }) := by
        rw [turn_cons at_d]
        exact if_pos isLabellen
      rw [loop_of_turn_next turn]
      exact @ih { walk with d := walk.d + 1 }
        ⟨sized.label, sized.labellen, sized.name, sized.namelen⟩ isN isLabellen first
        (read_of_drop at_d).2 _ (Nat.lt_of_succ_lt_succ enough)
  | @plain n labellen ch text other room later ih =>
      obtain ⟨turns, rfl⟩ := Nat.exists_eq_add_one.mpr (Nat.zero_lt_of_lt enough)
      obtain ⟨label, result, sized'⟩ := @append_first { walk with d := walk.d + 1 }
        ⟨sized.label, sized.labellen, sized.name, sized.namelen⟩ first (by dsimp only; omega) ch
      have turn := turn_cons at_d
      rw [if_neg other.1, if_neg other.2.1, if_neg other.2.2, result] at turn
      rw [loop_of_turn_next turn]
      exact ih sized' isN (by dsimp only; omega) first (read_of_drop at_d).2
        (Nat.lt_of_succ_lt_succ enough)
  | @escape n labellen ch text room later ih =>
      obtain ⟨turns, rfl⟩ := Nat.exists_eq_add_one.mpr (Nat.zero_lt_of_lt enough)
      have left : walk.n - 1 = n := by omega
      have behind : bytes.drop (walk.d + 1) = ch :: text := (read_of_drop at_d).2
      have turn : dotToDnTurn (Region.ofBytes bytes) walk =
          DnWalk.escape (Region.ofBytes bytes) { walk with d := walk.d + 1 } := turn_cons at_d
      rw [DnWalk.escape, if_neg (by dsimp only; omega)] at turn
      rcases @octalEscape_cases bytes text ch { walk with d := walk.d + 1, n := walk.n - 1 } behind
        with ⟨ch', result⟩ | ⟨-, cut⟩
      · dsimp only at result
        rw [left] at result turn
        obtain ⟨label, appended, sized'⟩ := @append_first { walk with
            d := walk.d + 1 + 1 + octalTaken n (ch :: text), n := n - octalTaken n (ch :: text) }
          ⟨sized.label, sized.labellen, sized.name, sized.namelen⟩ first (by dsimp only; omega) ch'
        rw [result] at turn
        rw [loop_of_turn_next (turn.trans appended)]
        refine ih sized' rfl (by dsimp only; omega) first ?_ ?_
        · rw [← List.drop_drop, (read_of_drop behind).2]
        · rw [List.length_drop]
          rw [List.length_cons, List.length_cons] at enough
          omega
      · dsimp only at cut
        rw [left] at cut
        exact absurd cut later.ne_nil
  | @dots labellen text some later =>
      obtain ⟨turns, rfl⟩ := Nat.exists_eq_add_one.mpr (Nat.zero_lt_of_lt enough)
      have sized' : Sized { walk with d := walk.d + 1 } :=
        ⟨sized.label, sized.labellen, sized.name, sized.namelen⟩
      have short := sized.labellen
      rcases sized'.flush_cases with ⟨long, -⟩ | ⟨-, name, result, flushed⟩
      · dsimp only at long
        omega
      · have turn : dotToDnTurn (Region.ofBytes bytes) walk = DnWalk.dot { walk with
            d := walk.d + 1 } := turn_cons at_d
        rw [DnWalk.dot, if_neg (by dsimp only; omega), result] at turn
        rw [loop_of_turn_next turn]
        exact loop_dots flushed isN rfl (by dsimp only; omega) (read_of_drop at_d).2 later
          (Nat.lt_of_succ_lt_succ enough)

/-- The copy of `dns_dot_to_dn` leaves its output just when the scan spends all of its size. -/
theorem dnsDotToDn_overrun_iff (bytes : List UInt8) {out : Region} {n : Nat}
    (sized : out.length = n) :
    dnsDotToDn out (Region.ofBytes bytes) n = .error .overrun ↔ Spends n 0 bytes := by
  have start : Sized ⟨Region.fresh 63, 0, Region.fresh 255, 0, n, 0⟩ :=
    ⟨Region.length_fresh 63, Nat.zero_le _, Region.length_fresh 255, Nat.zero_le _⟩
  rw [dnsDotToDn]
  by_cases spends : Spends n 0 bytes
  · obtain ⟨walk, result, wrapped⟩ := spends.loop start rfl rfl rfl rfl
      (show bytes.length < (Region.ofBytes bytes).length + 1 by simp)
    have beyond : out.length < walk.n := by
      have few := spends.le (Nat.zero_le 63)
      rw [wrapped.n]
      omega
    rw [result]
    exact iff_of_true (wrapped.sized.finish_of_lt wrapped.short beyond) spends
  · have quiet : Quiet bytes ⟨Region.fresh 63, 0, Region.fresh 255, 0, n, 0⟩ := by
      rw [Quiet, if_pos rfl]
      exact spends
    obtain ⟨safe, exits⟩ := quiet.loop start (Nat.le_refl n) ((Region.ofBytes bytes).length + 1)
    refine iff_of_false ?_ spends
    cases result : dotToDnLoop (Region.ofBytes bytes) ((Region.ofBytes bytes).length + 1)
        ⟨Region.fresh 63, 0, Region.fresh 255, 0, n, 0⟩ with
    | error fault =>
        intro same
        cases same
        exact safe result
    | ok walk =>
        cases walk with
        | none => exact fun same => by cases same
        | some walk =>
            obtain ⟨sized', within⟩ := exits walk result
            exact sized'.finish_of_le (by omega)

/-! ## There and back -/

/-- What a walk of `dns_dot_to_dn` has in its buffers. -/
structure Collects (walk : DnWalk) (done : List (List UInt8)) (cur : List UInt8) : Prop where
  name : walk.name = Region.ofBytes (encodeLabels done) ++
    Region.fresh (255 - (encodeLabels done).length)
  namelen : walk.namelen = (encodeLabels done).length
  label : ∃ rest, walk.label = Region.ofBytes cur ++ rest ∧ cur.length + rest.length = 63
  labellen : walk.labellen = cur.length

variable {done labels : List (List UInt8)} {cur tail : List UInt8}

theorem encodeLabels_append (front back : List (List UInt8)) :
    encodeLabels (front ++ back) = encodeLabels front ++ encodeLabels back :=
  List.flatMap_append

theorem fresh_succ {size : Nat} (positive : 0 < size) :
    Region.fresh size = none :: Region.fresh (size - 1) := by
  obtain ⟨size, rfl⟩ := Nat.exists_eq_add_one.mpr positive
  rfl

theorem Collects.append (collects : Collects walk done cur) (room : cur.length < 63)
    (enough : (encodeLabels done).length ≤ walk.n) (ch : UInt8) : ∃ label,
      walk.append ch = .ok (.next { walk with label := label, labellen := walk.labellen + 1 }) ∧
        Collects { walk with label := label, labellen := walk.labellen + 1 } done
          (cur ++ [ch]) := by
  obtain ⟨rest, label, length⟩ := collects.label
  cases rest with
  | nil => simp only [List.length_nil] at length; omega
  | cons cell rest =>
      refine ⟨Region.ofBytes (cur ++ [ch]) ++ rest, ?_, collects.name, collects.namelen,
        ⟨rest, rfl, ?_⟩, ?_⟩
      · rw [DnWalk.append, if_neg (by rw [collects.labellen]; omega),
          if_neg (by rw [collects.namelen]; omega), label, collects.labellen, Region.write_next]
        rfl
      · rw [List.length_append, List.length_singleton]
        rw [List.length_cons] at length
        omega
      · rw [List.length_append, List.length_singleton, ← collects.labellen]

theorem memcpy_front {size : Nat} {rest : Region} {bytes : List UInt8} (fits : cur.length ≤ size) :
    memcpy (Region.ofBytes bytes ++ Region.fresh size) bytes.length (Region.ofBytes cur ++ rest)
      cur.length = .ok (Region.ofBytes (bytes ++ cur) ++ Region.fresh (size - cur.length)) := by
  rw [memcpy, if_pos (by simp [fits])]
  simp [Region.fresh, List.drop_append]

theorem Collects.flush (collects : Collects walk done cur)
    (fits : (encodeLabels done).length + cur.length + 1 ≤ 255) : ∃ name,
      walk.flush = .ok (some { walk with
        name := name, namelen := walk.namelen + 1 + walk.labellen, labellen := 0 }) ∧
      Collects { walk with
        name := name, namelen := walk.namelen + 1 + walk.labellen, labellen := 0 }
        (done ++ [cur]) [] := by
  obtain ⟨rest, label, length⟩ := collects.label
  have encoded : encodeLabels (done ++ [cur]) =
      encodeLabels done ++ [UInt8.ofNat cur.length] ++ cur := by
    simp [encodeLabels_append]
    rfl
  have size : (encodeLabels done ++ [UInt8.ofNat cur.length]).length =
      (encodeLabels done).length + 1 := by
    simp
  have copied := @memcpy_front cur (255 - (encodeLabels done).length - 1) rest
    (encodeLabels done ++ [UInt8.ofNat cur.length]) (by omega)
  rw [size] at copied
  refine ⟨_, ?_, rfl, ?_, ⟨Region.ofBytes cur ++ rest, label, by simpa using length⟩, rfl⟩
  · rw [DnWalk.flush, if_neg (by rw [collects.namelen, collects.labellen]; omega), collects.name,
      collects.namelen, collects.labellen, label, fresh_succ (by omega), Region.write_next]
    change (memcpy _ _ _ _ >>= _) = _
    have behind : 255 - (encodeLabels done).length - 1 - cur.length =
        255 - (encodeLabels done ++ [UInt8.ofNat cur.length] ++ cur).length := by
      rw [List.length_append, size]
      omega
    rw [copied, encoded, behind]
    rfl
  · rw [encoded, collects.namelen, collects.labellen, List.length_append, size]

/-- A byte that may stand in the name of a host. -/
def isHostByte (ch : UInt8) : Bool :=
  (97 ≤ ch && ch ≤ 122) || (48 ≤ ch && ch ≤ 57) || ch == 45

/-- The labels of a host name. -/
def IsHostName (labels : List (List UInt8)) : Prop :=
  ∀ label ∈ labels, label ≠ [] ∧ label.length ≤ 63 ∧ ∀ ch ∈ label, isHostByte ch

theorem isHostByte_plain {ch : UInt8} (host : isHostByte ch) :
    (ch ≠ 0 ∧ ch ≠ 46 ∧ ch ≠ 92) ∧ lowered ch = ch ∧ isKept ch := by
  refine ⟨⟨?_, ?_, ?_⟩, ?_, ?_⟩
  · rintro rfl
    exact absurd host (by decide)
  · rintro rfl
    exact absurd host (by decide)
  · rintro rfl
    exact absurd host (by decide)
  · refine if_neg fun capital => ?_
    simp only [isHostByte, Bool.or_eq_true, Bool.and_eq_true, decide_eq_true_eq, beq_iff_eq,
      UInt8.le_iff_toNat_le, ← UInt8.toNat_inj, UInt8.reduceToNat] at host capital
    omega
  · rw [isHostByte] at host
    rw [isKept, host, Bool.true_or]

theorem collect_label {todo : List UInt8} (collects : Collects walk done cur)
    (host : ∀ ch ∈ todo, isHostByte ch) (room : cur.length + todo.length ≤ 63)
    (enough : (encodeLabels done).length ≤ walk.n) (at_d : bytes.drop walk.d = todo ++ tail)
    (turns : Nat) : ∃ walk', dotToDnLoop (Region.ofBytes bytes) (turns + todo.length) walk =
        dotToDnLoop (Region.ofBytes bytes) turns walk' ∧
      Collects walk' done (cur ++ todo) ∧ bytes.drop walk'.d = tail ∧ walk'.n = walk.n := by
  induction todo generalizing walk cur with
  | nil => exact ⟨walk, rfl, by rwa [List.append_nil], at_d, rfl⟩
  | cons ch todo ih =>
      rw [List.length_cons] at room
      obtain ⟨⟨noEnd, noDot, noBackslash⟩, -⟩ := isHostByte_plain (host ch List.mem_cons_self)
      have collects' : Collects { walk with d := walk.d + 1 } done cur :=
        ⟨collects.name, collects.namelen, collects.label, collects.labellen⟩
      obtain ⟨label, result, later⟩ := collects'.append (by omega) enough ch
      have turn := turn_cons at_d
      rw [if_neg noEnd, if_neg noDot, if_neg noBackslash, result] at turn
      obtain ⟨walk', loop, collects₂, at_tail, same⟩ := ih later
        (fun ch member => host ch (List.mem_cons_of_mem _ member))
        (by rw [List.length_append, List.length_singleton]; omega) enough (read_of_drop at_d).2
      refine ⟨walk', ?_, by rwa [List.append_assoc] at collects₂, at_tail, same⟩
      rw [List.length_cons, ← Nat.add_assoc, loop_of_turn_next turn, loop]

/-- The loop collects all labels but the last one in the name. -/
theorem collect_labels {label : List UInt8} (host : IsHostName (label :: labels))
    (collects : Collects walk done [])
    (fits : (encodeLabels (done ++ label :: labels)).length ≤ 254)
    (enough : (encodeLabels (done ++ label :: labels)).length ≤ walk.n)
    (at_d : bytes.drop walk.d = dotText (label :: labels) ++ 0 :: tail) {turns : Nat}
    (many : (dotText (label :: labels)).length < turns) :
    ∃ walk' front last, label :: labels = front ++ [last] ∧ last ≠ [] ∧
      dotToDnLoop (Region.ofBytes bytes) turns walk = .ok (some walk') ∧
      Collects walk' (done ++ front) last ∧ walk'.n = walk.n := by
  induction labels generalizing label done walk turns with
  | nil =>
      obtain ⟨some, short, plain⟩ := host label List.mem_cons_self
      have single : dotText [label] = label := by simp [dotText]
      rw [single] at at_d many
      obtain ⟨rest, rfl⟩ : ∃ rest, turns = rest + 1 + label.length :=
        ⟨turns - 1 - label.length, by omega⟩
      have named : (encodeLabels done).length ≤ walk.n := by
        rw [encodeLabels_append, List.length_append] at enough
        omega
      obtain ⟨walk', loop, collects', at_tail, same⟩ :=
        collect_label collects plain (by simpa using short) named at_d (rest + 1)
      have turn := turn_cons at_tail
      rw [if_pos rfl] at turn
      refine ⟨walk', [], label, rfl, some, ?_, by rwa [List.append_nil], same⟩
      rw [loop, dotToDnLoop, turn]
  | cons next labels ih =>
      obtain ⟨some, short, plain⟩ := host label List.mem_cons_self
      rw [dotText_cons_cons] at at_d many
      rw [List.length_append, List.length_cons] at many
      obtain ⟨rest, rfl⟩ : ∃ rest, turns = rest + 1 + label.length :=
        ⟨turns - 1 - label.length, by omega⟩
      have sizes : (encodeLabels done).length + label.length + 1 ≤
          (encodeLabels (done ++ label :: next :: labels)).length := by
        rw [encodeLabels_append, encodeLabels_cons, List.length_append, List.length_cons,
          List.length_append]
        omega
      obtain ⟨walk', loop, collects', at_tail, same⟩ :=
        collect_label collects plain (by simpa using short) (by omega)
          (by rw [at_d, List.append_assoc]) (rest + 1)
      rw [List.nil_append] at collects'
      have collects₂ : Collects { walk' with d := walk'.d + 1 } done label :=
        ⟨collects'.name, collects'.namelen, collects'.label, collects'.labellen⟩
      obtain ⟨name, flushed, later⟩ := collects₂.flush (by omega)
      have turn := turn_cons at_tail
      rw [if_neg (by decide), if_pos rfl, DnWalk.dot,
        if_neg (by rw [collects₂.labellen]; exact mt List.length_eq_zero_iff.mp some),
        flushed] at turn
      have again : done ++ [label] ++ next :: labels = done ++ label :: next :: labels := by simp
      obtain ⟨walk₂, front, last, parts, someLast, result, collected, same'⟩ :=
        ih (fun label member => host label (List.mem_cons_of_mem _ member)) later
          (by rw [again]; exact fits) (by rw [again]; dsimp only; omega)
          (read_of_drop at_tail).2 (show _ < rest by omega)
      refine ⟨walk₂, label :: front, last, by rw [parts]; rfl, someLast, ?_, ?_, ?_⟩
      · rw [loop, loop_of_turn_next turn, result]
      · rwa [List.append_assoc] at collected
      · exact same'.trans same

theorem Collects.close_eq (collects : Collects walk done [])
    (fits : (encodeLabels done).length + 1 ≤ 255) {out : Region} (sized : out.length = walk.n)
    (enough : (encodeLabels done).length + 1 ≤ walk.n) :
    ∃ rest, walk.close out =
      .ok ((encodeLabels done).length + 1, Region.ofBytes (encodeLabels done ++ [0]) ++ rest) := by
  have length : (Region.ofBytes (encodeLabels done ++ [0])).length =
      (encodeLabels done).length + 1 := by
    simp
  rw [DnWalk.close, if_neg (by rw [collects.namelen]; omega), collects.name, collects.namelen,
    fresh_succ (by omega), Region.write_next]
  change ∃ rest, (memcpy out 0 _ walk.n >>= _) = _
  rw [memcpy, if_pos (by omega), List.take_zero, List.nil_append,
    List.drop_eq_nil_of_le (by omega), List.append_nil, List.append_assoc, List.take_append,
    List.take_of_length_le (by omega)]
  exact ⟨_, rfl⟩

/-- The dotted name of a host becomes its labels with their lengths. -/
theorem dnsDotToDn_host (host : IsHostName labels)
    (fits : (encodeLabels labels ++ [0]).length ≤ 255) {out : Region} {n : Nat}
    (sized : out.length = n) (enough : (encodeLabels labels ++ [0]).length ≤ n)
    (tail : List UInt8) :
    ∃ rest, dnsDotToDn out (Region.ofBytes (dotText labels ++ 0 :: tail)) n =
      .ok ((encodeLabels labels ++ [0]).length,
        Region.ofBytes (encodeLabels labels ++ [0]) ++ rest) := by
  rw [List.length_append, List.length_singleton] at fits enough ⊢
  have start : Collects ⟨Region.fresh 63, 0, Region.fresh 255, 0, n, 0⟩ [] [] :=
    ⟨rfl, rfl, ⟨Region.fresh 63, rfl, rfl⟩, rfl⟩
  rw [dnsDotToDn]
  cases labels with
  | nil =>
      have turn := @turn_cons (dotText [] ++ 0 :: tail) tail 0
        ⟨Region.fresh 63, 0, Region.fresh 255, 0, n, 0⟩ rfl
      rw [if_pos rfl] at turn
      rw [dotToDnLoop, turn]
      exact start.close_eq fits sized enough
  | cons label labels =>
      obtain ⟨walk, front, last, parts, someLast, result, collected, same⟩ :=
        @collect_labels (dotText (label :: labels) ++ 0 :: tail)
          ⟨Region.fresh 63, 0, Region.fresh 255, 0, n, 0⟩ [] labels tail label host start
          (by rw [List.nil_append]; omega) (by rw [List.nil_append]; dsimp only; omega) rfl
          ((Region.ofBytes (dotText (label :: labels) ++ 0 :: tail)).length + 1)
          (by simp only [Region.length_ofBytes, List.length_append]; omega)
      rw [List.nil_append] at collected
      have encoded : (encodeLabels (label :: labels)).length =
          (encodeLabels front).length + last.length + 1 := by
        rw [parts, encodeLabels_append, List.length_append]
        simp [encodeLabels, Nat.add_assoc]
      obtain ⟨name, flushed, later⟩ := collected.flush (by omega)
      rw [← parts] at later
      dsimp only at same
      rw [result]
      dsimp only
      rw [DnWalk.finish,
        if_neg (by rw [collected.labellen]; exact mt List.length_eq_zero_iff.mp someLast), flushed]
      exact later.close_eq fits (sized.trans same.symm) (by dsimp only; omega)

theorem IsHostName.areLabels (host : IsHostName labels) : AreLabels labels := fun label member =>
  ⟨(host label member).1, by have short := (host label member).2.1; omega⟩

/-- Nothing is left out of the name of a host. -/
theorem IsHostName.keptText_eq (host : IsHostName labels) : keptText labels = dotText labels := by
  rw [keptText, List.map_congr_left (fun label member => keptBytes_eq_self fun ch inLabel =>
    (isHostByte_plain ((host label member).2.2 ch inLabel)).2), List.map_id']

/-- The name of a host comes back from its encoding, where both outputs have room. -/
def RoundTrips (labels : List (List UInt8)) : Prop :=
  ∀ out : Region, (encodeLabels labels ++ [0]).length ≤ out.length →
    ∃ rest, dnsDotToDn out (Region.ofBytes (dotText labels ++ [0])) out.length =
        .ok ((encodeLabels labels ++ [0]).length,
          Region.ofBytes (encodeLabels labels ++ [0]) ++ rest) ∧
      ∀ out' : Region, (dotText labels).length < out'.length →
        ∃ rest', dnsDnToDot out' (Region.ofBytes (encodeLabels labels ++ [0]) ++ rest) out'.length =
          .ok ((dotText labels).length, Region.ofBytes (dotText labels ++ [0]) ++ rest')

theorem roundTrips_of_host (host : IsHostName labels)
    (fits : (encodeLabels labels ++ [0]).length ≤ 255) : RoundTrips labels := by
  intro out enough
  obtain ⟨rest, encoded⟩ := dnsDotToDn_host host fits rfl enough []
  refine ⟨rest, encoded, fun out' room => ?_⟩
  have decoded := @dnsDnToDot_eq (Region.ofBytes (encodeLabels labels ++ [0]) ++ rest) rest
    out'.length out' labels host.areLabels rfl rfl (by omega)
  rw [host.keptText_eq, if_neg (fun both => absurd both.2 (Nat.not_le_of_lt room))] at decoded
  exact ⟨_, decoded⟩

/-- The name of every host comes back, and an output is left just when all of its size is spent
on backslashes, or when it has no room for the terminator of a text. -/
theorem dnsDotted_iff (host : IsHostName labels)
    (fits : (encodeLabels labels ++ [0]).length ≤ 255) (bytes : List UInt8)
    {names : List (List UInt8)} (areLabels : AreLabels names) (behind out out' : Region) :
    (RoundTrips labels ∧
      dnsDotToDn out (Region.ofBytes bytes) out.length ≠ .error .overrun ∧
      dnsDnToDot out' (Region.ofBytes (encodeLabels names ++ [0]) ++ behind) out'.length ≠
        .error .overrun) ↔
    ¬ Spends out.length 0 bytes ∧
      (out' = [] ∨ names = [] ∨ (keptText names).length < out'.length) := by
  rw [and_iff_right (roundTrips_of_host host fits), Ne, dnsDotToDn_overrun_iff bytes rfl]
  refine and_congr_right fun _ => ?_
  rcases Nat.eq_zero_or_pos out'.length with empty | positive
  · have none : out' = [] := List.length_eq_zero_iff.mp empty
    rw [dnsDnToDot, if_pos empty]
    exact iff_of_true (fun same => by cases same) (.inl none)
  · have some : out' ≠ [] := fun none => by
      rw [none] at positive
      exact Nat.lt_irrefl 0 positive
    rw [dnsDnToDot_eq areLabels rfl rfl positive]
    by_cases full : names ≠ [] ∧ out'.length ≤ (keptText names).length
    · rw [if_pos full]
      refine iff_of_false (fun same => same rfl) ?_
      rintro (none | none | room)
      · exact some none
      · exact full.1 none
      · exact absurd full.2 (Nat.not_le_of_lt room)
    · rw [if_neg full]
      refine iff_of_true (fun same => by cases same) ?_
      by_cases noNames : names = []
      · exact .inr (.inl noNames)
      · exact .inr (.inr (Nat.lt_of_not_le fun room => full ⟨noNames, room⟩))

theorem dnsDotted_iff_short :
    (RoundTrips [[97, 98], [99]] ∧
      dnsDotToDn (Region.fresh 6) (Region.ofBytes [97, 92, 46, 0]) (Region.fresh 6).length ≠
        .error .overrun ∧
      dnsDnToDot (Region.fresh 5) (Region.ofBytes (encodeLabels [[97, 98], [99]] ++ [0]) ++ [])
        (Region.fresh 5).length ≠ .error .overrun) ↔
    ¬ Spends (Region.fresh 6).length 0 [97, 92, 46, 0] ∧
      (Region.fresh 5 = [] ∨ ([[97, 98], [99]] : List (List UInt8)) = [] ∨
        (keptText [[97, 98], [99]]).length < (Region.fresh 5).length) := by
  have host : IsHostName [[97, 98], [99]] := by
    rw [IsHostName, List.forall_mem_cons, List.forall_mem_singleton, List.forall_mem_cons,
      List.forall_mem_singleton, List.forall_mem_singleton]
    decide
  exact dnsDotted_iff host (by decide) [97, 92, 46, 0] host.areLabels [] (Region.fresh 6)
    (Region.fresh 5)

/-- The terminator of a text that fills its output, and a name that is copied with a size that
wrapped. -/
theorem dnsDotted_overruns :
    (¬ ∀ out src : Region, dnsDnToDot out src out.length ≠ .error .overrun) ∧
      ¬ ∀ out src : Region, dnsDotToDn out src out.length ≠ .error .overrun := by
  constructor
  · intro inside
    exact inside (Region.fresh 4) (Region.ofBytes [2, 97, 98, 1, 99, 0]) (by decide)
  · intro inside
    exact inside (Region.fresh 1) (Region.ofBytes [92, 97, 92, 98, 0]) (by decide +kernel)

end Dns

end Chaosircd
