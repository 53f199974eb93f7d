import Chaosircd.Chars
import Chaosircd.NmodeTimes

/-!
# The setters of a line of modes

`NMODE` names the setter of each entry.  A setter whose hash is that of the setter written
last is abbreviated by a star, and an empty one is written as a dash.  The handler takes the
first character of what it reads for one of these marks, whatever was meant.
-/

namespace Chaosircd

namespace Nmode

/-- An entry of a mode list with what a line says about it.  Its letter is that of a mode
that is known, and its sizes are those of a `chanmodechange`. -/
structure Entry (known : Char → Bool) where
  letter : Char
  arg : CString
  info : CString
  ihash : Nat
  ts : Int
  alpha : charsIsalpha letter = true
  listed : known letter = true
  noBlank : ∀ c ∈ arg, strIsspace c = false
  argFits : arg.length < 115
  infoFits : info.length < 115
  time : 0 ≤ ts ∧ ts < 2 ^ 63

variable {known : Char → Bool}

/-- The setter is taken for the one written last. -/
def Abbreviated (lasthash : Nat) (entry : Entry known) : Prop :=
  lasthash ≠ 0 ∧ lasthash = entry.ihash

instance (lasthash : Nat) (entry : Entry known) : Decidable (Abbreviated lasthash entry) :=
  inferInstanceAs (Decidable (_ ∧ _))

/-- How a setter is written. -/
def infoText (lasthash : Nat) (entry : Entry known) : CString :=
  if Abbreviated lasthash entry then ['*'] else if entry.info = [] then ['-'] else entry.info

/-- `lasthash` behind an entry. -/
def nextHash (lasthash : Nat) (entry : Entry known) : Nat :=
  if Abbreviated lasthash entry ∨ entry.info = [] then lasthash else entry.ihash

/-- The setters of a line. -/
def encodeInfos (lasthash : Nat) : List (Entry known) → List CString
  | [] => []
  | entry :: entries =>
      infoText lasthash entry :: encodeInfos (nextHash lasthash entry) entries

/-- What `ms_nmode` makes of a setter, with `lastinfo` before and after it.  A star that no
setter stands in front of is a null pointer. -/
def readInfo (lastinfo : Option CString) (text : CString) : Option (CString × Option CString) :=
  if text.head? = some '-' then some ([], lastinfo)
  else if text.head? = some '*' then lastinfo.map fun info => (info, some info)
  else some (strlcpy text 115, some (strlcpy text 115))

/-- What it makes of all of them. -/
def decodeInfos (lastinfo : Option CString) : List CString → Option (List CString)
  | [] => some []
  | text :: texts => do
      let (info, lastinfo) ← readInfo lastinfo text
      let infos ← decodeInfos lastinfo texts
      some (info :: infos)

/-- The condition on the setters of a line: an abbreviated setter is the one written last,
and the others do not begin with a mark. -/
def InfosFit : Nat → Option CString → List (Entry known) → Prop
  | _, _, [] => True
  | lasthash, lastinfo, entry :: entries =>
      if Abbreviated lasthash entry then
        lastinfo = some entry.info ∧ InfosFit lasthash lastinfo entries
      else if entry.info = [] then InfosFit lasthash lastinfo entries
      else (entry.info.head? ≠ some '-' ∧ entry.info.head? ≠ some '*') ∧
        InfosFit entry.ihash (some entry.info) entries

theorem decodeInfos_cons_eq_some {lastinfo : Option CString} {text : CString}
    {texts infos : List CString} :
    decodeInfos lastinfo (text :: texts) = some infos ↔
      ∃ info lastinfo' rest, readInfo lastinfo text = some (info, lastinfo') ∧
        decodeInfos lastinfo' texts = some rest ∧ infos = info :: rest := by
  rw [decodeInfos]
  simp only [Option.bind_eq_bind, Option.bind_eq_some_iff, Option.some.injEq, Prod.exists]
  constructor
  · rintro ⟨info, lastinfo', read, rest, decoded, same⟩
    exact ⟨info, lastinfo', rest, read, decoded, same.symm⟩
  · rintro ⟨info, lastinfo', rest, read, decoded, same⟩
    exact ⟨info, lastinfo', read, rest, decoded, same.symm⟩

/-- The handler gets the setters of a line if and only if they meet the condition. -/
theorem decodeInfos_iff {lasthash : Nat} {lastinfo : Option CString}
    {entries : List (Entry known)} (noStar : ∀ info ∈ lastinfo, info.head? ≠ some '*') :
    decodeInfos lastinfo (encodeInfos lasthash entries) = some (entries.map Entry.info) ↔
      InfosFit lasthash lastinfo entries := by
  induction entries generalizing lasthash lastinfo with
  | nil => exact iff_of_true rfl trivial
  | cons entry entries induction =>
      rw [encodeInfos, decodeInfos_cons_eq_some, InfosFit, infoText, nextHash, List.map_cons]
      by_cases abbreviated : Abbreviated lasthash entry
      · rw [if_pos abbreviated, if_pos abbreviated, if_pos (Or.inl abbreviated)]
        cases lastinfo with
        | none =>
            apply iff_of_false
            · rintro ⟨info, lastinfo', rest, read, _⟩
              cases read
            · rintro ⟨missing, _⟩
              cases missing
        | some info =>
            rw [Option.some.injEq]
            constructor
            · rintro ⟨info', lastinfo', rest, read, decoded, same⟩
              cases read
              rw [List.cons.injEq] at same
              rw [← same.2] at decoded
              exact ⟨same.1.symm, (induction noStar).mp decoded⟩
            · rintro ⟨rfl, fit⟩
              exact ⟨_, _, _, rfl, (induction noStar).mpr fit, rfl⟩
      · rw [if_neg abbreviated, if_neg abbreviated]
        by_cases empty : entry.info = []
        · rw [if_pos empty, if_pos empty, if_pos (Or.inr empty), empty]
          constructor
          · rintro ⟨info, lastinfo', rest, read, decoded, same⟩
            cases read
            rw [List.cons.injEq] at same
            rw [← same.2] at decoded
            exact (induction noStar).mp decoded
          · intro fit
            exact ⟨_, _, _, rfl, (induction noStar).mpr fit, rfl⟩
        · rw [if_neg empty, if_neg empty, if_neg (not_or.mpr ⟨abbreviated, empty⟩)]
          by_cases dash : entry.info.head? = some '-'
          · apply iff_of_false
            · rintro ⟨info, lastinfo', rest, read, _, same⟩
              rw [readInfo, if_pos dash] at read
              cases read
              exact empty (List.cons.inj same).1
            · exact fun fit => fit.1.1 dash
          · by_cases star : entry.info.head? = some '*'
            · apply iff_of_false
              · rintro ⟨info, lastinfo', rest, read, _, same⟩
                rw [readInfo, if_neg dash, if_pos star, Option.map_eq_some_iff] at read
                obtain ⟨last, before, found⟩ := read
                cases found
                rw [(List.cons.inj same).1] at star
                exact noStar info before star
              · exact fun fit => fit.1.2 star
            · have whole : strlcpy entry.info 115 = entry.info := strlcpy_eq_self entry.infoFits
              have next := @induction entry.ihash (some entry.info) (by
                rintro info ⟨⟩
                exact star)
              rw [readInfo, if_neg dash, if_neg star, whole, ← next]
              constructor
              · rintro ⟨info, lastinfo', rest, read, decoded, same⟩
                cases read
                rw [List.cons.injEq] at same
                rw [← same.2] at decoded
                exact ⟨⟨dash, star⟩, decoded⟩
              · rintro ⟨_, decoded⟩
                exact ⟨_, _, _, rfl, decoded, rfl⟩

/-- What holds of the characters that are read holds of those of the setters. -/
theorem mem_of_decodeInfos {P : Char → Prop} {lastinfo : Option CString}
    {texts infos : List CString} (read : ∀ text ∈ texts, ∀ c ∈ text, P c)
    (before : ∀ info ∈ lastinfo, ∀ c ∈ info, P c)
    (decoded : decodeInfos lastinfo texts = some infos) : ∀ info ∈ infos, ∀ c ∈ info, P c := by
  induction texts generalizing lastinfo infos with
  | nil =>
      cases decoded
      nofun
  | cons text texts induction =>
      obtain ⟨info, lastinfo', rest, found, others, rfl⟩ := decodeInfos_cons_eq_some.mp decoded
      have here : (∀ c ∈ info, P c) ∧ ∀ last ∈ lastinfo', ∀ c ∈ last, P c := by
        rw [readInfo] at found
        split at found
        · cases found
          exact ⟨nofun, before⟩
        · split at found
          · obtain ⟨last, same, pair⟩ := Option.map_eq_some_iff.mp found
            cases pair
            refine ⟨before info same, ?_⟩
            rintro last ⟨⟩
            exact before info same
          · cases found
            have copied : ∀ c ∈ strlcpy text 115, P c := fun c member =>
              read text List.mem_cons_self c (List.mem_of_mem_take member)
            refine ⟨copied, ?_⟩
            rintro last ⟨⟩
            exact copied
      rw [List.forall_mem_cons]
      exact ⟨here.1, induction (fun other member => read other (List.mem_cons_of_mem _ member))
        here.2 others⟩

theorem length_encodeInfos (lasthash : Nat) (entries : List (Entry known)) :
    (encodeInfos lasthash entries).length = entries.length := by
  induction entries generalizing lasthash with
  | nil => rfl
  | cons entry entries induction => exact congrArg (· + 1) (induction _)

/-- What is written for a setter is a mark, or the setter. -/
theorem mem_encodeInfos {lasthash : Nat} {entries : List (Entry known)} {text : CString}
    (member : text ∈ encodeInfos lasthash entries) :
    text = ['*'] ∨ text = ['-'] ∨ (text ≠ [] ∧ ∃ entry ∈ entries, text = entry.info) := by
  induction entries generalizing lasthash with
  | nil => cases member
  | cons entry entries induction =>
      rw [encodeInfos, List.mem_cons] at member
      rcases member with rfl | later
      · rw [infoText]
        split
        · exact .inl rfl
        · split
          · exact .inr (.inl rfl)
          · rename_i some
            exact .inr (.inr ⟨some, entry, List.mem_cons_self, rfl⟩)
      · rcases induction later with star | dash | ⟨some, other, listed, same⟩
        · exact .inl star
        · exact .inr (.inl dash)
        · exact .inr (.inr ⟨some, other, List.mem_cons_of_mem _ listed, same⟩)

end Nmode

end Chaosircd
