import Chaosircd.MaskEntries
import Chaosircd.SqlText

/-!
# The statements of the user database

The functions of the user database put their statements together by hand and hand them to
`db_query`, which fills in each `%s` as it is.  Some of the strings of a command are escaped
before, some are not: `userdb_mutate` escapes the user but not the values, `userdb_register`
the values but not the user, and `userdb_verify` neither the user nor the password.  The
directive that escapes, which the database layer registers, is used by none of them.

The driver's escaping is a parameter.  It works on single bytes, what it makes of a byte
stays inside a string literal, and it leaves `=` alone.
-/

namespace Chaosircd

namespace UserdbQueries

open SqlText Modes

/-! ## Escaping -/

/-- `db_escape_string`. -/
def escapeString (escapeByte : Char → CString) (s : CString) : CString :=
  s.flatMap escapeByte

/-- What is relied on in the driver. -/
structure EscapeSound (escapeByte : Char → CString) : Prop where
  inside : ∀ c, staysInside '\'' (escapeByte c) = true
  equals : escapeByte '=' = ['=']
  others : ∀ c, c ≠ '=' → '=' ∉ escapeByte c

/-- `mysql_escape_string`, for a byte. -/
def mysqlEscapeByte (c : Char) : CString :=
  if c = '\x00' then ['\\', '0']
  else if c = '\n' then ['\\', 'n']
  else if c = '\r' then ['\\', 'r']
  else if c = '\x1a' then ['\\', 'Z']
  else if c = '\\' ∨ c = '\'' ∨ c = '"' then ['\\', c]
  else [c]

theorem mysqlEscapeByte_sound : EscapeSound mysqlEscapeByte where
  inside := by
    intro c
    rw [mysqlEscapeByte]
    split_ifs with nul newline creturn substitute special
    · decide
    · decide
    · decide
    · decide
    · rcases special with rfl | rfl | rfl <;> decide
    · push Not at special
      rw [staysInside_cons special.2.1 (Or.inl special.1), staysInside_nil]
  equals := by decide
  others := by
    intro c other
    rw [mysqlEscapeByte]
    split_ifs with nul newline creturn substitute special
    · decide
    · decide
    · decide
    · decide
    · rcases special with rfl | rfl | rfl <;> decide
    · rw [List.mem_singleton]
      exact other.symm

/-! ## Values -/

/-- The loop in which values are joined, with the text `sa` so far. -/
def joinLoop (sep : CString) (item : CString → CString) : CString → List CString → CString
  | sa, [] => sa
  | sa, value :: values =>
      joinLoop sep item (sa ++ (if sa = [] then [] else sep) ++ item value) values

/-- The second loop of `build_values`, where a character in front of which a backslash is
put is `quote`. -/
def copyValue (stop quote : Option Char) : CString → CString
  | [] => []
  | c :: str =>
      if some c = stop then []
      else if some c = quote then '\\' :: c :: copyValue stop quote str
      else c :: copyValue stop quote str

/-- A round of `build_values`, where `none` is a parameter of `'\0'`. -/
def buildValue (escapeByte : Char → CString) (sep : Char) (q stop start : Option Char)
    (value : CString) : CString :=
  let quote := q ≠ none ∧ ((sep = ',' ∨ value = [] ∨ sep ∈ value) ∨ q = some '`')
  let sql := q = some '\'' ∧ sep = ',' ∧ start = some '='
  let str := if sql then escapeString escapeByte value else value
  let str := match start with
    | none => str
    | some c => after c str
  let mark := if quote then q.toList else []
  mark ++ copyValue stop (if sql then none else q) str ++ mark

/-- `build_values`. -/
def buildValues (escapeByte : Char → CString) (values : List CString) (sep : Char)
    (q stop start : Option Char) : CString :=
  joinLoop [sep] (buildValue escapeByte sep q stop start) [] values

/-- The loop of `get_varvalue` that takes backslashes away, with the bytes in front of the
last one. -/
def dequoteLoop : Nat → CString → CString
  | _, [] => []
  | 0, _ => []
  | bytes + 1, '\\' :: '\'' :: s => '\'' :: dequoteLoop (bytes - 1) s
  | bytes + 1, c :: s => c :: dequoteLoop bytes s

/-- `get_varvalue`. -/
def getVarvalue (a : CString) : CString :=
  let p := if '=' ∈ a then after '=' a else a
  match p with
  | '\'' :: d => dequoteLoop (d.length - 1) d
  | p => p

/-- A round of `where_part`.  The buffer of 64 bytes that a name goes through is left out: a
name is not held in a quoted form, however long it is. -/
def whereValue (escapeByte : Char → CString) (value : CString) : CString :=
  (if '=' ∈ value then cutAt '=' value else "uid".toList) ++ "='".toList ++
    escapeString escapeByte (getVarvalue value) ++ ['\'']

/-- `where_part`. -/
def wherePart (escapeByte : Char → CString) (values : List CString) : CString :=
  joinLoop " AND ".toList (whereValue escapeByte) [] values

/-- A round of the loop of `userdb_mutate`. -/
def mutateValue (value : CString) : CString :=
  cutAt '=' value ++ "='".toList ++ after '=' value ++ ['\'']

/-! ## Statements -/

/-- A column of the table of users.  No name there has a quote in it. -/
structure Column where
  name : CString
  plain : ∀ c ∈ name, isQuote c = false

/-- A column as `userdb_fields` gives it. -/
def Column.field (column : Column) : CString :=
  if 9 < column.name.length ∧ column.name.drop (column.name.length - 9) = "_location".toList then
    "AsText(".toList ++ column.name ++ [')']
  else column.name

/-- A call of a function of the user database, with what it is given. -/
inductive UserdbCall where
  | fields
  | lookup (uid : CString)
  | verify (uid password : CString)
  | register (uid : CString) (v : List CString)
  | mutate (uid : CString) (v : List CString)
  | search (columns : List Column) (v : List CString)

/-- The statement of `userdb_fields`. -/
def userdbFields : CString :=
  "SHOW FIELDS FROM users;".toList

/-- The statement of `userdb_lookup`. -/
def userdbLookup (uid : CString) : CString :=
  "SELECT * FROM users WHERE uid='".toList ++ uid ++ "' SORT BY uid;".toList

/-- The statement of `userdb_verify`. -/
def userdbVerify (uid password : CString) : CString :=
  "SELECT msisdn,imsi,imei,flag_level,last_login,last_location ".toList ++
    "FROM chaosircd.users WHERE uid='".toList ++ uid ++ "' AND password='".toList ++
    password ++ "';".toList

/-- The statement of `userdb_register`. -/
def userdbRegister (escapeByte : Char → CString) (uid : CString) (v : List CString) : CString :=
  let fields := buildValues escapeByte v ',' (some '`') (some '=') none
  let values := buildValues escapeByte v ',' (some '\'') none (some '=')
  "INSERT INTO users (uid,".toList ++ fields ++ ") VALUES ('".toList ++ uid ++ "',".toList ++
    values ++ ");".toList

/-- The statement of `userdb_mutate`. -/
def userdbMutate (escapeByte : Char → CString) (uid : CString) (v : List CString) : CString :=
  let values := joinLoop [','] mutateValue [] v
  "UPDATE users SET ".toList ++ values ++ " WHERE uid='".toList ++
    escapeString escapeByte uid ++ "';".toList

/-- The statement of `userdb_search`. -/
def userdbSearch (escapeByte : Char → CString) (columns : List Column) (v : List CString) :
    CString :=
  let fields := buildValues escapeByte (columns.map Column.field) ',' none none none
  "SELECT ".toList ++ fields ++ " FROM users WHERE ".toList ++ wherePart escapeByte v ++
    ";".toList

/-- The statement that a call gives to `db_query`. -/
def queryText (escapeByte : Char → CString) : UserdbCall → CString
  | .fields => userdbFields
  | .lookup uid => userdbLookup uid
  | .verify uid password => userdbVerify uid password
  | .register uid v => userdbRegister escapeByte uid v
  | .mutate uid v => userdbMutate escapeByte uid v
  | .search columns v => userdbSearch escapeByte columns v

/-! ## What is filled in -/

/-- The pieces of a name in `userdb_register`. -/
def namePieces (value : CString) : List Piece :=
  [.fixed ['`'], .given (copyValue (some '=') (some '`') value), .fixed ['`']]

/-- The pieces of a value in `userdb_register`. -/
def valuePieces (escapeByte : Char → CString) (value : CString) : List Piece :=
  [.fixed ['\''], .given (after '=' (escapeString escapeByte value)), .fixed ['\'']]

/-- The pieces of a condition in `userdb_search`. -/
def wherePieces (escapeByte : Char → CString) (value : CString) : List Piece :=
  [if '=' ∈ value then .given (cutAt '=' value) else .fixed "uid".toList, .fixed "='".toList,
    .given (escapeString escapeByte (getVarvalue value)), .fixed ['\'']]

/-- The pieces of an assignment in `userdb_mutate`. -/
def mutatePieces (value : CString) : List Piece :=
  [.given (cutAt '=' value), .fixed "='".toList, .given (after '=' value), .fixed ['\'']]

/-- A statement with the strings of the command told apart from what the function writes. -/
def queryPieces (escapeByte : Char → CString) : UserdbCall → List Piece
  | .fields => [.fixed "SHOW FIELDS FROM users;".toList]
  | .lookup uid =>
      [.fixed "SELECT * FROM users WHERE uid='".toList, .given uid,
        .fixed "' SORT BY uid;".toList]
  | .verify uid password =>
      [.fixed "SELECT msisdn,imsi,imei,flag_level,last_login,last_location ".toList,
        .fixed "FROM chaosircd.users WHERE uid='".toList, .given uid,
        .fixed "' AND password='".toList, .given password, .fixed "';".toList]
  | .register uid v =>
      .fixed "INSERT INTO users (uid,".toList ::
        (joinPieces [','] namePieces true v ++
          .fixed ") VALUES ('".toList :: .given uid :: .fixed "',".toList ::
            (joinPieces [','] (valuePieces escapeByte) true v ++ [.fixed ");".toList]))
  | .mutate uid v =>
      .fixed "UPDATE users SET ".toList ::
        (joinPieces [','] mutatePieces true v ++
          [.fixed " WHERE uid='".toList, .given (escapeString escapeByte uid),
            .fixed "';".toList])
  | .search columns v =>
      .fixed "SELECT ".toList ::
        .fixed (buildValues escapeByte (columns.map Column.field) ',' none none none) ::
        .fixed " FROM users WHERE ".toList ::
        (joinPieces " AND ".toList (wherePieces escapeByte) true v ++ [.fixed ";".toList])

/-- Two calls of one function with as many strings. -/
def SameShape : UserdbCall → UserdbCall → Prop
  | .fields, .fields => True
  | .lookup _, .lookup _ => True
  | .verify _ _, .verify _ _ => True
  | .register _ v, .register _ v' => v.length = v'.length
  | .mutate _ v, .mutate _ v' => v.length = v'.length
  | .search columns v, .search columns' v' =>
      columns = columns' ∧ List.Forall₂ (fun value value' => '=' ∈ value ↔ '=' ∈ value') v v'
  | _, _ => False

/-- Every string of the command is held in a quoted form, and the structure of the statement
is that of every other call of its shape in which this is so. -/
def QueryContained (escapeByte : Char → CString) (call : UserdbCall) : Prop :=
  Contained .code (queryPieces escapeByte call) ∧
    ∀ other, SameShape call other → Contained .code (queryPieces escapeByte other) →
      skeleton .code (queryText escapeByte call) = skeleton .code (queryText escapeByte other)

/-- The strings that are filled in as they are have no quote that ends their form. -/
def SafeCall : UserdbCall → Prop
  | .fields => True
  | .lookup uid => staysInside '\'' uid = true
  | .verify uid password => staysInside '\'' uid = true ∧ staysInside '\'' password = true
  | .register uid v => (∀ value ∈ v, '`' ∉ cutAt '=' value) ∧ staysInside '\'' uid = true
  | .mutate _ v =>
      ∀ value ∈ v, cutAt '=' value = [] ∧ staysInside '\'' (after '=' value) = true
  | .search _ v => ∀ value ∈ v, '=' ∈ value → cutAt '=' value = []

/-! ## The pieces make up the statement -/

theorem joinLoop_eq {sep : CString} {item : CString → CString} {pieces : CString → List Piece}
    (same : ∀ value, written (pieces value) = item value) (some : ∀ value, item value ≠ [])
    (sa : CString) (values : List CString) :
    joinLoop sep item sa values = sa ++ written (joinPieces sep pieces (sa = []) values) := by
  induction values generalizing sa with
  | nil => exact (List.append_nil sa).symm
  | cons value values induction =>
      have more : sa ++ (if sa = [] then [] else sep) ++ item value ≠ [] := by
        intro empty
        exact some value (List.append_eq_nil_iff.mp empty).2
      rw [joinLoop, induction, decide_eq_false more, joinPieces, written_cons, written_append,
        same]
      simp [Piece.text]

theorem copyValue_none (str : CString) : copyValue none none str = str := by
  induction str with
  | nil => rfl
  | cons c str induction => rw [copyValue, if_neg (by nofun), if_neg (by nofun), induction]

theorem written_namePieces (escapeByte : Char → CString) (value : CString) :
    written (namePieces value) = buildValue escapeByte ',' (some '`') (some '=') none value := by
  simp [namePieces, buildValue, written, Piece.text]

theorem written_valuePieces (escapeByte : Char → CString) (value : CString) :
    written (valuePieces escapeByte value) =
      buildValue escapeByte ',' (some '\'') none (some '=') value := by
  simp [valuePieces, buildValue, written, Piece.text, copyValue_none]

theorem written_wherePieces (escapeByte : Char → CString) (value : CString) :
    written (wherePieces escapeByte value) = whereValue escapeByte value := by
  by_cases named : '=' ∈ value <;> simp [wherePieces, whereValue, written, Piece.text, named]

theorem written_mutatePieces (value : CString) :
    written (mutatePieces value) = mutateValue value := by
  simp [mutatePieces, mutateValue, written, Piece.text]

/-- The pieces of a call make up its statement. -/
theorem written_queryPieces (escapeByte : Char → CString) (call : UserdbCall) :
    written (queryPieces escapeByte call) = queryText escapeByte call := by
  cases call with
  | fields => exact List.append_nil _
  | lookup uid =>
      have flat : ∀ a b : CString, written [.fixed a, .given uid, .fixed b] = a ++ uid ++ b := by
        intro a b
        simp only [written_cons, written_nil, List.append_nil, Piece.text, List.append_assoc]
      exact flat _ _
  | verify uid password =>
      have flat : ∀ a b c d : CString, written [.fixed a, .fixed b, .given uid, .fixed c,
          .given password, .fixed d] = a ++ b ++ uid ++ c ++ password ++ d := by
        intro a b c d
        simp only [written_cons, written_nil, List.append_nil, Piece.text, List.append_assoc]
      exact flat _ _ _ _
  | register uid v =>
      have names : buildValues escapeByte v ',' (some '`') (some '=') none =
          written (joinPieces [','] namePieces true v) :=
        joinLoop_eq (written_namePieces escapeByte) (fun value => by simp [buildValue]) [] v
      have values : buildValues escapeByte v ',' (some '\'') none (some '=') =
          written (joinPieces [','] (valuePieces escapeByte) true v) :=
        joinLoop_eq (written_valuePieces escapeByte) (fun value => by simp [buildValue]) [] v
      have flat : ∀ (a b c d : CString) {xs ys : CString} {ps qs : List Piece},
          xs = written ps → ys = written qs →
          written (.fixed a :: (ps ++ .fixed b :: .given uid :: .fixed c :: (qs ++ [.fixed d]))) =
            a ++ xs ++ b ++ uid ++ c ++ ys ++ d := by
        rintro a b c d _ _ ps qs rfl rfl
        simp only [written_cons, written_append, written_nil, List.append_nil, Piece.text,
          List.append_assoc]
      exact flat _ _ _ _ names values
  | mutate uid v =>
      have assignments : joinLoop [','] mutateValue [] v =
          written (joinPieces [','] mutatePieces true v) :=
        joinLoop_eq written_mutatePieces (fun value => by simp [mutateValue]) [] v
      have flat : ∀ (a b c u : CString) {xs : CString} {ps : List Piece}, xs = written ps →
          written (.fixed a :: (ps ++ [.fixed b, .given u, .fixed c])) =
            a ++ xs ++ b ++ u ++ c := by
        rintro a b c u _ ps rfl
        simp only [written_cons, written_append, written_nil, List.append_nil, Piece.text,
          List.append_assoc]
      exact flat _ _ _ _ assignments
  | search columns v =>
      have conditions : wherePart escapeByte v =
          written (joinPieces " AND ".toList (wherePieces escapeByte) true v) :=
        joinLoop_eq (written_wherePieces escapeByte) (fun value => by simp [whereValue]) [] v
      have flat : ∀ (a b c u : CString) {xs : CString} {ps : List Piece}, xs = written ps →
          written (.fixed a :: .fixed u :: .fixed b :: (ps ++ [.fixed c])) =
            a ++ u ++ b ++ xs ++ c := by
        rintro a b c u _ ps rfl
        simp only [written_cons, written_append, written_nil, List.append_nil, Piece.text,
          List.append_assoc]
      exact flat _ _ _ _ conditions

/-! ## Strings that are escaped -/

section Escape

variable {escapeByte : Char → CString}

theorem escapeString_inside (sound : EscapeSound escapeByte) (s : CString) :
    staysInside '\'' (escapeString escapeByte s) = true :=
  staysInside_flatMap sound.inside s

theorem after_append_of_not_mem {c : Char} {front : CString} (plain : c ∉ front)
    (behind : CString) : after c (front ++ behind) = after c behind := by
  rw [after, after, List.dropWhile_append_of_pos]
  intro d member
  rw [decide_eq_true_eq]
  rintro rfl
  exact plain member

/-- A value is cut at the same place before and after it is escaped. -/
theorem after_escapeString (sound : EscapeSound escapeByte) (value : CString) :
    after '=' (escapeString escapeByte value) = escapeString escapeByte (after '=' value) := by
  induction value with
  | nil => rfl
  | cons c value induction =>
      rw [escapeString, List.flatMap_cons]
      by_cases equals : c = '='
      · rw [equals, sound.equals]
        rfl
      · have passed : after '=' (c :: value) = after '=' value :=
          @after_append_of_not_mem '=' [c] (by simpa using Ne.symm equals) value
        rw [after_append_of_not_mem (sound.others c equals), passed]
        exact induction

end Escape

/-! ## Names in back quotes -/

/-- The copy of a text begins with the quote only where the text does not. -/
theorem head_copyValue {stop : Option Char} {quote : Char} (plain : quote ≠ '\\')
    (str : CString) : ∀ c ∈ (copyValue stop (some quote) str).head?, c ≠ quote := by
  cases str with
  | nil => nofun
  | cons d str =>
      rw [copyValue]
      split_ifs with stopped quoted
      · nofun
      · rintro c ⟨⟩
        exact plain.symm
      · rintro c ⟨⟩
        rintro rfl
        exact quoted rfl

theorem name_held_iff (value : CString) :
    staysInside '`' (copyValue (some '=') (some '`') value) = true ↔ '`' ∉ cutAt '=' value := by
  induction value with
  | nil => exact ⟨fun _ => List.not_mem_nil, fun _ => rfl⟩
  | cons c value induction =>
      by_cases equals : c = '='
      · subst equals
        exact ⟨fun _ => List.not_mem_nil, fun _ => rfl⟩
      · have more : cutAt '=' (c :: value) = c :: cutAt '=' value :=
          List.takeWhile_cons_of_pos (decide_eq_true equals)
        rw [copyValue, if_neg (by simpa using equals), more, List.mem_cons]
        by_cases quote : c = '`'
        · subst quote
          have closes := not_staysInside_quote (@head_copyValue (some '=') '`' (by decide) value)
          rw [if_pos rfl, staysInside_cons (by decide) (Or.inr rfl), closes]
          simp
        · rw [if_neg (by simpa using quote), staysInside_cons quote (Or.inr rfl), induction]
          simp [Ne.symm quote]

/-! ## Each part of a statement -/

theorem namePieces_contained (value : CString) :
    Contained .code (namePieces value) ↔ '`' ∉ cutAt '=' value := by
  rw [namePieces, contained_fixed, ← name_held_iff]
  have opened : lexRun .code ['`'] = .inside '`' := rfl
  rw [opened, contained_given_inside]
  exact iff_of_eq (and_true _)

theorem valuePieces_contained {escapeByte : Char → CString} (sound : EscapeSound escapeByte)
    (value : CString) : Contained .code (valuePieces escapeByte value) := by
  have opened : lexRun .code ['\''] = .inside '\'' := rfl
  rw [valuePieces, contained_fixed, opened, contained_given_inside, after_escapeString sound]
  exact ⟨escapeString_inside sound _, trivial⟩

/-- The fixed texts of a condition: one opens a quoted form, the other does not. -/
theorem conditionTexts :
    lexRun .code "='".toList = .inside '\'' ∧ lexRun .code "uid".toList = .code := by
  constructor
  · rw [String.toList_ofList]
    rfl
  · rw [String.toList_ofList]
    rfl

theorem mutatePieces_contained (value : CString) :
    Contained .code (mutatePieces value) ↔
      cutAt '=' value = [] ∧ staysInside '\'' (after '=' value) = true := by
  rw [mutatePieces, contained_given_code, contained_fixed, conditionTexts.1, contained_given_inside]
  exact and_congr_right fun _ => iff_of_eq (and_true _)

theorem wherePieces_contained {escapeByte : Char → CString} (sound : EscapeSound escapeByte)
    (value : CString) :
    Contained .code (wherePieces escapeByte value) ↔ ('=' ∈ value → cutAt '=' value = []) := by
  have condition : Contained .code [.fixed "='".toList,
      .given (escapeString escapeByte (getVarvalue value)), .fixed ['\'']] := by
    rw [contained_fixed, conditionTexts.1, contained_given_inside]
    exact ⟨escapeString_inside sound _, trivial⟩
  rw [wherePieces]
  by_cases named : '=' ∈ value
  · rw [if_pos named, contained_given_code, and_iff_left condition]
    exact ⟨fun empty _ => empty, fun empty => empty named⟩
  · rw [if_neg named, contained_fixed, conditionTexts.2]
    exact ⟨fun _ member => absurd member named, fun _ => condition⟩

/-! ## The quoted form that ends each part -/

theorem namePieces_ends {value : CString} (good : '`' ∉ cutAt '=' value) :
    lexRun .code (written (namePieces value)) = .closing '`' :=
  lexRun_quoted rfl ((name_held_iff value).mpr good)

theorem valuePieces_ends {escapeByte : Char → CString} (sound : EscapeSound escapeByte)
    (value : CString) :
    lexRun .code (written (valuePieces escapeByte value)) = .closing '\'' := by
  have stays : staysInside '\'' (after '=' (escapeString escapeByte value)) = true := by
    rw [after_escapeString sound]
    exact escapeString_inside sound _
  exact lexRun_quoted rfl stays

theorem mutatePieces_ends {value : CString}
    (good : cutAt '=' value = [] ∧ staysInside '\'' (after '=' value) = true) :
    lexRun .code (written (mutatePieces value)) = .closing '\'' := by
  rw [mutatePieces, good.1, written_cons]
  exact lexRun_quoted conditionTexts.1 good.2

theorem wherePieces_ends {escapeByte : Char → CString} (sound : EscapeSound escapeByte)
    {value : CString} (good : '=' ∈ value → cutAt '=' value = []) :
    lexRun .code (written (wherePieces escapeByte value)) = .closing '\'' := by
  have held := escapeString_inside sound (getVarvalue value)
  rw [wherePieces, written_cons]
  by_cases named : '=' ∈ value
  · rw [if_pos named, good named]
    exact lexRun_quoted conditionTexts.1 held
  · rw [if_neg named, Piece.text, lexRun_append, conditionTexts.2]
    exact lexRun_quoted conditionTexts.1 held

/-! ## Columns -/

theorem joinLoop_plain {item : CString → CString} {values : List CString}
    (plain : ∀ value ∈ values, ∀ c ∈ item value, isQuote c = false) (sa : CString)
    (before : ∀ c ∈ sa, isQuote c = false) :
    ∀ c ∈ joinLoop [','] item sa values, isQuote c = false := by
  induction values generalizing sa with
  | nil => exact before
  | cons value values induction =>
      apply induction (fun other member => plain other (List.mem_cons_of_mem value member))
      intro c member
      rw [List.append_assoc, List.mem_append, List.mem_append] at member
      rcases member with old | sep | new
      · exact before c old
      · split at sep
        · cases sep
        · rw [List.mem_singleton.mp sep]
          rfl
      · exact plain value List.mem_cons_self c new

theorem Column.field_plain (column : Column) : ∀ c ∈ column.field, isQuote c = false := by
  rw [Column.field]
  split
  · intro c member
    rw [List.mem_append, List.mem_append] at member
    rcases member with (opening | name) | closing
    · have opening_plain : ("AsText(".toList.all fun c => !isQuote c) = true := by
        rw [String.toList_ofList]
        rfl
      simpa using List.all_eq_true.mp opening_plain c opening
    · exact column.plain c name
    · rw [List.mem_singleton.mp closing]
      rfl
  · exact column.plain

/-- The list of columns has no quotes in it. -/
theorem columns_plain (escapeByte : Char → CString) (columns : List Column) :
    ∀ c ∈ buildValues escapeByte (columns.map Column.field) ',' none none none,
      isQuote c = false := by
  apply joinLoop_plain
  · intro value member
    obtain ⟨column, listed, rfl⟩ := List.mem_map.mp member
    have copied : buildValue escapeByte ',' none none none column.field = column.field := by
      simp [buildValue, copyValue_none]
    rw [copied]
    exact column.field_plain
  · nofun

/-! ## Whole statements -/

variable {escapeByte : Char → CString}

theorem contained_iff (sound : EscapeSound escapeByte) (call : UserdbCall) :
    Contained .code (queryPieces escapeByte call) ↔ SafeCall call := by
  cases call with
  | fields => exact Iff.rfl
  | lookup uid =>
      have opened : lexRun .code "SELECT * FROM users WHERE uid='".toList = .inside '\'' := by
        rw [String.toList_ofList]
        rfl
      rw [queryPieces, contained_fixed, opened, contained_given_inside]
      exact iff_of_eq (and_true _)
  | verify uid password =>
      have start : lexRun .code
          "SELECT msisdn,imsi,imei,flag_level,last_login,last_location ".toList = .code := by
        rw [String.toList_ofList]
        rfl
      have opened : lexRun .code "FROM chaosircd.users WHERE uid='".toList = .inside '\'' := by
        rw [String.toList_ofList]
        rfl
      have between : lexRun (.inside '\'') "' AND password='".toList = .inside '\'' := by
        rw [String.toList_ofList]
        rfl
      rw [queryPieces, contained_fixed, start, contained_fixed, opened, contained_given_inside,
        contained_fixed, between, contained_given_inside]
      exact and_congr_right fun _ => iff_of_eq (and_true _)
  | register uid v =>
      have start : lexRun .code "INSERT INTO users (uid,".toList = .code := by
        rw [String.toList_ofList]
        rfl
      have opened : lexRun .code ") VALUES ('".toList = .inside '\'' := by
        rw [String.toList_ofList]
        rfl
      have between : lexRun (.inside '\'') "',".toList = .code := by
        rw [String.toList_ofList]
        rfl
      have follows : lexRun (.closing '`') ") VALUES ('".toList =
          lexRun .code ") VALUES ('".toList := by
        rw [String.toList_ofList]
        rfl
      have parts : lexRun (.closing '\'') [','] = .code := rfl
      have parts' : lexRun (.closing '`') [','] = .code := rfl
      have follows' : lexRun (.closing '\'') ");".toList = lexRun .code ");".toList := by
        rw [String.toList_ofList]
        rfl
      have values := contained_join (fun value => iff_of_true (valuePieces_contained sound value)
        trivial) (fun value _ => valuePieces_ends sound value) parts follows' true v []
      have names := contained_join namePieces_contained (fun _ good => namePieces_ends good)
        parts' follows true v (.given uid :: .fixed "',".toList ::
          (joinPieces [','] (valuePieces escapeByte) true v ++ [.fixed ");".toList]))
      have rest : Contained (.inside '\'') (.given uid :: .fixed "',".toList ::
          (joinPieces [','] (valuePieces escapeByte) true v ++ [.fixed ");".toList])) ↔
          staysInside '\'' uid = true := by
        rw [contained_given_inside, contained_fixed, between]
        exact and_iff_left (values.mpr ⟨fun _ _ => trivial, trivial⟩)
      rw [opened, rest] at names
      rw [queryPieces, contained_fixed, start]
      exact names
  | mutate uid v =>
      have start : lexRun .code "UPDATE users SET ".toList = .code := by
        rw [String.toList_ofList]
        rfl
      have opened : lexRun .code " WHERE uid='".toList = .inside '\'' := by
        rw [String.toList_ofList]
        rfl
      have parts : lexRun (.closing '\'') [','] = .code := rfl
      have follows : lexRun (.closing '\'') " WHERE uid='".toList =
          lexRun .code " WHERE uid='".toList := by
        rw [String.toList_ofList]
        rfl
      have assignments := contained_join mutatePieces_contained
        (fun _ good => mutatePieces_ends good) parts follows true v
        [.given (escapeString escapeByte uid), .fixed "';".toList]
      have rest : Contained (.inside '\'') [.given (escapeString escapeByte uid),
          .fixed "';".toList] := by
        rw [contained_given_inside]
        exact ⟨escapeString_inside sound uid, trivial⟩
      rw [opened, and_iff_left rest] at assignments
      rw [queryPieces, contained_fixed, start]
      exact assignments
  | search columns v =>
      have start : lexRun .code "SELECT ".toList = .code := by
        rw [String.toList_ofList]
        rfl
      have between : lexRun .code " FROM users WHERE ".toList = .code := by
        rw [String.toList_ofList]
        rfl
      have parts : lexRun (.closing '\'') " AND ".toList = .code := by
        rw [String.toList_ofList]
        rfl
      have follows : lexRun (.closing '\'') ";".toList = lexRun .code ";".toList := by
        rw [String.toList_ofList]
        rfl
      have conditions := contained_join (wherePieces_contained sound)
        (fun _ good => wherePieces_ends sound good) parts follows true v []
      rw [queryPieces, contained_fixed, start, contained_fixed,
        lexRun_code (columns_plain escapeByte columns), contained_fixed, between]
      exact conditions.trans (and_iff_left trivial)

theorem frames_of_length (sep : CString) (pieces : CString → List Piece)
    (alike : ∀ value value', (pieces value).map Piece.frame = (pieces value').map Piece.frame)
    {v v' : List CString} (same : v.length = v'.length) :
    (joinPieces sep pieces true v).map Piece.frame =
      (joinPieces sep pieces true v').map Piece.frame :=
  joinPieces_frames (List.forall₂_iff_get.mpr ⟨same, fun _ _ _ => alike _ _⟩) true

/-- Calls of one shape have the same pieces, what is filled in apart. -/
theorem frames_eq {call other : UserdbCall} (same : SameShape call other) :
    (queryPieces escapeByte call).map Piece.frame =
      (queryPieces escapeByte other).map Piece.frame := by
  cases call <;> cases other <;> try exact same.elim
  case fields.fields => rfl
  case lookup.lookup => rfl
  case verify.verify => rfl
  case register.register uid v uid' v' =>
    have names := frames_of_length [','] namePieces (fun _ _ => rfl) same
    have values := frames_of_length [','] (valuePieces escapeByte) (fun _ _ => rfl) same
    simp only [queryPieces, List.map_cons, List.map_append, names, values, Piece.frame]
  case mutate.mutate uid v uid' v' =>
    have assignments := frames_of_length [','] mutatePieces (fun _ _ => rfl) same
    simp only [queryPieces, List.map_cons, List.map_append, assignments, Piece.frame]
  case search.search columns v columns' v' =>
    have conditions : (joinPieces " AND ".toList (wherePieces escapeByte) true v).map
        Piece.frame =
        (joinPieces " AND ".toList (wherePieces escapeByte) true v').map Piece.frame := by
      apply joinPieces_frames
      refine same.2.imp fun value value' named => ?_
      by_cases has : '=' ∈ value
      · simp [wherePieces, Piece.frame, if_pos has, if_pos (named.mp has)]
      · simp [wherePieces, Piece.frame, if_neg has, if_neg (mt named.mpr has)]
    simp only [queryPieces, List.map_cons, List.map_append, conditions, same.1]

/-- The strings of a command are held in quoted forms, so that the structure of the statement
does not depend on them, exactly when those that are filled in as they are have no quote that
ends their form. -/
theorem queryContained_iff (sound : EscapeSound escapeByte) (call : UserdbCall) :
    QueryContained escapeByte call ↔ SafeCall call := by
  rw [QueryContained, contained_iff sound call]
  refine and_iff_left_of_imp fun safe other same contained => ?_
  rw [← written_queryPieces, ← written_queryPieces]
  exact skeleton_eq_of_contained ((contained_iff sound call).mpr safe) contained (frames_eq same)

/-- A password that is a word is held. -/
theorem queryContained_secret :
    QueryContained mysqlEscapeByte (.verify "alice".toList "secret".toList) :=
  (queryContained_iff mysqlEscapeByte_sound _).mpr (by constructor <;> decide +kernel)

/-- A password with a quote in it changes the condition that it is checked by. -/
theorem password_opens_query :
    EscapeSound mysqlEscapeByte ∧
      ¬ ∀ call, QueryContained mysqlEscapeByte call := by
  refine ⟨mysqlEscapeByte_sound, fun contained => ?_⟩
  have safe := (contained_iff mysqlEscapeByte_sound _).mp
    (contained (.verify "alice".toList "x'OR'1'='1".toList)).1
  exact absurd safe.2 (by decide +kernel)

end UserdbQueries

end Chaosircd
