import Chaosircd.StrMatch
import Chaosircd.Tokenize

/-!
# Ini files

The databases of the server are kept in ini files: comments and blank lines, sections, and
keys with their values.  A file is read line by line into a tree, the tree is changed by
its owner, and `ini_save` writes the tree down when it has been flagged as changed.  The
owners open the file for writing first, which empties it.
-/

namespace Chaosircd

/-- `ini_strip`. -/
def iniStrip (s : CString) : CString :=
  (s.dropWhile strIsspace).rdropWhile strIsspace

/-- The capacity of the buffers of `ini_load` and `io_puts`. -/
def iniBufSize : Nat := 4096

def ioLineSize : Nat := 1024

/-- The complete lines of a text, without their ends. -/
def completeLines : CString → List CString
  | [] => []
  | c :: cs =>
    if c = '\n' then [] :: completeLines cs
    else
      match completeLines cs with
      | [] => []
      | line :: lines => (c :: line) :: lines

/-- What `io_gets(fd, buf, n)` leaves in the buffer for a line: the line and its end, as far
as there is room. -/
def ioGets (n : Nat) (line : CString) : CString :=
  beforeNul ((line ++ ['\n']).take (n - 1))

/-- What `io_puts` writes. -/
def ioPuts (s : CString) : CString :=
  s.take (ioLineSize - 2) ++ ['\n']

/-- A key; without a name it is a comment, and without a value too it is a blank line. -/
structure IniKey where
  name : Option CString
  value : Option CString
  deriving DecidableEq

/-- A section.  Equal names have equal hashes, so that a key is found by its name, and a
name is used for one key. -/
@[ext]
structure IniSection where
  name : CString
  keys : List IniKey
  distinct : (keys.filterMap IniKey.name).Nodup
  deriving DecidableEq

/-- A tree; `keys` are the comments before the first section. -/
structure Ini where
  keys : List IniKey
  sections : List IniSection
  changed : Bool
  deriving DecidableEq

/-! ## Sections and keys -/

namespace IniSection

/-- `ini_key_get` finds a key. -/
def Holds (isptr : IniSection) (name : CString) : Prop :=
  some name ∈ isptr.keys.map IniKey.name

instance (isptr : IniSection) (name : CString) : Decidable (isptr.Holds name) :=
  inferInstanceAs (Decidable (_ ∈ _))

/-- `ini_key_new` without a name. -/
def comment (isptr : IniSection) (value : Option CString) : IniSection where
  name := isptr.name
  keys := isptr.keys ++ [⟨none, value⟩]
  distinct := by
    rw [List.filterMap_append]
    simpa using isptr.distinct

/-- `ini_key_new`, and the value. -/
def add (isptr : IniSection) (key str : CString) (fresh : ¬ isptr.Holds key) :
    IniSection where
  name := isptr.name
  keys := isptr.keys ++ [⟨some key, some str⟩]
  distinct := by
    rw [List.filterMap_append, List.nodup_append]
    refine ⟨isptr.distinct, by simp, ?_⟩
    rintro name member _ isKey rfl
    obtain ⟨other, isOther, same⟩ := List.mem_filterMap.mp member
    apply fresh
    simp only [List.filterMap_cons, List.filterMap_nil, List.mem_singleton] at isKey
    exact List.mem_map.mpr ⟨other, isOther, by rw [same, isKey]⟩

/-- The value of a key is replaced. -/
def overwrite (isptr : IniSection) (key str : CString) : IniSection where
  name := isptr.name
  keys := isptr.keys.map fun k => if k.name = some key then { k with value := some str } else k
  distinct := by
    rw [List.filterMap_map]
    have same : IniKey.name ∘ (fun k : IniKey =>
        if k.name = some key then { k with value := some str } else k) = IniKey.name := by
      funext k
      rw [Function.comp_apply]
      split <;> rfl
    rw [same]
    exact isptr.distinct

end IniSection

namespace Ini

/-- The tree in `ini_add`, before the file is loaded. -/
def fresh : Ini where
  keys := []
  sections := []
  changed := true

/-- `ini_section_new`. -/
def sectionNew (ini : Ini) (name : CString) : Ini where
  keys := ini.keys
  sections := ini.sections ++ [⟨name, [], List.nodup_nil⟩]
  changed := true

/-- `ini_section_remove` of the section at this place. -/
def sectionRemove (ini : Ini) (place : Nat) : Ini :=
  if place < ini.sections.length then
    { ini with sections := ini.sections.eraseIdx place, changed := true }
  else ini

/-- `ini_clear`. -/
def clear (ini : Ini) : Ini where
  keys := ini.keys
  sections := []
  changed := true

/-- `ini_write_str`; without a section nothing is written. -/
def writeStr (ini : Ini) (place : Nat) (key str : CString) : Ini :=
  match ini.sections[place]? with
  | none => ini
  | some isptr =>
    if fresh : isptr.Holds key then
      { ini with sections := ini.sections.set place (isptr.overwrite key str) }
    else
      { ini with
        sections := ini.sections.set place (isptr.add key str fresh)
        changed := true }

end Ini

/-! ## Loading -/

/-- The tree while it is loaded, and the place of the section that the lines belong to. -/
structure IniLoader where
  ini : Ini
  place : Option Nat
  deriving DecidableEq

namespace IniLoader

/-- A comment or a blank line. -/
def comment (loader : IniLoader) (value : Option CString) : IniLoader :=
  match loader.place with
  | none => { loader with ini := { loader.ini with keys := loader.ini.keys ++ [⟨none, value⟩] } }
  | some place =>
    { loader with ini := { loader.ini with
        sections := loader.ini.sections.modify place fun isptr => isptr.comment value } }

/-- The loop of `ini_load` for one line; there is no result where it returns `-1`. -/
def line (loader : IniLoader) (buf : CString) : Option IniLoader :=
  let buf := iniStrip buf
  if buf = [] then some (loader.comment none)
  else if buf.head? = some ';' then some (loader.comment (some buf.tail))
  else if buf.head? = some '[' ∧ buf.getLast? = some ']' then
    let name := iniStrip (' ' :: buf.tail.dropLast ++ [' '])
    some ⟨loader.ini.sectionNew name, some loader.ini.sections.length⟩
  else
    match loader.place with
    | none => none
    | some place =>
      if '=' ∈ buf then
        let key := iniStrip (buf.takeWhile (· ≠ '='))
        let str := iniStrip (buf.dropWhile (· ≠ '=')).tail
        some { loader with ini := loader.ini.writeStr place key str }
      else none

/-- The loop of `ini_load`. -/
def lines : IniLoader → List CString → IniLoader
  | loader, [] => loader
  | loader, buf :: bufs =>
    match loader.line buf with
    | none => loader
    | some next => lines next bufs

end IniLoader

/-- `ini_load` of a file into a fresh tree. -/
def iniLoad (content : CString) : Ini :=
  (IniLoader.lines ⟨.fresh, none⟩ ((completeLines content).map (ioGets iniBufSize))).ini

/-! ## Saving -/

/-- The line of `ini_key_write`. -/
def IniKey.text (key : IniKey) : CString :=
  match key.name, key.value with
  | none, none => []
  | none, some value => ';' :: value
  | some name, none => name ++ ['=']
  | some name, some value => name ++ '=' :: value

/-- The lines of a section. -/
def IniSection.texts (isptr : IniSection) : List CString :=
  ('[' :: isptr.name ++ [']']) :: isptr.keys.map IniKey.text

/-- The lines of a tree. -/
def Ini.texts (ini : Ini) : List CString :=
  ini.keys.map IniKey.text ++ ini.sections.flatMap IniSection.texts

/-- A tree and its file. -/
structure IniFile where
  ini : Ini
  content : CString
  deriving DecidableEq

namespace IniFile

/-- `ini_open` for writing, which empties the file, `ini_save` and `ini_close`. -/
def save (file : IniFile) : IniFile :=
  if file.ini.changed then
    ⟨{ file.ini with changed := false }, file.ini.texts.flatMap ioPuts⟩
  else ⟨file.ini, []⟩

/-- What the owner of a tree does with it. -/
inductive Op where
  | sectionNew (name : CString)
  | write (place : Nat) (key str : CString)
  | sectionRemove (place : Nat)
  | clear
  | save

def exec (file : IniFile) : Op → IniFile
  | .sectionNew name => { file with ini := file.ini.sectionNew name }
  | .write place key str => { file with ini := file.ini.writeStr place key str }
  | .sectionRemove place => { file with ini := file.ini.sectionRemove place }
  | .clear => { file with ini := file.ini.clear }
  | .save => file.save

/-- The file is loaded, and its owner works on the tree. -/
def run (content : CString) (ops : List Op) : IniFile :=
  ops.foldl exec ⟨iniLoad content, content⟩

end IniFile

end Chaosircd
