import Chaosircd.CString

/-!
# Character classes

The daemon classifies bytes by a table.  Each class that a modelled function
asks for is given by the byte ranges the table sets it on.
-/

namespace Chaosircd

/-- The byte lies in one of the inclusive ranges. -/
def inRanges (ranges : List (Nat × Nat)) (c : Char) : Bool :=
  ranges.any fun range => range.1 ≤ c.toNat && c.toNat ≤ range.2

/-- `chars_isspace`. -/
def charsIsspace : Char → Bool :=
  inRanges [(0x09, 0x0D), (0x20, 0x20)]

/-- `chars_isdigit`. -/
def charsIsdigit : Char → Bool :=
  inRanges [(0x30, 0x39)]

/-- `chars_isalpha`. -/
def charsIsalpha : Char → Bool :=
  inRanges [(0x41, 0x5E), (0x61, 0x7E), (0xC0, 0xDE), (0xE0, 0xFE)]

/-- `chars_isnickchar`. -/
def charsIsnickchar : Char → Bool :=
  inRanges [(0x2D, 0x2D), (0x30, 0x39), (0x41, 0x7D), (0xC0, 0xDE), (0xE0, 0xFE)]

/-- `chars_isuserchar`. -/
def charsIsuserchar : Char → Bool :=
  inRanges [(0x24, 0x24), (0x2D, 0x2E), (0x30, 0x39), (0x41, 0x7E)]

/-- `chars_ishostchar`. -/
def charsIshostchar : Char → Bool :=
  inRanges [(0x2D, 0x2E), (0x30, 0x3A), (0x41, 0x5A), (0x61, 0x7A)]

/-- `chars_isuidchar`. -/
def charsIsuidchar : Char → Bool :=
  inRanges [(0x30, 0x39), (0x41, 0x5A), (0x61, 0x7A), (0xBD, 0xFE)]

/-- `chars_iskwildchar`. -/
def charsIskwildchar (c : Char) : Bool :=
  ['!', '*', '.', '?', '@'].contains c

/-- `chars_ischanchar`. -/
def charsIschanchar (c : Char) : Bool :=
  !inRanges [(0x00, 0x00), (0x07, 0x07), (0x20, 0x20), (0x2C, 0x2C)] c

/-- `chars_valid_nick`: the empty nick passes. -/
def charsValidNick (s : CString) : Bool :=
  match s with
  | [] => true
  | first :: _ => !(charsIsdigit first || first == '-') && s.all charsIsnickchar

/-- `chars_valid_user`: one leading tilde is skipped. -/
def charsValidUser (s : CString) : Bool :=
  match s with
  | '~' :: rest => rest.all charsIsuserchar
  | _ => s.all charsIsuserchar

/-- `chars_valid_host`: a dot is needed, but not in the first place. -/
def charsValidHost (s : CString) : Bool :=
  match s with
  | '.' :: _ => false
  | _ => s.all charsIshostchar && s.contains '.'

/-- `chars_valid_chan`. -/
def charsValidChan (s : CString) : Bool :=
  s.all charsIschanchar

end Chaosircd
