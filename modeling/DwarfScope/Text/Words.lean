/-!
# Words of a command line

Words are separated by blanks, tabs and line ends. A number sign at the start of a word opens a
comment. Single quotes keep everything literally, double quotes let a backslash protect a few
characters, and outside of quotes a backslash protects any character.
-/

namespace DwarfScope.Words

def isSeparator (c : Char) : Bool := c = ' ' || c = '\t' || c = '\n'

/-- The characters a backslash protects between double quotes. -/
def isProtectedInQuotes (c : Char) : Bool := c = '$' || c = '\x60' || c = '"' || c = '\\'

inductive Place where
  | between
  | comment
  | bare
  /-- After a backslash outside of quotes. -/
  | bareEscape
  | single
  | double
  /-- After a backslash between double quotes. -/
  | doubleEscape
  deriving Repr, DecidableEq

/-- Scans a line from `place`, with the characters of the open word in reverse order. There are no
words if a quote or an escape is still open at the end. -/
def scan : Place → List Char → List Char → Option (List String)
  | .between, _, [] => some []
  | .comment, _, [] => some []
  | .bare, word, [] => some [String.ofList word.reverse]
  | .bareEscape, _, [] | .single, _, [] | .double, _, [] | .doubleEscape, _, [] => none
  | .between, _, c :: rest =>
    if isSeparator c then scan .between [] rest
    else if c = '#' then scan .comment [] rest
    else if c = '"' then scan .double [] rest
    else if c = '\'' then scan .single [] rest
    else if c = '\\' then scan .bareEscape [] rest
    else scan .bare [c] rest
  | .comment, _, c :: rest =>
    if c = '\n' then scan .between [] rest else scan .comment [] rest
  | .bare, word, c :: rest =>
    if isSeparator c then (scan .between [] rest).map (String.ofList word.reverse :: ·)
    else if c = '"' then scan .double word rest
    else if c = '\'' then scan .single word rest
    else if c = '\\' then scan .bareEscape word rest
    else scan .bare (c :: word) rest
  | .bareEscape, word, c :: rest =>
    if c = '\n' then scan .bare word rest else scan .bare (c :: word) rest
  | .single, word, c :: rest =>
    if c = '\'' then scan .bare word rest else scan .single (c :: word) rest
  | .double, word, c :: rest =>
    if c = '"' then scan .bare word rest
    else if c = '\\' then scan .doubleEscape word rest
    else scan .double (c :: word) rest
  | .doubleEscape, word, c :: rest =>
    if isProtectedInQuotes c then scan .double (c :: word) rest
    else if c = '\n' then scan .double word rest
    else scan .double (c :: '\\' :: word) rest

def split (line : String) : Option (List String) := scan .between [] line.toList

end DwarfScope.Words
