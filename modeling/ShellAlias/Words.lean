import ShellAlias.Text.Basic

namespace ShellAlias.Words

/-- Where a reader of words stands. A backslash mode has just read the
backslash and waits for the character after it. -/
inductive Mode where
  | between
  | betweenBackslash
  | plain
  | plainBackslash
  | single
  | double
  | doubleBackslash
  | comment
  deriving DecidableEq, Repr

def isDelimiter (c : Char) : Bool := c = ' ' || c = '\t' || c = '\n'

def isDoubleEscapable (c : Char) : Bool := c = '$' || c = '`' || c = '"' || c = '\\'

/-- The words of the rest of a line, of which the first starts with `word`
unless the reader stands between words. None if a quote is left open. -/
def wordsFrom : Mode → Text → Text → Option (List Text)
  | .between, _, [] => some []
  | .betweenBackslash, word, [] => some [word ++ ['\\']]
  | .plain, word, [] => some [word]
  | .plainBackslash, word, [] => some [word ++ ['\\']]
  | .single, _, [] => none
  | .double, _, [] => none
  | .doubleBackslash, _, [] => none
  | .comment, _, [] => some []
  | .between, word, c :: rest =>
    if c = '\'' then wordsFrom .single word rest
    else if c = '"' then wordsFrom .double word rest
    else if c = '\\' then wordsFrom .betweenBackslash word rest
    else if isDelimiter c then wordsFrom .between word rest
    else if c = '#' then wordsFrom .comment word rest
    else wordsFrom .plain (word ++ [c]) rest
  | .betweenBackslash, word, c :: rest =>
    if c = '\n' then wordsFrom .between word rest
    else wordsFrom .plain (word ++ [c]) rest
  | .plain, word, c :: rest =>
    if c = '\'' then wordsFrom .single word rest
    else if c = '"' then wordsFrom .double word rest
    else if c = '\\' then wordsFrom .plainBackslash word rest
    else if isDelimiter c then (wordsFrom .between [] rest).map (word :: ·)
    else wordsFrom .plain (word ++ [c]) rest
  | .plainBackslash, word, c :: rest =>
    if c = '\n' then wordsFrom .plain word rest
    else wordsFrom .plain (word ++ [c]) rest
  | .single, word, c :: rest =>
    if c = '\'' then wordsFrom .plain word rest
    else wordsFrom .single (word ++ [c]) rest
  | .double, word, c :: rest =>
    if c = '"' then wordsFrom .plain word rest
    else if c = '\\' then wordsFrom .doubleBackslash word rest
    else wordsFrom .double (word ++ [c]) rest
  | .doubleBackslash, word, c :: rest =>
    if c = '\n' then wordsFrom .double word rest
    else if isDoubleEscapable c then wordsFrom .double (word ++ [c]) rest
    else wordsFrom .double (word ++ ['\\', c]) rest
  | .comment, word, c :: rest =>
    if c = '\n' then wordsFrom .between word rest
    else wordsFrom .comment word rest

/-- The words of a command line, with the quotes taken off. None if a quote is
left open. -/
def split (line : Text) : Option (List Text) := wordsFrom .between [] line

def openQuoteMessage : Text := "missing closing quote".toList

end ShellAlias.Words
