import CachePool.Text.Combining
import CachePool.Text.Unprintable

/-!
# Quoted text

A text is quoted between double quotes. A quote, a backslash and the usual
controls get a short escape; any other character that has no printed form, or
that would melt into the one before it, is written by its code point.
-/

namespace CachePool.Text

/-- The number of a character between braces, in base sixteen. -/
def codePointEscape (c : Char) : List Char :=
  '\\' :: 'u' :: '\x7b' :: Nat.toDigits 16 c.toNat ++ ['\x7d']

/-- The written form of one character inside quotes. -/
def quoteChar (c : Char) : List Char :=
  if c = '\x00' then ['\\', '0']
  else if c = '\t' then ['\\', 't']
  else if c = '\r' then ['\\', 'r']
  else if c = '\n' then ['\\', 'n']
  else if c = '\\' then ['\\', '\\']
  else if c = '"' then ['\\', '"']
  else if isCombining c || isUnprintable c then codePointEscape c
  else [c]

/-- The text between quotes. -/
def quote (s : String) : String :=
  String.ofList ('"' :: s.toList.flatMap quoteChar ++ ['"'])

end CachePool.Text
