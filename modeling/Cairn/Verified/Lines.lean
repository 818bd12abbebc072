import Mathlib.Data.List.Basic
import Mathlib.Tactic.SplitIfs

/-!
# Lines and trimming

`str::lines` and `str::trim` on lists of characters. A line ends at a
newline, an ending of carriage return and newline counts as one, and a last
line without a newline is kept unless it is empty. Trimming removes the
characters with the Unicode property `White_Space` from both ends.
-/

namespace Cairn.Verified.Lines

/-- The Unicode property `White_Space`. -/
def isWhiteSpace (c : Char) : Bool :=
  (9 ≤ c.toNat && c.toNat ≤ 13) || c.toNat = 0x20 || c.toNat = 0x85 || c.toNat = 0xA0 ||
    c.toNat = 0x1680 || (0x2000 ≤ c.toNat && c.toNat ≤ 0x200A) || c.toNat = 0x2028 ||
    c.toNat = 0x2029 || c.toNat = 0x202F || c.toNat = 0x205F || c.toNat = 0x3000

def trimStart (text : List Char) : List Char := text.dropWhile isWhiteSpace

def trimEnd (text : List Char) : List Char := (text.reverse.dropWhile isWhiteSpace).reverse

def trim (text : List Char) : List Char := trimEnd (trimStart text)

/-- Drop one carriage return from the end. -/
def stripCr (line : List Char) : List Char :=
  if line.getLast? = some '\r' then line.dropLast else line

/-- The lines of a text, after the characters `current` of an unfinished one. -/
def linesFrom (current : List Char) : List Char → List (List Char)
  | [] => if current = [] then [] else [current]
  | c :: rest =>
    if c = '\n' then stripCr current :: linesFrom [] rest else linesFrom (current ++ [c]) rest

def lines (text : List Char) : List (List Char) := linesFrom [] text

theorem linesFrom_line (current line rest : List Char) (hline : '\n' ∉ line) :
    linesFrom current (line ++ '\n' :: rest) = stripCr (current ++ line) :: lines rest := by
  induction line generalizing current with
  | nil => simp [linesFrom, lines]
  | cons c line ih =>
    have hc : c ≠ '\n' := fun h => hline (by simp [h])
    rw [List.cons_append, linesFrom, if_neg hc, ih _ fun h => hline (by simp [h]),
      List.append_assoc]
    rfl

/-- A line is read back, and the rest is read as on its own. -/
theorem lines_line {line : List Char} (rest : List Char) (hline : '\n' ∉ line)
    (hlast : line.getLast? ≠ some '\r') :
    lines (line ++ '\n' :: rest) = line :: lines rest := by
  rw [lines, linesFrom_line _ _ _ hline, List.nil_append, stripCr, if_neg hlast]

theorem dropWhile_of_head {c : Char} {text : List Char} (h : text.head? = some c)
    (hc : isWhiteSpace c = false) : text.dropWhile isWhiteSpace = text := by
  cases text with
  | nil => rfl
  | cons d text =>
    obtain rfl : d = c := by simpa using h
    simp [hc]

/-- Nothing is trimmed between two visible characters. -/
theorem trim_of_ends {c d : Char} {text : List Char} (hfirst : text.head? = some c)
    (hlast : text.getLast? = some d) (hc : isWhiteSpace c = false)
    (hd : isWhiteSpace d = false) : trim text = text := by
  have hrev : text.reverse.head? = some d := by rw [List.head?_reverse, hlast]
  rw [trim, trimStart, dropWhile_of_head hfirst hc, trimEnd, dropWhile_of_head hrev hd,
    List.reverse_reverse]

end Cairn.Verified.Lines
