/-!
The textual layer of SMT-LIB: S-expressions and symbols. A symbol made of plain characters that does
not start with a digit stands for itself; any other is put between bars.
-/

namespace Symex.Smt

/-- An S-expression. -/
inductive SExpr where
  | atom (s : String)
  | list (xs : List SExpr)

namespace SExpr

mutual
/-- Writes an S-expression after a text; items are separated by one space. -/
def write (before : String) : SExpr → String
  | .atom s => before ++ s
  | .list xs => writeItems (before ++ "(") xs ++ ")"
/-- Writes items with a space between them after a text. -/
def writeItems (before : String) : List SExpr → String
  | [] => before
  | [x] => write before x
  | x :: y :: ys => writeItems (write before x ++ " ") (y :: ys)
end

/-- The written form. -/
def text (x : SExpr) : String := write "" x

/-- Items with a space between them. -/
def textItems (xs : List SExpr) : String := " ".intercalate (xs.map text)

mutual
theorem write_eq (before : String) (x : SExpr) : write before x = before ++ x.text := by
  match x with
  | .atom s => simp [write, text]
  | .list xs => simp [write, text, writeItems_eq _ xs, String.append_assoc]
theorem writeItems_eq (before : String) (xs : List SExpr) :
    writeItems before xs = before ++ textItems xs := by
  match xs with
  | [] => simp [writeItems, textItems]
  | [x] => simp [writeItems, textItems, write_eq before x]
  | x :: y :: ys =>
    rw [writeItems, write_eq before x, writeItems_eq _ (y :: ys)]
    simp [textItems, String.append_assoc]
end

@[simp] theorem text_atom (s : String) : text (.atom s) = s := by simp [text, write]

@[simp] theorem text_list (xs : List SExpr) : text (.list xs) = "(" ++ textItems xs ++ ")" := by
  simp [text, write, writeItems_eq]

end SExpr

/-- A character of a plain symbol that is neither a letter nor a digit. -/
def isSymbolMark (c : Char) : Bool := "~!@$%^&*_-+=<>.?/".toList.contains c

/-- Whether a name is a plain symbol. -/
def isPlainSymbol (name : String) : Bool :=
  match name.toList with
  | [] => false
  | c :: cs =>
    (c.isAlpha || isSymbolMark c) && (c :: cs).all fun d => d.isAlphanum || isSymbolMark d

/-- The token of a name. -/
def symbol (name : String) : String :=
  if isPlainSymbol name then name else "|" ++ name ++ "|"

end Symex.Smt
