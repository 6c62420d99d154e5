/-!
# Lines and columns

Both are counted from one. A line feed ends a line; every other character takes one column.
-/

namespace Ixml.Text

structure Position where
  line : Nat := 1
  column : Nat := 1
deriving DecidableEq, Repr, Inhabited

namespace Position

def start : Position := {}

/-- The place after a character that stands at `p`. -/
def after (p : Position) (c : Char) : Position :=
  if c == '\n' then ⟨p.line + 1, 1⟩ else ⟨p.line, p.column + 1⟩

/-- The place after characters that begin at `p`. -/
def afterAll (p : Position) (cs : List Char) : Position :=
  cs.foldl after p

@[simp] theorem afterAll_nil (p : Position) : p.afterAll [] = p := rfl

@[simp] theorem afterAll_cons (p : Position) (c : Char) (cs : List Char) :
    p.afterAll (c :: cs) = (p.after c).afterAll cs := rfl

theorem afterAll_append (p : Position) (cs ds : List Char) :
    p.afterAll (cs ++ ds) = (p.afterAll cs).afterAll ds := by
  simp [afterAll, List.foldl_append]

end Position

/-- The place of the character with the given index. -/
def positionAt (text : String) (index : Nat) : Position :=
  Position.start.afterAll (text.toList.take index)

end Ixml.Text
