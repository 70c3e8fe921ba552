/-!
# Blanks

The characters that separate words and mean nothing else: spaces and the ends of
lines and paragraphs in any script, and the two marks that set the direction of
writing. The table lists their code points as closed ranges.
-/

namespace Acceptor.Text

/-- The ranges, in increasing order, of the code points of blanks. -/
def blankRanges : List (Nat × Nat) :=
  [(0x9, 0xD), (0x20, 0x20), (0x85, 0x85), (0xA0, 0xA0), (0x1680, 0x1680), (0x2000, 0x200A),
   (0x200E, 0x200F), (0x2028, 0x2029), (0x202F, 0x202F), (0x205F, 0x205F), (0x3000, 0x3000)]

def isBlank (c : Char) : Bool :=
  blankRanges.any fun range => range.1 ≤ c.toNat && c.toNat ≤ range.2

end Acceptor.Text
