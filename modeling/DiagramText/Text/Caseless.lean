/-!
# Comparison without ASCII case

Keywords and names compare after folding the ASCII letters; every other
character compares as it is.
-/

set_option autoImplicit false

namespace DiagramText.Text

def foldCase (s : String) : List Char := s.toList.map Char.toLower

def sameFolded (a b : String) : Bool := foldCase a == foldCase b

/-- Some text of the list agrees with the word up to ASCII case. -/
def listed (words : List String) (word : String) : Bool :=
  words.any (sameFolded · word)

end DiagramText.Text
