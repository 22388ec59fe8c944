namespace Wordcode

/-! # Coloured text

Terminal styles. A style is a pair of control sequences around the text; with colour switched off
the text stays as it is.
-/

/-- A terminal style: the parameters that switch it on and those that switch it off. -/
structure Style where
  on : String
  off : String
  deriving DecidableEq, Repr, Inhabited

namespace Style

def bold : Style := ⟨"1", "22"⟩
def red : Style := ⟨"31", "0"⟩
def green : Style := ⟨"32", "0"⟩
def yellow : Style := ⟨"33", "0"⟩
def cyan : Style := ⟨"36", "0"⟩

/-- A bold style in the colour numbered `code`. -/
def boldColor (code : Nat) : Style := ⟨s!"{code};1", "0;22"⟩

/-- The text in a style, when colour is on. -/
def paint (s : Style) (color : Bool) (text : String) : String :=
  if color then "\x1b[" ++ s.on ++ "m" ++ text ++ "\x1b[" ++ s.off ++ "m" else text

end Style

end Wordcode
