import Matcher.Types

/-!
# Text

A line of a journal or a snapshot is a list of characters. Numbers are written as
`std::to_string` writes them.
-/

namespace Matcher

abbrev Text := List Char

/-- The decimal digits of a number. -/
def digits (n : Nat) : Text := Nat.toDigits 10 n

def Price.text (p : Price) : Text :=
  if p < 0 then '-' :: digits p.toInt.natAbs else digits p.toInt.natAbs

def Side.text : Side → Text
  | .ask => "ask".toList
  | .bid => "bid".toList

def Tif.text : Tif → Text
  | .ioc => "ioc".toList
  | .fok => "fok".toList
  | .postOnly => "post_only".toList
  | .gtc => "gtc".toList

def IndexKind.text : IndexKind → Text
  | .tree => "tree".toList
  | .ladder => "ladder".toList

end Matcher
