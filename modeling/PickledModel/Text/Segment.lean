/-!
# Last segments

The part of a text behind the last occurrence of a separator.
-/

set_option autoImplicit false

namespace PickledModel.Text

def afterLast (sep : Char) (s : String) : String :=
  String.ofList (s.toList.reverse.takeWhile (· != sep)).reverse

end PickledModel.Text
