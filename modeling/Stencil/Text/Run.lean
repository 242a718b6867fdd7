/-!
# Runs of characters

The longest front of a text whose characters are of one class, and the rest of the text.
-/

namespace Stencil.Text

def run (p : Char → Bool) (cs : List Char) : List Char × List Char :=
  (cs.takeWhile p, cs.dropWhile p)

theorem run_append (p : Char → Bool) (cs : List Char) : (run p cs).1 ++ (run p cs).2 = cs :=
  List.takeWhile_append_dropWhile

theorem length_run_snd (p : Char → Bool) (cs : List Char) : (run p cs).2.length ≤ cs.length :=
  (List.dropWhile_suffix p).length_le

end Stencil.Text
