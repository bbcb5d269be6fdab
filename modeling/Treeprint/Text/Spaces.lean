/-!
# Rows of spaces and the limit of a text
-/

namespace Treeprint.Text

/-- Spaces are added to a text only if it has fewer bytes than this with them: `2^63`. -/
def limit : Nat := 0x8000000000000000

def spaces (n : Nat) : String := "".pushn ' ' n

@[simp] theorem toList_spaces (n : Nat) : (spaces n).toList = List.replicate n ' ' := by
  rw [spaces, String.pushn]
  induction n with
  | zero => rfl
  | succ n ih => rw [Nat.repeat, String.toList_push, ih, List.replicate_succ']

theorem utf8ByteSize_spaces (n : Nat) : (spaces n).utf8ByteSize = n := by
  rw [spaces, String.pushn]
  induction n with
  | zero => rfl
  | succ n ih =>
    rw [Nat.repeat, String.utf8ByteSize_push, ih]
    rfl

end Treeprint.Text
