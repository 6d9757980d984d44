import Matcher.JsonFlat
import Matcher.Journal

/-!
# A torn journal line

A line that was cut off is refused only if the cut took part of the command's name:
everything after the name has a default.
-/

namespace Matcher

open Kit

namespace Journal

/-- `{"cmd":"..."`: the part of a line up to the end of the command's name. -/
def nameText : CommandKind → Text
  | .new => "\x7b\"cmd\":\"new\"".toList
  | .cancel => "\x7b\"cmd\":\"cancel\"".toList
  | .replace => "\x7b\"cmd\":\"replace\"".toList

theorem prefix_symf (tag : Text) (sym : Option Symbol) : tag <+: symf tag sym := by
  cases sym with
  | none => exact List.prefix_refl tag
  | some sym => exact (List.prefix_append tag _).trans (List.prefix_append _ _)

theorem nameText_prefix (c : Command) (sym : Option Symbol) :
    nameText c.kind <+: writeCmd c sym := by
  have hname := prefix_symf (nameText c.kind) sym
  rw [writeCmd]
  cases hk : c.kind with
  | new =>
    rw [hk] at hname
    exact hname.trans (by simp only [List.append_assoc]; exact List.prefix_append _ _)
  | cancel =>
    rw [hk] at hname
    exact hname.trans (by simp only [List.append_assoc]; exact List.prefix_append _ _)
  | replace =>
    rw [hk] at hname
    exact hname.trans (by simp only [List.append_assoc]; exact List.prefix_append _ _)

/-- With the whole name the command is known, whatever follows. -/
theorem getStr_name (k : CommandKind) (s : Text) :
    JsonFlat.getStr (nameText k ++ s) "cmd".toList = (match k with
      | .new => "new"
      | .cancel => "cancel"
      | .replace => "replace").toList := by
  cases k <;> rfl

/-- Without the whole name there is none. -/
theorem getStr_torn (k : CommandKind) {n : Nat} (hn : n < (nameText k).length) :
    JsonFlat.getStr ((nameText k).take n) "cmd".toList = [] := by
  revert n
  cases k <;> decide

end Journal

/-- Cut off anywhere, a journal line is refused exactly when the cut comes before the
end of the command's name. -/
theorem torn_line_refused_iff (c : Command) (sym : Option Symbol) (n : Nat) :
    JsonFlat.parseCommand ((Journal.writeCmd c sym).take n) = none ↔
    n < (Journal.nameText c.kind).length := by
  obtain ⟨s, hs⟩ := Journal.nameText_prefix c sym
  rw [← hs]
  constructor
  · intro hnone
    by_contra hge
    rw [List.take_append, List.take_of_length_le (Nat.le_of_not_lt hge)] at hnone
    have hname := Journal.getStr_name c.kind (s.take (n - (Journal.nameText c.kind).length))
    rw [JsonFlat.parseCommand, hname] at hnone
    cases hk : c.kind <;> rw [hk] at hnone <;> cases hnone
  · intro hlt
    rw [List.take_append_of_le_length (Nat.le_of_lt hlt), JsonFlat.parseCommand,
      Journal.getStr_torn c.kind hlt]
    rfl

/-- A cancel that lost its closing brace is replayed. -/
theorem torn_cancel_replayed : ∃ n, 0 < n ∧ n < (Journal.writeCmd (.cancel 1) none).length ∧
    JsonFlat.parseCommand ((Journal.writeCmd (.cancel 1) none).take n) = some (0, .cancel 1) :=
  ⟨28, by decide, by decide, by decide⟩

end Matcher
