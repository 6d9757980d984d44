import Matcher.Text

/-!
# The command journal (`include/matcher/journal.hpp`)
-/

namespace Matcher

namespace Journal

/-- `symf`: the tag, and the symbol of an engine's journal. -/
def symf (tag : Text) (sym : Option Symbol) : Text :=
  match sym with
  | some sym => tag ++ ",\"symbol\":".toList ++ digits sym.toNat
  | none => tag

/-- The canonical line of one command, without its line break. -/
def writeCmd (c : Command) (sym : Option Symbol) : Text :=
  match c.kind with
  | .new =>
    symf "\x7b\"cmd\":\"new\"".toList sym ++ ",\"order_id\":".toList ++ digits c.orderId.toNat ++
      ",\"side\":\"".toList ++ c.side.text ++ "\",\"otype\":\"".toList ++
      (match c.otype with
        | .market => "market".toList ++ "\",\"qty\":".toList ++ digits c.qty.toNat
        | .limit =>
          "limit".toList ++ "\",\"price\":".toList ++ Price.text c.price ++
          ",\"qty\":".toList ++ digits c.qty.toNat) ++
      ",\"tif\":\"".toList ++ c.tif.text ++ "\"\x7d".toList
  | .cancel =>
    symf "\x7b\"cmd\":\"cancel\"".toList sym ++ ",\"order_id\":".toList ++ digits c.orderId.toNat ++
      "\x7d".toList
  | .replace =>
    symf "\x7b\"cmd\":\"replace\"".toList sym ++ ",\"order_id\":".toList ++
      digits c.orderId.toNat ++ ",\"price\":".toList ++ Price.text c.price ++
      ",\"qty\":".toList ++ digits c.qty.toNat ++ "\x7d".toList

/-- `record`: the line and its line break. -/
def record (c : Command) (sym : Option Symbol) : Text := writeCmd c sym ++ ['\n']

/-- The lines of a text, from `line`, the part of the current line already read. -/
def linesFrom (line : Text) : Text → List Text
  | [] => if line = [] then [] else [line]
  | c :: s => if c = '\n' then line :: linesFrom [] s else linesFrom (line ++ [c]) s

def lines (s : Text) : List Text := linesFrom [] s

theorem linesFrom_line {w : Text} (hw : '\n' ∉ w) (line s : Text) :
    linesFrom line (w ++ '\n' :: s) = (line ++ w) :: linesFrom [] s := by
  induction w generalizing line with
  | nil => simp [linesFrom]
  | cons c w ih =>
    rw [List.mem_cons, not_or] at hw
    rw [List.cons_append, linesFrom, if_neg (Ne.symm hw.1), ih hw.2]
    simp

theorem linesFrom_end {t : Text} (ht : '\n' ∉ t) (line : Text) :
    linesFrom line t = if line ++ t = [] then [] else [line ++ t] := by
  induction t generalizing line with
  | nil => rw [linesFrom, List.append_nil]
  | cons c t ih =>
    rw [List.mem_cons, not_or] at ht
    rw [linesFrom, if_neg (Ne.symm ht.1), ih ht.2, List.append_assoc, List.singleton_append]

/-- Of a line that was not ended, what is there is read. -/
theorem lines_torn {ws : List Text} (h : ∀ w ∈ ws, '\n' ∉ w) {t : Text} (ht : '\n' ∉ t) :
    lines ((ws.flatMap fun w => w ++ ['\n']) ++ t) = ws ++ if t = [] then [] else [t] := by
  induction ws with
  | nil => exact linesFrom_end ht []
  | cons w ws ih =>
    rw [List.flatMap_cons, List.append_assoc, List.append_assoc, List.singleton_append, lines,
      linesFrom_line (h w List.mem_cons_self), List.nil_append]
    exact congrArg _ (ih fun v hv => h v (List.mem_cons_of_mem w hv))

/-- Lines that were written are the lines that are read. -/
theorem lines_written {ws : List Text} (h : ∀ w ∈ ws, '\n' ∉ w) :
    lines (ws.flatMap fun w => w ++ ['\n']) = ws := by
  have htorn := lines_torn h (t := []) List.not_mem_nil
  rwa [List.append_nil, if_pos rfl, List.append_nil] at htorn

end Journal

end Matcher
