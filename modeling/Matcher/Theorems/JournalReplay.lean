import Matcher.Engine
import Matcher.Journal
import Matcher.Logic.JsonFlat

/-!
# Journal replay

A journal line is a record, and the fields the reader looks for are those that were
written. What is lost of a command (the price of a market order, the unused fields of a
cancel or a replace) no book ever reads.
-/

namespace Matcher

open Kit

namespace Journal

def nameField : CommandKind → Field
  | .new => ⟨"cmd".toList, true, "new".toList⟩
  | .cancel => ⟨"cmd".toList, true, "cancel".toList⟩
  | .replace => ⟨"cmd".toList, true, "replace".toList⟩

def symFields : Option Symbol → List Field
  | some sym => [⟨"symbol".toList, false, digits sym.toNat⟩]
  | none => []

/-- The fields after the name and the symbol. -/
def argFields (c : Command) : List Field :=
  match c.kind with
  | .new =>
    [⟨"order_id".toList, false, digits c.orderId.toNat⟩, ⟨"side".toList, true, c.side.text⟩] ++
      (match c.otype with
        | .market => [⟨"otype".toList, true, "market".toList⟩]
        | .limit =>
          [⟨"otype".toList, true, "limit".toList⟩, ⟨"price".toList, false, Price.text c.price⟩]) ++
      [⟨"qty".toList, false, digits c.qty.toNat⟩, ⟨"tif".toList, true, c.tif.text⟩]
  | .cancel => [⟨"order_id".toList, false, digits c.orderId.toNat⟩]
  | .replace =>
    [⟨"order_id".toList, false, digits c.orderId.toNat⟩,
      ⟨"price".toList, false, Price.text c.price⟩, ⟨"qty".toList, false, digits c.qty.toNat⟩]

theorem writeCmd_record (c : Command) (sym : Option Symbol) :
    writeCmd c sym = recordText (nameField c.kind) (symFields sym ++ argFields c) := by
  unfold writeCmd argFields
  cases c.kind with
  | new =>
    cases c.otype <;> cases sym <;> simp [symf, nameField, symFields, recordText, restText,
      Field.text, Field.valueText]
  | cancel =>
    cases sym <;> simp [symf, nameField, symFields, recordText, restText, Field.text,
      Field.valueText]
  | replace =>
    cases sym <;> simp [symf, nameField, symFields, recordText, restText, Field.text,
      Field.valueText]

theorem plain_nameField (k : CommandKind) : (nameField k).Plain := by
  cases k <;> exact JsonFlat.plain_field _ (by decide) rfl (JsonFlat.plain_of_all rfl)

theorem plain_symFields (sym : Option Symbol) : ∀ f ∈ symFields sym, f.Plain := by
  cases sym with
  | none => exact fun f hf => absurd hf List.not_mem_nil
  | some sym =>
    intro f hf
    rw [List.mem_singleton.mp hf]
    exact JsonFlat.plain_field _ (by decide) rfl (JsonFlat.plain_digits _)

theorem plain_argFields (c : Command) : ∀ f ∈ argFields c, f.Plain := by
  have hid : Field.Plain ⟨"order_id".toList, false, digits c.orderId.toNat⟩ :=
    JsonFlat.plain_field _ (by decide) rfl (JsonFlat.plain_digits _)
  have hprice : Field.Plain ⟨"price".toList, false, Price.text c.price⟩ :=
    JsonFlat.plain_field _ (by decide) rfl (JsonFlat.plain_price _)
  have hqty : Field.Plain ⟨"qty".toList, false, digits c.qty.toNat⟩ :=
    JsonFlat.plain_field _ (by decide) rfl (JsonFlat.plain_digits _)
  have hside : Field.Plain ⟨"side".toList, true, c.side.text⟩ :=
    JsonFlat.plain_field _ (by decide) rfl (JsonFlat.plain_side _)
  have htif : Field.Plain ⟨"tif".toList, true, c.tif.text⟩ :=
    JsonFlat.plain_field _ (by decide) rfl (JsonFlat.plain_tif _)
  have hmarket : Field.Plain ⟨"otype".toList, true, "market".toList⟩ :=
    JsonFlat.plain_field _ (by decide) rfl (JsonFlat.plain_of_all rfl)
  have hlimit : Field.Plain ⟨"otype".toList, true, "limit".toList⟩ :=
    JsonFlat.plain_field _ (by decide) rfl (JsonFlat.plain_of_all rfl)
  unfold argFields
  cases c.kind with
  | new =>
    cases c.otype with
    | market =>
      exact List.forall_mem_cons.mpr ⟨hid, List.forall_mem_cons.mpr ⟨hside,
        List.forall_mem_cons.mpr ⟨hmarket, List.forall_mem_cons.mpr ⟨hqty,
          List.forall_mem_singleton.mpr htif⟩⟩⟩⟩
    | limit =>
      exact List.forall_mem_cons.mpr ⟨hid, List.forall_mem_cons.mpr ⟨hside,
        List.forall_mem_cons.mpr ⟨hlimit, List.forall_mem_cons.mpr ⟨hprice,
          List.forall_mem_cons.mpr ⟨hqty, List.forall_mem_singleton.mpr htif⟩⟩⟩⟩⟩
  | cancel => exact List.forall_mem_singleton.mpr hid
  | replace =>
    exact List.forall_mem_cons.mpr ⟨hid, List.forall_mem_cons.mpr ⟨hprice,
      List.forall_mem_singleton.mpr hqty⟩⟩

theorem plain_fields (c : Command) (sym : Option Symbol) :
    ∀ f ∈ nameField c.kind :: (symFields sym ++ argFields c), f.Plain := by
  intro f hf
  rcases List.mem_cons.mp hf with rfl | hf
  · exact plain_nameField _
  · rcases List.mem_append.mp hf with hf | hf
    · exact plain_symFields sym f hf
    · exact plain_argFields c f hf

/-- What the reader finds in a journal line. -/
theorem getStr_writeCmd (c : Command) (sym : Option Symbol) (key : Text) (hne : key ≠ [])
    (hkey : key.all (fun c => decide (PlainChar c)) = true) :
    JsonFlat.getStr (writeCmd c sym) key =
      (((nameField c.kind :: (symFields sym ++ argFields c)).find? fun f =>
        f.key = key).map Field.value).getD [] := by
  rw [writeCmd_record, JsonFlat.getStr_record (plain_fields c sym) hne (JsonFlat.plain_of_all hkey)]

/-- The command as a journal keeps it: the fields that a book reads. -/
def kept (c : Command) : Command :=
  match c.kind with
  | .new => { c with price := match c.otype with
      | .limit => c.price
      | .market => 0 }
  | .cancel => .cancel c.orderId
  | .replace => .replace c.orderId c.price c.qty

/-- The symbol of a line, 0 without one. -/
theorem symbol_writeCmd (c : Command) (sym : Option Symbol) :
    ((JsonFlat.getU64 (writeCmd c sym) "symbol".toList).getD 0).toUInt32 = sym.getD 0 := by
  have hstr := getStr_writeCmd c sym "symbol".toList (by decide) rfl
  cases sym with
  | some sym =>
    have hvalue : JsonFlat.getStr (writeCmd c (some sym)) "symbol".toList =
        digits sym.toUInt64.toNat := by
      rw [hstr]
      cases c.kind <;> rfl
    rw [JsonFlat.getU64_of hvalue]
    exact UInt32.toUInt32_toUInt64 sym
  | none =>
    have hvalue : JsonFlat.getStr (writeCmd c none) "symbol".toList = [] := by
      rw [hstr, argFields]
      cases c.kind <;> cases c.otype <;> rfl
    rw [JsonFlat.getU64, hvalue]
    rfl

theorem id_writeCmd (c : Command) (sym : Option Symbol) :
    JsonFlat.getU64 (writeCmd c sym) "order_id".toList = some c.orderId := by
  refine JsonFlat.getU64_of ?_
  rw [getStr_writeCmd c sym _ (by decide) rfl, argFields]
  cases c.kind <;> cases c.otype <;> cases sym <;> rfl

theorem qty_writeCmd (c : Command) (sym : Option Symbol) (hk : c.kind ≠ .cancel) :
    JsonFlat.getU64 (writeCmd c sym) "qty".toList = some c.qty := by
  refine JsonFlat.getU64_of ?_
  rw [getStr_writeCmd c sym _ (by decide) rfl, argFields]
  cases hkind : c.kind with
  | new => cases c.otype <;> cases sym <;> rfl
  | cancel => exact absurd hkind hk
  | replace => cases sym <;> rfl

/-- A market order's line has no price. -/
theorem price_writeCmd (c : Command) (sym : Option Symbol) (hk : c.kind ≠ .cancel) :
    JsonFlat.getI64 (writeCmd c sym) "price".toList =
      if c.kind = .new ∧ c.otype = .market then none else some c.price := by
  have hstr := getStr_writeCmd c sym "price".toList (by decide) rfl
  rw [argFields] at hstr
  cases hkind : c.kind with
  | cancel => exact absurd hkind hk
  | replace =>
    rw [hkind] at hstr
    refine JsonFlat.getI64_of (hstr.trans ?_)
    cases sym <;> rfl
  | new =>
    rw [hkind] at hstr
    cases hotype : c.otype with
    | market =>
      have hnone : JsonFlat.getStr (writeCmd c sym) "price".toList = [] := by
        rw [hstr, hotype]
        cases sym <;> rfl
      rw [JsonFlat.getI64, hnone]
      rfl
    | limit =>
      refine JsonFlat.getI64_of (hstr.trans ?_)
      rw [hotype]
      cases sym <;> rfl

/-- A written line is read back. -/
theorem parse_writeCmd (c : Command) (sym : Option Symbol) :
    JsonFlat.parseCommand (writeCmd c sym) = some (sym.getD 0, kept c) := by
  have hcmd := getStr_writeCmd c sym "cmd".toList (by decide) rfl
  have hid := id_writeCmd c sym
  have hqty := qty_writeCmd c sym
  have hprice := price_writeCmd c sym
  unfold JsonFlat.parseCommand kept
  simp only [symbol_writeCmd, hid, Option.getD_some]
  cases hkind : c.kind with
  | cancel =>
    have hname : JsonFlat.getStr (writeCmd c sym) "cmd".toList = "cancel".toList := by
      rw [hcmd, hkind]
      rfl
    rw [hname]
    rfl
  | replace =>
    have hname : JsonFlat.getStr (writeCmd c sym) "cmd".toList = "replace".toList := by
      rw [hcmd, hkind]
      rfl
    rw [hname, hqty (by rw [hkind]; decide), hprice (by rw [hkind]; decide), hkind]
    rfl
  | new =>
    have hname : JsonFlat.getStr (writeCmd c sym) "cmd".toList = "new".toList := by
      rw [hcmd, hkind]
      rfl
    have hside : JsonFlat.getStr (writeCmd c sym) "side".toList = c.side.text := by
      rw [getStr_writeCmd c sym _ (by decide) rfl, argFields, hkind]
      cases c.otype <;> cases sym <;> rfl
    have htif : JsonFlat.getStr (writeCmd c sym) "tif".toList = c.tif.text := by
      rw [getStr_writeCmd c sym _ (by decide) rfl, argFields, hkind]
      cases c.otype <;> cases sym <;> rfl
    have hotype : JsonFlat.getStr (writeCmd c sym) "otype".toList = match c.otype with
        | .market => "market".toList
        | .limit => "limit".toList := by
      rw [getStr_writeCmd c sym _ (by decide) rfl, argFields, hkind]
      cases c.otype <;> cases sym <;> rfl
    rw [hname, hside, htif, hotype, hqty (by rw [hkind]; decide), hprice (by rw [hkind]; decide),
      JsonFlat.sideOf_text, JsonFlat.tifOf_text, hkind]
    cases h : c.otype with
    | market =>
      refine congrArg some (congrArg (Prod.mk _) ?_)
      cases c
      cases hkind
      cases h
      rfl
    | limit =>
      refine congrArg some (congrArg (Prod.mk _) ?_)
      cases c
      cases hkind
      cases h
      rfl

end Journal

/-- No book reads what a journal line leaves out. -/
theorem OrderBook.apply_kept (b : OrderBook) (c : Command) :
    b.apply (Journal.kept c) = b.apply c := by
  obtain ⟨kind, id, side, otype, price, qty, tif⟩ := c
  cases kind with
  | cancel => rfl
  | replace => rfl
  | new =>
    cases otype with
    | limit => rfl
    | market => simp [Journal.kept, OrderBook.apply, OrderBook.newOrder, OrderBook.checkNew]

namespace Journal

/-- The journal of an engine's commands. -/
def text (cmds : List (Symbol × Command)) : Text := cmds.flatMap fun x => record x.2 (some x.1)

/-- Parse every line and submit its command; `none` at a line that is refused. -/
def replay : Engine → List Text → Option (Engine × List (Symbol × Emission))
  | e, [] => some (e, [])
  | e, line :: ls => do
    let (sym, cmd) ← JsonFlat.parseCommand line
    let (e, out) ← e.submitTagged sym cmd
    let (e, rest) ← replay e ls
    return (e, out ++ rest)

theorem lines_text (cmds : List (Symbol × Command)) :
    lines (text cmds) = cmds.map fun x => writeCmd x.2 (some x.1) := by
  have hlines : ∀ w ∈ cmds.map (fun x => writeCmd x.2 (some x.1)), '\n' ∉ w := by
    intro w hw
    obtain ⟨x, _, rfl⟩ := List.mem_map.mp hw
    rw [writeCmd_record]
    exact newline_not_mem (plain_fields x.2 (some x.1))
  have htext : text cmds = (cmds.map fun x => writeCmd x.2 (some x.1)).flatMap fun w =>
      w ++ ['\n'] := by
    rw [text, List.flatMap_map]
    rfl
  rw [htext, lines_written hlines]

theorem submitTagged_kept (e : Engine) (s : Symbol) (c : Command) :
    e.submitTagged s (kept c) = e.submitTagged s c := by
  simp only [Engine.submitTagged, Engine.submit, OrderBook.apply_kept]

theorem replay_lines (e : Engine) (cmds : List (Symbol × Command)) :
    replay e (cmds.map fun x => writeCmd x.2 (some x.1)) = e.submitAll cmds := by
  induction cmds generalizing e with
  | nil => rfl
  | cons x cmds ih =>
    rw [List.map_cons, replay, parse_writeCmd, Option.bind_eq_bind, Option.bind_some]
    simp only [Option.getD_some, submitTagged_kept, ih]
    rfl

end Journal

/-- A journal line is parsed as the command and symbol it was written for, in every field
a book reads; and replaying a journal on a fresh engine delivers the same events and ends
in the same engine as the commands did. -/
theorem journal_replays :
    (∀ (c : Command) (sym : Option Symbol), ∃ c',
      JsonFlat.parseCommand (Journal.writeCmd c sym) = some (sym.getD 0, c') ∧
      c'.kind = c.kind ∧ c'.orderId = c.orderId ∧ (c.kind ≠ .cancel → c'.qty = c.qty) ∧
      (c.kind = .replace ∨ c.kind = .new ∧ c.otype = .limit → c'.price = c.price) ∧
      (c.kind = .new → c'.side = c.side ∧ c'.otype = c.otype ∧ c'.tif = c.tif) ∧
      ∀ b : OrderBook, b.apply c' = b.apply c) ∧
    ∀ (cfg : BookConfig) (cmds : List (Symbol × Command)),
      Journal.replay { defaultCfg := cfg } (Journal.lines (Journal.text cmds)) =
        Engine.submitAll { defaultCfg := cfg } cmds := by
  refine ⟨fun c sym => ⟨Journal.kept c, Journal.parse_writeCmd c sym, ?_⟩, fun cfg cmds => ?_⟩
  · have happly := fun b : OrderBook => b.apply_kept c
    obtain ⟨kind, id, side, otype, price, qty, tif⟩ := c
    refine ⟨?_, ?_, ?_, ?_, ?_, happly⟩
    · cases kind <;> rfl
    · cases kind <;> rfl
    · intro hk
      cases kind
      · rfl
      · exact absurd rfl hk
      · rfl
    · rintro (hk | ⟨hk, hl⟩)
      · cases hk
        rfl
      · cases hk
        cases hl
        rfl
    · intro hk
      cases hk
      exact ⟨rfl, rfl, rfl⟩
  · rw [Journal.lines_text, Journal.replay_lines]

end Matcher
