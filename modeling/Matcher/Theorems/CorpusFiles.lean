import Matcher.Drivers
import Matcher.Logic.Corpus
import Matcher.Theorems.JournalReplay

/-!
# The files of a corpus

What `vectorgen` writes is what `matcherbench` loads, whatever the seed and the sizes: the
generator is not in C++ and has its own writer, but its lines and its header are records
that the flat reader takes apart again.
-/

namespace Matcher

open Kit

namespace Vectorgen

/-! ## The files are read back -/

/-- The command that the reader makes of a line. -/
def Command.parsed : Command → Matcher.Command
  | .new orderId side otype price qty tif => { kind := .new, orderId, side, otype, price, qty, tif }
  | .cancel orderId => .cancel orderId
  | .replace orderId price qty => .replace orderId price qty

/-- The fields of a new order's line, after the name. -/
def newFields (orderId : OrderId) (side : Side) (otype : OType) (price : Price) (qty : Qty)
    (tif : Tif) : List Field :=
  [⟨"order_id".toList, false, digits orderId.toNat⟩, ⟨"side".toList, true, side.text⟩,
    ⟨"otype".toList, true, otype.text⟩, ⟨"price".toList, false, Price.text price⟩,
    ⟨"qty".toList, false, digits qty.toNat⟩, ⟨"tif".toList, true, tif.text⟩]

section New

variable (orderId : OrderId) (side : Side) (otype : OType) (price : Price) (qty : Qty) (tif : Tif)

theorem new_record : (Command.new orderId side otype price qty tif).writeCanonical =
    recordText (Journal.nameField .new) (newFields orderId side otype price qty tif) := by
  dsimp only [Command.writeCanonical, newFields, Journal.nameField]
  generalize digits orderId.toNat = idText
  generalize digits qty.toNat = qtyText
  generalize Price.text price = priceText
  generalize side.text = sideText
  generalize otype.text = otypeText
  generalize tif.text = tifText
  simp [recordText, restText, Field.text, Field.valueText]

theorem plain_otype : ∀ c ∈ otype.text, PlainChar c := by
  cases otype <;> exact JsonFlat.plain_of_all rfl

theorem plain_newFields :
    ∀ f ∈ Journal.nameField .new :: newFields orderId side otype price qty tif, f.Plain := by
  have hid : Field.Plain ⟨"order_id".toList, false, digits orderId.toNat⟩ :=
    JsonFlat.plain_field _ (by decide) rfl (JsonFlat.plain_digits _)
  have hside : Field.Plain ⟨"side".toList, true, side.text⟩ :=
    JsonFlat.plain_field _ (by decide) rfl (JsonFlat.plain_side _)
  have hotype : Field.Plain ⟨"otype".toList, true, otype.text⟩ :=
    JsonFlat.plain_field _ (by decide) rfl (plain_otype otype)
  have hprice : Field.Plain ⟨"price".toList, false, Price.text price⟩ :=
    JsonFlat.plain_field _ (by decide) rfl (JsonFlat.plain_price _)
  have hqty : Field.Plain ⟨"qty".toList, false, digits qty.toNat⟩ :=
    JsonFlat.plain_field _ (by decide) rfl (JsonFlat.plain_digits _)
  have htif : Field.Plain ⟨"tif".toList, true, tif.text⟩ :=
    JsonFlat.plain_field _ (by decide) rfl (JsonFlat.plain_tif _)
  refine List.forall_mem_cons.mpr ⟨Journal.plain_nameField .new, ?_⟩
  exact List.forall_mem_cons.mpr ⟨hid, List.forall_mem_cons.mpr ⟨hside,
    List.forall_mem_cons.mpr ⟨hotype, List.forall_mem_cons.mpr ⟨hprice,
      List.forall_mem_cons.mpr ⟨hqty, List.forall_mem_singleton.mpr htif⟩⟩⟩⟩⟩

theorem getStr_new (key : Text) (hne : key ≠ [])
    (hkey : key.all (fun c => decide (PlainChar c)) = true) :
    JsonFlat.getStr (Command.new orderId side otype price qty tif).writeCanonical key =
      (((Journal.nameField .new :: newFields orderId side otype price qty tif).find? fun f =>
        f.key = key).map Field.value).getD
        [] := by
  rw [new_record, JsonFlat.getStr_record (plain_newFields orderId side otype price qty tif) hne
    (JsonFlat.plain_of_all hkey)]

theorem parse_new :
    JsonFlat.parseCommand (Command.new orderId side otype price qty tif).writeCanonical =
    some ((JsonFlat.getU64 (Command.new orderId side otype price qty tif).writeCanonical
      "symbol".toList).getD 0 |>.toUInt32,
      (Command.new orderId side otype price qty tif).parsed) := by
  -- from here on the line is only what its fields read as
  have hread := getStr_new orderId side otype price qty tif
  generalize (Command.new orderId side otype price qty tif).writeCanonical = line at hread ⊢
  have hname : JsonFlat.getStr line "cmd".toList = "new".toList := hread _ (by decide) rfl
  have hid : JsonFlat.getU64 line "order_id".toList = some orderId :=
    JsonFlat.getU64_of (hread _ (by decide) rfl)
  have hside : JsonFlat.getStr line "side".toList = side.text := hread _ (by decide) rfl
  have hotype : JsonFlat.getStr line "otype".toList = otype.text := hread _ (by decide) rfl
  have htif : JsonFlat.getStr line "tif".toList = tif.text := hread _ (by decide) rfl
  have hprice : JsonFlat.getI64 line "price".toList = some price :=
    JsonFlat.getI64_of (hread _ (by decide) rfl)
  have hqty : JsonFlat.getU64 line "qty".toList = some qty :=
    JsonFlat.getU64_of (hread _ (by decide) rfl)
  unfold JsonFlat.parseCommand
  dsimp only
  rw [if_pos hname, hid, hside, hotype, htif, hprice, hqty, JsonFlat.sideOf_text,
    JsonFlat.tifOf_text]
  cases otype <;> rfl

end New

/-- A line is not empty, has no line break in it, and is read as the command it was written for. -/
theorem parse_line (c : Command) : c.writeCanonical ≠ [] ∧ '\n' ∉ c.writeCanonical ∧
    (JsonFlat.parseCommand c.writeCanonical).map Prod.snd = some c.parsed := by
  cases c with
  | new orderId side otype price qty tif =>
    rw [parse_new, new_record]
    exact ⟨List.cons_ne_nil _ _, newline_not_mem (plain_newFields orderId side otype price qty tif),
      rfl⟩
  | cancel orderId =>
    have hjournal : (Command.cancel orderId).writeCanonical =
        Journal.writeCmd (.cancel orderId) none := rfl
    have hparse := Journal.parse_writeCmd (.cancel orderId) none
    rw [hjournal, hparse, Journal.writeCmd_record]
    exact ⟨List.cons_ne_nil _ _, newline_not_mem (Journal.plain_fields _ none), rfl⟩
  | replace orderId price qty =>
    have hjournal : (Command.replace orderId price qty).writeCanonical =
        Journal.writeCmd (.replace orderId price qty) none := rfl
    have hparse := Journal.parse_writeCmd (.replace orderId price qty) none
    rw [hjournal, hparse, Journal.writeCmd_record]
    exact ⟨List.cons_ne_nil _ _, newline_not_mem (Journal.plain_fields _ none), rfl⟩

/-- The first field of a header, and the others. -/
def formatField : Field := ⟨"format".toList, true, "matcher-vector/1".toList⟩

def headerFields (workload : Text) (seed maxOrders : UInt64) : List Field :=
  [⟨"name".toList, true, workload⟩, ⟨"pmin".toList, false, Price.text PMIN⟩,
    ⟨"pmax".toList, false, Price.text PMAX⟩, ⟨"max_orders".toList, false, digits maxOrders.toNat⟩,
    ⟨"index".toList, true, "ladder".toList⟩, ⟨"workload".toList, true, workload⟩,
    ⟨"seed".toList, false, digits seed.toNat⟩]

section Header

variable {w : Text} (hw : w ∈ workloads) (seed maxOrders : UInt64)

theorem header_record (w : Text) :
    header w seed maxOrders = recordText formatField (headerFields w seed maxOrders) ++ ['\n'] := by
  dsimp only [header, headerFields, formatField]
  generalize digits seed.toNat = seedText
  generalize digits maxOrders.toNat = ordersText
  generalize Price.text PMIN = minText
  generalize Price.text PMAX = maxText
  simp [recordText, restText, Field.text, Field.valueText]

include hw in
theorem plain_headerFields : ∀ f ∈ formatField :: headerFields w seed maxOrders, f.Plain := by
  have hplain : ∀ w ∈ workloads, w.all (fun c => decide (PlainChar c)) = true := by decide
  have hformat : formatField.Plain :=
    JsonFlat.plain_field _ (by decide) rfl (JsonFlat.plain_of_all rfl)
  have hname : Field.Plain ⟨"name".toList, true, w⟩ :=
    JsonFlat.plain_field _ (by decide) rfl (JsonFlat.plain_of_all (hplain w hw))
  have hmin : Field.Plain ⟨"pmin".toList, false, Price.text PMIN⟩ :=
    JsonFlat.plain_field _ (by decide) rfl (JsonFlat.plain_price _)
  have hmax : Field.Plain ⟨"pmax".toList, false, Price.text PMAX⟩ :=
    JsonFlat.plain_field _ (by decide) rfl (JsonFlat.plain_price _)
  have horders : Field.Plain ⟨"max_orders".toList, false, digits maxOrders.toNat⟩ :=
    JsonFlat.plain_field _ (by decide) rfl (JsonFlat.plain_digits _)
  have hindex : Field.Plain ⟨"index".toList, true, "ladder".toList⟩ :=
    JsonFlat.plain_field _ (by decide) rfl (JsonFlat.plain_of_all rfl)
  have hworkload : Field.Plain ⟨"workload".toList, true, w⟩ :=
    JsonFlat.plain_field _ (by decide) rfl (JsonFlat.plain_of_all (hplain w hw))
  have hseed : Field.Plain ⟨"seed".toList, false, digits seed.toNat⟩ :=
    JsonFlat.plain_field _ (by decide) rfl (JsonFlat.plain_digits _)
  refine List.forall_mem_cons.mpr ⟨hformat, List.forall_mem_cons.mpr ⟨hname,
    List.forall_mem_cons.mpr ⟨hmin, ?_⟩⟩⟩
  exact List.forall_mem_cons.mpr ⟨hmax, List.forall_mem_cons.mpr ⟨horders,
    List.forall_mem_cons.mpr ⟨hindex, List.forall_mem_cons.mpr ⟨hworkload,
      List.forall_mem_singleton.mpr hseed⟩⟩⟩⟩

include hw in
/-- The configuration of a corpus. -/
theorem parse_header :
    Drivers.configOf (JsonFlat.parseHeader
      (recordText formatField (headerFields w seed maxOrders))) =
    { priceMin := PMIN, priceMax := PMAX, maxOrders, index := .ladder } := by
  have hread : ∀ key : Text, key ≠ [] → key.all (fun c => decide (PlainChar c)) = true →
      JsonFlat.getStr (recordText formatField (headerFields w seed maxOrders)) key =
        (((formatField :: headerFields w seed maxOrders).find? fun f =>
          f.key = key).map Field.value).getD [] := by
    intro key hne hkey
    exact JsonFlat.getStr_record (plain_headerFields hw seed maxOrders) hne
      (JsonFlat.plain_of_all hkey)
  generalize recordText formatField (headerFields w seed maxOrders) = line at hread ⊢
  have hmin : JsonFlat.getI64 line "pmin".toList = some PMIN :=
    JsonFlat.getI64_of (hread _ (by decide) rfl)
  have hmax : JsonFlat.getI64 line "pmax".toList = some PMAX :=
    JsonFlat.getI64_of (hread _ (by decide) rfl)
  have horders : JsonFlat.getU64 line "max_orders".toList = some maxOrders :=
    JsonFlat.getU64_of (hread _ (by decide) rfl)
  have hindex : JsonFlat.getStr line "index".toList = "ladder".toList := hread _ (by decide) rfl
  unfold Drivers.configOf JsonFlat.parseHeader
  dsimp only
  rw [hmin, hmax, horders, hindex]
  rfl

include hw in
/-- A file that the generator wrote. -/
theorem load_written (cfg : BookConfig) (cmds : List Command) :
    Drivers.load cfg (header w seed maxOrders ++ cmds.flatMap Command.line) =
      ({ priceMin := PMIN, priceMax := PMAX, maxOrders, index := .ladder },
        cmds.map Command.parsed) := by
  have hlines : Journal.lines (header w seed maxOrders ++ cmds.flatMap Command.line) =
      recordText formatField (headerFields w seed maxOrders) ::
        cmds.map Command.writeCanonical := by
    have hbreaks : ∀ v ∈ recordText formatField (headerFields w seed maxOrders) ::
        cmds.map Command.writeCanonical, '\n' ∉ v := by
      intro v hv
      rcases List.mem_cons.mp hv with rfl | hv
      · exact newline_not_mem (plain_headerFields hw seed maxOrders)
      · obtain ⟨c, _, rfl⟩ := List.mem_map.mp hv
        exact (parse_line c).2.1
    rw [← Journal.lines_written hbreaks, List.flatMap_cons, List.flatMap_map, header_record]
    rfl
  unfold Drivers.load
  rw [hlines]
  dsimp only
  rw [parse_header hw seed maxOrders, List.filterMap_map]
  refine congrArg (Prod.mk _) ?_
  rw [← List.filterMap_eq_map]
  refine List.filterMap_congr fun c _ => ?_
  obtain ⟨hne, _, hparse⟩ := parse_line c
  have hfull : Drivers.emptyLine c.writeCanonical = false := decide_eq_false hne
  rw [Function.comp_apply, hfull, hparse]
  rfl

end Header

/-- The configuration that the headers of a corpus ask for. -/
def Args.config (a : Args) : BookConfig :=
  { priceMin := PMIN, priceMax := PMAX, maxOrders := a.maxOrders, index := .ladder }

theorem vectorgen_eq {a : Args} {corpus : Corpus} (h : generate a = some corpus) : vectorgen a =
    some (header a.workload a.seed a.maxOrders ++ corpus.setup,
      header a.workload a.seed a.maxOrders ++ corpus.run) := by
  unfold vectorgen
  rw [h]
  rfl

/-- A short corpus. -/
def smallArgs : Args := { workload := "w1".toList, seed := 7, n := 5, setupN := 3 }

end Vectorgen

open Vectorgen in
/-- Whatever the seed, and for all sizes that leave room for the texts, `vectorgen` writes both
files without a panic, with one line for each order to begin with and for each round, none of
them longer than twice what is reserved for it, and `matcherbench` loads from the files the
configuration of the header and those commands, in order and in every field. -/
theorem corpus_loads {a : Args} (hw : a.workload ∈ workloads)
    (hsize : a.setup.toNat + a.n.toNat + 16 ≤ 2 ^ 55) :
    ∃ setupFile runFile, ∃ setup run : List Vectorgen.Command,
      vectorgen a = some (setupFile, runFile) ∧
      setup.length = a.setup.toNat ∧ run.length = a.n.toNat ∧
      (∀ c ∈ setup ++ run, c.line.length ≤ 160) ∧
      setupFile = header a.workload a.seed a.maxOrders ++ setup.flatMap Command.line ∧
      runFile = header a.workload a.seed a.maxOrders ++ run.flatMap Command.line ∧
      ∀ cfg, Drivers.load cfg setupFile = (a.config, setup.map Command.parsed) ∧
        Drivers.load cfg runFile = (a.config, run.map Command.parsed) := by
  obtain ⟨corpus, setup, run, hgen, hsetup, hrun, hlen, hlen', _, _⟩ := generate_spec hw hsize
  refine ⟨_, _, setup, run, vectorgen_eq hgen, hlen, hlen', fun c _ =>
    c.length_line, by rw [hsetup], by rw [hrun], fun cfg => ⟨?_, ?_⟩⟩
  · rw [hsetup]
    exact load_written hw a.seed a.maxOrders cfg setup
  · rw [hrun]
    exact load_written hw a.seed a.maxOrders cfg run

open Vectorgen in
theorem corpus_loads_small : ∃ setupFile runFile, ∃ setup run : List Vectorgen.Command,
    vectorgen smallArgs = some (setupFile, runFile) ∧
    setup.length = smallArgs.setup.toNat ∧ run.length = smallArgs.n.toNat ∧
    (∀ c ∈ setup ++ run, c.line.length ≤ 160) ∧
    setupFile = header smallArgs.workload smallArgs.seed smallArgs.maxOrders ++
      setup.flatMap Command.line ∧
    runFile = header smallArgs.workload smallArgs.seed smallArgs.maxOrders ++
      run.flatMap Command.line ∧
    ∀ cfg, Drivers.load cfg setupFile = (smallArgs.config, setup.map Command.parsed) ∧
      Drivers.load cfg runFile = (smallArgs.config, run.map Command.parsed) :=
  corpus_loads (by decide) (by decide)

end Matcher
