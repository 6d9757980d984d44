import Matcher.EventJournal
import Matcher.Theorems.JournalReplay

/-!
# Event journals tell event streams

The canonical line of an event is a record whose fields are the event's. Records tell
their fields and a text without line breaks inside its lines tells its lines, so that
equal journals come from equal streams.
-/

namespace Matcher

open Kit

namespace Journal

/-! ## Numbers -/

/-- The digit loop writes the decimal digits, as long as the buffer has room. -/
theorem writeDigits_eq {i : Nat} {v : UInt64} (hv : v.toNat < 10 ^ i) (hi : i ≠ 0) (tmp : Text) :
    writeDigits i v tmp = some (digits v.toNat ++ tmp) := by
  induction i generalizing v tmp with
  | zero => exact absurd rfl hi
  | succ i ih =>
    have hmod : (v % 10).toNat = v.toNat % 10 := UInt64.toNat_mod v 10
    have hdiv : (v / 10).toNat = v.toNat / 10 := UInt64.toNat_div v 10
    have hchar : ∀ d < 10, Char.ofNat ('0'.toNat + d) = Nat.digitChar d := by decide
    have hlow := Nat.mod_lt v.toNat (show 0 < 10 by decide)
    rw [writeDigits, hmod, hchar _ hlow]
    by_cases hzero : v / 10 = 0
    · have hsmall : v.toNat / 10 = 0 := by rw [← hdiv, hzero]; rfl
      rw [if_pos hzero, digits, Nat.toDigits_of_lt_base (by omega), Nat.mod_eq_of_lt (by omega)]
      rfl
    · have hpos : 0 < v.toNat / 10 := by
        refine Nat.pos_of_ne_zero fun h0 => hzero (UInt64.toNat_inj.mp ?_)
        rw [hdiv, h0]
        rfl
      have hi' : i ≠ 0 := by
        rintro rfl
        omega
      have hsplit := Nat.toDigits_append_toDigits (b := 10) (by decide) hpos hlow
      rw [Nat.toDigits_of_lt_base hlow, Nat.div_add_mod] at hsplit
      rw [if_neg hzero, ih (by rw [hdiv]; omega) hi', hdiv, digits, digits, ← hsplit,
        List.append_assoc]
      rfl

theorem appendU_eq (s : Text) (v : UInt64) : appendU s v = some (s ++ digits v.toNat) := by
  have hv : v.toNat < 10 ^ 20 := lt_trans (UInt64.toNat_lt v) (by decide)
  rw [appendU, writeDigits_eq hv (by decide), List.append_nil]
  rfl

/-- Non-negative numbers are the same unsigned. -/
theorem toUInt64_toNat {v : Int64} (hv : 0 ≤ v.toInt) : (v.toUInt64.toNat : Int) = v.toInt := by
  have hle : (0 : Int64) ≤ v := Int64.le_iff_toInt_le.mpr hv
  rw [Int64.toNat_toUInt64_of_le hle, Int64.cast_toNatClampNeg v hle]

theorem appendI_eq (s : Text) (v : Int64) : appendI s v = some (s ++ Price.text v) := by
  rw [appendI, Price.text]
  by_cases hneg : v < 0
  · have hlt : v.toInt < 0 := Int64.lt_iff_toInt_lt.mp hneg
    have hle := Int64.le_toInt v
    have hsucc : (v + 1).toInt = v.toInt + 1 := by
      rw [Int64.toInt_add, show (1 : Int64).toInt = 1 from rfl]
      exact Int.bmod_eq_of_le (by omega) (by omega)
    have hopp : (-(v + 1)).toInt = -(v.toInt + 1) := by
      rw [Int64.toInt_neg, hsucc]
      exact Int.bmod_eq_of_le (by omega) (by omega)
    have hnat := toUInt64_toNat (v := -(v + 1)) (by omega)
    rw [hopp] at hnat
    have habs : ((-(v + 1)).toUInt64 + 1).toNat = v.toInt.natAbs := by
      rw [UInt64.toNat_add, show (1 : UInt64).toNat = 1 from rfl]
      omega
    rw [if_pos hneg, if_pos hneg, appendU_eq, habs, List.append_assoc]
    rfl
  · have hge : 0 ≤ v.toInt := Int64.le_iff_toInt_le.mp (Int64.not_lt.mp hneg)
    have hnat := toUInt64_toNat hge
    rw [if_neg hneg, if_neg hneg, appendU_eq, show v.toUInt64.toNat = v.toInt.natAbs by omega]

/-! ## Records -/

def eventName : Event → Text
  | .accepted .. => "accepted".toList
  | .rejected .. => "rejected".toList
  | .trade .. => "trade".toList
  | .closed .. => "closed".toList
  | .replaced .. => "replaced".toList

/-- The fields after the name and the symbol. -/
def eventFields : Event → List Field
  | .accepted orderId leavesQty =>
    [⟨"order_id".toList, false, digits orderId.toNat⟩, ⟨"leaves_qty".toList, false,
      digits leavesQty.toNat⟩]
  | .rejected orderId reason =>
    [⟨"order_id".toList, false, digits orderId.toNat⟩, ⟨"reason".toList, true, reason.text⟩]
  | .trade maker taker price qty =>
    [⟨"maker".toList, false, digits maker.toNat⟩, ⟨"taker".toList, false, digits taker.toNat⟩,
      ⟨"price".toList, false, Price.text price⟩, ⟨"qty".toList, false, digits qty.toNat⟩]
  | .closed orderId reason =>
    [⟨"order_id".toList, false, digits orderId.toNat⟩, ⟨"reason".toList, true, reason.text⟩]
  | .replaced orderId price qty =>
    [⟨"order_id".toList, false, digits orderId.toNat⟩, ⟨"price".toList, false, Price.text price⟩,
      ⟨"qty".toList, false, digits qty.toNat⟩]

/-- The canonical line of an event. -/
def eventLine (seq : UInt64) (sym : Option Symbol) (e : Event) : Text :=
  recordText ⟨"seq".toList, false, digits seq.toNat⟩ (⟨"ev".toList, true, eventName e⟩ ::
    (symFields sym ++ eventFields e))

/-- The text of an event's kind, name, symbol and fields, up to the closing brace. -/
theorem writeKind_eq (symField out : Text) (e : Event) :
    writeKind symField out e = some
    (out ++ ",\"ev\":\"".toList ++ eventName e ++ "\"".toList ++ symField ++
      (eventFields e).flatMap fun f => ',' :: f.text) := by
  unfold writeKind eventName eventFields
  simp only [appendU_eq, appendI_eq, Option.bind_eq_bind, Option.bind_some]
  -- what the numbers look like does not matter
  generalize digits = d
  generalize Price.text = p
  cases e <;> simp [Field.text, Field.valueText]

theorem writeCanonicalImpl_eq (seq : UInt64) (sym : Option Symbol) (e : Event) :
    writeCanonicalImpl seq ((symFields sym).flatMap fun f => ',' :: f.text) e [] =
      some (eventLine seq sym e) := by
  have hrest := restText_append (symFields sym ++ eventFields e) []
  rw [List.append_nil, List.flatMap_append] at hrest
  rw [writeCanonicalImpl, appendU_eq, Option.bind_eq_bind, Option.bind_some, writeKind_eq,
    eventLine, recordText, restText, hrest]
  generalize digits seq.toNat = d
  simp [Field.text, Field.valueText, restText]

theorem writeCanonical_eq (seq : UInt64) (e : Event) :
    writeCanonical seq e [] = some (eventLine seq none e) :=
  writeCanonicalImpl_eq seq none e

theorem writeCanonicalSym_eq (seq : UInt64) (sym : Symbol) (e : Event) :
    writeCanonicalSym seq sym e [] = some (eventLine seq (some sym) e) := by
  have hsym : ",\"symbol\":".toList ++ digits sym.toUInt64.toNat =
      (symFields (some sym)).flatMap fun f => ',' :: f.text := by
    rw [UInt32.toNat_toUInt64, symFields]
    generalize digits sym.toNat = d
    simp [Field.text, Field.valueText]
  rw [writeCanonicalSym, appendU_eq, hsym]
  exact writeCanonicalImpl_eq seq (some sym) e

/-! ## Different events have different lines -/

theorem digits_inj {n m : Nat} (h : digits n = digits m) : n = m := by
  have hn := congrArg (fun s => Nat.ofDigitChars 10 s 0) h
  rwa [digits, digits, Nat.ofDigitChars_ten_toDigits, Nat.ofDigitChars_ten_toDigits] at hn

theorem price_inj {p q : Price} (h : Price.text p = Price.text q) : p = q := by
  have hsign : ∀ n m, '-' :: digits n ≠ digits m := by
    intro n m heq
    cases JsonFlat.digits_isDigit m '-' (heq ▸ List.mem_cons_self)
  have hlt : ∀ r : Price, r < 0 ↔ r.toInt < 0 := fun r => Int64.lt_iff_toInt_lt
  refine Int64.toInt_inj.mp ?_
  rw [Price.text, Price.text] at h
  split at h <;> split at h
  · next hp hq =>
    have habs := digits_inj (List.cons.inj h).2
    rw [hlt] at hp hq
    omega
  · exact absurd h (hsign _ _)
  · exact absurd h.symm (hsign _ _)
  · next hp hq =>
    have habs := digits_inj h
    rw [hlt] at hp hq
    omega

theorem reject_inj {r r' : RejectReason} (h : r.text = r'.text) : r = r' := by
  revert h
  cases r <;> cases r' <;> decide

theorem close_inj {r r' : CloseReason} (h : r.text = r'.text) : r = r' := by
  revert h
  cases r <;> cases r' <;> decide

theorem plain_reject (r : RejectReason) : ∀ c ∈ r.text, PlainChar c := by
  cases r <;> exact JsonFlat.plain_of_all rfl

theorem plain_close (r : CloseReason) : ∀ c ∈ r.text, PlainChar c := by
  cases r <;> exact JsonFlat.plain_of_all rfl

theorem plain_name (e : Event) : ∀ c ∈ eventName e, PlainChar c := by
  cases e <;> exact JsonFlat.plain_of_all rfl

theorem plain_eventFields (e : Event) : ∀ f ∈ eventFields e, f.Plain := by
  have hnumber : ∀ (key : Text) (n : Nat), key ≠ [] → key.all (fun c => decide (PlainChar c)) =
      true →
      Field.Plain ⟨key, false, digits n⟩ :=
    fun key n hne hkey => JsonFlat.plain_field _ hne hkey (JsonFlat.plain_digits n)
  have hprice : ∀ p : Price, Field.Plain ⟨"price".toList, false, Price.text p⟩ := fun p =>
    JsonFlat.plain_field _ (by decide) rfl (JsonFlat.plain_price p)
  have hid := fun n => hnumber "order_id".toList n (by decide) rfl
  have hqty := fun n => hnumber "qty".toList n (by decide) rfl
  cases e with
  | accepted orderId leavesQty =>
    exact List.forall_mem_cons.mpr ⟨hid _,
      List.forall_mem_singleton.mpr (hnumber _ _ (by decide) rfl)⟩
  | rejected orderId reason =>
    exact List.forall_mem_cons.mpr ⟨hid _,
      List.forall_mem_singleton.mpr (JsonFlat.plain_field _ (by decide) rfl (plain_reject reason))⟩
  | trade maker taker price qty =>
    exact List.forall_mem_cons.mpr ⟨hnumber _ _ (by decide) rfl,
      List.forall_mem_cons.mpr ⟨hnumber _ _ (by decide) rfl, List.forall_mem_cons.mpr ⟨hprice price,
        List.forall_mem_singleton.mpr (hqty _)⟩⟩⟩
  | closed orderId reason =>
    exact List.forall_mem_cons.mpr ⟨hid _,
      List.forall_mem_singleton.mpr (JsonFlat.plain_field _ (by decide) rfl (plain_close reason))⟩
  | replaced orderId price qty =>
    exact List.forall_mem_cons.mpr ⟨hid _, List.forall_mem_cons.mpr ⟨hprice price,
      List.forall_mem_singleton.mpr (hqty _)⟩⟩

theorem plain_eventLine (seq : UInt64) (sym : Option Symbol) (e : Event) :
    ∀ f ∈ (⟨"seq".toList, false, digits seq.toNat⟩ : Field) ::
      ⟨"ev".toList, true, eventName e⟩ :: (symFields sym ++ eventFields e), f.Plain := by
  refine List.forall_mem_cons.mpr ⟨JsonFlat.plain_field _ (by decide) rfl (JsonFlat.plain_digits _),
    List.forall_mem_cons.mpr ⟨JsonFlat.plain_field _ (by decide) rfl (plain_name e), fun f hf =>
      ?_⟩⟩
  rcases List.mem_append.mp hf with hf | hf
  · exact plain_symFields sym f hf
  · exact plain_eventFields e f hf

/-- Only events of one kind have the same name. -/
theorem ctorIdx_of_name {e e' : Event} (h : eventName e = eventName e') :
    e.ctorIdx = e'.ctorIdx := by
  revert h
  unfold eventName
  cases e <;> cases e' <;> dsimp only
  all_goals first
    | exact fun _ => rfl
    | exact fun h => absurd h (by decide)

/-- The name and the fields tell the event. -/
theorem event_inj {e e' : Event} (hname : eventName e = eventName e')
    (hfields : eventFields e = eventFields e') : e = e' := by
  have hnat : ∀ {n m : UInt64}, digits n.toNat = digits m.toNat → n = m :=
    fun h => UInt64.toNat_inj.mp (digits_inj h)
  have hvalues := congrArg (List.map Field.value) hfields
  cases e with
  | accepted orderId leavesQty =>
    cases e' with
    | accepted orderId' leavesQty' =>
      obtain ⟨hid, hvalues⟩ := List.cons.inj hvalues
      rw [hnat hid, hnat (List.cons.inj hvalues).1]
    | _ => cases ctorIdx_of_name hname
  | rejected orderId reason =>
    cases e' with
    | rejected orderId' reason' =>
      obtain ⟨hid, hvalues⟩ := List.cons.inj hvalues
      rw [hnat hid, reject_inj (List.cons.inj hvalues).1]
    | _ => cases ctorIdx_of_name hname
  | trade maker taker price qty =>
    cases e' with
    | trade maker' taker' price' qty' =>
      obtain ⟨hmaker, hvalues⟩ := List.cons.inj hvalues
      obtain ⟨htaker, hvalues⟩ := List.cons.inj hvalues
      obtain ⟨hprice, hvalues⟩ := List.cons.inj hvalues
      rw [hnat hmaker, hnat htaker, price_inj hprice, hnat (List.cons.inj hvalues).1]
    | _ => cases ctorIdx_of_name hname
  | closed orderId reason =>
    cases e' with
    | closed orderId' reason' =>
      obtain ⟨hid, hvalues⟩ := List.cons.inj hvalues
      rw [hnat hid, close_inj (List.cons.inj hvalues).1]
    | _ => cases ctorIdx_of_name hname
  | replaced orderId price qty =>
    cases e' with
    | replaced orderId' price' qty' =>
      obtain ⟨hid, hvalues⟩ := List.cons.inj hvalues
      obtain ⟨hprice, hvalues⟩ := List.cons.inj hvalues
      rw [hnat hid, price_inj hprice, hnat (List.cons.inj hvalues).1]
    | _ => cases ctorIdx_of_name hname

/-- Equal lines are lines of one event, under one number and with one symbol. -/
theorem eventLine_inj {seq seq' : UInt64} {sym sym' : Option Symbol} {e e' : Event}
    (hsym : sym.isSome = sym'.isSome) (h : eventLine seq sym e = eventLine seq' sym' e') :
    seq = seq' ∧ sym = sym' ∧ e = e' := by
  have hfields := recordText_inj (plain_eventLine seq sym e) (plain_eventLine seq' sym' e') h
  obtain ⟨hseq, hfields⟩ := List.cons.inj hfields
  obtain ⟨hname, hfields⟩ := List.cons.inj hfields
  have hlen : (symFields sym).length = (symFields sym').length := by
    cases sym <;> cases sym' <;> first | rfl | cases hsym
  obtain ⟨hsymbol, hfields⟩ := List.append_inj hfields hlen
  refine ⟨UInt64.toNat_inj.mp (digits_inj (congrArg Field.value hseq)), ?_,
    event_inj (congrArg Field.value hname) hfields⟩
  cases sym with
  | none =>
    cases sym' with
    | none => rfl
    | some s' => cases hsym
  | some s =>
    cases sym' with
    | none => cases hsym
    | some s' =>
      have hvalue := congrArg Field.value (List.cons.inj hsymbol).1
      rw [UInt32.toNat_inj.mp (digits_inj hvalue)]

/-! ## Journals -/

/-- The lines of a journal. -/
theorem lines_eventLines {α : Type*} (line : α → UInt64 × Option Symbol × Event) (es : List α) :
    lines ((es.map fun x => eventLine (line x).1 (line x).2.1 (line x).2.2 ++ ['\n']).flatten) =
      es.map fun x => eventLine (line x).1 (line x).2.1 (line x).2.2 := by
  have hplain : ∀ w ∈ es.map fun x => eventLine (line x).1 (line x).2.1 (line x).2.2, '\n' ∉ w :=
    fun w hw => by
    obtain ⟨x, _, rfl⟩ := List.mem_map.mp hw
    exact newline_not_mem (plain_eventLine _ _ _)
  have h := lines_written hplain
  rwa [List.flatMap_map, List.flatMap_def] at h

theorem bookJournal_eq (es : List (UInt64 × Event)) :
    bookJournal es = some (es.map fun x => eventLine x.1 none x.2 ++ ['\n']).flatten := by
  have hline : ∀ x ∈ es, onEvent x.1 x.2 = some (eventLine x.1 none x.2 ++ ['\n']) := fun x _ => by
    rw [onEvent, writeCanonical_eq]
    rfl
  rw [bookJournal, mapM_eq_some hline]
  rfl

theorem engineJournal_eq (es : List (UInt64 × Symbol × Event)) :
    engineJournal es = some (es.map fun x => eventLine x.1 (some x.2.1) x.2.2 ++
      ['\n']).flatten := by
  have hline : ∀ x ∈ es, journalEvent x.2.1 x.1 x.2.2 = some (eventLine x.1 (some x.2.1) x.2.2 ++
      ['\n']) := fun x _ => by
    rw [journalEvent, writeCanonicalSym_eq]
    rfl
  rw [engineJournal, mapM_eq_some hline]
  rfl

end Journal

/-- Every stream of events has a journal, with symbols or without, and equal journals are
journals of equal streams. -/
theorem journals_tell_streams :
    (∀ es, ∃ text, Journal.engineJournal es = some text) ∧
    (∀ es es', Journal.engineJournal es = Journal.engineJournal es' ↔ es = es') ∧
    (∀ es, ∃ text, Journal.bookJournal es = some text) ∧
    (∀ es es', Journal.bookJournal es = Journal.bookJournal es' ↔ es = es') := by
  refine ⟨fun es => ⟨_, Journal.engineJournal_eq es⟩, fun es es' => ⟨fun h => ?_, fun h => h ▸ rfl⟩,
    fun es => ⟨_, Journal.bookJournal_eq es⟩, fun es es' => ⟨fun h => ?_, fun h => h ▸ rfl⟩⟩
  · rw [Journal.engineJournal_eq, Journal.engineJournal_eq, Option.some.injEq] at h
    have hlines := congrArg Journal.lines h
    rw [Journal.lines_eventLines fun x : UInt64 × Symbol × Event => (x.1, some x.2.1, x.2.2),
      Journal.lines_eventLines fun x : UInt64 × Symbol × Event => (x.1, some x.2.1, x.2.2)]
        at hlines
    refine List.map_injective_iff.mpr (fun x y hxy => ?_) hlines
    have hline : Journal.eventLine x.1 (some x.2.1) x.2.2 =
        Journal.eventLine y.1 (some y.2.1) y.2.2 := hxy
    obtain ⟨hseq, hsym, hev⟩ := Journal.eventLine_inj Option.isSome_some hline
    exact Prod.ext hseq (Prod.ext (Option.some.inj hsym) hev)
  · rw [Journal.bookJournal_eq, Journal.bookJournal_eq, Option.some.injEq] at h
    have hlines := congrArg Journal.lines h
    rw [Journal.lines_eventLines fun x : UInt64 × Event => (x.1, none, x.2),
      Journal.lines_eventLines fun x : UInt64 × Event => (x.1, none, x.2)] at hlines
    refine List.map_injective_iff.mpr (fun x y hxy => ?_) hlines
    have hline : Journal.eventLine x.1 none x.2 = Journal.eventLine y.1 none y.2 := hxy
    obtain ⟨hseq, _, hev⟩ := Journal.eventLine_inj rfl hline
    exact Prod.ext hseq hev

end Matcher
