import Matcher.Logic.SnapshotText

/-!
# Snapshots that were cut off

A text that stops anywhere in a snapshot consists of whole lines and the beginning of
the next one. What the parser makes of this last line depends on what it still says.
-/

namespace Matcher

open Kit

namespace Journal

/-- The part of a text that is not ended by a line break. -/
def lastLine (s : Text) : Text := (s.reverse.takeWhile fun c => c ≠ '\n').reverse

theorem lastLine_torn (s : Text) {t : Text} (ht : '\n' ∉ t) (hs : s = [] ∨ ∃ s', s = s' ++ ['\n']) :
    lastLine (s ++ t) = t := by
  have hplain : ∀ c ∈ t.reverse, decide (c ≠ '\n') = true := by
    intro c hc
    refine decide_eq_true ?_
    rintro rfl
    exact ht (List.mem_reverse.mp hc)
  rw [lastLine, List.reverse_append, List.takeWhile_append_of_pos hplain]
  rcases hs with rfl | ⟨s', rfl⟩
  · simp
  · simp

/-- A text of whole lines is empty or ends with a line break. -/
theorem lines_end (ws : List Text) : (ws.flatMap fun w => w ++ ['\n']) = [] ∨
    ∃ s, (ws.flatMap fun w => w ++ ['\n']) = s ++ ['\n'] := by
  rcases List.eq_nil_or_concat ws with rfl | ⟨ws, w, rfl⟩
  · exact Or.inl rfl
  · refine Or.inr ⟨(ws.flatMap fun w => w ++ ['\n']) ++ w, ?_⟩
    simp

/-- Cut anywhere, a text of lines is some of its lines and a part of the next one. -/
theorem cut_lines {ws : List Text} {p r : Text} (h : p ++ r = ws.flatMap fun w => w ++ ['\n']) :
    ∃ front back t, ws = front ++ back ∧ p = (front.flatMap fun w => w ++ ['\n']) ++ t ∧
      (t = [] ∨ ∃ u more, back = (t ++ u) :: more ∧ r = u ++ '\n' :: more.flatMap fun w =>
        w ++ ['\n']) := by
  induction ws generalizing p with
  | nil =>
    rw [List.flatMap_nil, List.append_eq_nil_iff] at h
    exact ⟨[], [], [], rfl, h.1, Or.inl rfl⟩
  | cons w ws ih =>
    rw [List.flatMap_cons, List.append_eq_append_iff] at h
    rcases h with ⟨a, hline, hr⟩ | ⟨a, hp, hrest⟩
    · rcases List.eq_nil_or_concat a with rfl | ⟨u, c, rfl⟩
      · rw [List.append_nil] at hline
        exact ⟨[w], ws, [], rfl, by simp [hline], Or.inl rfl⟩
      · rw [List.concat_eq_append, ← List.append_assoc] at hline
        obtain ⟨hw, hc⟩ := List.append_inj' hline rfl
        cases hc
        refine ⟨[], w :: ws, p, rfl, rfl, Or.inr ⟨u, ws, by rw [hw], ?_⟩⟩
        rw [hr, List.concat_eq_append, List.append_assoc, List.singleton_append]
    · obtain ⟨front, back, t, hws, ha, hcut⟩ := ih hrest.symm
      refine ⟨w :: front, back, t, by rw [hws, List.cons_append], ?_, hcut⟩
      rw [hp, ha, List.flatMap_cons, List.append_assoc (w ++ ['\n'])]

end Journal

namespace Snapshot

open JsonFlat

theorem has_torn {s t pat : Text} (h : has t pat = false) (hst : s <+: t) : has s pat = false := by
  have hnone := after_prefix (Option.isSome_eq_false_iff.mp h |> Option.isNone_iff_eq_none.mp) hst
  rw [has, hnone]
  rfl

/-! ## A line without its tag -/

/-- The names a header's line is searched for. -/
def headerKeys : List Text := ["pmin".toList, "pmax".toList, "max_orders".toList, "index".toList]

theorem parseHeader_congr {s t : Text} (h : ∀ key ∈ headerKeys, getStr s key = getStr t key) :
    parseHeader s = parseHeader t := by
  have hmin := h "pmin".toList (by decide)
  have hmax := h "pmax".toList (by decide)
  have horders := h "max_orders".toList (by decide)
  have hindex := h "index".toList (by decide)
  simp only [parseHeader, getI64, getU64, hmin, hmax, horders, hindex]

/-- A torn line of another kind has nothing a header says. -/
theorem parseHeader_torn {f : Field} {fs : List Field} (hfs : ∀ g ∈ f :: fs, g.Plain)
    (hnone : (f :: fs).all (fun g => decide (g.key ∉ headerKeys)) = true) {t : Text}
    (ht : t <+: recordText f fs) :
    parseHeader t = parseHeader [] := by
  refine parseHeader_congr fun key hkey => ?_
  have hplain : headerKeys.all (fun key => decide (key ≠ []) && key.all fun c =>
      decide (PlainChar c)) = true := rfl
  have hkey' := List.all_eq_true.mp hplain key hkey
  rw [Bool.and_eq_true] at hkey'
  have hmissing : after (pattern key) (recordText f fs) = none := by
    refine after_missing hfs (of_decide_eq_true hkey'.1) (plain_of_all hkey'.2) fun g hg heq => ?_
    exact of_decide_eq_true (List.all_eq_true.mp hnone g hg) (heq ▸ hkey)
  rw [getStr_torn hmissing ht, getStr_torn hmissing List.nil_prefix]

theorem parseLine_untagged (s : Snap) {t : Text} (ht : t ≠ [])
    (horder : has t "\"rec\":\"order\"".toList = false)
    (hbook : has t "\"rec\":\"book\"".toList = false) :
    parseLine s t = { s with cfg := parseHeader t } := by
  rw [parseLine, if_neg ht, horder, if_neg Bool.false_ne_true, hbook, if_neg Bool.false_ne_true]

/-! ## An order's line -/

/-- An order's record up to the digits of its quantity. -/
def uptoQty (o : RestingOrder) : Text :=
  '\x7b' :: ((recField "order".toList).text ++ (orderFields o).dropLast.flatMap fun f =>
    ',' :: f.text) ++ ",\"qty\":".toList

theorem orderRecordWith_split (o : RestingOrder) (qty : Text) :
    orderRecordWith o qty = uptoQty o ++ qty ++ ['\x7d'] := by
  rw [orderRecordWith, recordText, restText_append, uptoQty]
  generalize (orderFields o).dropLast = fs
  simp [restText, Field.text, Field.valueText]

/-- Behind the name of the quantity there is nothing yet. -/
theorem after_uptoQty (o : RestingOrder) : after (pattern "qty".toList) (uptoQty o) = some [] := by
  have hnone : ∀ c ∈ ([] : Text), PlainChar c := List.forall_mem_nil _
  have hkey : "qty".toList ≠ [] := by decide
  have hrecord := after_record (plain_tagged "order".toList rfl (plain_orderFieldsWith o hnone))
    hkey (plain_of_all rfl)
  have hfound : after (pattern "qty".toList) (uptoQty o ++ ['\x7d']) = some ['\x7d'] := by
    have hsplit := orderRecordWith_split o []
    rw [List.append_nil] at hsplit
    rw [← hsplit]
    exact hrecord.trans rfl
  rw [after_snoc (by decide)] at hfound
  obtain ⟨v, hv, hempty⟩ := Option.map_eq_some_iff.mp hfound
  rw [hv, List.append_left_eq_self.mp hempty]

theorem parseOrder_open (s : Text) : parseOrder (s ++ ['\x7d']) = parseOrder s := by
  have hget : ∀ key : Text, key.all (fun c => decide (PlainChar c)) = true →
      getStr (s ++ ['\x7d']) key = getStr s key :=
    fun key hkey => getStr_open (plain_of_all hkey) s
  simp only [parseOrder, getI64, getU64, hget "order_id".toList rfl, hget "side".toList rfl,
    hget "tif".toList rfl, hget "price".toList rfl, hget "qty".toList rfl]

/-- An order that no book holds in the place of `o`. -/
def Mangled (o x : RestingOrder) : Prop := x.qty = 0 ∨ x.orderId = o.orderId ∧ x.qty ≠ o.qty

/-- Without a part of its quantity, an order's line is read as another order. -/
theorem parseOrder_torn {o : RestingOrder} (hqty : o.qty ≠ 0) {t u : Text}
    (h : t ++ u = orderRecord o) (hu : u ≠ []) (hbrace : u ≠ ['\x7d']) :
    Mangled o (parseOrder t) := by
  obtain ⟨u, c, rfl⟩ := (List.eq_nil_or_concat u).resolve_left hu
  rw [List.concat_eq_append] at h hbrace
  rw [← orderRecordWith_qty, orderRecordWith_split, ← List.append_assoc] at h
  -- the closing brace is missing anyway; the question is whether any digit is there
  obtain ⟨hrest, hc⟩ := List.append_inj' h rfl
  cases hc
  have hne : u ≠ [] := by
    rintro rfl
    exact hbrace rfl
  rcases List.append_eq_append_iff.mp hrest with ⟨a, hfront, _⟩ | ⟨d, rfl, hdigits⟩
  · -- the digits are missing, so the quantity is 0
    refine Or.inl ?_
    have hget : getStr t "qty".toList = [] := by
      rw [getStr]
      cases ht : after (pattern "qty".toList) t with
      | none => rfl
      | some v =>
        have hlonger := after_append ht a
        rw [← hfront, after_uptoQty] at hlonger
        rw [(List.append_eq_nil_iff.mp (Option.some.inj hlonger).symm).1]
        rfl
    show (getU64 t "qty".toList).getD 0 = 0
    rw [getU64, hget]
    rfl
  · -- some digits are there
    have hplain : ∀ c ∈ d, PlainChar c := fun c hc =>
      plain_digits o.qty.toNat c (by rw [hdigits]; exact List.mem_append_left _ hc)
    obtain ⟨hget, hparse⟩ := parseOrder_with o hplain
    rw [orderRecordWith_split] at hget hparse
    rw [parseOrder_open] at hparse
    rw [hparse]
    cases d with
    | nil =>
      refine Or.inl ?_
      show (getU64 _ _).getD 0 = 0
      rw [getU64, hget]
      rfl
    | cons c d =>
      refine Or.inr ⟨rfl, ?_⟩
      show (getU64 _ _).getD 0 ≠ o.qty
      have hisDigit : ∀ x ∈ c :: d, x.isDigit = true := fun x hx =>
        digits_isDigit o.qty.toNat x (by rw [hdigits]; exact List.mem_append_left _ hx)
      have hread := readU64_digits hisDigit 0
      have hlt := ofDigitChars_torn (n := o.qty.toNat) (fun h0 =>
        hqty (UInt64.toNat_inj.mp h0)) hne hdigits
      rw [getU64, hget]
      intro heq
      have hvalue : UInt64.ofNat (Nat.ofDigitChars 10 (c :: d) 0) = o.qty := by
        rw [← heq]
        exact (congrArg (Option.getD · 0) hread).symm
      -- a proper prefix of the digits is a smaller number, so nothing wraps
      have hsmall : Nat.ofDigitChars 10 (c :: d) 0 < 2 ^ 64 := hlt.trans o.qty.toNat_lt
      rw [← hvalue, UInt64.toNat_ofNat_of_lt' hsmall] at hlt
      exact lt_irrefl _ hlt

/-- With nothing missing but the closing brace, an order's line is read as the order. -/
theorem parseOrder_whole {o : RestingOrder} {t u : Text} (h : t ++ u = orderRecord o)
    (hu : u = [] ∨ u = ['\x7d']) :
    parseOrder t = o := by
  rcases hu with rfl | rfl
  · rw [List.append_nil] at h
    rw [h, parseOrder_record]
  · rw [← parseOrder_open, h, parseOrder_record]

/-! ## The whole text -/

/-- The cut between `p` and `r` is in an order's line, behind its tag, and takes away more
than the closing brace and the line break. -/
def cutsOrder (p r : Text) : Bool :=
  has (Journal.lastLine p) "\"rec\":\"order\"".toList && !("\n".toList.isPrefixOf r ||
    "\x7d\n".toList.isPrefixOf r)

/-- Every book of `s` has no room, or no orders where some book was written, or its orders are
the first ones of a book that was written. -/
def Harmless (c : BookConfig) (sbs : List SnapBook) (s : Snap) : Prop :=
  ∀ x ∈ s.books, s.cfg = parseHeader [] ∨
    s.cfg = c ∧ (sbs ≠ [] ∧ x.orders = [] ∨ ∃ sb ∈ sbs, x.symbol = sb.symbol ∧
      x.orders <+: sb.orders)

/-- A part of the lines of some books is some of the books, and a part of the orders of the
next one. -/
theorem cut_books {sbs : List SnapBook} {front back : List Text}
    (h : front ++ back = sbs.flatMap bookRecords) :
    (∃ l l', sbs = l ++ l' ∧ front = l.flatMap bookRecords ∧ back = l'.flatMap bookRecords) ∨
    ∃ l sb l' os o os', sbs = l ++ sb :: l' ∧ sb.orders = os ++ o :: os' ∧
      front = l.flatMap bookRecords ++ bookRecord sb :: os.map orderRecord ∧
      back = orderRecord o :: (os'.map orderRecord ++ l'.flatMap bookRecords) := by
  induction sbs generalizing front with
  | nil =>
    rw [List.flatMap_nil, List.append_eq_nil_iff] at h
    exact Or.inl ⟨[], [], rfl, h.1, h.2⟩
  | cons sb sbs ih =>
    rw [List.flatMap_cons, List.append_eq_append_iff] at h
    rcases h with ⟨a, hbook, hback⟩ | ⟨a, hfront, hrest⟩
    · cases front with
      | nil =>
        exact Or.inl ⟨[], sb :: sbs, rfl,
          rfl, by rw [hback, List.flatMap_cons, hbook, List.nil_append]⟩
      | cons w front =>
        obtain ⟨rfl, horders⟩ := List.cons.inj hbook
        obtain ⟨os, os', hos, rfl, rfl⟩ := List.map_eq_append_iff.mp horders
        cases os' with
        | nil =>
          rw [List.append_nil] at hos
          refine Or.inl ⟨[sb], sbs, rfl, ?_, hback⟩
          rw [List.flatMap_singleton, bookRecords, hos]
        | cons o os' => exact Or.inr ⟨[], sb, sbs, os, o, os', rfl, hos, rfl, hback⟩
    · rcases ih hrest.symm with ⟨l, l', rfl, rfl, hback⟩ | ⟨l, sb', l', os, o, os', rfl, hos, rfl,
        hback⟩
      · exact Or.inl ⟨sb :: l, l', rfl, hfront, hback⟩
      · refine Or.inr ⟨sb :: l, sb', l', os, o, os', rfl, hos, ?_, hback⟩
        rw [hfront, List.flatMap_cons, List.append_assoc]

/-- What the parser has read when the whole lines before a cut end. -/
theorem parse_front {c : BookConfig} {sbs : List SnapBook} {front back : List Text}
    (h : snapshotRecords c sbs = front ++ back) :
    (front = [] ∧ back = snapshotRecords c sbs) ∨
    (∃ l l', sbs = l ++ l' ∧ front.foldl parseLine {} = ⟨c, l⟩ ∧ back = l'.flatMap bookRecords) ∨
    ∃ l sb l' os o os', sbs = l ++ sb :: l' ∧ sb.orders = os ++ o :: os' ∧
      front.foldl parseLine {} = ⟨c, l ++ [{ sb with orders := os }]⟩ ∧
      back = orderRecord o :: (os'.map orderRecord ++ l'.flatMap bookRecords) := by
  cases front with
  | nil => exact Or.inl ⟨rfl, h.symm⟩
  | cons w front =>
    obtain ⟨rfl, hbooks⟩ := List.cons.inj h
    rw [List.foldl_cons, parseLine_header]
    rcases cut_books hbooks.symm with ⟨l, l', hsbs, rfl, hback⟩ | ⟨l, sb, l', os, o, os', hsbs,
      hos, rfl, hback⟩
    · exact Or.inr (Or.inl ⟨l, l', hsbs, parse_books c [] l, hback⟩)
    · refine Or.inr (Or.inr ⟨l, sb, l', os, o, os', hsbs, hos, ?_, hback⟩)
      rw [List.foldl_append, parse_books, List.foldl_cons, parseLine_book, parse_orders]
      rfl

/-- The last line counts as far as it goes. -/
theorem parse_torn {ws : List Text} (h : ∀ w ∈ ws, '\n' ∉ w) {t : Text} (ht : '\n' ∉ t) :
    parse ((ws.flatMap fun w => w ++ ['\n']) ++ t) = parseLine (ws.foldl parseLine {}) t := by
  rw [parse, Journal.lines_torn h ht, List.foldl_append]
  by_cases hnil : t = []
  · rw [if_pos hnil, hnil]
    rfl
  · rw [if_neg hnil]
    rfl

theorem parseLine_nil (s : Snap) : parseLine s [] = s := if_pos rfl

section Cut

variable {c : BookConfig} {sbs : List SnapBook}

theorem harmless_whole {l l' : List SnapBook} (hsbs : sbs = l ++ l') : Harmless c sbs ⟨c, l⟩ := by
  refine fun x hx => Or.inr ⟨rfl, Or.inr ⟨x, ?_, rfl, List.prefix_refl _⟩⟩
  rw [hsbs]
  exact List.mem_append_left _ hx

theorem harmless_part {l l' : List SnapBook} {sb : SnapBook} {os os' : List RestingOrder}
    (hsbs : sbs = l ++ sb :: l') (hos : sb.orders = os ++ os') :
    Harmless c sbs ⟨c, l ++ [{ sb with orders := os }]⟩ := by
  intro x hx
  rcases List.mem_append.mp hx with hx | hx
  · exact harmless_whole hsbs x hx
  · rw [List.mem_singleton.mp hx]
    refine Or.inr ⟨rfl, Or.inr ⟨sb, ?_, rfl, hos ▸ List.prefix_append _ _⟩⟩
    rw [hsbs]
    exact List.mem_append_right _ List.mem_cons_self

/-- A line that lost its tag is read as a header, which takes away the room for any order. -/
theorem harmless_untagged {s : Snap} (hs : Harmless c sbs s) {f : Field} {fs : List Field}
    (hfs : ∀ g ∈ f :: fs, g.Plain)
    (hnone : (f :: fs).all (fun g => decide (g.key ∉ headerKeys)) = true)
    {t : Text} (ht : t <+: recordText f fs)
    (horder : has t "\"rec\":\"order\"".toList = false)
    (hbook : has t "\"rec\":\"book\"".toList = false) :
    Harmless c sbs (parseLine s t) := by
  by_cases hnil : t = []
  · rwa [hnil, parseLine_nil]
  · rw [parseLine_untagged s hnil horder hbook, parseHeader_torn hfs hnone ht]
    exact fun _ _ => Or.inl rfl

/-- A book's line, cut off or not, adds a book without orders, or takes away the room. -/
theorem harmless_bookLine {s : Snap} (hs : Harmless c sbs s) (hcfg : s.cfg = c)
    (hne : sbs ≠ []) (sb : SnapBook) {t : Text} (ht : t <+: bookRecord sb) :
    has t "\"rec\":\"order\"".toList = false ∧ Harmless c sbs (parseLine s t) := by
  have horder : has t "\"rec\":\"order\"".toList = false :=
    has_torn (has_other plain_book plain_order (by decide) (plain_bookFields sb) rfl) ht
  refine ⟨horder, ?_⟩
  by_cases hbook : has t "\"rec\":\"book\"".toList = true
  · have hnil : t ≠ [] := by
      rintro rfl
      cases hbook
    rw [parseLine, if_neg hnil, horder, if_neg Bool.false_ne_true, if_pos hbook]
    intro x hx
    rcases List.mem_append.mp hx with hx | hx
    · exact hs x hx
    · rw [List.mem_singleton.mp hx]
      exact Or.inr ⟨hcfg, Or.inl ⟨hne, rfl⟩⟩
  · exact harmless_untagged hs (plain_tagged "book".toList rfl (plain_bookFields sb)) rfl ht horder
      (Bool.eq_false_iff.mpr hbook)

/-- What is cut off an order's line, when nothing but the closing brace is missing. -/
theorem closing_iff {u : Text} (hu : '\n' ∉ u) (s : Text) :
    ("\n".toList.isPrefixOf (u ++ '\n' :: s) || "\x7d\n".toList.isPrefixOf (u ++ '\n' :: s)) =
      true ↔ u = [] ∨ u = ['\x7d'] := by
  rw [Bool.or_eq_true, List.isPrefixOf_iff_prefix, List.isPrefixOf_iff_prefix]
  have hfirst := word_prefix_iff (k := []) (s := s) List.not_mem_nil hu []
  have hsecond := word_prefix_iff (k := ['\x7d']) (s := s) (by decide) hu []
  rw [show "\n".toList = [] ++ '\n' :: [] from rfl, show "\x7d\n".toList = ['\x7d'] ++ '\n' ::
    [] from rfl, hfirst, hsecond]
  simp [eq_comm]

/-- What is left of an order's line: without the tag it is harmless, with it the order is read
from it, and only a closing brace may be missing. -/
theorem parseLine_cutOrder {l l' : List SnapBook} {sb : SnapBook} {os os' : List RestingOrder}
    {o : RestingOrder} (hsbs : sbs = l ++ sb :: l') (hos : sb.orders = os ++ o :: os')
    (hqty : o.qty ≠ 0) {t u : Text} (hrecord : t ++ u = orderRecord o) :
    (has t "\"rec\":\"order\"".toList = false ∧
      Harmless c sbs (parseLine ⟨c, l ++ [{ sb with orders := os }]⟩ t)) ∨
    has t "\"rec\":\"order\"".toList = true ∧
      ((u = [] ∨ u = ['\x7d']) ∧ Harmless c sbs (parseLine ⟨c, l ++ [{ sb with orders := os }]⟩ t) ∨
      ¬ (u = [] ∨ u = ['\x7d']) ∧ ∃ x, Mangled o x ∧
        parseLine ⟨c, l ++ [{ sb with orders := os }]⟩ t =
          ⟨c, l ++ [{ sb with orders := os ++ [x] }]⟩) := by
  by_cases horder : has t "\"rec\":\"order\"".toList = true
  · refine Or.inr ⟨horder, ?_⟩
    have hnil : t ≠ [] := by
      rintro rfl
      cases horder
    have hadd : parseLine ⟨c, l ++ [{ sb with orders := os }]⟩ t =
        ⟨c, l ++ [{ sb with orders := os ++ [parseOrder t] }]⟩ := by
      rw [parseLine, if_neg hnil, if_pos horder]
      simp [addOrder]
    rw [hadd]
    by_cases hclosed : u = [] ∨ u = ['\x7d']
    · have hmore : sb.orders = os ++ [o] ++ os' := by
        rw [hos, List.append_assoc, List.singleton_append]
      rw [parseOrder_whole hrecord hclosed]
      exact Or.inl ⟨hclosed, harmless_part hsbs hmore⟩
    · have hopen := not_or.mp hclosed
      exact Or.inr ⟨hclosed, parseOrder t, parseOrder_torn hqty hrecord hopen.1 hopen.2, rfl⟩
  · have hprefix : t <+: orderRecord o := ⟨u, hrecord⟩
    have hfields := plain_tagged "order".toList rfl (plain_orderFields o)
    have hbook := has_torn (has_other plain_order plain_book (by decide) (plain_orderFields o) rfl)
      hprefix
    have horder' := Bool.eq_false_iff.mpr horder
    exact Or.inl ⟨horder', harmless_untagged (harmless_part hsbs hos) hfields rfl
      hprefix horder' hbook⟩

/-- A cut behind the tag of an order's line, before the closing brace, mangles the order. Any
other cut is harmless. -/
theorem parse_cut (hqty : ∀ sb ∈ sbs, ∀ o ∈ sb.orders, o.qty ≠ 0) {p r : Text}
    (h : p ++ r = headerLine c ++ (sbs.map bookText).flatten) :
    (cutsOrder p r = false ∧ Harmless c sbs (parse p)) ∨
    cutsOrder p r = true ∧ ∃ l sb l' os o os' x, sbs = l ++ sb :: l' ∧ sb.orders = os ++ o :: os' ∧
    Mangled o x ∧
      parse p = ⟨c, l ++ [{ sb with orders := os ++ [x] }]⟩ := by
  rw [snapshotText_records] at h
  have hplain := newline_snapshotRecords c sbs
  obtain ⟨front, back, t, hrecords, rfl, hcut⟩ := Journal.cut_lines h
  have hfrontPlain : ∀ w ∈ front, '\n' ∉ w :=
    fun w hw => hplain w (by rw [hrecords]; exact List.mem_append_left _ hw)
  have hbackPlain : ∀ w ∈ back, '\n' ∉ w :=
    fun w hw => hplain w (by rw [hrecords]; exact List.mem_append_right _ hw)
  have ht : '\n' ∉ t := by
    rcases hcut with rfl | ⟨u, more, rfl, _⟩
    · exact List.not_mem_nil
    · exact fun hmem => hbackPlain _ List.mem_cons_self (List.mem_append_left _ hmem)
  rw [parse_torn hfrontPlain ht]
  have hlast := Journal.lastLine_torn _ ht (Journal.lines_end front)
  -- a last line without the tag is no cut in an order
  have hsafe : has t "\"rec\":\"order\"".toList = false →
      cutsOrder ((front.flatMap fun w => w ++ ['\n']) ++ t) r = false := by
    intro horder
    rw [cutsOrder, hlast, horder]
    rfl
  have hnone : has [] "\"rec\":\"order\"".toList = false := rfl
  rcases parse_front hrecords with ⟨rfl, hback⟩ | ⟨l, l', hsbs, hstate, hback⟩ |
    ⟨l, sb, l', os, o, os', hsbs, hos, hstate, hback⟩
  · -- in the header: no books yet
    refine Or.inl ?_
    rcases hcut with rfl | ⟨u, more, hline, _⟩
    · exact ⟨hsafe hnone, fun x hx => absurd hx List.not_mem_nil⟩
    · have hheader : headerRecord c = t ++ u := (List.cons.inj (hback.symm.trans hline)).1
      have hprefix : t <+: headerRecord c := ⟨u, hheader.symm⟩
      have horder := has_torn (has_untagged (plain_headerFields c) rfl "order".toList) hprefix
      have hbook := has_torn (has_untagged (plain_headerFields c) rfl "book".toList) hprefix
      refine ⟨hsafe horder, fun x hx => ?_⟩
      by_cases hnil : t = []
      · rw [hnil] at hx
        cases hx
      · rw [parseLine_untagged _ hnil horder hbook] at hx
        cases hx
  · -- between two books, or in a book's line
    refine Or.inl ?_
    rw [hstate]
    have hwhole : Harmless c sbs ⟨c, l⟩ := harmless_whole hsbs
    rcases hcut with rfl | ⟨u, more, hline, _⟩
    · exact ⟨hsafe hnone, hwhole⟩
    · cases l' with
      | nil => cases hback.symm.trans hline
      | cons sb l' =>
        have hbook : bookRecord sb = t ++ u := (List.cons.inj (hback.symm.trans hline)).1
        obtain ⟨horder, hharmless⟩ :=
          harmless_bookLine hwhole rfl (by simp [hsbs]) sb ⟨u, hbook.symm⟩
        exact ⟨hsafe horder, hharmless⟩
  · -- in an order's line
    rw [hstate]
    rcases hcut with rfl | ⟨u, more, hline, rfl⟩
    · exact Or.inl ⟨hsafe hnone, harmless_part hsbs hos⟩
    · have hrecord : t ++ u = orderRecord o := (List.cons.inj (hback.symm.trans hline)).1.symm
      have hu : '\n' ∉ u := fun hmem =>
        hbackPlain (t ++ u) (by rw [hline]; exact List.mem_cons_self) (List.mem_append_right _ hmem)
      have hclosing := closing_iff hu (more.flatMap fun w => w ++ ['\n'])
      have hsb : sb ∈ sbs := by
        rw [hsbs]
        exact List.mem_append_right _ List.mem_cons_self
      have hmem : o ∈ sb.orders := by
        rw [hos]
        exact List.mem_append_right _ List.mem_cons_self
      rcases parseLine_cutOrder hsbs hos (hqty sb hsb o hmem) hrecord with ⟨horder, hharmless⟩ |
        ⟨horder, ⟨hclosed, hharmless⟩ | ⟨hopen, x, hx, hparse⟩⟩
      · exact Or.inl ⟨hsafe horder, hharmless⟩
      · rw [cutsOrder, hlast, horder, Bool.true_and, hclosing.mpr hclosed]
        exact Or.inl ⟨rfl, hharmless⟩
      · rw [cutsOrder, hlast, horder, Bool.true_and, Bool.eq_false_iff.mpr fun heq =>
          hopen (hclosing.mp heq)]
        exact Or.inr ⟨rfl, l, sb, l', os, o, os', x, hsbs, hos, hx, hparse⟩

end Cut

end Snapshot

end Matcher
