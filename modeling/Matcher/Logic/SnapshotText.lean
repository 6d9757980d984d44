import Matcher.Logic.JsonFlat
import Matcher.Snapshot

/-!
# Snapshot text

Every line of a snapshot is a record, its first field tells what the line is about, and
the parser puts back together what the lines were written from.
-/

namespace Matcher

open Kit

namespace Snapshot

open JsonFlat

/-! ## Telling the lines apart -/

section Tags

variable {fs : List Field} {tag : Text}

theorem rec_ne_nil : "rec".toList ≠ [] := by decide

theorem rec_plain : ∀ c ∈ "rec".toList, PlainChar c := plain_of_all rfl

/-- The field that says what a line is about. -/
def recField (tag : Text) : Field := ⟨"rec".toList, true, tag⟩

/-- What the parser searches a line for. -/
def recPattern (tag : Text) : Text := pattern "rec".toList ++ '"' :: (tag ++ ['"'])

theorem plain_recField (h : ∀ c ∈ tag, PlainChar c) : (recField tag).Plain :=
  ⟨rec_ne_nil, rec_plain, h⟩

/-- A record that begins with the field is found. -/
theorem has_tag (tag : Text) (fs : List Field) :
    has (recordText (recField tag) fs) (recPattern tag) = true := by
  have htext : recordText (recField tag) fs = ['\x7b'] ++ (recPattern tag ++ restText fs) := by
    simp [recordText, recField, recPattern, pattern, Field.text, Field.valueText]
  rw [has, htext, recPattern, pattern, List.cons_append, after_skip _ (by decide)]
  exact congrArg Option.isSome (after_here _)

/-- A record without a field of the name is not found. -/
theorem has_untagged {f : Field} (hfs : ∀ g ∈ f :: fs, g.Plain)
    (hnone : (f :: fs).all (fun g => decide (g.key ≠ "rec".toList)) = true) (tag : Text) :
    has (recordText f fs) (recPattern tag) = false := by
  have hshort : after (pattern "rec".toList) (recordText f fs) = none :=
    after_missing hfs rec_ne_nil rec_plain fun g hg =>
      of_decide_eq_true (List.all_eq_true.mp hnone g hg)
  rw [has, recPattern, after_longer hshort]
  rfl

/-- A record that begins with another value of the field is not found. -/
theorem has_other {tag' : Text} (htag : ∀ c ∈ tag, PlainChar c) (htag' : ∀ c ∈ tag', PlainChar c)
    (hne : tag' ≠ tag) (hfs : ∀ g ∈ fs, g.Plain)
    (hnone : fs.all (fun g => decide (g.key ≠ "rec".toList)) = true) :
    has (recordText (recField tag) fs) (recPattern tag') = false := by
  have hquote := quote_not_mem rec_plain
  have hdrop : fs.dropWhile (·.key ≠ "rec".toList) = [] :=
    List.dropWhile_eq_nil_iff.mpr (List.all_eq_true.mp hnone)
  have hvalue : after (pattern "rec".toList) ((recField tag).valueText ++ restText fs) = none := by
    rw [after_value (plain_recField htag) rec_ne_nil rec_plain, after_rest hfs rec_ne_nil rec_plain,
      hdrop]
  have htext : recordText (recField tag) fs =
      ['\x7b'] ++ '"' ::
        ("rec".toList ++ '"' :: ([':'] ++ ((recField tag).valueText ++ restText fs))) := by
    simp [recordText, recField, Field.text]
  have hpat : recPattern tag' =
      '"' :: ("rec".toList ++ '"' :: (':' :: '"' :: (tag' ++ ['"']))) := by
    simp [recPattern, pattern]
  rw [has, htext, hpat, after_skip _ (by decide), after_next, after_skip _ hquote, after_next,
    after_skip _ (by decide), ← hpat, recPattern, after_longer hvalue]
  · rfl
  · exact not_prefix_mark (by decide) rec_ne_nil rec_plain _ _
  · rw [word_prefix_iff hquote hquote]
    rintro ⟨_, hprefix⟩
    rw [List.singleton_append, List.cons_prefix_cons, Field.valueText, recField, if_pos rfl,
      List.cons_append, List.cons_prefix_cons, List.append_assoc, List.singleton_append,
      word_prefix_iff (quote_not_mem htag') (quote_not_mem htag)] at hprefix
    exact hne hprefix.2.2.1

end Tags

/-! ## The lines -/

def headerFields (c : BookConfig) : List Field :=
  [⟨"pmin".toList, false, Price.text c.priceMin⟩, ⟨"pmax".toList, false, Price.text c.priceMax⟩,
    ⟨"max_orders".toList, false, digits c.maxOrders.toNat⟩, ⟨"index".toList, true, c.index.text⟩]

def headerRecord (c : BookConfig) : Text :=
  recordText ⟨"format".toList, true, "matcher-snap/1".toList⟩ (headerFields c)

def bookFields (b : SnapBook) : List Field :=
  [⟨"symbol".toList, false, digits b.symbol.toNat⟩, ⟨"seq".toList, false, digits b.seq.toNat⟩]

def bookRecord (b : SnapBook) : Text := recordText (recField "book".toList) (bookFields b)

def orderFields (o : RestingOrder) : List Field :=
  [⟨"order_id".toList, false, digits o.orderId.toNat⟩, ⟨"side".toList, true, o.side.text⟩,
    ⟨"otype".toList, true, "limit".toList⟩, ⟨"tif".toList, true, o.tif.text⟩,
    ⟨"price".toList, false, Price.text o.price⟩, ⟨"qty".toList, false, digits o.qty.toNat⟩]

def orderRecord (o : RestingOrder) : Text := recordText (recField "order".toList) (orderFields o)

theorem headerLine_record (c : BookConfig) : headerLine c = headerRecord c ++ ['\n'] := by
  unfold headerLine headerRecord headerFields
  generalize Price.text c.priceMin = pmin
  generalize Price.text c.priceMax = pmax
  generalize digits c.maxOrders.toNat = orders
  generalize c.index.text = index
  simp [recordText, restText, Field.text, Field.valueText]

theorem bookLine_record (b : SnapBook) : bookLine b.symbol b.seq = bookRecord b ++ ['\n'] := by
  unfold bookLine bookRecord bookFields recField
  generalize digits b.symbol.toNat = symbol
  generalize digits b.seq.toNat = seq
  simp [recordText, restText, Field.text, Field.valueText]

theorem orderLine_record (o : RestingOrder) : orderLine o = orderRecord o ++ ['\n'] := by
  unfold orderLine orderRecord orderFields recField
  generalize digits o.orderId.toNat = id
  generalize o.side.text = side
  generalize o.tif.text = tif
  generalize Price.text o.price = price
  generalize digits o.qty.toNat = qty
  simp [recordText, restText, Field.text, Field.valueText]

theorem plain_headerFields (c : BookConfig) :
    ∀ f ∈ (⟨"format".toList, true, "matcher-snap/1".toList⟩ : Field) :: headerFields c,
      f.Plain := by
  intro f hf
  simp only [headerFields, List.mem_cons, List.not_mem_nil, or_false] at hf
  rcases hf with rfl | rfl | rfl | rfl | rfl
  · exact plain_field _ (by decide) rfl (plain_of_all rfl)
  · exact plain_field _ (by decide) rfl (plain_price _)
  · exact plain_field _ (by decide) rfl (plain_price _)
  · exact plain_field _ (by decide) rfl (plain_digits _)
  · exact plain_field _ (by decide) rfl (plain_index _)

theorem plain_bookFields (b : SnapBook) : ∀ f ∈ bookFields b, f.Plain := by
  intro f hf
  simp only [bookFields, List.mem_cons, List.not_mem_nil, or_false] at hf
  rcases hf with rfl | rfl
  · exact plain_field _ (by decide) rfl (plain_digits _)
  · exact plain_field _ (by decide) rfl (plain_digits _)

theorem plain_orderFields (o : RestingOrder) : ∀ f ∈ orderFields o, f.Plain := by
  intro f hf
  simp only [orderFields, List.mem_cons, List.not_mem_nil, or_false] at hf
  rcases hf with rfl | rfl | rfl | rfl | rfl | rfl
  · exact plain_field _ (by decide) rfl (plain_digits _)
  · exact plain_field _ (by decide) rfl (plain_side _)
  · exact plain_field _ (by decide) rfl (plain_of_all rfl)
  · exact plain_field _ (by decide) rfl (plain_tif _)
  · exact plain_field _ (by decide) rfl (plain_price _)
  · exact plain_field _ (by decide) rfl (plain_digits _)

theorem plain_tagged (tag : Text) (htag : tag.all (fun c => decide (PlainChar c)) = true)
    {fs : List Field} (hfs : ∀ f ∈ fs, f.Plain) : ∀ f ∈ recField tag :: fs, f.Plain :=
  List.forall_mem_cons.mpr ⟨plain_recField (plain_of_all htag), hfs⟩

/-- The header is read back. -/
theorem parseHeader_record (c : BookConfig) : parseHeader (headerRecord c) = c := by
  have hget := @getStr_record _ _ (plain_headerFields c)
  have hmin : getI64 (headerRecord c) "pmin".toList = some c.priceMin :=
    getI64_of ((hget (by decide) (plain_of_all rfl)).trans rfl)
  have hmax : getI64 (headerRecord c) "pmax".toList = some c.priceMax :=
    getI64_of ((hget (by decide) (plain_of_all rfl)).trans rfl)
  have horders : getU64 (headerRecord c) "max_orders".toList = some c.maxOrders :=
    getU64_of ((hget (by decide) (plain_of_all rfl)).trans rfl)
  have hindex : getStr (headerRecord c) "index".toList = c.index.text :=
    (hget (by decide) (plain_of_all rfl)).trans rfl
  rw [parseHeader, hmin, hmax, horders, hindex, indexOf_text]
  rfl

/-- A book's line is read back, with no orders yet. -/
theorem parseBook_record (b : SnapBook) : parseBook (bookRecord b) = { b with orders := [] } := by
  have hget := @getStr_record _ _ (plain_tagged "book".toList rfl (plain_bookFields b))
  have hsymbol : getU64 (bookRecord b) "symbol".toList = some b.symbol.toUInt64 :=
    getU64_of ((hget (by decide) (plain_of_all rfl)).trans rfl)
  have hseq : getU64 (bookRecord b) "seq".toList = some b.seq :=
    getU64_of ((hget (by decide) (plain_of_all rfl)).trans rfl)
  rw [parseBook, hsymbol, hseq, Option.getD_some, UInt32.toUInt32_toUInt64]
  rfl

/-- The record of an order with a quantity of these digits. -/
def orderRecordWith (o : RestingOrder) (qty : Text) : Text :=
  recordText (recField "order".toList) ((orderFields o).dropLast ++ [⟨"qty".toList, false, qty⟩])

theorem orderRecordWith_qty (o : RestingOrder) :
    orderRecordWith o (digits o.qty.toNat) = orderRecord o := rfl

theorem plain_orderFieldsWith (o : RestingOrder) {qty : Text} (hqty : ∀ c ∈ qty, PlainChar c) :
    ∀ f ∈ (orderFields o).dropLast ++ [⟨"qty".toList, false, qty⟩], f.Plain := by
  intro f hf
  rcases List.mem_append.mp hf with hf | hf
  · exact plain_orderFields o f (List.mem_of_mem_dropLast hf)
  · rw [List.mem_singleton.mp hf]
    exact plain_field _ (by decide) rfl hqty

/-- An order's line is read back, with the quantity that its digits denote. -/
theorem parseOrder_with (o : RestingOrder) {qty : Text} (hqty : ∀ c ∈ qty, PlainChar c) :
    getStr (orderRecordWith o qty) "qty".toList = qty ∧ parseOrder (orderRecordWith o qty) =
      { o with qty := (getU64 (orderRecordWith o qty) "qty".toList).getD 0 } := by
  have hget := @getStr_record _ _ (plain_tagged "order".toList rfl (plain_orderFieldsWith o hqty))
  have hid : getU64 (orderRecordWith o qty) "order_id".toList = some o.orderId :=
    getU64_of ((hget (by decide) (plain_of_all rfl)).trans rfl)
  have hside : getStr (orderRecordWith o qty) "side".toList = o.side.text :=
    (hget (by decide) (plain_of_all rfl)).trans rfl
  have htif : getStr (orderRecordWith o qty) "tif".toList = o.tif.text :=
    (hget (by decide) (plain_of_all rfl)).trans rfl
  have hprice : getI64 (orderRecordWith o qty) "price".toList = some o.price :=
    getI64_of ((hget (by decide) (plain_of_all rfl)).trans rfl)
  refine ⟨(hget (by decide) (plain_of_all rfl)).trans rfl, ?_⟩
  rw [parseOrder, hid, hside, htif, hprice, sideOf_text, tifOf_text]
  rfl

/-- An order's line is read back. -/
theorem parseOrder_record (o : RestingOrder) : parseOrder (orderRecord o) = o := by
  obtain ⟨hget, hparse⟩ := parseOrder_with o (plain_digits o.qty.toNat)
  rw [orderRecordWith_qty] at hget hparse
  rw [hparse, getU64_of hget]
  rfl

/-! ## The whole text -/

theorem order_pattern : "\"rec\":\"order\"".toList = recPattern "order".toList := rfl

theorem book_pattern : "\"rec\":\"book\"".toList = recPattern "book".toList := rfl

theorem plain_order : ∀ c ∈ "order".toList, PlainChar c := plain_of_all rfl

theorem plain_book : ∀ c ∈ "book".toList, PlainChar c := plain_of_all rfl

theorem record_ne_nil (f : Field) (fs : List Field) : recordText f fs ≠ [] := List.cons_ne_nil _ _

theorem parseLine_header (s : Snap) (c : BookConfig) :
    parseLine s (headerRecord c) = { s with cfg := c } := by
  have hhas := has_untagged (plain_headerFields c) rfl
  rw [parseLine, if_neg (show headerRecord c ≠ [] from record_ne_nil _ _), order_pattern,
    book_pattern]
  rw [show has (headerRecord c) _ = false from hhas _, if_neg Bool.false_ne_true]
  rw [show has (headerRecord c) _ = false from hhas _, if_neg Bool.false_ne_true,
    parseHeader_record]

theorem parseLine_book (s : Snap) (b : SnapBook) :
    parseLine s (bookRecord b) = { s with books := s.books ++ [{ b with orders := [] }] } := by
  have horder := has_other plain_book plain_order (by decide) (plain_bookFields b) rfl
  rw [parseLine, if_neg (show bookRecord b ≠ [] from record_ne_nil _ _), order_pattern,
    book_pattern]
  rw [show has (bookRecord b) _ = false from horder, if_neg Bool.false_ne_true]
  rw [show has (bookRecord b) _ = true from has_tag _ _, if_pos rfl, parseBook_record]

theorem parseLine_order (cfg : BookConfig) (bs : List SnapBook) (b : SnapBook) (o : RestingOrder) :
    parseLine ⟨cfg, bs ++ [b]⟩ (orderRecord o) =
      ⟨cfg, bs ++ [{ b with orders := b.orders ++ [o] }]⟩ := by
  rw [parseLine, if_neg (show orderRecord o ≠ [] from record_ne_nil _ _), order_pattern,
    book_pattern]
  rw [show has (orderRecord o) _ = true from has_tag _ _, if_pos rfl, parseOrder_record]
  simp [addOrder]

/-- The lines of one book. -/
def bookRecords (b : SnapBook) : List Text := bookRecord b :: b.orders.map orderRecord

theorem parse_orders (cfg : BookConfig) (bs : List SnapBook) (b : SnapBook)
    (os : List RestingOrder) :
    (os.map orderRecord).foldl parseLine ⟨cfg, bs ++ [b]⟩ =
      ⟨cfg, bs ++ [{ b with orders := b.orders ++ os }]⟩ := by
  induction os generalizing b with
  | nil => simp
  | cons o os ih =>
    rw [List.map_cons, List.foldl_cons, parseLine_order, ih]
    simp

theorem parse_books (cfg : BookConfig) (bs sbs : List SnapBook) :
    (sbs.flatMap bookRecords).foldl parseLine ⟨cfg, bs⟩ = ⟨cfg, bs ++ sbs⟩ := by
  induction sbs generalizing bs with
  | nil => simp
  | cons b sbs ih =>
    rw [List.flatMap_cons, List.foldl_append, bookRecords, List.foldl_cons, parseLine_book,
      parse_orders, ih]
    simp

/-- What `writeBook` writes for a book with this symbol, sequence number and orders. -/
def bookText (b : SnapBook) : Text := bookLine b.symbol b.seq ++ b.orders.flatMap orderLine

theorem bookText_records (b : SnapBook) : bookText b = (bookRecords b).flatMap fun w =>
    w ++ ['\n'] := by
  rw [bookText, bookLine_record, bookRecords, List.flatMap_cons, List.flatMap_map,
    show orderLine = fun o => orderRecord o ++ ['\n'] from funext orderLine_record]

theorem newline_bookRecords (b : SnapBook) : ∀ w ∈ bookRecords b, '\n' ∉ w := by
  intro w hw
  rcases List.mem_cons.mp hw with rfl | hw
  · exact newline_not_mem (plain_tagged _ rfl (plain_bookFields b))
  · obtain ⟨o, _, rfl⟩ := List.mem_map.mp hw
    exact newline_not_mem (plain_tagged _ rfl (plain_orderFields o))

/-- The lines of a snapshot. -/
def snapshotRecords (c : BookConfig) (sbs : List SnapBook) : List Text :=
  headerRecord c :: sbs.flatMap bookRecords

theorem snapshotText_records (c : BookConfig) (sbs : List SnapBook) :
    headerLine c ++ (sbs.map bookText).flatten = (snapshotRecords c sbs).flatMap fun w =>
      w ++ ['\n'] := by
  rw [headerLine_record, snapshotRecords, List.flatMap_cons, List.flatMap_assoc, ← List.flatMap_def,
    show bookText = fun b => (bookRecords b).flatMap fun w =>
      w ++ ['\n'] from funext bookText_records]

theorem newline_snapshotRecords (c : BookConfig) (sbs : List SnapBook) :
    ∀ w ∈ snapshotRecords c sbs, '\n' ∉ w := by
  intro w hw
  rcases List.mem_cons.mp hw with rfl | hw
  · exact newline_not_mem (plain_headerFields c)
  · obtain ⟨b, _, hw⟩ := List.mem_flatMap.mp hw
    exact newline_bookRecords b w hw

/-- A snapshot's text is parsed as what it was written from. -/
theorem parse_written (c : BookConfig) (sbs : List SnapBook) :
    parse (headerLine c ++ (sbs.map bookText).flatten) = ⟨c, sbs⟩ := by
  rw [parse, snapshotText_records, Journal.lines_written (newline_snapshotRecords c sbs),
    snapshotRecords, List.foldl_cons, parseLine_header]
  exact parse_books c [] sbs

end Snapshot

end Matcher
