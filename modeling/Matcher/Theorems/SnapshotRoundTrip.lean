import Matcher.Logic.SnapshotText
import Matcher.Logic.Hollow

/-!
# Snapshot round trip

A snapshot is parsed as the configuration and the books it was written from. While
locations fit their 32 bits, the engine rebuilt from it writes the same snapshot.
-/

namespace Matcher

namespace Engine

/-- The engines that submits lead to when every book has the default configuration:
books are created by a submit, or before it for a symbol of its own. -/
inductive Reached (cfg : BookConfig) : Engine → Prop
  | start : Reached cfg { defaultCfg := cfg }
  | symbol {e e' : Engine} {s : Symbol} (h : Reached cfg e) (hrun : e.addSymbol s cfg = some e') :
      Reached cfg e'
  | submit {e e' : Engine} {s : Symbol} {c : Command} {out : List Emission} (h : Reached cfg e)
      (hrun : e.submit s c = some (e', out)) : Reached cfg e'

theorem mem_symbols {e : Engine} {s : Symbol} : s ∈ e.symbols ↔ ∃ b, e.book s = some b := by
  rw [symbols, Finset.mem_sort, Finmap.mem_keys, Finmap.mem_iff]
  rfl

theorem nodup_symbols (e : Engine) : e.symbols.Nodup := Finset.sort_nodup _ _

theorem symbols_single {e : Engine} {s : Symbol} {b : OrderBook} (hs : e.book s = some b)
    (hothers : ∀ t, t ≠ s → e.book t = none) : e.symbols = [s] := by
  refine List.perm_singleton.mp
    ((List.perm_ext_iff_of_nodup e.nodup_symbols (List.nodup_singleton s)).mpr fun t => ?_)
  rw [mem_symbols, List.mem_singleton]
  constructor
  · rintro ⟨b', hb'⟩
    by_contra hne
    rw [hothers t hne] at hb'
    cases hb'
  · rintro rfl
    exact ⟨b, hs⟩

theorem symbols_congr {e e' : Engine} (h : ∀ s, s ∈ e'.symbols ↔ s ∈ e.symbols) :
    e'.symbols = e.symbols := by
  have hkeys : e'.books.keys = e.books.keys := by
    ext s
    have hs := h s
    rwa [symbols, symbols, Finset.mem_sort, Finset.mem_sort] at hs
  rw [symbols, symbols, hkeys]

theorem addBook_cfg (e : Engine) (s : Symbol) (b : OrderBook) :
    (e.addBook s b).defaultCfg = e.defaultCfg := by
  rw [addBook]
  split <;> rfl

theorem addBook_ne (e : Engine) {s t : Symbol} (b : OrderBook) (h : t ≠ s) :
    (e.addBook s b).book t = e.book t := by
  rw [addBook]
  split
  · rfl
  · exact Finmap.lookup_insert_of_ne _ h

theorem addBook_new {e : Engine} {s : Symbol} (b : OrderBook) (h : e.book s = none) :
    (e.addBook s b).book s = some b := by
  rw [addBook, if_neg (Finmap.lookup_eq_none.mp h)]
  exact Finmap.lookup_insert _

/-- A book that is there already stays. -/
theorem addBook_some {e : Engine} {s t : Symbol} {b b' : OrderBook}
    (h : (e.addBook s b).book t = some b') :
    e.book t = some b' ∨ t = s ∧ b' = b := by
  by_cases ht : t = s
  · subst ht
    cases hbook : e.book t with
    | none =>
      rw [addBook_new b hbook] at h
      exact Or.inr ⟨rfl, (Option.some.inj h).symm⟩
    | some b1 =>
      have hmem : t ∈ e.books := Finmap.mem_iff.mpr ⟨b1, hbook⟩
      rw [addBook, if_pos hmem] at h
      exact Or.inl (hbook.symm.trans h)
  · rw [addBook_ne e b ht] at h
    exact Or.inl h

/-- Every book of such an engine is reached from an empty one. -/
theorem Reached.books {cfg : BookConfig} {e : Engine} (h : Reached cfg e) :
    e.defaultCfg = cfg ∧ ∀ s b, e.book s = some b → OrderBook.Reaches cfg b := by
  induction h with
  | start => exact ⟨rfl, fun s b hb => by cases hb⟩
  | @symbol e e' s h hrun ih =>
    obtain ⟨b0, hnew, hrun⟩ := Option.bind_eq_some_iff.mp hrun
    cases hrun
    refine ⟨(addBook_cfg _ _ _).trans ih.1, fun t b hb => ?_⟩
    rcases addBook_some hb with hb | ⟨_, rfl⟩
    · exact ih.2 t b hb
    · exact .start hnew
  | @submit e e' s c out h hrun ih =>
    obtain ⟨b0, b1, hbook, happly, hcfg, hafter, hothers⟩ := submit_some hrun
    have hstart : OrderBook.Reaches cfg b0 := by
      rcases hbook with hbook | ⟨_, hnew⟩
      · exact ih.2 s b0 hbook
      · exact .start (ih.1 ▸ hnew)
    refine ⟨hcfg.trans ih.1, fun t b hb => ?_⟩
    by_cases ht : t = s
    · subst ht
      rw [hafter] at hb
      exact Option.some.inj hb ▸ hstart.apply happly
    · rw [hothers t ht] at hb
      exact ih.2 t b hb

/-- `sb` is the engine's book of that symbol: its sequence number and its orders. -/
def Records (e : Engine) (sb : Snapshot.SnapBook) : Prop :=
  ∃ b, e.book sb.symbol = some b ∧ b.seq = sb.seq ∧ b.restingOrders = some sb.orders

end Engine

namespace Snapshot

open Engine

/-! ## Writing -/

theorem writeBook_records {e : Engine} {sb : SnapBook} (h : e.Records sb) :
    (e.book sb.symbol).bind (fun b => writeBook b sb.symbol) = some (bookText sb) := by
  obtain ⟨b, hbook, hseq, horders⟩ := h
  rw [hbook, Option.bind_some, writeBook, horders, hseq]
  rfl

/-- The texts of the books at `ss` are those of their records. -/
theorem writeBooks_iff {e : Engine} {ss : List Symbol} {texts : List Text} :
    ss.mapM (fun s => (e.book s).bind fun b => writeBook b s) = some texts ↔
      ∃ sbs : List SnapBook, sbs.map SnapBook.symbol = ss ∧ (∀ sb ∈ sbs, e.Records sb) ∧
        texts = sbs.map bookText := by
  constructor
  · intro h
    induction ss generalizing texts with
    | nil =>
      cases h
      exact ⟨[], rfl, fun sb hsb => absurd hsb List.not_mem_nil, rfl⟩
    | cons s ss ih =>
      rw [List.mapM_cons] at h
      obtain ⟨text, htext, h⟩ := Option.bind_eq_some_iff.mp h
      obtain ⟨texts', htexts, h⟩ := Option.bind_eq_some_iff.mp h
      cases h
      obtain ⟨b, hbook, hwrite⟩ := Option.bind_eq_some_iff.mp htext
      obtain ⟨os, horders, hwrite⟩ := Option.bind_eq_some_iff.mp hwrite
      cases hwrite
      obtain ⟨sbs, hsymbols, hrecords, rfl⟩ := ih htexts
      refine ⟨⟨s, b.seq, os⟩ :: sbs, congrArg _ hsymbols, ?_, rfl⟩
      exact List.forall_mem_cons.mpr ⟨⟨b, hbook, rfl, horders⟩, hrecords⟩
  · rintro ⟨sbs, rfl, hrecords, rfl⟩
    rw [List.mapM_map]
    exact Kit.mapM_eq_some fun sb hsb => writeBook_records (hrecords sb hsb)

theorem writeEngine_iff {e : Engine} {text : Text} :
    writeEngine e = some text ↔ ∃ sbs : List SnapBook, sbs.map SnapBook.symbol = e.symbols ∧
    (∀ sb ∈ sbs, e.Records sb) ∧
      text = headerLine e.defaultCfg ++ (sbs.map bookText).flatten := by
  have hwrite : writeEngine e = (e.symbols.mapM fun s => (e.book s).bind fun b =>
      writeBook b s).bind fun books =>
      some (headerLine e.defaultCfg ++ books.flatten) := rfl
  rw [hwrite, Option.bind_eq_some_iff]
  constructor
  · rintro ⟨books, hbooks, htext⟩
    obtain ⟨sbs, hsymbols, hrecords, rfl⟩ := writeBooks_iff.mp hbooks
    exact ⟨sbs, hsymbols, hrecords, (Option.some.inj htext).symm⟩
  · rintro ⟨sbs, hsymbols, hrecords, rfl⟩
    exact ⟨_, writeBooks_iff.mpr ⟨sbs, hsymbols, hrecords, rfl⟩, rfl⟩

/-- A snapshot is parsed as what it was written from. -/
theorem parse_writeEngine {e : Engine} {text : Text} (h : writeEngine e = some text) :
    ∃ sbs : List SnapBook, parse text = ⟨e.defaultCfg, sbs⟩ ∧ sbs.map SnapBook.symbol = e.symbols ∧
      ∀ sb ∈ sbs, e.Records sb := by
  obtain ⟨sbs, hsymbols, hrecords, rfl⟩ := writeEngine_iff.mp h
  exact ⟨sbs, parse_written _ _, hsymbols, hrecords⟩

/-! ## Rebuilding -/

/-- Books that can be restored are rebuilt, each under its symbol, with what is known of them. -/
theorem restoreBooks_each {cfg : BookConfig} {sbs : List SnapBook} {P : SnapBook → OrderBook → Prop}
    (e : Engine)
    (hrestore : ∀ sb ∈ sbs, ∃ b, OrderBook.restore cfg sb.seq sb.orders = some b ∧ P sb b)
    (hnodup : (sbs.map SnapBook.symbol).Nodup) (hnew : ∀ sb ∈ sbs, e.book sb.symbol = none) :
    ∃ e', restoreBooks cfg e sbs = some e' ∧ e'.defaultCfg = e.defaultCfg ∧
      (∀ sb ∈ sbs, ∃ b, e'.book sb.symbol = some b ∧ P sb b) ∧ ∀ s, s ∉ sbs.map SnapBook.symbol →
      e'.book s = e.book s := by
  induction sbs generalizing e with
  | nil => exact ⟨e, rfl, rfl, fun sb hsb => absurd hsb List.not_mem_nil, fun _ _ => rfl⟩
  | cons sb sbs ih =>
    obtain ⟨b, hb, hP⟩ := hrestore sb List.mem_cons_self
    rw [List.map_cons, List.nodup_cons] at hnodup
    have hne : ∀ sb' ∈ sbs, sb'.symbol ≠ sb.symbol :=
      fun sb' hsb' heq => hnodup.1 (heq ▸ List.mem_map_of_mem hsb')
    obtain ⟨e', hrun, hcfg, hbooks, hothers⟩ := ih (e.addBook sb.symbol b)
      (fun sb' hsb' => hrestore sb' (List.mem_cons_of_mem _ hsb')) hnodup.2
      fun sb' hsb' => (addBook_ne e b (hne sb' hsb')).trans (hnew sb' (List.mem_cons_of_mem _ hsb'))
    refine ⟨e', ?_, hcfg.trans (addBook_cfg _ _ _), List.forall_mem_cons.mpr ⟨⟨b, ?_, hP⟩, hbooks⟩,
      fun s hs => ?_⟩
    · rw [restoreBooks, hb]
      exact hrun
    · rw [hothers _ hnodup.1]
      exact addBook_new b (hnew sb List.mem_cons_self)
    · rw [List.map_cons, List.mem_cons, not_or] at hs
      rw [hothers s hs.2, addBook_ne e b hs.1]

/-- Books that can be restored are rebuilt, each under its symbol. -/
theorem restoreBooks_spec {cfg : BookConfig} {sbs : List SnapBook} (e : Engine)
    (hrestore : ∀ sb ∈ sbs, ∃ b, OrderBook.restore cfg sb.seq sb.orders = some b ∧ b.seq = sb.seq ∧
      b.restingOrders = some sb.orders)
    (hnodup : (sbs.map SnapBook.symbol).Nodup) (hnew : ∀ sb ∈ sbs, e.book sb.symbol = none) :
    ∃ e', restoreBooks cfg e sbs = some e' ∧ e'.defaultCfg = e.defaultCfg ∧
      (∀ sb ∈ sbs, e'.Records sb) ∧
      ∀ s, s ∉ sbs.map SnapBook.symbol → e'.book s = e.book s :=
  restoreBooks_each (P := fun sb b => b.seq = sb.seq ∧ b.restingOrders = some sb.orders) e
    hrestore hnodup hnew

/-- An engine with records of the same symbols is rebuilt with the same records. -/
theorem restoreEngine_spec {cfg : BookConfig} {sbs : List SnapBook} {e : Engine}
    (hsymbols : sbs.map SnapBook.symbol = e.symbols)
    (hrestore : ∀ sb ∈ sbs, ∃ b, OrderBook.restore cfg sb.seq sb.orders = some b ∧ b.seq = sb.seq ∧
      b.restingOrders = some sb.orders) :
    ∃ e', restoreEngine ⟨cfg, sbs⟩ = some e' ∧ e'.defaultCfg = cfg ∧ e'.symbols = e.symbols ∧
      ∀ sb ∈ sbs, e'.Records sb := by
  obtain ⟨e', hrun, hcfg, hrecords, hothers⟩ := restoreBooks_spec { defaultCfg := cfg } hrestore
    (hsymbols ▸ nodup_symbols e) fun _ _ => rfl
  refine ⟨e', hrun, hcfg, symbols_congr fun s => ?_, hrecords⟩
  rw [← hsymbols, mem_symbols]
  constructor
  · rintro ⟨b, hb⟩
    by_contra hout
    rw [hothers s hout] at hb
    cases hb
  · intro hs
    obtain ⟨sb, hsb, rfl⟩ := List.mem_map.mp hs
    obtain ⟨b, hb, _⟩ := hrecords sb hsb
    exact ⟨b, hb⟩

end Snapshot

/-- A book whose locations fit has an order list, and is restored with the same. -/
theorem OrderBook.Reaches.saved {cfg : BookConfig} (horders : cfg.maxOrders.toNat ≤ 2 ^ 29)
    {b : OrderBook} (h : OrderBook.Reaches cfg b) :
    ∃ os b', b.restingOrders = some os ∧ OrderBook.restore cfg b.seq os = some b' ∧ b'.seq = b.seq ∧
      b'.restingOrders = some os := by
  obtain ⟨C, hrep, hcfg⟩ := h.keeps horders
  obtain ⟨b', C', hrun, hrep', hspec, hseq, _⟩ := hrep.restore
  exact ⟨C.spec.resting, b', hrep.restingOrders_eq, hcfg ▸ hrun, hseq,
    hspec ▸ hrep'.restingOrders_eq⟩

/-- The books of an engine whose locations fit have records, and can be restored from them. -/
theorem Engine.Reached.records {cfg : BookConfig} (horders : cfg.maxOrders.toNat ≤ 2 ^ 29)
    {e : Engine} (h : Engine.Reached cfg e) :
    ∃ sbs : List Snapshot.SnapBook, sbs.map Snapshot.SnapBook.symbol = e.symbols ∧
      (∀ sb ∈ sbs, e.Records sb) ∧
      ∀ sb ∈ sbs, ∃ b, OrderBook.restore cfg sb.seq sb.orders = some b ∧ b.seq = sb.seq ∧
        b.restingOrders = some sb.orders := by
  have hbooks : ∀ s ∈ e.symbols, ∃ b, e.book s = some b := fun s hs => mem_symbols.mp hs
  generalize e.symbols = symbols at hbooks
  induction symbols with
  | nil => exact ⟨[], rfl, List.forall_mem_nil _, List.forall_mem_nil _⟩
  | cons s ss ih =>
    obtain ⟨sbs, hsymbols, hrecords, hrestore⟩ :=
      ih fun t ht => hbooks t (List.mem_cons_of_mem s ht)
    obtain ⟨b, hb⟩ := hbooks s List.mem_cons_self
    obtain ⟨os, b', hos, hrun, hseq, hos'⟩ := (h.books.2 s b hb).saved horders
    exact ⟨⟨s, b.seq, os⟩ :: sbs, congrArg _ hsymbols, List.forall_mem_cons.mpr ⟨⟨b, hb, rfl, hos⟩,
      hrecords⟩, List.forall_mem_cons.mpr ⟨⟨b', hrun, hseq, hos'⟩, hrestore⟩⟩

/-- The text of a snapshot is parsed as the engine's configuration and, in ascending order
of the symbols, every book's sequence number and orders. While locations fit their 32
bits, the text is written, and the engine rebuilt from it writes the same text. -/
theorem snapshot_round_trip {cfg : BookConfig} {e : Engine} (h : Engine.Reached cfg e) :
    (∀ text, Snapshot.writeEngine e = some text →
      (Snapshot.parse text).cfg = cfg ∧
      (Snapshot.parse text).books.map Snapshot.SnapBook.symbol = e.symbols ∧
      ∀ sb ∈ (Snapshot.parse text).books, e.Records sb) ∧
    (cfg.maxOrders.toNat ≤ 2 ^ 29 →
      ∃ text e', Snapshot.writeEngine e = some text ∧
        Snapshot.restoreEngine (Snapshot.parse text) = some e' ∧
        Snapshot.writeEngine e' = some text) := by
  have hcfg := h.books.1
  refine ⟨fun text htext => ?_, fun horders => ?_⟩
  · obtain ⟨sbs, hparse, hsymbols, hrecords⟩ := Snapshot.parse_writeEngine htext
    rw [hparse]
    exact ⟨hcfg, hsymbols, hrecords⟩
  · obtain ⟨sbs, hsymbols, hrecords, hrestore⟩ := h.records horders
    obtain ⟨e', hrun, hcfg', hsymbols', hrecords'⟩ := Snapshot.restoreEngine_spec hsymbols hrestore
    have htext := Snapshot.writeEngine_iff.mpr ⟨sbs, hsymbols, hrecords, rfl⟩
    refine ⟨_, e', htext, ?_, Snapshot.writeEngine_iff.mpr ⟨sbs, hsymbols.trans hsymbols'.symm,
      hrecords', ?_⟩⟩
    · rw [Snapshot.parse_written, hcfg]
      exact hrun
    · rw [hcfg, hcfg']

namespace Engine

/-- Commands for a symbol that has a book run on that book. -/
theorem submitAll_own {e : Engine} {s : Symbol} {b b' : OrderBook} {cs : List Command}
    {out : List Emission} (hbook : e.book s = some b) (hrun : b.applyAll cs = some (b', out)) :
    ∃ e', e.submitAll (cs.map fun c => (s, c)) = some (e', out.map fun x => (s, x)) ∧
      e'.defaultCfg = e.defaultCfg ∧ e'.book s = some b' ∧ ∀ t, t ≠ s → e'.book t = e.book t := by
  induction cs generalizing e b out with
  | nil =>
    cases hrun
    exact ⟨e, rfl, rfl, hbook, fun _ _ => rfl⟩
  | cons c cs ih =>
    obtain ⟨⟨b1, out1⟩, happly, hrun⟩ := Option.bind_eq_some_iff.mp hrun
    obtain ⟨⟨b2, out2⟩, hrun2, hrun⟩ := Option.bind_eq_some_iff.mp hrun
    cases hrun
    obtain ⟨e', hall, hcfg, hown, hothers⟩ := ih (e := { e with books := e.books.insert s b1 })
      (Finmap.lookup_insert _) hrun2
    refine ⟨e', ?_, hcfg, hown, fun t ht => (hothers t ht).trans (Finmap.lookup_insert_of_ne _ ht)⟩
    have hsubmit : e.submit s c = some ({ e with books := e.books.insert s b1 }, out1) := by
      have hfound : e.bookOrCreate s = some (e, b) := by
        rw [bookOrCreate, show e.books.lookup s = some b from hbook]
      rw [submit, hfound, Option.bind_eq_bind, Option.bind_some]
      dsimp only
      rw [happly]
      rfl
    have htagged : e.submitTagged s c = some ({ e with books := e.books.insert s b1 },
        out1.map fun x => (s, x)) := by
      rw [submitTagged, hsubmit]
      rfl
    rw [List.map_cons, submitAll, htagged, Option.bind_eq_bind, Option.bind_some]
    dsimp only
    rw [hall, List.map_append]
    rfl

theorem Reached.submitAll {cfg : BookConfig} {e e' : Engine} {cmds : List (Symbol × Command)}
    {out : List (Symbol × Emission)} (h : Reached cfg e)
    (hrun : e.submitAll cmds = some (e', out)) : Reached cfg e' := by
  induction cmds generalizing e out with
  | nil =>
    cases hrun
    exact h
  | cons x cmds ih =>
    obtain ⟨⟨e1, out1⟩, htagged, hrun⟩ := Option.bind_eq_some_iff.mp hrun
    obtain ⟨⟨e2, out2⟩, hrun2, hrun⟩ := Option.bind_eq_some_iff.mp hrun
    cases hrun
    obtain ⟨⟨e3, out3⟩, hsubmit, hout⟩ := Option.bind_eq_some_iff.mp htagged
    cases hout
    exact ih (h.submit hsubmit) hrun2

end Engine

/-- An engine with an order at symbol 7, and symbol 9 without orders. -/
theorem snapshot_round_trip_small :
    ∃ e, Engine.Reached smallBook e ∧ 7 ∈ e.symbols ∧ 9 ∈ e.symbols ∧
    ∃ text e', Snapshot.writeEngine e = some text ∧
      Snapshot.restoreEngine (Snapshot.parse text) = some e' ∧
      Snapshot.writeEngine e' = some text ∧ (Snapshot.parse text).cfg = smallBook ∧
      (Snapshot.parse text).books.map Snapshot.SnapBook.symbol = e.symbols ∧
      ∀ sb ∈ (Snapshot.parse text).books, e.Records sb := by
  obtain ⟨b0, hnew, hrep, _, hcfg⟩ :=
    OrderBook.new_rep smallBook smallBook_opens.orders smallBook_opens.builds
  obtain ⟨b, C, out, hrun, _⟩ := hrep.applyAll (hcfg ▸ smallBook_fits.narrow) smallRun
  have hadd : ∀ (e : Engine) (s : Symbol), e.addSymbol s smallBook = some (e.addBook s b0) := by
    intro e s
    rw [Engine.addSymbol, hnew]
    rfl
  obtain ⟨e, hall, _, hown, hothers⟩ := Engine.submitAll_own (s := 7)
    (Engine.addBook_new (e := Engine.addBook { defaultCfg := smallBook } 9 b0) b0 rfl) hrun
  have hreached : Engine.Reached smallBook e :=
    ((Engine.Reached.start.symbol (hadd _ 9)).symbol (hadd _ 7)).submitAll hall
  have hnine : e.book 9 = some b0 := by
    rw [hothers 9 (by decide), Engine.addBook_ne _ b0 (by decide)]
    exact Engine.addBook_new b0 rfl
  obtain ⟨hparse, hwrite⟩ := snapshot_round_trip hreached
  obtain ⟨text, e', htext, hrestore, hagain⟩ := hwrite (by decide)
  exact ⟨e, hreached, Engine.mem_symbols.mpr ⟨b, hown⟩, Engine.mem_symbols.mpr ⟨b0, hnine⟩, text,
    e', htext, hrestore, hagain, hparse text htext⟩

/-- With room for more than 2^29 orders a snapshot can list an order that no restored book
lists: the engine rebuilt from it, if any, does not write it again. -/
theorem snapshot_not_rewritten : ∃ e0 e out text,
    Engine.addSymbol { defaultCfg := crowdedBook } 0 crowdedBook = some e0 ∧
    e0.submitAll ((OrderBook.crowd 0 (2 ^ 29 + 1) ++ [Command.cancel (2 ^ 29)]).map fun c =>
      (0, c)) = some (e, out) ∧
    Engine.Reached crowdedBook e ∧ Snapshot.writeEngine e = some text ∧
    ∀ e', Snapshot.restoreEngine (Snapshot.parse text) = some e' →
      Snapshot.writeEngine e' ≠ some text := by
  obtain ⟨b0, b1, C1, out1, hnew, hrun1, h1⟩ := OrderBook.exists_packed
  obtain ⟨b2, C2, out2, hrun2, h2⟩ := h1.cancel
  obtain ⟨os, hos, hlen, o, ho, hqty⟩ := h2.listing
  have hcancel : b1.applyAll [.cancel (2 ^ 29)] = some (b2, out2 ++ []) := by
    simp only [OrderBook.applyAll, hrun2, Option.bind_eq_bind, Option.bind_some]
    rfl
  have hempty : Engine.book { defaultCfg := crowdedBook } 0 = none := rfl
  have hadd : Engine.addSymbol { defaultCfg := crowdedBook } 0 crowdedBook =
      some (Engine.addBook { defaultCfg := crowdedBook } 0 b0) := by
    rw [Engine.addSymbol, hnew]
    rfl
  obtain ⟨e, hrun, hcfg, hown, hothers⟩ := Engine.submitAll_own (Engine.addBook_new b0 hempty)
    (OrderBook.applyAll_append hrun1 hcancel)
  have hreached : Engine.Reached crowdedBook e := (Engine.Reached.start.symbol hadd).submitAll hrun
  have hsymbols : e.symbols = [0] := Engine.symbols_single hown fun t ht =>
    (hothers t ht).trans (Engine.addBook_ne _ b0 ht)
  have htext := Snapshot.writeEngine_iff.mpr ⟨[⟨0, b2.seq, os⟩], hsymbols.symm,
    List.forall_mem_singleton.mpr ⟨b2, hown, rfl, hos⟩, rfl⟩
  refine ⟨_, e, _, _, hadd, hrun, hreached, htext, fun e' hrestore hwrite => ?_⟩
  rw [Snapshot.parse_written] at hrestore
  obtain ⟨sbs, hparse, _, hrecords⟩ := Snapshot.parse_writeEngine hwrite
  rw [Snapshot.parse_written] at hparse
  have hsbs : [⟨0, b2.seq, os⟩] = sbs := congrArg Snapshot.Snap.books hparse
  obtain ⟨b', hb', _, hos'⟩ := hrecords ⟨0, b2.seq, os⟩ (hsbs ▸ List.mem_singleton_self _)
  obtain ⟨b, hb, hdone⟩ := Option.bind_eq_some_iff.mp hrestore
  cases hdone
  rw [Engine.addBook_new b rfl] at hb'
  cases hb'
  exact OrderBook.restored_qty hb hlen hos' o ho hqty

end Matcher
