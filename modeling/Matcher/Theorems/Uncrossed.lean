import Matcher.Logic.Robbed
import Matcher.Logic.Runs
import Matcher.Spec.Facts

/-!
# The book is never crossed

An order comes to rest only after the opposite side was matched as far as its
limit reaches, and the sides are sorted, so no bid ever reaches an ask.
-/

namespace Matcher

open Kit

namespace Spec

/-- Every bid is below every ask. -/
def Uncrossed (R : Book) : Prop := ∀ o ∈ R.bids, ∀ o' ∈ R.asks, o.price < o'.price

/-- Seen from either side. -/
theorem uncrossed_iff {R : Book} (s : Side) : Uncrossed R ↔
    ∀ o ∈ R.side s, ∀ o' ∈ R.side (opposite s), admits s (some o.price) o'.price = false := by
  cases s
  · simp only [Uncrossed, Book.side, opposite, admits, decide_eq_false_iff_not, Int64.not_le]
  · simp only [Uncrossed, Book.side, opposite, admits, decide_eq_false_iff_not, Int64.not_le]
    exact ⟨fun h o ho o' ho' => h o' ho' o ho, fun h o ho o' ho' => h o' ho' o ho⟩

/-- Only prices matter. -/
theorem Uncrossed.mono {R R' : Book} (h : Uncrossed R)
    (hsub : ∀ s, ∀ o ∈ R'.side s, ∃ o' ∈ R.side s, o'.price = o.price) : Uncrossed R' := by
  intro o ho o' ho'
  obtain ⟨x, hx, hxp⟩ := hsub .bid o ho
  obtain ⟨y, hy, hyp⟩ := hsub .ask o' ho'
  rw [← hxp, ← hyp]
  exact h x hx y hy

/-- An order may rest where nothing on the other side is within its price. -/
theorem Uncrossed.insert {R : Book} (h : Uncrossed R) {s : Side} {o : Order}
    (hfar : ∀ o' ∈ R.side (opposite s), admits s (some o.price) o'.price = false) :
    Uncrossed (R.set s (insertBack s o (R.side s))) := by
  rw [uncrossed_iff s] at h ⊢
  rw [Book.side_set, Book.side_set_opposite]
  intro x hx
  rcases mem_insertBack.mp hx with rfl | hx
  · exact hfar
  · exact h x hx

section Step

variable {cfg : BookConfig} {available : Side → Price → List Order → Nat} {R : Book}

/-- The book once the opposite side was matched. -/
theorem Uncrossed.fill (h : Uncrossed R) (s : Side) (limit : Option Price)
    (taker : OrderId) (qty : Qty) :
    Uncrossed (R.set (opposite s) (Spec.fill s limit taker (R.side (opposite s)) qty).1) := by
  refine h.mono fun s' o ho => ?_
  rcases side_eq_or s s' with rfl | rfl
  · rw [Book.side_opposite_set] at ho
    exact ⟨o, ho, rfl⟩
  · rw [Book.side_set] at ho
    obtain ⟨o', ho', _, hprice⟩ := fill_sub _ _ o ho
    exact ⟨o', ho', hprice⟩

theorem Uncrossed.remove (h : Uncrossed R) (s : Side) (id : OrderId) :
    Uncrossed (R.remove s id) := by
  refine h.mono fun s' o ho => ?_
  rcases side_eq_or s s' with rfl | rfl
  · rw [Book.side_remove] at ho
    exact ⟨o, List.mem_of_mem_filter ho, rfl⟩
  · rw [Book.side_remove_opposite] at ho
    exact ⟨o, ho, rfl⟩

/-- An order that was matched and rests with what is left. -/
theorem Uncrossed.rest (h : Uncrossed R)
    (hsorted : ∀ s, (R.side s).Pairwise fun o o' => ¬ Better s o'.price o.price)
    {s : Side} {limit : Price} {taker : OrderId} {qty : Qty} {o : Order} (hprice : o.price = limit)
    (hleft : (Spec.fill s (some limit) taker (R.side (opposite s)) qty).2.1 ≠ 0) :
    let R' := R.set (opposite s) (Spec.fill s (some limit) taker (R.side (opposite s)) qty).1
    Uncrossed (R'.set s (insertBack s o (R'.side s))) := by
  refine (h.fill s (some limit) taker qty).insert ?_
  rw [Book.side_set, hprice]
  exact fill_left (hsorted _) hleft

theorem Uncrossed.newOrder (h : Uncrossed R)
    (hsorted : ∀ s, (R.side s).Pairwise fun o o' => ¬ Better s o'.price o.price) (c : Command) :
    Uncrossed (Spec.newOrder cfg available R c).1 := by
  rw [Spec.newOrder]
  split
  · exact h
  generalize hlimit : (if c.otype = .limit then some c.price else none) = limit
  dsimp only
  split
  · exact h.fill _ _ _ _
  next hleft =>
  split
  · next hrest =>
    rw [if_pos hrest.1] at hlimit
    rw [← hlimit] at hleft ⊢
    exact h.rest hsorted rfl hleft
  · exact h.fill _ _ _ _

theorem Uncrossed.replace (h : Uncrossed R)
    (hsorted : ∀ s, (R.side s).Pairwise fun o o' => ¬ Better s o'.price o.price)
    (id : OrderId) (price : Price) (qty : Qty) : Uncrossed (Spec.replace cfg R id price qty).1 := by
  rw [Spec.replace]
  split
  · exact h
  next s o _ =>
  split
  · exact h
  split
  · exact h
  split
  · -- a shrink in place changes no price
    refine h.mono fun s' x hx => ?_
    rcases side_eq_or s s' with rfl | rfl
    · rw [Book.side_set, List.mem_map] at hx
      obtain ⟨y, hy, rfl⟩ := hx
      refine ⟨y, hy, ?_⟩
      split <;> rfl
    · rw [Book.side_set_opposite] at hx
      exact ⟨x, hx, rfl⟩
  have hsorted' : ∀ s', ((R.remove s id).side s').Pairwise fun o o' =>
      ¬ Better s' o'.price o.price := by
    intro s'
    rcases side_eq_or s s' with rfl | rfl
    · rw [Book.side_remove]
      exact (hsorted _).filter _
    · rw [Book.side_remove_opposite]
      exact hsorted _
  dsimp only
  split
  · exact (h.remove s id).fill _ _ _ _
  next hleft => exact (h.remove s id).rest hsorted' rfl hleft

/-- One command keeps the book uncrossed. -/
theorem Uncrossed.step (h : Uncrossed R)
    (hsorted : ∀ s, (R.side s).Pairwise fun o o' => ¬ Better s o'.price o.price) (c : Command) :
    Uncrossed (Spec.step cfg available R c).1 := by
  rw [Spec.step]
  split
  · exact h.newOrder hsorted c
  · rw [Spec.cancel]
    split
    · exact h
    · exact h.remove _ _
  · exact h.replace hsorted _ _ _

end Step

end Spec

namespace OrderBook

/-- One side is empty, or the best bid is below the best ask. -/
def NotCrossed (b : OrderBook) : Prop :=
  b.restingSide .bid = some [] ∨ b.restingSide .ask = some [] ∨
    ∃ p q, b.bestBid = some p ∧ b.bestAsk = some q ∧ p < q

/-- The empty book, or one restored from a reachable book. -/
def Starts (cfg : BookConfig) (b : OrderBook) : Prop :=
  new cfg = some b ∨ ∃ b0 os, Reaches cfg b0 ∧ b0.restingOrders = some os ∧
    restore b0.cfg b0.seq os = some b

section Runs

variable {cfg : BookConfig} {b : OrderBook} {C : Content}

theorem Shows.notCrossed {R : Spec.Book} (h : b.Shows R) (hR : Spec.Uncrossed R) :
    b.NotCrossed := by
  have hbids := h.restingSide .bid
  have hasks := h.restingSide .ask
  rcases R with ⟨_ | ⟨x, xs⟩, asks⟩
  · exact Or.inl hbids
  rcases asks with _ | ⟨y, ys⟩
  · exact Or.inr (Or.inl hasks)
  · exact Or.inr (Or.inr ⟨x.price, y.price, h.bestBid, h.bestAsk,
      hR x List.mem_cons_self y List.mem_cons_self⟩)

/-- A whole run keeps the book uncrossed. -/
theorem Rep.run_uncrossed (h : Rep none none b C) (hn : b.cfg.Narrow) (hC : Spec.Uncrossed C.spec)
    (cs : List Command) :
    ∃ b' C' out, b.applyAll cs = some (b', out) ∧ Rep none none b' C' ∧ b'.cfg = b.cfg ∧
      Spec.Uncrossed C'.spec := by
  induction cs generalizing b C with
  | nil => exact ⟨b, C, [], rfl, h, rfl, hC⟩
  | cons c cs ih =>
    obtain ⟨b1, C1, out1, hrun1, hdone1⟩ := h.apply hn c
    have hcfg := hdone1.cfg
    obtain ⟨b2, C2, out2, hrun2, hrep2, hcfg2, hC2⟩ := ih hdone1.rep (by rwa [hcfg]) (by
      rw [hdone1.spec]
      exact hC.step h.sorted_spec c)
    refine ⟨b2, C2, out1 ++ out2, ?_, hrep2, hcfg2.trans hcfg, hC2⟩
    simp only [OrderBook.applyAll, hrun1, hrun2, Option.bind_eq_bind, Option.bind_some]
    rfl

theorem blank_uncrossed : Spec.Uncrossed blank.spec := fun _ ho => absurd ho List.not_mem_nil

/-- A reachable book represents uncrossed lists. -/
theorem Reaches.rep_uncrossed (hfits : cfg.Fits) (h : Reaches cfg b) :
    ∃ C, Rep none none b C ∧ b.cfg = cfg ∧ Spec.Uncrossed C.spec := by
  obtain ⟨b0, cs, out, hnew, hrun⟩ := h
  obtain ⟨hrep, _, hcfg⟩ := rep_of_new hfits.orders hnew
  obtain ⟨b1, C1, out1, hrun1, hrep1, hcfg1, hC1⟩ :=
    hrep.run_uncrossed (hcfg ▸ hfits.narrow) blank_uncrossed cs
  cases hrun.symm.trans hrun1
  exact ⟨C1, hrep1, hcfg1.trans hcfg, hC1⟩

/-- Where a run may start. -/
theorem Starts.rep (hfits : cfg.Fits) (h : Starts cfg b) :
    ∃ C, Rep none none b C ∧ b.cfg = cfg ∧ Spec.Uncrossed C.spec := by
  rcases h with hnew | ⟨b0, os, hreach, hos, hrestore⟩
  · exact (Reaches.start hnew).rep_uncrossed hfits
  · obtain ⟨C0, hrep0, hcfg0, hC0⟩ := hreach.rep_uncrossed hfits
    obtain ⟨b', C', hrestore', hrep', hspec', _, hcfg'⟩ := hrep0.restore
    have hos' := (hrep0.shows (hcfg0 ▸ hfits.narrow)).restingOrders
    cases hos.symm.trans hos'
    cases hrestore.symm.trans hrestore'
    exact ⟨C', hrep', hcfg'.trans hcfg0, hspec'.symm ▸ hC0⟩

end Runs

end OrderBook

/-- After any run of commands, from the empty book or from a restored one, a side
is empty or the best bid is strictly below the best ask. -/
theorem never_crossed {cfg : BookConfig} (hfits : cfg.Fits) {b0 : OrderBook}
    (h : OrderBook.Starts cfg b0) (cs : List Command) :
    ∃ b out, b0.applyAll cs = some (b, out) ∧ b.NotCrossed := by
  obtain ⟨C, hrep, hcfg, hC⟩ := h.rep hfits
  have hn : b0.cfg.Narrow := hcfg ▸ hfits.narrow
  obtain ⟨b, C', out, hrun, hrep', hcfg', hC'⟩ := hrep.run_uncrossed hn hC cs
  exact ⟨b, out, hrun, (hrep'.shows (by rwa [hcfg'])).notCrossed hC'⟩

theorem never_crossed_small : ∃ b0 b out, OrderBook.Starts smallBook b0 ∧
    b0.applyAll smallQueue = some (b, out) ∧ b.bestBid = some 6 ∧ b.bestAsk = some 7 ∧
    b.NotCrossed := by
  obtain ⟨b0, hnew, hrep, _, hcfg⟩ :=
    OrderBook.new_rep smallBook smallBook_opens.orders smallBook_opens.builds
  have hstarts : OrderBook.Starts smallBook b0 := Or.inl hnew
  obtain ⟨b, out, hrun, hb⟩ := never_crossed smallBook_fits hstarts smallQueue
  obtain ⟨b', C, out', hrun', hdone⟩ := hrep.applyAll (hcfg ▸ smallBook_fits.narrow) smallQueue
  cases hrun.symm.trans hrun'
  have hn : b.cfg.Narrow := hdone.cfg.trans hcfg ▸ smallBook_fits.narrow
  have hshows := hdone.rep.shows hn
  rw [hdone.spec, hcfg, OrderBook.blank_spec] at hshows
  exact ⟨b0, b, out, hstarts, hrun, hshows.bestBid, hshows.bestAsk, hb⟩

/-- With room for more than 2^29 orders a bid and an ask can rest at one price. -/
theorem crossed_when_crowded : ∃ b0 cs b out, OrderBook.Starts crowdedBook b0 ∧
    b0.applyAll cs = some (b, out) ∧ ¬ b.NotCrossed ∧
    b.levelTotal .bid 2 = 1 ∧ b.levelTotal .ask 2 = 1 := by
  obtain ⟨b0, b1, C1, out1, hnew, hrun1, h1⟩ := OrderBook.exists_packed
  obtain ⟨b2, C2, out2, hrun2, h2⟩ := h1.cancel
  obtain ⟨b3, out3, hrun3, hbest, hbids, hasks, htotals⟩ := h2.crossed
  have hcancel : b1.applyAll [.cancel (2 ^ 29)] = some (b2, out2 ++ []) := by
    rw [OrderBook.applyAll, hrun2]
    rfl
  refine ⟨b0, _, b3, _, Or.inl hnew,
    OrderBook.applyAll_append (OrderBook.applyAll_append hrun1 hcancel) hrun3, ?_, htotals⟩
  rintro (hnil | hnil | ⟨p, q, hp, _⟩)
  · exact hbids hnil
  · exact hasks hnil
  · rw [hbest] at hp
    cases hp

end Matcher
