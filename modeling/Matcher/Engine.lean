import Matcher.Book

/-!
# The engine (`include/matcher/engine.hpp`)

One book per symbol. The books live in a hash map whose iteration order nobody may
rely on; here they are a finite map, which has none.
-/

namespace Matcher

structure Engine where
  defaultCfg : BookConfig
  books : Finmap fun _ : Symbol => OrderBook := ∅

namespace Engine

/-- `books_.emplace(sym, b)`: a book that is there already stays. -/
def addBook (e : Engine) (sym : Symbol) (b : OrderBook) : Engine :=
  if sym ∈ e.books then e else { e with books := e.books.insert sym b }

def addSymbol (e : Engine) (sym : Symbol) (cfg : BookConfig) : Option Engine := do
  return e.addBook sym (← OrderBook.new cfg)

def book (e : Engine) (sym : Symbol) : Option OrderBook := e.books.lookup sym

/-- Look up first: a book is constructed only for a new symbol. -/
def bookOrCreate (e : Engine) (sym : Symbol) : Option (Engine × OrderBook) :=
  match e.books.lookup sym with
  | some b => some (e, b)
  | none => do
    let b ← OrderBook.new e.defaultCfg
    return (e.addBook sym b, b)

def submit (e : Engine) (sym : Symbol) (cmd : Command) : Option (Engine × List Emission) := do
  let (e, b) ← e.bookOrCreate sym
  let (b, out) ← b.apply cmd
  return ({ e with books := e.books.insert sym b }, out)

/-- A submit applies the command to the symbol's own book, new if there is none, and leaves
the other books alone. -/
theorem submit_some {e e' : Engine} {s : Symbol} {c : Command} {out : List Emission}
    (h : e.submit s c = some (e', out)) :
    ∃ b b', (e.book s = some b ∨ e.book s = none ∧ OrderBook.new e.defaultCfg = some b) ∧
      b.apply c = some (b', out) ∧
      e'.defaultCfg = e.defaultCfg ∧ e'.book s = some b' ∧ ∀ t, t ≠ s → e'.book t = e.book t := by
  obtain ⟨⟨e0, b⟩, hbook, h⟩ := Option.bind_eq_some_iff.mp h
  obtain ⟨⟨b', out'⟩, happly, h⟩ := Option.bind_eq_some_iff.mp h
  cases h
  refine ⟨b, b', ?_⟩
  rw [bookOrCreate] at hbook
  split at hbook
  · next hfound =>
    cases hbook
    exact ⟨Or.inl hfound, happly, rfl, Finmap.lookup_insert _, fun t ht =>
      Finmap.lookup_insert_of_ne _ ht⟩
  · next hfound =>
    obtain ⟨b0, hnew, hbook⟩ := Option.bind_eq_some_iff.mp hbook
    cases hbook
    rw [addBook, if_neg (Finmap.lookup_eq_none.mp hfound)]
    refine ⟨Or.inr ⟨hfound, hnew⟩, happly, rfl, Finmap.lookup_insert _, fun t ht => ?_⟩
    exact (Finmap.lookup_insert_of_ne _ ht).trans (Finmap.lookup_insert_of_ne _ ht)

/-- `submit` with every event delivered under its symbol. -/
def submitTagged (e : Engine) (sym : Symbol) (cmd : Command) :
    Option (Engine × List (Symbol × Emission)) := do
  let (e, out) ← e.submit sym cmd
  return (e, out.map fun x => (sym, x))

/-- Submit a run of commands, one by one. -/
def submitAll : Engine → List (Symbol × Command) → Option (Engine × List (Symbol × Emission))
  | e, [] => some (e, [])
  | e, (sym, cmd) :: cmds => do
    let (e, out) ← e.submitTagged sym cmd
    let (e, rest) ← e.submitAll cmds
    return (e, out ++ rest)

/-- Live symbols in ascending order. -/
def symbols (e : Engine) : List Symbol := e.books.keys.sort (· ≤ ·)

end Engine

end Matcher
