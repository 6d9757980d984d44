import Mathlib

/-!
# Flat records in text

A flat record is a line of fields `"key":value` or `"key":"value"`, separated by
commas and in braces. A reader that searches for `"key":` and takes what follows finds
the first field of that name, as long as neither keys nor values contain one of the
characters the format is made of.
-/

namespace Kit

/-- What follows the first occurrence of `pat`. -/
def after {α : Type*} [DecidableEq α] (pat : List α) : List α → Option (List α)
  | [] => if pat = [] then some [] else none
  | c :: s => if pat.isPrefixOf (c :: s) then some ((c :: s).drop pat.length) else after pat s

section After

variable {α : Type*} [DecidableEq α] {q : α} {pat : List α}

/-- Text without the first character of the pattern is passed over. -/
theorem after_skip (pre : List α) (hpre : q ∉ pre) (s : List α) :
    after (q :: pat) (pre ++ s) = after (q :: pat) s := by
  induction pre with
  | nil => rfl
  | cons c pre ih =>
    rw [List.mem_cons, not_or] at hpre
    obtain ⟨hne, hpre⟩ := hpre
    rw [List.cons_append, after, if_neg, ih hpre]
    simp [List.isPrefixOf, hne]

theorem after_here (s : List α) : after (q :: pat) (q :: (pat ++ s)) = some s := by
  rw [after, if_pos (by simp)]
  simp

theorem after_next {s : List α} (h : ¬ pat <+: s) :
    after (q :: pat) (q :: s) = after (q :: pat) s := by
  rw [after, if_neg (by simpa using h)]

/-- What is not there is not there with more behind it. -/
theorem after_longer {s : List α} (h : after pat s = none) (v : List α) :
    after (pat ++ v) s = none := by
  induction s with
  | nil =>
    have hne : pat ≠ [] := by
      rintro rfl
      cases h
    exact if_neg fun hnil => hne (List.append_eq_nil_iff.mp hnil).1
  | cons c s ih =>
    rw [after] at h ⊢
    by_cases hpre : pat <+: c :: s
    · rw [if_pos (List.isPrefixOf_iff_prefix.mpr hpre)] at h
      cases h
    · rw [if_neg fun hp => hpre (List.isPrefixOf_iff_prefix.mp hp)] at h
      rw [if_neg fun hp =>
        hpre ((List.prefix_append pat v).trans (List.isPrefixOf_iff_prefix.mp hp)), ih h]

theorem length_after {s r : List α} (h : after pat s = some r) :
    pat.length + r.length ≤ s.length := by
  induction s with
  | nil =>
    rw [after] at h
    split at h
    · next hnil =>
      cases h
      rw [hnil]
      exact le_rfl
    · cases h
  | cons c s ih =>
    rw [after] at h
    split at h
    · next hpre =>
      cases h
      have := (List.isPrefixOf_iff_prefix.mp hpre).length_le
      rw [List.length_drop]
      omega
    · exact (ih h).trans (Nat.le_succ _)

/-- What was found is found with more text behind it. -/
theorem after_append {s r : List α} (h : after pat s = some r) (t : List α) :
    after pat (s ++ t) = some (r ++ t) := by
  have hlen := length_after h
  induction s with
  | nil =>
    have hpat : pat = [] := List.eq_nil_of_length_eq_zero (by rw [List.length_nil] at hlen; omega)
    subst hpat
    cases h
    cases t <;> rfl
  | cons c s ih =>
    rw [after] at h
    rw [List.cons_append, after, ← List.cons_append]
    by_cases hpre : pat <+: c :: s
    · rw [if_pos (List.isPrefixOf_iff_prefix.mpr hpre)] at h
      cases h
      rw [if_pos (List.isPrefixOf_iff_prefix.mpr (hpre.trans (List.prefix_append _ _))),
        List.drop_append_of_le_length hpre.length_le]
    · rw [if_neg fun hp => hpre (List.isPrefixOf_iff_prefix.mp hp)] at h
      -- the pattern is no longer than the shorter text, so more text does not complete it
      rw [if_neg fun hp => hpre (List.prefix_of_prefix_length_le (List.isPrefixOf_iff_prefix.mp hp)
        (List.prefix_append _ _) (by omega))]
      exact ih h (length_after h)

/-- What is not in a text is in no text it begins with. -/
theorem after_prefix {s t : List α} (h : after pat t = none) (hst : s <+: t) :
    after pat s = none := by
  obtain ⟨u, rfl⟩ := hst
  cases hs : after pat s with
  | none => rfl
  | some r => cases h.symm.trans (after_append hs u)

/-- A last character that the pattern does not contain changes nothing. -/
theorem after_snoc {c : α} (hc : c ∉ pat) (s : List α) :
    after pat (s ++ [c]) = (after pat s).map (· ++ [c]) := by
  have hpre : ∀ s, pat <+: s ++ [c] ↔ pat <+: s := by
    intro s
    rw [List.prefix_concat_iff]
    refine or_iff_right ?_
    rintro rfl
    exact hc (List.mem_append_right _ (List.mem_singleton_self c))
  induction s with
  | nil =>
    have hnil : pat <+: [c] ↔ pat = [] := (hpre []).trans List.prefix_nil
    rw [List.nil_append, after, after]
    by_cases hpat : pat = []
    · subst hpat
      rfl
    · rw [if_neg fun hp => hpat (hnil.mp (List.isPrefixOf_iff_prefix.mp hp)), if_neg hpat, after,
        if_neg hpat]
      rfl
  | cons d s ih =>
    have hcons := hpre (d :: s)
    rw [List.cons_append, after, after, ← List.cons_append]
    by_cases hp : pat <+: d :: s
    · rw [if_pos (List.isPrefixOf_iff_prefix.mpr (hcons.mpr hp)),
        if_pos (List.isPrefixOf_iff_prefix.mpr hp), List.drop_append_of_le_length hp.length_le]
      rfl
    · rw [if_neg fun h => hp (hcons.mp (List.isPrefixOf_iff_prefix.mp h)),
        if_neg fun h => hp (List.isPrefixOf_iff_prefix.mp h), ih]

omit [DecidableEq α] in
/-- A word and its end mark are a prefix only of themselves. -/
theorem word_prefix_iff {k w : List α} {s : List α} (hk : q ∉ k) (hw : q ∉ w) (pat : List α) :
    k ++ q :: pat <+: w ++ q :: s ↔ k = w ∧ pat <+: s := by
  induction k generalizing w with
  | nil =>
    cases w with
    | nil => simp
    | cons c w =>
      have hne : q ≠ c := fun heq => hw (heq ▸ List.mem_cons_self)
      simp [List.cons_prefix_cons, hne]
  | cons c k ih =>
    have hne : c ≠ q := fun heq => hk (heq ▸ List.mem_cons_self)
    cases w with
    | nil => simp [List.cons_prefix_cons, hne]
    | cons d w =>
      rw [List.cons_append, List.cons_append, List.cons_prefix_cons,
        ih (fun h => hk (List.mem_cons_of_mem _ h)) (fun h => hw (List.mem_cons_of_mem _ h))]
      simp [and_assoc]

end After

/-! ## Fields -/

structure Field where
  key : List Char
  quoted : Bool
  value : List Char
deriving DecidableEq, Repr

/-- A character the format is not made of. -/
def PlainChar (c : Char) : Prop := c ≠ '"' ∧ c ≠ ':' ∧ c ≠ ',' ∧ c ≠ '\x7d' ∧ c ≠ '\n'

instance (c : Char) : Decidable (PlainChar c) := inferInstanceAs (Decidable (_ ∧ _))

structure Field.Plain (f : Field) : Prop where
  key_ne : f.key ≠ []
  key : ∀ c ∈ f.key, PlainChar c
  value : ∀ c ∈ f.value, PlainChar c

def Field.valueText (f : Field) : List Char :=
  if f.quoted then '"' :: (f.value ++ ['"']) else f.value

def Field.text (f : Field) : List Char := '"' :: (f.key ++ '"' :: ':' :: f.valueText)

/-- The fields after the first, and the closing brace. -/
def restText : List Field → List Char
  | [] => ['\x7d']
  | f :: fs => ',' :: (f.text ++ restText fs)

/-- A record's line. -/
def recordText (f : Field) (fs : List Field) : List Char := '\x7b' :: (f.text ++ restText fs)

/-- The pattern a reader searches for. -/
def pattern (key : List Char) : List Char := '"' :: (key ++ ['"', ':'])

section Fields

variable {f : Field} {fs : List Field} {key : List Char}

theorem quote_not_mem {w : List Char} (hw : ∀ c ∈ w, PlainChar c) : '"' ∉ w :=
  fun h => (hw _ h).1 rfl

/-- A plain word does not begin with a character of the format. -/
theorem not_prefix_mark {c : Char} (hc : ¬ PlainChar c) (hne : key ≠ [])
    (hkey : ∀ c ∈ key, PlainChar c) (pat s : List Char) : ¬ key ++ pat <+: c :: s := by
  cases key with
  | nil => exact absurd rfl hne
  | cons d key =>
    rw [List.cons_append, List.cons_prefix_cons]
    rintro ⟨rfl, _⟩
    exact hc (hkey _ List.mem_cons_self)

theorem restText_cases (fs : List Field) :
    ∃ c s, restText fs = c :: s ∧ (c = ',' ∨ c = '\x7d') := by
  cases fs with
  | nil => exact ⟨_, _, rfl, Or.inr rfl⟩
  | cons f fs => exact ⟨_, _, rfl, Or.inl rfl⟩

theorem restText_append (fs gs : List Field) :
    restText (fs ++ gs) = (fs.flatMap fun f => ',' :: f.text) ++ restText gs := by
  induction fs with
  | nil => rfl
  | cons f fs ih =>
    rw [List.cons_append, restText, ih, List.flatMap_cons, List.cons_append, List.cons_append,
      List.append_assoc]

/-- The value of a field does not match: it is not followed by a colon. -/
theorem after_value (hf : f.Plain) (hne : key ≠ []) (hkey : ∀ c ∈ key, PlainChar c)
    (fs : List Field) :
    after (pattern key) (f.valueText ++ restText fs) = after (pattern key) (restText fs) := by
  have hquote := quote_not_mem hf.value
  obtain ⟨c, s, hrest, hc⟩ := restText_cases fs
  have hmark : ¬ PlainChar c := by
    rintro ⟨_, _, h1, h2, _⟩
    exact hc.elim h1 h2
  have hcolon : ':' ≠ c := by
    rintro rfl
    rcases hc with hc | hc <;> cases hc
  rw [Field.valueText]
  split
  · rw [List.cons_append, List.append_assoc, List.singleton_append, pattern, after_next,
      after_skip _ hquote, after_next]
    · rw [hrest]
      exact not_prefix_mark hmark hne hkey _ _
    · rw [word_prefix_iff (quote_not_mem hkey) hquote, hrest]
      rintro ⟨_, hprefix⟩
      rw [List.cons_prefix_cons] at hprefix
      exact hcolon hprefix.1
  · rw [pattern, after_skip _ hquote]

/-- A reader looks at a field's name: if it is the one, what follows is the value. -/
theorem after_field (hf : f.Plain) (hne : key ≠ []) (hkey : ∀ c ∈ key, PlainChar c)
    (fs : List Field) :
    after (pattern key) (f.text ++ restText fs) =
      if f.key = key then some (f.valueText ++ restText fs)
      else after (pattern key) (restText fs) := by
  have htext : f.text ++ restText fs =
      '"' :: (f.key ++ '"' :: ':' :: (f.valueText ++ restText fs)) := by
    simp [Field.text]
  rw [htext]
  by_cases heq : f.key = key
  · rw [if_pos heq, heq, pattern]
    have hsplit : key ++ '"' :: ':' :: (f.valueText ++ restText fs) =
        (key ++ ['"', ':']) ++ (f.valueText ++ restText fs) := by simp
    rw [hsplit, after_here]
  · rw [if_neg heq, pattern, after_next, after_skip _ (quote_not_mem hf.key), after_next]
    · have hskip : ∀ s, after ('"' :: (key ++ ['"', ':'])) (':' :: s) =
          after ('"' :: (key ++ ['"', ':'])) s := fun s =>
        after_skip [':'] (by decide) s
      rw [hskip]
      exact after_value hf hne hkey fs
    · exact not_prefix_mark (by decide) hne hkey _ _
    · rw [word_prefix_iff (quote_not_mem hkey) (quote_not_mem hf.key)]
      exact fun h => heq h.1.symm

/-- What a reader finds in the fields after the first. -/
theorem after_rest (hfs : ∀ f ∈ fs, f.Plain) (hne : key ≠ []) (hkey : ∀ c ∈ key, PlainChar c) :
    after (pattern key) (restText fs) = match fs.dropWhile (·.key ≠ key) with
      | [] => none
      | f :: fs => some (f.valueText ++ restText fs) := by
  induction fs with
  | nil => rfl
  | cons f fs ih =>
    have hskip : ∀ s, after (pattern key) (',' :: s) = after (pattern key) s := fun s =>
      after_skip [','] (by decide) s
    rw [restText, hskip, after_field (hfs f List.mem_cons_self) hne hkey, List.dropWhile_cons]
    by_cases heq : f.key = key
    · simp [heq]
    · simp only [heq, ne_eq, not_false_eq_true, decide_true, if_true]
      exact ih fun g hg => hfs g (List.mem_cons_of_mem _ hg)

/-- A reader finds the first field of the name, and what follows it. -/
theorem after_record (hfs : ∀ g ∈ f :: fs, g.Plain) (hne : key ≠ [])
    (hkey : ∀ c ∈ key, PlainChar c) :
    after (pattern key) (recordText f fs) = match (f :: fs).dropWhile (·.key ≠ key) with
      | [] => none
      | g :: gs => some (g.valueText ++ restText gs) := by
  have hskip : ∀ s, after (pattern key) ('\x7b' :: s) = after (pattern key) s := fun s =>
    after_skip ['\x7b'] (by decide) s
  have hskip' : ∀ s, after (pattern key) (',' :: s) = after (pattern key) s := fun s =>
    after_skip [','] (by decide) s
  rw [← after_rest hfs hne hkey, recordText, hskip, restText, hskip']

/-- A reader finds no field of a name that no field has. -/
theorem after_missing (hfs : ∀ g ∈ f :: fs, g.Plain) (hne : key ≠ [])
    (hkey : ∀ c ∈ key, PlainChar c) (hnone : ∀ g ∈ f :: fs, g.key ≠ key) :
    after (pattern key) (recordText f fs) = none := by
  have hdrop : (f :: fs).dropWhile (·.key ≠ key) = [] :=
    List.dropWhile_eq_nil_iff.mpr fun g hg => decide_eq_true (hnone g hg)
  rw [after_record hfs hne hkey, hdrop]

/-- A quoted word that is no key and no quoted value is nowhere in the fields. -/
theorem after_word (hfs : ∀ f ∈ fs, f.Plain) {word : List Char} (hne : word ≠ [])
    (hword : ∀ c ∈ word, PlainChar c)
    (hnone : ∀ f ∈ fs, f.key ≠ word ∧ (f.quoted = true → f.value ≠ word)) :
    after ('"' :: (word ++ ['"'])) (restText fs) = none := by
  induction fs with
  | nil => rfl
  | cons f fs ih =>
    have hf := hfs f List.mem_cons_self
    obtain ⟨hkey, hvalue⟩ := hnone f List.mem_cons_self
    have hih := ih (fun g hg => hfs g (List.mem_cons_of_mem f hg)) fun g hg =>
      hnone g (List.mem_cons_of_mem f hg)
    have hquote := quote_not_mem hword
    have hskip : ∀ c : Char, '"' ∉ [c] → ∀ s, after ('"' :: (word ++ ['"'])) (c :: s) =
        after ('"' :: (word ++ ['"'])) s :=
      fun c hc s => after_skip [c] hc s
    have htext : restText (f :: fs) = ',' :: '"' ::
        (f.key ++ '"' :: ':' :: (f.valueText ++ restText fs)) := by
      simp [restText, Field.text]
    rw [htext, hskip ',' (by decide), after_next, after_skip _ (quote_not_mem hf.key), after_next,
      hskip ':' (by decide)]
    · rw [Field.valueText]
      split
      · next hq =>
        obtain ⟨c, s, hrest, hc⟩ := restText_cases fs
        have hmark : ¬ PlainChar c := fun h => hc.elim h.2.2.1 h.2.2.2.1
        rw [List.cons_append, List.append_assoc, List.singleton_append, after_next,
          after_skip _ (quote_not_mem hf.value), after_next, hih]
        · rw [hrest]
          exact not_prefix_mark hmark hne hword _ _
        · rw [word_prefix_iff hquote (quote_not_mem hf.value)]
          exact fun h => hvalue hq h.1.symm
      · rw [after_skip _ (quote_not_mem hf.value), hih]
    · exact not_prefix_mark (by decide) hne hword _ _
    · rw [word_prefix_iff hquote (quote_not_mem hf.key)]
      exact fun h => hkey h.1.symm

/-- Such a word is not in the record. -/
theorem word_missing (hfs : ∀ g ∈ f :: fs, g.Plain) {word : List Char} (hne : word ≠ [])
    (hword : ∀ c ∈ word, PlainChar c)
    (hnone : ∀ g ∈ f :: fs, g.key ≠ word ∧ (g.quoted = true → g.value ≠ word)) :
    after ('"' :: (word ++ ['"'])) (recordText f fs) = none := by
  have hskip : ∀ s, after ('"' :: (word ++ ['"'])) ('\x7b' :: s) =
      after ('"' :: (word ++ ['"'])) s := fun s =>
    after_skip ['\x7b'] (by decide) s
  have hskip' : ∀ s, after ('"' :: (word ++ ['"'])) (',' :: s) = after ('"' :: (word ++ ['"'])) s :=
    fun s =>
    after_skip [','] (by decide) s
  have h := after_word hfs hne hword hnone
  rw [restText, hskip'] at h
  rw [recordText, hskip, h]

/-- Two plain words that are followed by a mark of the format end at the same place. -/
theorem plain_word_inj {w v s t : List Char} {a b : Char} (hw : ∀ c ∈ w, PlainChar c)
    (hv : ∀ c ∈ v, PlainChar c) (ha : ¬ PlainChar a) (hb : ¬ PlainChar b)
    (h : w ++ a :: s = v ++ b :: t) : w = v ∧ a = b ∧ s = t := by
  induction w generalizing v with
  | nil =>
    cases v with
    | nil => exact ⟨rfl, List.cons.inj h⟩
    | cons d v => exact absurd (hv a (by rw [(List.cons.inj h).1]; exact List.mem_cons_self)) ha
  | cons c w ih =>
    cases v with
    | nil => exact absurd (hw b (by rw [← (List.cons.inj h).1]; exact List.mem_cons_self)) hb
    | cons d v =>
      obtain ⟨rfl, htail⟩ := List.cons.inj h
      obtain ⟨rfl, hrest⟩ := ih (fun x hx => hw x (List.mem_cons_of_mem _ hx))
        (fun x hx => hv x (List.mem_cons_of_mem _ hx)) htail
      exact ⟨rfl, hrest⟩

/-- The text of a value tells the value, and whether it was quoted. -/
theorem valueText_inj {g : Field} {gs : List Field} (hf : f.Plain) (hg : g.Plain)
    (h : f.valueText ++ restText fs = g.valueText ++ restText gs) :
    f.quoted = g.quoted ∧ f.value = g.value ∧ restText fs = restText gs := by
  obtain ⟨c, s, hrest, hc⟩ := restText_cases fs
  obtain ⟨d, t, hrest', hd⟩ := restText_cases gs
  have hmark : ∀ a : Char, a = ',' ∨ a = '\x7d' → ¬ PlainChar a := by
    rintro a (rfl | rfl)
    · decide
    · decide
  have hquote : ¬ PlainChar '"' := by decide
  rw [Field.valueText, Field.valueText, hrest, hrest'] at h
  rw [hrest, hrest']
  cases hqf : f.quoted <;> cases hqg : g.quoted <;>
    simp only [hqf, hqg, if_true, Bool.false_eq_true, if_false, List.cons_append, List.append_assoc,
      List.nil_append] at h
  · obtain ⟨hval, rfl, rfl⟩ := plain_word_inj hf.value hg.value (hmark c hc) (hmark d hd) h
    exact ⟨rfl, hval, rfl⟩
  · obtain ⟨_, rfl, _⟩ :=
      plain_word_inj (v := []) hf.value (List.forall_mem_nil _) (hmark c hc) hquote h
    rcases hc with hc | hc <;> cases hc
  · obtain ⟨_, rfl, _⟩ :=
      plain_word_inj (w := []) (List.forall_mem_nil _) hg.value hquote (hmark d hd) h
    rcases hd with hd | hd <;> cases hd
  · obtain ⟨hval, _, hst⟩ := plain_word_inj hf.value hg.value hquote hquote (List.cons.inj h).2
    exact ⟨rfl, hval, hst⟩

/-- The text of a field tells the field. -/
theorem text_inj {g : Field} {gs : List Field} (hf : f.Plain) (hg : g.Plain)
    (h : f.text ++ restText fs = g.text ++ restText gs) : f = g ∧ restText fs = restText gs := by
  have hquote : ¬ PlainChar '"' := by decide
  simp only [Field.text, List.cons_append, List.append_assoc] at h
  obtain ⟨hkey, _, h⟩ := plain_word_inj hf.key hg.key hquote hquote (List.cons.inj h).2
  obtain ⟨hq, hvalue, hrest⟩ := valueText_inj hf hg (List.cons.inj h).2
  refine ⟨?_, hrest⟩
  cases f
  cases g
  simp_all

theorem restText_inj {gs : List Field} (hfs : ∀ f ∈ fs, f.Plain) (hgs : ∀ g ∈ gs, g.Plain)
    (h : restText fs = restText gs) : fs = gs := by
  induction fs generalizing gs with
  | nil =>
    cases gs with
    | nil => rfl
    | cons g gs => cases (List.cons.inj h).1
  | cons f fs ih =>
    cases gs with
    | nil => cases (List.cons.inj h).1
    | cons g gs =>
      obtain ⟨rfl, hrest⟩ :=
        text_inj (hfs f List.mem_cons_self) (hgs g List.mem_cons_self) (List.cons.inj h).2
      rw [ih (fun x hx => hfs x (List.mem_cons_of_mem _ hx)) (fun x hx =>
        hgs x (List.mem_cons_of_mem _ hx)) hrest]

/-- A record's line tells its fields. -/
theorem recordText_inj {g : Field} {gs : List Field} (hfs : ∀ x ∈ f :: fs, x.Plain)
    (hgs : ∀ x ∈ g :: gs, x.Plain) (h : recordText f fs = recordText g gs) : f :: fs = g :: gs :=
  restText_inj hfs hgs (congrArg (List.cons ',') (List.cons.inj h).2)

/-- A record's line has no line break. -/
theorem newline_not_mem (hfs : ∀ g ∈ f :: fs, g.Plain) : '\n' ∉ recordText f fs := by
  have hfield : ∀ g : Field, g.Plain → '\n' ∉ g.text := by
    intro g hg h
    have hkey : '\n' ∉ g.key := fun h => (hg.key _ h).2.2.2.2 rfl
    have hvalue : '\n' ∉ g.value := fun h => (hg.value _ h).2.2.2.2 rfl
    rw [Field.text, Field.valueText] at h
    split at h <;> simp [hkey, hvalue] at h
  have hrest : ∀ gs : List Field, (∀ g ∈ gs, g.Plain) → '\n' ∉ restText gs := by
    intro gs hgs
    induction gs with
    | nil => decide
    | cons g gs ih =>
      have h1 := hfield g (hgs g List.mem_cons_self)
      have h2 := ih fun g' hg' => hgs g' (List.mem_cons_of_mem _ hg')
      simp [restText, h1, h2]
  have h1 := hfield f (hfs f List.mem_cons_self)
  have h2 := hrest fs fun g hg => hfs g (List.mem_cons_of_mem _ hg)
  simp [recordText, h1, h2]

end Fields

end Kit
