import Zark.BootRewrite

/-!
# The boot rewrites touch only their lines

A change within lines leaves the text's lines where they were, so each rewrite is read line by line.
Behind and before a UUID put in stands no character of one, so what the line names afterwards it
named before, at a place the search left: none. The swap's line is the exception, for its second
field may be found in its first.
-/

namespace Zark.BootRewrite

open Text

/-! ### Characters -/

theorem toNat_toLower (c : Char) : c.toLower.toNat = c.toNat + 32 ∧ 65 ≤ c.toNat ∧ c.toNat ≤ 90 ∨
    c.toLower.toNat = c.toNat := by
  unfold Char.toLower
  split
  · rename_i hc
    have hhi : c.val.toNat ≤ 90 := hc.2
    have hval : c.toNat = c.val.toNat := rfl
    have hstep : ('a'.val - 'A'.val).toNat = 32 := rfl
    refine .inl ⟨?_, hc.1, hc.2⟩
    show (c.val + _).toNat = _
    rw [UInt32.toNat_add, hstep]
    omega
  · exact .inr rfl

theorem toNat_of_isUuidChar {c : Char} (h : isUuidChar c = true) :
    c.toNat = 45 ∨ 48 ≤ c.toNat ∧ c.toNat ≤ 57 ∨ 65 ≤ c.toNat ∧ c.toNat ≤ 70 ∨ 97 ≤ c.toNat ∧
    c.toNat ≤ 102 := by
  have hlower := toNat_toLower c
  simp only [isUuidChar, Bool.or_eq_true, decide_eq_true_eq, Char.isDigit, Bool.and_eq_true,
    beq_iff_eq] at h
  rcases h with (⟨hlo, hhi⟩ | ⟨hlo, hhi⟩) | heq
  · have hlo : 48 ≤ c.toLower.toNat := hlo
    have hhi : c.toLower.toNat ≤ 57 := hhi
    omega
  · have hlo : 97 ≤ c.toLower.toNat := hlo
    have hhi : c.toLower.toNat ≤ 102 := hhi
    omega
  · have hdash : c.toLower.toNat = 45 := by
      rw [heq]
      rfl
    omega

theorem isBreak_of_isUuidChar {c : Char} (h : isUuidChar c = true) : isBreak c = false := by
  have hrange := toNat_of_isUuidChar h
  simp only [isBreak, List.mem_cons, List.not_mem_nil, or_false, decide_eq_false_iff_not]
  omega

theorem isSpace_of_isUuidChar {c : Char} (h : isUuidChar c = true) : isSpace c = false := by
  have hrange := toNat_of_isUuidChar h
  simp only [isSpace, List.mem_cons, List.not_mem_nil, or_false, decide_eq_false_iff_not]
  omega

theorem isSpace_of_isBreak {c : Char} (h : isBreak c = true) : isSpace c = true := by
  simp only [isBreak, List.mem_cons, List.not_mem_nil, or_false, decide_eq_true_eq] at h
  simp only [isSpace, List.mem_cons, List.not_mem_nil, or_false, decide_eq_true_eq]
  omega

/-! ### UUIDs -/

/-- A text is a UUID, but for case. -/
def Same (uuid occurrence : List Char) : Prop := lower occurrence = lower uuid

theorem lower_length (l : List Char) : (lower l).length = l.length := List.length_map _

theorem Same.length {a b : List Char} (h : Same a b) : b.length = a.length := by
  rw [← lower_length b, h, lower_length]

theorem isUuidChar_iff_lower {c d : Char} (h : c.toLower = d.toLower) :
    isUuidChar c = isUuidChar d := by rw [isUuidChar, isUuidChar, h]

structure IsUuid (l : List Char) : Prop where
  length : l.length = 36
  chars : ∀ c ∈ l, isUuidChar c = true

theorem isUuid_spec {l : List Char} (h : isUuid l = true) : IsUuid l := by
  simp only [isUuid, Bool.and_eq_true, decide_eq_true_eq, List.all_eq_true] at h
  obtain ⟨hparts, hchars⟩ := h
  refine ⟨?_, hchars⟩
  have htext : ['-'].intercalate (l.splitOn '-') = l := List.intercalate_splitOn '-'
  rw [← htext]
  generalize l.splitOn '-' = parts at hparts ⊢
  obtain ⟨a, parts, rfl, ha, hparts⟩ := List.map_eq_cons_iff.mp hparts
  obtain ⟨b, parts, rfl, hb, hparts⟩ := List.map_eq_cons_iff.mp hparts
  obtain ⟨c, parts, rfl, hc, hparts⟩ := List.map_eq_cons_iff.mp hparts
  obtain ⟨d, parts, rfl, hd, hparts⟩ := List.map_eq_cons_iff.mp hparts
  obtain ⟨e, parts, rfl, he, hparts⟩ := List.map_eq_cons_iff.mp hparts
  obtain rfl := List.map_eq_nil_iff.mp hparts
  simp [List.intercalate_cons_cons, ha, hb, hc, hd, he]

theorem IsUuid.ne_nil {l : List Char} (h : IsUuid l) : l ≠ [] := by
  intro hnil
  have hlength := h.length
  rw [hnil] at hlength
  cases hlength

theorem Same.isUuid {a b : List Char} (h : Same a b) (ha : IsUuid a) : IsUuid b where
  length := h.length.trans ha.length
  chars := by
    intro c hc
    have hmem : c.toLower ∈ lower a := h ▸ List.mem_map_of_mem hc
    obtain ⟨d, hd, heq⟩ := List.mem_map.mp hmem
    rw [isUuidChar_iff_lower heq.symm]
    exact ha.chars d hd

theorem lower_prefix_iff {old l : List Char} :
    lower old <+: lower l ↔ ∃ occurrence rest, l = occurrence ++ rest ∧ Same old occurrence := by
  constructor
  · rintro ⟨more, hmore⟩
    refine ⟨l.take old.length, l.drop old.length, (List.take_append_drop _ _).symm, ?_⟩
    rw [Same, lower, List.map_take, ← lower, ← hmore, ← lower_length old, List.take_left]
  · rintro ⟨occurrence, rest, rfl, hsame⟩
    exact ⟨lower rest, by rw [← hsame, lower, lower, lower, List.map_append]⟩

theorem names_iff {old l : List Char} : names old l = true ↔
    ∃ before occurrence rest, l = before ++ occurrence ++ rest ∧ Same old occurrence := by
  rw [names, decide_eq_true_iff]
  constructor
  · rintro ⟨s, t, heq⟩
    have hdrop : lower old <+: lower (l.drop s.length) := by
      rw [lower, lower, List.map_drop, ← lower, ← lower, ← heq, List.append_assoc, List.drop_left]
      exact List.prefix_append _ _
    obtain ⟨occurrence, rest, hrest, hsame⟩ := lower_prefix_iff.mp hdrop
    exact ⟨l.take s.length, occurrence,
      rest, by rw [List.append_assoc, ← hrest, List.take_append_drop], hsame⟩
  · rintro ⟨before, occurrence, rest, rfl, hsame⟩
    exact ⟨lower before, lower rest, by rw [← hsame]; simp [lower]⟩

/-! ### Finding them -/

variable {old new : List Char}

theorem literal_eq_some {prev : Option Char} {l : List Char} {n : ℕ}
    (h : literal old prev l = some n) :
    ∃ occurrence rest, l = occurrence ++ rest ∧ Same old occurrence ∧ n = old.length := by
  unfold literal at h
  split at h
  · rename_i hprefix
    obtain ⟨occurrence, rest, heq, hsame⟩ := lower_prefix_iff.mp hprefix
    exact ⟨occurrence, rest, heq, hsame, (Option.some.inj h).symm⟩
  · cases h

theorem literal_of_same (prev : Option Char) {occurrence : List Char} (h : Same old occurrence)
    (rest : List Char) :
    literal old prev (occurrence ++ rest) = some occurrence.length := by
  rw [literal, if_pos (lower_prefix_iff.mpr ⟨occurrence, rest, rfl, h⟩), h.length]

theorem literal_eq_none {prev : Option Char} {l : List Char} : literal old prev l = none ↔
    ∀ occurrence rest, l = occurrence ++ rest → ¬ Same old occurrence := by
  rw [literal, ite_eq_right_iff]
  simp only [reduceCtorEq, imp_false, lower_prefix_iff, not_exists, not_and]

theorem proper_literal (h : old ≠ []) : Scan.Proper (literal old) where
  pos := by
    intro prev l n hfound
    obtain ⟨occurrence, rest, heq, hsame, hn⟩ := literal_eq_some hfound
    rw [hn]
    exact List.length_pos_iff.mpr h
  le := by
    intro prev l n hfound
    obtain ⟨occurrence, rest, heq, hsame, hn⟩ := literal_eq_some hfound
    rw [hn, heq, List.length_append, hsame.length]
    exact Nat.le_add_right _ _

theorem same_of_found {prev : Option Char} {w rest : List Char}
    (h : literal old prev (w ++ rest) = some w.length) : Same old w := by
  obtain ⟨occurrence, rest', heq, hsame, hn⟩ := literal_eq_some h
  obtain ⟨rfl, -⟩ := List.append_inj heq (hn.trans hsame.length.symm)
  exact hsame

theorem replaceAll_of_none (hold : old ≠ []) {c : Char} {rest : List Char}
    (h : literal old none (c :: rest) = none) :
    replaceAll old new (c :: rest) = c :: replaceAll old new rest := by
  rw [replaceAll, Scan.sub_of_none h,
    Scan.sub_prev (proper_literal hold) (fun _ _ _ => rfl) (some c) none]
  rfl

theorem replaceAll_of_same (hold : old ≠ []) {occurrence : List Char} (h : Same old occurrence)
    (rest : List Char) :
    replaceAll old new (occurrence ++ rest) = new ++ replaceAll old new rest := by
  rw [replaceAll, Scan.sub_of_some (proper_literal hold) (literal_of_same none h rest),
    Scan.sub_prev (proper_literal hold) (fun _ _ _ => rfl) occurrence.getLast? none]
  rfl

theorem replaceAll_nil : replaceAll old new [] = [] := Scan.sub_nil _ _ _

/-- A replacement by its steps: nothing left, an occurrence, or a character where none begins. -/
theorem replace_induction (hold : old ≠ []) {P : List Char → Prop} (nil : P [])
    (occurrence : ∀ occurrence rest, Same old occurrence → P rest → P (occurrence ++ rest))
    (kept : ∀ c rest, literal old none (c :: rest) = none → P rest → P (c :: rest))
    (l : List Char) : P l :=
  Scan.scan_induction (proper_literal hold) (P := fun _ l => P l) (fun _ => nil)
    (fun _ w rest _ hfound hrest => occurrence w rest (same_of_found hfound) hrest)
    (fun _ c rest hnone hrest => kept c rest hnone hrest) none l

/-! ### Replacing them -/

/-- A line and what it becomes: each occurrence from the left is the new UUID. -/
inductive Replaced (old new : List Char) : List Char → List Char → Prop
  | same {line : List Char} (hnone : names old line = false) : Replaced old new line line
  | occurrence {before occurrence rest rest' : List Char} (hfirst : ∀ p q, before = p ++ q →
      q ≠ [] → ¬ lower old <+: lower (q ++ occurrence ++ rest))
      (hsame : Same old occurrence) (hrest : Replaced old new rest rest') :
      Replaced old new (before ++ occurrence ++ rest) (before ++ new ++ rest')

theorem replaced_replaceAll (hold : old ≠ []) (line : List Char) :
    Replaced old new line (replaceAll old new line) := by
  induction line using replace_induction hold with
  | nil =>
      rw [replaceAll_nil]
      refine .same (Bool.eq_false_iff.mpr fun hnames => ?_)
      obtain ⟨before, occurrence, rest, heq, hsame⟩ := names_iff.mp hnames
      have hlength := hsame.length
      simp only [List.nil_eq, List.append_eq_nil_iff] at heq
      rw [heq.1.2] at hlength
      exact hold (List.length_eq_zero_iff.mp hlength.symm)
  | occurrence occurrence rest hsame ih =>
      rw [replaceAll_of_same hold hsame]
      exact @Replaced.occurrence old new [] occurrence rest _ (fun p q heq hq =>
        absurd (by simpa using heq.symm : p = [] ∧ q = []).2 hq) hsame ih
  | kept c rest hnone ih =>
      have hkept : ¬ lower old <+: lower (c :: rest) :=
        fun hprefix => by simp [literal, hprefix] at hnone
      rw [replaceAll_of_none hold hnone]
      revert ih
      generalize replaceAll old new rest = out
      intro ih
      cases ih with
      | same h =>
          refine .same (Bool.eq_false_iff.mpr fun hnames => ?_)
          rw [names, decide_eq_true_iff, lower, lower, List.map_cons, List.infix_cons_iff] at hnames
          rw [names, decide_eq_false_iff_not] at h
          exact hnames.elim hkept h
      | @occurrence before occurrence tail tail' hfirst hsame hrest =>
          refine @Replaced.occurrence old new (c :: before) occurrence tail tail'
            (fun p q heq hq => ?_) hsame hrest
          cases p with
          | nil =>
              rw [List.nil_append] at heq
              rw [← heq]
              exact hkept
          | cons d p =>
              obtain ⟨-, heq⟩ := List.cons.inj heq
              exact hfirst p q heq hq

/-- Each occurrence stands between characters of no UUID. -/
def Delimited (old text : List Char) : Prop :=
  ∀ before occurrence after, text = before ++ occurrence ++ after → Same old occurrence →
    (∀ c ∈ before.getLast?, isUuidChar c = false) ∧ ∀ c ∈ after.head?, isUuidChar c = false

theorem delimited_iff {old text : List Char} :
    Delimited old text ↔ ∀ n ∈ List.range (text.length + 1), lower old <+: lower (text.drop n) →
    (∀ c ∈ (text.take n).getLast?, isUuidChar c = false) ∧ ∀ c ∈ (text.drop (n + old.length)).head?,
    isUuidChar c = false := by
  constructor
  · intro h n _ hprefix
    obtain ⟨occurrence, rest, heq, hsame⟩ := lower_prefix_iff.mp hprefix
    have hat :=
      h (text.take n) occurrence rest (by rw [List.append_assoc, ← heq, List.take_append_drop])
        hsame
    rwa [← List.drop_drop, heq, ← hsame.length, List.drop_left]
  · rintro h before occurrence after rfl hsame
    have hdrop : (before ++ occurrence ++ after).drop before.length = occurrence ++ after := by
      rw [List.append_assoc, List.drop_left]
    have hat :=
      h before.length (List.mem_range.mpr (by simp only [List.length_append]; omega))
        (lower_prefix_iff.mpr ⟨occurrence, after, hdrop, hsame⟩)
    rwa [← List.drop_drop, hdrop, ← hsame.length, List.drop_left, List.append_assoc,
      List.take_left] at hat

instance (old text : List Char) : Decidable (Delimited old text) :=
  decidable_of_iff _ delimited_iff.symm

instance (old text : List Char) : Decidable (Same old text) :=
  inferInstanceAs (Decidable (lower text = lower old))

/-- The same of a text that comes after another. -/
def DelimitedAfter (old p l : List Char) : Prop :=
  ∀ before occurrence after, l = before ++ occurrence ++ after → Same old occurrence →
    (∀ c ∈ (p ++ before).getLast?, isUuidChar c = false) ∧ ∀ c ∈ after.head?, isUuidChar c = false

theorem DelimitedAfter.append {p w l : List Char} (h : DelimitedAfter old p (w ++ l)) :
    DelimitedAfter old (p ++ w) l := by
  rintro before occurrence after rfl hsame
  have happ := h (w ++ before) occurrence after (by simp) hsame
  rwa [← List.append_assoc] at happ

theorem DelimitedAfter.cons {p l : List Char} {c : Char} (h : DelimitedAfter old p (c :: l)) :
    DelimitedAfter old (p ++ [c]) l :=
  @DelimitedAfter.append old p [c] l h

/-- Characters of a UUID that follow one another were there before: what is put in follows none. -/
theorem prefix_of_replaceAll (hold : IsUuid old) (l : List Char) :
    ∀ p c w, isUuidChar c = true → DelimitedAfter old (p ++ [c]) l →
    (∀ d ∈ w, isUuidChar d = true) → w <+: replaceAll old new l → w <+: l := by
  induction l using replace_induction hold.ne_nil with
  | nil =>
      intro p c w _ _ _ h
      rwa [replaceAll_nil] at h
  | occurrence occurrence rest hsame ih =>
      intro p c w hc hdelimited hw h
      have hbefore := (hdelimited [] occurrence rest rfl hsame).1 c (by simp)
      rw [hc] at hbefore
      cases hbefore
  | kept a rest hnone ih =>
      intro p c w hc hdelimited hw h
      cases w with
      | nil => exact List.nil_prefix
      | cons b w =>
          rw [replaceAll_of_none hold.ne_nil hnone, List.cons_prefix_cons] at h
          obtain ⟨rfl, h⟩ := h
          refine List.cons_prefix_cons.mpr ⟨rfl, ?_⟩
          exact ih (p ++ [c]) b w (hw b List.mem_cons_self) hdelimited.cons
            (fun d hd => hw d (List.mem_cons_of_mem _ hd)) h

theorem head_replaceAll (hold : IsUuid old) {l : List Char}
    (h : ∀ c ∈ l.head?, isUuidChar c = false) :
    ∀ c ∈ (replaceAll old new l).head?, isUuidChar c = false := by
  cases l with
  | nil => rw [replaceAll_nil]; simp
  | cons c l =>
      have hnone : literal old none (c :: l) = none := by
        refine literal_eq_none.mpr fun occurrence rest heq hsame => ?_
        have hocc := hsame.isUuid hold
        obtain ⟨d, more, rfl⟩ := List.exists_cons_of_ne_nil hocc.ne_nil
        obtain ⟨rfl, -⟩ := List.cons.inj heq
        have hno := h c rfl
        rw [hocc.chars c List.mem_cons_self] at hno
        cases hno
      rw [replaceAll_of_none hold.ne_nil hnone]
      exact h

/-- Text that ends in a UUID put in, and text after it: an occurrence lies in the latter. -/
theorem infix_of_append (hnew : IsUuid new) {occurrence rest : List Char} (hocc : IsUuid occurrence)
    (hne : occurrence ≠ new) (hrest : ∀ c ∈ rest.head?, isUuidChar c = false)
    (h : occurrence <:+: new ++ rest) : occurrence <:+: rest := by
  obtain ⟨before, after, heq⟩ := h
  rw [List.append_assoc] at heq
  rcases List.append_eq_append_iff.mp heq with ⟨m, hm, hafter⟩ | ⟨m, hm, hrest'⟩
  · rcases List.append_eq_append_iff.mp hafter with ⟨x, hx, -⟩ | ⟨x, hx, hrestx⟩
    · have hlength := congrArg List.length hm
      rw [hx, List.length_append, List.length_append, hocc.length, hnew.length] at hlength
      have hx' : x = [] := List.length_eq_zero_iff.mp (by omega)
      have hb' : before = [] := List.length_eq_zero_iff.mp (by omega)
      rw [hx, hx', hb', List.append_nil, List.nil_append] at hm
      exact absurd hm.symm hne
    · by_cases hx' : x = []
      · rw [hx', List.append_nil] at hx
        have hlength := congrArg List.length hm
        rw [← hx, List.length_append, hocc.length, hnew.length] at hlength
        have hb' : before = [] := List.length_eq_zero_iff.mp (by omega)
        rw [← hx, hb', List.nil_append] at hm
        exact absurd hm.symm hne
      · obtain ⟨d, x, rfl⟩ := List.exists_cons_of_ne_nil hx'
        have hno := hrest d (by rw [hrestx]; rfl)
        rw [hocc.chars d (by rw [hx]; simp)] at hno
        cases hno
  · exact ⟨m, after, by rw [hrest', List.append_assoc]⟩

theorem not_infix_replaceAll (hold : IsUuid old) (hnew : IsUuid new) (hne : ¬ Same old new)
    {occurrence : List Char} (hsame : Same old occurrence) (l : List Char) :
    ∀ p, DelimitedAfter old p l → ¬ occurrence <:+: replaceAll old new l := by
  have hocc := hsame.isUuid hold
  induction l using replace_induction hold.ne_nil with
  | nil =>
      intro p _ h
      rw [replaceAll_nil, List.infix_nil] at h
      exact hocc.ne_nil h
  | occurrence found rest hfound ih =>
      intro p hdelimited h
      rw [replaceAll_of_same hold.ne_nil hfound] at h
      refine ih (p ++ found) hdelimited.append
        (infix_of_append hnew hocc (fun heq => hne (heq ▸ hsame)) ?_ h)
      exact head_replaceAll hold (hdelimited [] found rest rfl hfound).2
  | kept c rest hnone ih =>
      intro p hdelimited h
      rw [replaceAll_of_none hold.ne_nil hnone, List.infix_cons_iff] at h
      rcases h with hprefix | hinfix
      · obtain ⟨d, w, rfl⟩ := List.exists_cons_of_ne_nil hocc.ne_nil
        obtain ⟨rfl, hrest⟩ := List.cons_prefix_cons.mp hprefix
        have hw :=
          prefix_of_replaceAll hold rest p d w (hocc.chars d List.mem_cons_self) hdelimited.cons
            (fun b hb => hocc.chars b (List.mem_cons_of_mem _ hb)) hrest
        obtain ⟨tail, rfl⟩ := hw
        exact literal_eq_none.mp hnone (d :: w) tail rfl hsame
      · exact ih (p ++ [c]) hdelimited.cons hinfix

theorem names_replaceAll (hold : IsUuid old) (hnew : IsUuid new) (hne : ¬ Same old new)
    {line : List Char} (h : Delimited old line) :
    names old (replaceAll old new line) = false := by
  refine Bool.eq_false_iff.mpr fun hnames => ?_
  obtain ⟨before, occurrence, rest, heq, hsame⟩ := names_iff.mp hnames
  exact not_infix_replaceAll hold hnew hne hsame line [] h ⟨before, rest, heq.symm⟩

/-! ### Line by line -/

theorem mem_of_mem_replaceAll (hold : old ≠ []) {c : Char} (l : List Char) :
    c ∈ replaceAll old new l → c ∈ l ∨ c ∈ new := by
  induction l using replace_induction hold with
  | nil =>
      intro h
      rw [replaceAll_nil] at h
      exact .inl h
  | occurrence occurrence rest hsame ih =>
      intro h
      rw [replaceAll_of_same hold hsame] at h
      rcases List.mem_append.mp h with h | h
      · exact .inr h
      · exact (ih h).imp_left (List.mem_append_right _)
  | kept d rest hnone ih =>
      intro h
      rw [replaceAll_of_none hold hnone] at h
      rcases List.mem_cons.mp h with rfl | h
      · exact .inl List.mem_cons_self
      · exact (ih h).imp_left (List.mem_cons_of_mem _)

theorem length_replaceAll (hold : IsUuid old) (hnew : IsUuid new) (l : List Char) :
    (replaceAll old new l).length = l.length := by
  induction l using replace_induction hold.ne_nil with
  | nil => rw [replaceAll_nil]
  | occurrence occurrence rest hsame ih =>
      rw [replaceAll_of_same hold.ne_nil hsame, List.length_append, List.length_append, ih,
        hnew.length, (hsame.isUuid hold).length]
  | kept c rest hnone ih =>
      rw [replaceAll_of_none hold.ne_nil hnone, List.length_cons, List.length_cons, ih]

theorem break_of_isEnd {e : List Char} (h : e = [] ∨ IsEnd e) : ∀ c ∈ e, isBreak c = true := by
  rcases h with rfl | rfl | ⟨c, rfl, hc⟩
  · simp
  · decide
  · exact fun d hd => List.mem_singleton.mp hd ▸ hc

/-- The end of a line does not take part in what is found on it. -/
theorem replaceAll_end (hold : IsUuid old) (body : List Char) {e : List Char}
    (he : ∀ c ∈ e, isBreak c = true) :
    replaceAll old new (body ++ e) = replaceAll old new body ++ e := by
  have hnone : ∀ s, s <:+ e → ∀ prev, literal old prev s = none := by
    rintro s hs prev
    refine literal_eq_none.mpr fun occurrence rest heq hsame => ?_
    have hocc := hsame.isUuid hold
    obtain ⟨d, w, rfl⟩ := List.exists_cons_of_ne_nil hocc.ne_nil
    have hbreak := he d (hs.subset (by rw [heq]; simp))
    rw [isBreak_of_isUuidChar (hocc.chars d List.mem_cons_self)] at hbreak
    cases hbreak
  have hapart : ∀ s, s <:+ body → s ≠ [] →
      ∀ prev, literal old prev (s ++ e) = literal old prev s := by
    rintro s - - prev
    by_cases hs : lower old <+: lower s
    · have hse : lower old <+: lower (s ++ e) := hs.trans ⟨lower e, by simp [lower]⟩
      rw [literal, if_pos hse, literal, if_pos hs]
    · have hse : ¬ lower old <+: lower (s ++ e) := by
        intro hse
        obtain ⟨occurrence, rest, heq, hsame⟩ := lower_prefix_iff.mp hse
        rcases List.append_eq_append_iff.mp heq with ⟨m, hm, hrest⟩ | ⟨m, hm, hrest⟩
        · cases m with
          | nil => exact hs (lower_prefix_iff.mpr ⟨s, [], by simp, by simpa [hm] using hsame⟩)
          | cons d m =>
              have hbreak := he d (by rw [hrest]; simp)
              rw [isBreak_of_isUuidChar ((hsame.isUuid hold).chars d (by rw [hm]; simp))] at hbreak
              cases hbreak
        · exact hs (lower_prefix_iff.mpr ⟨occurrence, m, hm, hsame⟩)
      rw [literal, if_neg hse, literal, if_neg hs]
  obtain ⟨prev, hsub⟩ :=
    @Scan.sub_append _ _ (fun _ => new) (proper_literal hold.ne_nil) _ _ hapart none
  rw [replaceAll, hsub, Scan.sub_eq_self hnone]
  rfl

theorem within_replaceAll (hold : IsUuid old) (hnew : IsUuid new) (own : List Char → Bool) :
    Within fun line => if own line then replaceAll old new line else line := by
  intro body e hbody he
  by_cases hown : own (body ++ e) = true
  · refine ⟨replaceAll old new body, ?_, fun c hc => ?_, ?_⟩
    · simp only [hown, if_true]
      exact replaceAll_end hold body (break_of_isEnd he)
    · exact (mem_of_mem_replaceAll hold.ne_nil body hc).elim (hbody c) fun hmem =>
        isBreak_of_isUuidChar (hnew.chars c hmem)
    · rw [← List.length_eq_zero_iff, length_replaceAll hold hnew, List.length_eq_zero_iff]
  · exact ⟨body, if_neg hown, hbody, Iff.rfl⟩

/-- What a rewrite does to a text: a line of its own becomes what it is to become, every other
stays; it counts those that changed; and a second rewrite changes nothing. -/
structure Rewrites (own : List Char → Bool) (becomes : List Char → List Char → Prop)
    (rewrite : List Char → List Char × ℕ) (text : List Char) : Prop where
  lines : List.Forall₂ (fun line line' => if own line then becomes line line' else line' = line)
    (linesKept text) (linesKept (rewrite text).1)
  count : (rewrite text).2 = ((linesKept text).zip (linesKept (rewrite text).1)).countP
    fun p => p.1 ≠ p.2
  again : rewrite (rewrite text).1 = ((rewrite text).1, 0)

theorem countP_zip_map (change : List Char → List Char) (lines : List (List Char)) :
    (lines.zip (lines.map change)).countP (fun p => p.1 ≠ p.2) = lines.countP fun line =>
      change line ≠ line := by
  induction lines with
  | nil => rfl
  | cons line lines ih =>
      rw [List.map_cons, List.zip_cons_cons, List.countP_cons, List.countP_cons, ih]
      simp only [ne_comm]

theorem rewrites_of_change {own : List Char → Bool} {becomes : List Char → List Char → Prop}
    {change : List Char → List Char} {text : List Char} (hwithin : Within change)
    (hown : ∀ line ∈ linesKept text, own line = true → becomes line (change line))
    (hother : ∀ line ∈ linesKept text, own line = false → change line = line)
    (hagain : ∀ line ∈ linesKept text, change (change line) = change line) :
    Rewrites own becomes (rewriteLines change) text := by
  have hlines : linesKept (rewriteLines change text).1 = (linesKept text).map change :=
    (linesKept_map hwithin text).1
  refine ⟨?_, ?_, ?_⟩
  · rw [hlines, List.forall₂_map_right_iff, List.forall₂_same]
    intro line hline
    split
    · exact hown line hline ‹_›
    · exact hother line hline (Bool.eq_false_iff.mpr ‹_›)
  · rw [hlines, countP_zip_map]
    rfl
  · have hsame : ((linesKept text).map change).map change = (linesKept text).map change := by
      rw [List.map_map]
      exact List.map_congr_left hagain
    rw [rewriteLines, hlines, hsame]
    refine Prod.ext rfl (List.countP_eq_zero.mpr fun line hline => ?_)
    obtain ⟨source, hsource, rfl⟩ := List.mem_map.mp hline
    simp [hagain source hsource]

theorem Delimited.line {text line : List Char} (h : Delimited old text)
    (hline : line ∈ linesKept text) : Delimited old line := by
  obtain ⟨a, b, hlines⟩ := List.append_of_mem hline
  have htext : text = a.flatten ++ line ++ b.flatten := by
    rw [← flatten_linesKept text, hlines]
    simp
  rintro before occurrence after rfl hsame
  obtain ⟨hbefore, hafter⟩ :=
    h (a.flatten ++ before) occurrence (after ++ b.flatten) (by rw [htext]; simp) hsame
  refine ⟨fun c hc => hbefore c ?_, fun c hc => hafter c ?_⟩
  · rw [List.getLast?_append, hc]
    rfl
  · rw [List.head?_append, hc]
    rfl

/-- A rewrite of the lines that are its own, where a line that names `old` no more is none. -/
theorem rewrites_uuid (hold : IsUuid old) (hnew : IsUuid new) (hne : ¬ Same old new)
    {own : List Char → Bool} (hown : ∀ line, own line = true → names old line = true)
    {text : List Char} (htext : Delimited old text) :
    Rewrites own (fun line line' => Replaced old new line line' ∧ names old line' = false)
      (rewriteLines fun line => if own line then replaceAll old new line else line) text := by
  have hnames : ∀ line ∈ linesKept text, names old (replaceAll old new line) = false :=
    fun line hline =>
      names_replaceAll hold hnew hne (htext.line hline)
  refine rewrites_of_change (within_replaceAll hold hnew own) (fun line hline h => ?_)
    (fun line hline h => ?_) fun line hline => ?_
  · simp only [h, if_true]
    exact ⟨replaced_replaceAll hold.ne_nil line, hnames line hline⟩
  · simp [h]
  · by_cases h : own line = true
    · have hno : own (replaceAll old new line) = false := Bool.eq_false_iff.mpr fun hyes => by
        have hyes := hown _ hyes
        rw [hnames line hline] at hyes
        cases hyes
      simp [h, hno]
    · simp [h]

/-! ### Fields -/

theorem names_of_infix {a b : List Char} (h : a <:+: b) (hnames : names old a = true) :
    names old b = true := by
  obtain ⟨s, t, rfl⟩ := h
  obtain ⟨before, occurrence, rest, rfl, hsame⟩ := names_iff.mp hnames
  exact names_iff.mpr ⟨s ++ before, occurrence, rest ++ t, by simp, hsame⟩

theorem fields_eq_words {line : List Char} {f : List Char} {fs : List (List Char)}
    (h : fields line = f :: fs) : words isSpace line = f :: fs := by
  rw [fields] at h
  split at h
  · cases h
  · rwa [words_strip] at h

theorem infix_of_mem_words {line w : List Char} (h : w ∈ words isSpace line) : w <:+: line := by
  induction hlist : words isSpace line generalizing line with
  | nil => simp [hlist] at h
  | cons v vs ih =>
      obtain ⟨lead, rest, rfl, -, -, -, -, hrest⟩ := words_eq_cons hlist
      rw [hlist] at h
      rcases List.mem_cons.mp h with rfl | h
      · exact ⟨lead, rest, rfl⟩
      · exact (ih (hrest ▸ h) hrest).trans ⟨lead ++ v, [], by simp⟩

theorem names_of_isBootLine {line : List Char} (h : isBootLine old line = true) :
    names old line = true := by
  unfold isBootLine at h
  split at h
  · rename_i device point more hfields
    rw [Bool.and_eq_true] at h
    exact names_of_infix (infix_of_mem_words (fields_eq_words hfields ▸ List.mem_cons_self)) h.2
  · cases h

theorem names_of_isSearchLine {line : List Char} (h : isSearchLine old line = true) :
    names old line = true := (Bool.and_eq_true _ _ ▸ h).2

/-- The two fields a line begins with, and what stands around them. -/
structure TwoFields (line lead first gap second tail : List Char) : Prop where
  line : line = lead ++ first ++ gap ++ second ++ tail
  lead : ∀ c ∈ lead, isSpace c = true
  first_ne : first ≠ []
  first : ∀ c ∈ first, isSpace c = false
  gap_ne : gap ≠ []
  gap : ∀ c ∈ gap, isSpace c = true
  second_ne : second ≠ []
  second : ∀ c ∈ second, isSpace c = false
  tail : ∀ c ∈ tail.head?, isSpace c = true

theorem twoFields {line first second : List Char} {more : List (List Char)}
    (h : fields line = first :: second :: more) :
    ∃ lead gap tail, TwoFields line lead first gap second tail := by
  obtain ⟨lead, rest, rfl, hlead, hfirst_ne, hfirst, hrest, hwords⟩ :=
    words_eq_cons (fields_eq_words h)
  obtain ⟨gap, tail, rfl, hgap, hsecond_ne, hsecond, htail, -⟩ := words_eq_cons hwords
  have hgap_ne : gap ≠ [] := by
    rintro rfl
    obtain ⟨c, w, rfl⟩ := List.exists_cons_of_ne_nil hsecond_ne
    have hblank := hrest c rfl
    rw [hsecond c List.mem_cons_self] at hblank
    cases hblank
  exact ⟨lead, gap, tail, by simp, hlead, hfirst_ne, hfirst, hgap_ne, hgap, hsecond_ne,
    hsecond, htail⟩

/-- A line with its second field given another value. -/
def withSecond (value line : List Char) : List Char :=
  let lead := line.takeWhile isSpace
  let rest := line.dropWhile isSpace
  let first := rest.takeWhile (!isSpace ·)
  let rest := rest.dropWhile (!isSpace ·)
  let gap := rest.takeWhile isSpace
  let rest := rest.dropWhile isSpace
  lead ++ first ++ gap ++ value ++ rest.dropWhile (!isSpace ·)

theorem cut_blank {a b : List Char} (ha : ∀ c ∈ a, isSpace c = true)
    (hb : ∀ c ∈ b.head?, isSpace c = false) :
    (a ++ b).takeWhile isSpace = a ∧ (a ++ b).dropWhile isSpace = b := by
  cases b with
  | nil => simpa using ha
  | cons c b =>
      have hc : ¬ isSpace c = true := by simp [hb c rfl]
      rw [List.takeWhile_append_of_pos ha, List.dropWhile_append_of_pos ha,
        List.takeWhile_cons_of_neg hc, List.dropWhile_cons_of_neg hc, List.append_nil]
      exact ⟨rfl, rfl⟩

theorem cut_word {a b : List Char} (ha : ∀ c ∈ a, isSpace c = false)
    (hb : ∀ c ∈ b.head?, isSpace c = true) :
    (a ++ b).takeWhile (!isSpace ·) = a ∧ (a ++ b).dropWhile (!isSpace ·) = b := by
  have ha' : ∀ c ∈ a, (!isSpace c) = true := fun c hc => by rw [ha c hc]; rfl
  cases b with
  | nil => simpa using ha
  | cons c b =>
      rw [List.takeWhile_append_of_pos ha', List.dropWhile_append_of_pos ha']
      simp [hb c rfl]

theorem forall_head_append {P : Char → Prop} {a b : List Char} (hne : a ≠ []) (h : ∀ c ∈ a, P c) :
    ∀ c ∈ (a ++ b).head?, P c := by
  rw [List.head?_append_of_ne_nil _ hne]
  exact fun c hc => h c (List.mem_of_mem_head? hc)

theorem TwoFields.withSecond {line lead first gap second tail : List Char}
    (h : TwoFields line lead first gap second tail) (value : List Char) :
    BootRewrite.withSecond value line = lead ++ first ++ gap ++ value ++ tail := by
  have hline : line = lead ++ (first ++ (gap ++ (second ++ tail))) := by rw [h.line]; simp
  have h₁ := cut_blank h.lead (forall_head_append (b := gap ++ (second ++ tail)) h.first_ne h.first)
  have h₂ := cut_word h.first (forall_head_append (b := second ++ tail) h.gap_ne h.gap)
  have h₃ := cut_blank h.gap (forall_head_append (b := tail) h.second_ne h.second)
  have h₄ := cut_word h.second h.tail
  rw [BootRewrite.withSecond, hline]
  simp only [h₁, h₂, h₃, h₄]

theorem TwoFields.fields {line lead first gap second tail : List Char}
    (h : TwoFields line lead first gap second tail) {f g : List Char} {more : List (List Char)}
    (hfields : BootRewrite.fields line = f :: g :: more) : f = first ∧ g = second := by
  have hwords := fields_eq_words hfields
  have hline : line = lead ++ (first ++ (gap ++ (second ++ tail))) := by rw [h.line]; simp
  rw [hline, words_lead h.lead, words_word h.first_ne h.first (forall_head_append h.gap_ne h.gap),
    words_lead h.gap, words_word h.second_ne h.second h.tail] at hwords
  obtain ⟨hf, hmore⟩ := List.cons.inj hwords
  exact ⟨hf.symm, (List.cons.inj hmore).1.symm⟩

/-! ### The first occurrence -/

theorem replaceFirst_self (x l : List Char) : replaceFirst x x l = l := by
  induction l with
  | nil =>
      rw [replaceFirst]
      split
      · assumption
      · rfl
  | cons c l ih =>
      rw [replaceFirst]
      split
      · rename_i hprefix
        exact List.prefix_iff_eq_append.mp hprefix
      · rw [ih]

theorem replaceFirst_of_first {old new : List Char} (hold : old ≠ []) (rest : List Char) :
    ∀ {before : List Char},
    (∀ p q, before = p ++ q → q ≠ [] → ¬ old <+: q ++ old ++ rest) →
    replaceFirst old new (before ++ old ++ rest) = before ++ new ++ rest
  | [], _ => by
      obtain ⟨c, w, rfl⟩ := List.exists_cons_of_ne_nil hold
      rw [List.nil_append, List.nil_append, List.cons_append, replaceFirst, ← List.cons_append,
        if_pos (List.prefix_append _ _), List.drop_left]
  | c :: before, h => by
      have hno : ¬ old <+: c :: (before ++ old ++ rest) :=
        h [] (c :: before) rfl (List.cons_ne_nil _ _)
      rw [List.cons_append, List.cons_append, replaceFirst, if_neg hno,
        replaceFirst_of_first hold rest fun p q heq hq => h (c :: p) q (by rw [heq]; rfl) hq]
      rfl

theorem exists_first {old l : List Char} (h : old <:+: l) :
    ∃ before rest, l = before ++ old ++ rest ∧ ∀ p q, before = p ++ q → q ≠ [] →
    ¬ old <+: q ++ old ++ rest := by
  induction l with
  | nil =>
      obtain rfl := List.infix_nil.mp h
      exact ⟨[], [], rfl, fun p q heq hq => absurd (List.append_eq_nil_iff.mp heq.symm).2 hq⟩
  | cons c l ih =>
      by_cases hprefix : old <+: c :: l
      · obtain ⟨rest, hrest⟩ := hprefix
        exact ⟨[], rest, hrest.symm, fun p q heq hq =>
          absurd (List.append_eq_nil_iff.mp heq.symm).2 hq⟩
      · obtain ⟨before, rest, rfl, hfirst⟩ := ih ((List.infix_cons_iff.mp h).resolve_left hprefix)
        refine ⟨c :: before, rest, rfl, fun p q heq hq => ?_⟩
        cases p with
        | nil =>
            rw [List.nil_append] at heq
            rw [← heq]
            exact hprefix
        | cons d p => exact hfirst p q (List.cons.inj heq).2 hq

/-! ### The swap's line -/

theorem infix_of_blank_append {a b w : List Char} (ha : ∀ c ∈ a, isSpace c = true) (hne : w ≠ [])
    (hw : ∀ c ∈ w, isSpace c = false) (h : w <:+: a ++ b) : w <:+: b := by
  induction a with
  | nil => exact h
  | cons c a ih =>
      refine ih (fun d hd => ha d (List.mem_cons_of_mem _ hd))
        ((List.infix_cons_iff.mp h).resolve_left fun hprefix => ?_)
      obtain ⟨d, w, rfl⟩ := List.exists_cons_of_ne_nil hne
      have hblank := ha d ((List.cons_prefix_cons.mp hprefix).1 ▸ List.mem_cons_self)
      rw [hw d List.mem_cons_self] at hblank
      cases hblank

theorem infix_of_append_blank {a b w : List Char} (hb : ∀ c ∈ b, isSpace c = true) (hne : w ≠ [])
    (hw : ∀ c ∈ w, isSpace c = false) (h : w <:+: a ++ b) : w <:+: a := by
  rw [← List.reverse_infix] at h ⊢
  rw [List.reverse_append] at h
  exact infix_of_blank_append (by simpa using hb) (by simpa using hne) (by simpa using hw) h

/-- Where the second field is not found in the first, it is found first in its place. -/
theorem TwoFields.first_of_not_infix {line lead first gap second tail : List Char}
    (h : TwoFields line lead first gap second tail) (hno : ¬ second <:+: first) :
    ∀ p q, lead ++ first ++ gap = p ++ q → q ≠ [] → ¬ second <+: q ++ second ++ tail := by
  rintro p q heq hq hprefix
  obtain ⟨b, hb⟩ : ∃ b, q.getLast? = some b := ⟨_, List.getLast?_eq_some_getLast hq⟩
  have hblank : isSpace b = true := by
    have hlast := congrArg List.getLast? heq
    rw [List.getLast?_append_of_ne_nil _ h.gap_ne, List.getLast?_append_of_ne_nil _ hq, hb] at hlast
    exact h.gap b (List.mem_of_getLast? hlast)
  rw [List.append_assoc] at hprefix
  have hinfix : second <:+: lead ++ first ++ gap := by
    rcases List.prefix_or_prefix_of_prefix hprefix (List.prefix_append q _) with hsecond | hsecond
    · exact hsecond.isInfix.trans ⟨p, [], by rw [heq, List.append_nil]⟩
    · have hno := h.second b (hsecond.subset (List.mem_of_getLast? hb))
      rw [hblank] at hno
      cases hno
  exact hno (infix_of_blank_append h.lead h.second_ne h.second
    (infix_of_append_blank h.gap h.second_ne h.second hinfix))

/-- What the first occurrence of the second field is replaced by stands in the second field, or the
two are the same. -/
theorem TwoFields.replaceFirst_iff {line lead first gap second tail : List Char}
    (h : TwoFields line lead first gap second tail) {value : List Char}
    (hvalue : ∀ c ∈ value, isSpace c = false) :
    replaceFirst second value line = BootRewrite.withSecond value line ↔
    ¬ second <:+: first ∨ second = value := by
  rw [h.withSecond value]
  constructor
  · intro heq
    by_cases hinfix : second <:+: first
    · right
      obtain ⟨before, rest, hcut, hleft⟩ :=
        exists_first (List.IsInfix.trans hinfix ⟨lead, [], by simp⟩ : second <:+: lead ++ first)
      have hrest : ∀ c ∈ rest, isSpace c = false := by
        rcases List.append_eq_append_iff.mp hcut with ⟨m, -, hm⟩ | ⟨m, hm, -⟩
        · exact fun c hc => h.first c (by rw [hm]; exact List.mem_append_right _ hc)
        · obtain ⟨c, w, hw⟩ := List.exists_cons_of_ne_nil h.second_ne
          have hblank := h.lead c (by rw [hm, hw]; simp)
          rw [h.second c (by rw [hw]; exact List.mem_cons_self)] at hblank
          cases hblank
      have hline : line = before ++ second ++ (rest ++ (gap ++ (second ++ tail))) := by
        rw [h.line, hcut]
        simp
      have hplace : ∀ p q, before = p ++ q → q ≠ [] →
          ¬ second <+: q ++ second ++ (rest ++ (gap ++ (second ++ tail))) := by
        intro p q hpq hq hprefix
        refine hleft p q hpq hq (List.prefix_of_prefix_length_le hprefix
          ⟨gap ++ (second ++ tail), by simp⟩ ?_)
        simp only [List.length_append]
        omega
      rw [hline, replaceFirst_of_first h.second_ne _ hplace] at heq
      have hvalues : value ++ rest ++ (gap ++ (second ++ tail)) = second ++ rest ++
          (gap ++ (value ++ tail)) := by
        have hcancel : before ++ (value ++ rest ++ (gap ++ (second ++ tail)))
            = before ++ (second ++ rest ++ (gap ++ (value ++ tail))) := by
          simp only [List.append_assoc] at heq ⊢
          rw [heq, ← List.append_assoc lead first, hcut]
          simp
        exact List.append_cancel_left hcancel
      have hword : value ++ rest = second ++ rest := by
        have hleftWord :=
          (@cut_word (value ++ rest) _ (fun c hc =>
            (List.mem_append.mp hc).elim (hvalue c) (hrest c))
            (forall_head_append (b := second ++ tail) h.gap_ne h.gap)).1
        have hrightWord :=
          (@cut_word (second ++ rest) _ (fun c hc =>
            (List.mem_append.mp hc).elim (h.second c) (hrest c))
            (forall_head_append (b := value ++ tail) h.gap_ne h.gap)).1
        rw [← hleftWord, hvalues, hrightWord]
      exact (List.append_cancel_right hword).symm
    · exact .inl hinfix
  · rintro (hno | rfl)
    · rw [h.line]
      exact replaceFirst_of_first h.second_ne tail (h.first_of_not_infix hno)
    · rw [replaceFirst_self, h.line]

theorem swapDevice_eq_some {line device : List Char} (h : swapDevice line = some device) :
    ∃ first more, fields line = first :: device :: more ∧ partuuid <+: device := by
  unfold swapDevice at h
  split at h
  · rename_i first device' third options more hfields
    split at h
    · rename_i hswap
      obtain rfl := Option.some.inj h
      exact ⟨first, third :: options :: more, hfields, hswap.2⟩
    · cases h
  · cases h

/-- The value a swap's device is given. -/
structure IsValue (value : List Char) : Prop where
  ne_nil : value ≠ []
  word : ∀ c ∈ value, isSpace c = false

theorem isValue_partuuid (hnew : IsUuid new) : IsValue (partuuid ++ new) where
  ne_nil := by simp [partuuid]
  word := by
    have hmark : ∀ c ∈ partuuid, isSpace c = false := by decide
    exact List.forall_mem_append.mpr ⟨hmark, fun c hc => isSpace_of_isUuidChar (hnew.chars c hc)⟩

theorem TwoFields.setSecond {line lead first gap second tail value : List Char}
    (h : TwoFields line lead first gap second tail) (hvalue : IsValue value) :
    TwoFields (BootRewrite.withSecond value line) lead first gap value tail where
  line := h.withSecond value
  lead := h.lead
  first_ne := h.first_ne
  first := h.first
  gap_ne := h.gap_ne
  gap := h.gap
  second_ne := hvalue.ne_nil
  second := hvalue.word
  tail := h.tail

/-- What a line of `crypttab` becomes. -/
def crypttabLine (value line : List Char) : List Char :=
  match swapDevice line with
  | some device => replaceFirst device value line
  | none => line

theorem crypttabLine_of_some {value line device : List Char} (h : swapDevice line = some device) :
    crypttabLine value line = replaceFirst device value line := by rw [crypttabLine, h]

theorem crypttabLine_of_none {value line : List Char} (h : swapDevice line = none) :
    crypttabLine value line = line := by rw [crypttabLine, h]

theorem crypttabLine_again {line lead first gap tail value : List Char}
    (h : TwoFields line lead first gap value tail) : crypttabLine value line = line := by
  cases hdevice : swapDevice line with
  | none => exact crypttabLine_of_none hdevice
  | some device =>
      obtain ⟨f, more, hfields, -⟩ := swapDevice_eq_some hdevice
      obtain ⟨-, rfl⟩ := h.fields hfields
      rw [crypttabLine_of_some hdevice, replaceFirst_self]

theorem unbroken_append {a b : List Char} (h : ∀ c ∈ a ++ b, isBreak c = false) :
    (∀ c ∈ a, isBreak c = false) ∧ ∀ c ∈ b, isBreak c = false :=
  ⟨fun c hc => h c (List.mem_append_left _ hc), fun c hc => h c (List.mem_append_right _ hc)⟩

theorem within_crypttabLine {value : List Char} (hvalue : IsValue value) :
    Within (crypttabLine value) := by
  intro body e hbody he
  cases hdevice : swapDevice (body ++ e) with
  | none => exact ⟨body, crypttabLine_of_none hdevice, hbody, Iff.rfl⟩
  | some device =>
      obtain ⟨f, more, hfields, -⟩ := swapDevice_eq_some hdevice
      obtain ⟨lead, gap, tail, htwo⟩ := twoFields hfields
      have hinfix : device <:+: body ++ e := by
        rw [htwo.line]
        exact ⟨lead ++ f ++ gap, tail, by simp⟩
      obtain ⟨before, rest, hcut, hleft⟩ := exists_first hinfix
      -- the device ends in the line's body, since its characters are no blanks
      obtain ⟨rest', hrest, hbody'⟩ : ∃ rest', rest = rest' ++ e ∧
          body = before ++ device ++ rest' := by
        rcases List.append_eq_append_iff.mp hcut with ⟨m, hm, he'⟩ | ⟨m, hm, hm'⟩
        · by_cases hnil : m = []
          · refine ⟨[], ?_, ?_⟩
            · rw [he', hnil]
              rfl
            · rw [hm, hnil, List.append_nil, List.append_nil]
          · -- the device's last character would be the last of the line's end
            obtain ⟨b, hb⟩ : ∃ b, m.getLast? = some b := ⟨_, List.getLast?_eq_some_getLast hnil⟩
            have hlast := congrArg List.getLast? hm
            rw [List.getLast?_append_of_ne_nil _ htwo.second_ne,
              List.getLast?_append_of_ne_nil _ hnil, hb] at hlast
            have hblank :=
              isSpace_of_isBreak (break_of_isEnd he b
                (by rw [he']; exact List.mem_append_left _ (List.mem_of_getLast? hb)))
            rw [htwo.second b (List.mem_of_getLast? hlast)] at hblank
            cases hblank
        · exact ⟨m, hm', hm⟩
      refine ⟨before ++ value ++ rest', ?_, ?_, ?_⟩
      · rw [crypttabLine_of_some hdevice, hcut,
          replaceFirst_of_first htwo.second_ne rest hleft, hrest]
        simp
      · rw [hbody'] at hbody
        obtain ⟨hstart, hrest'⟩ := unbroken_append hbody
        refine List.forall_mem_append.mpr
          ⟨List.forall_mem_append.mpr ⟨(unbroken_append hstart).1, fun c hc => ?_⟩, hrest'⟩
        refine Bool.eq_false_iff.mpr fun hbreak => ?_
        have hblank := isSpace_of_isBreak hbreak
        rw [hvalue.word c hc] at hblank
        cases hblank
      · rw [hbody']
        simp [hvalue.ne_nil, htwo.second_ne]

/-- A swap's device is not found in the field before it, or has the new value already. -/
def Apart (value text : List Char) : Prop :=
  ∀ line ∈ linesKept text, ∀ device ∈ swapDevice line, ∀ first ∈ (fields line).head?,
    ¬ device <:+: first ∨ device = value

/-- What becomes of a swap's line, where its device stands apart. -/
theorem crypttabLine_iff {value line device : List Char} (hvalue : IsValue value)
    (hdevice : swapDevice line = some device) :
    crypttabLine value line = withSecond value line ↔
    ∀ first ∈ (fields line).head?, ¬ device <:+: first ∨ device = value := by
  obtain ⟨first, more, hfields, -⟩ := swapDevice_eq_some hdevice
  obtain ⟨lead, gap, tail, htwo⟩ := twoFields hfields
  rw [crypttabLine_of_some hdevice, htwo.replaceFirst_iff hvalue.word, hfields]
  simp

theorem withSecond_again {value line device : List Char} (hvalue : IsValue value)
    (hdevice : swapDevice line = some device) :
    crypttabLine value (withSecond value line) = withSecond value line := by
  obtain ⟨first, more, hfields, -⟩ := swapDevice_eq_some hdevice
  obtain ⟨lead, gap, tail, htwo⟩ := twoFields hfields
  exact crypttabLine_again (htwo.setSecond hvalue)

/-- The swap's PARTUUID alone is rewritten where every swap's device stands apart, and only
there. -/
theorem rewrites_crypttab_iff {value text : List Char} (hvalue : IsValue value) :
    Rewrites (fun line => (swapDevice line).isSome) (fun line line' =>
      line' = withSecond value line) (rewriteLines (crypttabLine value)) text ↔
      Apart value text := by
  constructor
  · intro h line hline device hdevice
    have hlines := h.lines
    rw [show linesKept (rewriteLines (crypttabLine value) text).1 = _ from
      (linesKept_map (within_crypttabLine hvalue) text).1, List.forall₂_map_right_iff,
      List.forall₂_same] at hlines
    have hline := hlines line hline
    rw [hdevice] at hline
    exact (crypttabLine_iff hvalue hdevice).mp hline
  · intro h
    have hchanged : ∀ line ∈ linesKept text, ∀ device, swapDevice line = some device →
        crypttabLine value line = withSecond value line :=
      fun line hline device hdevice => (crypttabLine_iff hvalue hdevice).mpr
        (h line hline device hdevice)
    refine rewrites_of_change (within_crypttabLine hvalue) (fun line hline hown => ?_)
      (fun line hline hother => ?_) fun line hline => ?_
    · obtain ⟨device, hdevice⟩ := Option.isSome_iff_exists.mp hown
      exact hchanged line hline device hdevice
    · exact crypttabLine_of_none (by simpa using hother)
    · cases hdevice : swapDevice line with
      | none => rw [crypttabLine_of_none hdevice, crypttabLine_of_none hdevice]
      | some device => rw [hchanged line hline device hdevice, withSecond_again hvalue hdevice]

/-- The rewrites of `grub.cfg` and `fstab` touch only what they are to touch; that of `crypttab`
does where each swap's device stands apart, and only there. -/
theorem boot_rewrites_iff {old new part text table : List Char} (hold : isUuid old = true)
    (hnew : isUuid new = true) (hpart : isUuid part = true) (hne : ¬ Same old new)
    (htext : Delimited old text) :
    (Rewrites (isSearchLine old) (fun line line' => Replaced old new line line' ∧
      names old line' = false) (rewriteGrubUuid · old new) text ∧
        Rewrites (isBootLine old) (fun line line' => Replaced old new line line' ∧
          names old line' = false) (rewriteFstab · old new) text ∧
        Rewrites (fun line => (swapDevice line).isSome) (fun line line' =>
          line' = withSecond (partuuid ++ part) line) (rewriteCrypttab · part) table) ↔
      Apart (partuuid ++ part) table := by
  have hold := isUuid_spec hold
  have hnew := isUuid_spec hnew
  have hgrub := rewrites_uuid hold hnew hne (fun _ => names_of_isSearchLine) htext
  have hfstab := rewrites_uuid hold hnew hne (fun _ => names_of_isBootLine) htext
  have hcrypttab := @rewrites_crypttab_iff _ table (isValue_partuuid (isUuid_spec hpart))
  exact ⟨fun h => hcrypttab.mp h.2.2, fun h => ⟨hgrub, hfstab, hcrypttab.mpr h⟩⟩

/-- A UUID of one digit, a search for it, `/boot`'s line and a swap's. -/
def uuidOf (c : Char) : List Char := ['-'].intercalate ([8, 4, 4, 4, 12].map (List.replicate · c))

def sampleText : List Char :=
  search ++ [' '] ++ uuidOf 'a' ++ ['\r', '\n'] ++ ['U', 'I', 'D', '='] ++ uuidOf 'A' ++ ['\t'] ++
    boot ++ ['\n', '#'] ++ uuidOf 'a'

def swapLine (name : List Char) : List Char :=
  name ++ [' '] ++ partuuid ++ uuidOf 'a' ++ [' ', '-', ' '] ++ swap ++ ['\n']

theorem boot_rewrites_sample :
    (rewriteGrubUuid sampleText (uuidOf 'a') (uuidOf 'b')).2 = 1 ∧
    (rewriteFstab sampleText (uuidOf 'a') (uuidOf 'b')).2 = 1 ∧
      Rewrites (fun line => (swapDevice line).isSome) (fun line line' =>
        line' = withSecond (partuuid ++ uuidOf 'c') line) (rewriteCrypttab · (uuidOf 'c'))
        (swapLine swap) :=
  ⟨by decide +kernel, by decide +kernel,
    ((@boot_rewrites_iff (uuidOf 'a') (uuidOf 'b') (uuidOf 'c') sampleText (swapLine swap)
      (by decide +kernel) (by decide +kernel) (by decide +kernel)
      (by decide +kernel) (by decide +kernel)).mpr (by unfold Apart; decide +kernel)).2.2⟩

/-- A name that holds the device's text is rewritten in the device's stead. -/
theorem name_rewritten :
    ¬ Rewrites (fun line => (swapDevice line).isSome) (fun line line' =>
      line' = withSecond (partuuid ++ uuidOf 'c') line) (rewriteCrypttab · (uuidOf 'c'))
      (swapLine (partuuid ++ uuidOf 'a')) := by
  have hpart : IsUuid (uuidOf 'c') := isUuid_spec (by decide +kernel)
  intro h
  have hapart :=
    (@rewrites_crypttab_iff _ (swapLine (partuuid ++ uuidOf 'a')) (isValue_partuuid hpart)).mp h
  revert hapart
  unfold Apart
  decide +kernel

end Zark.BootRewrite
