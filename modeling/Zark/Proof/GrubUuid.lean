import Zark.GrubUuid

/-!
# What is rewritten in grub.cfg

A reference is a `--fs-uuid`, what follows it on its line up to the first GUID after a blank, and
that GUID. A place where the pattern finds none stays one after the rewrite, since what is put in is
again a GUID, so a second pass finds the same references. And a line is searched apart from the
next, where no `--fs-uuid` is left without a reference before a line that starts with a GUID.
-/

namespace Zark.GrubUuid

open Text

variable {words : WordChars}

/-! ### GUIDs -/

structure IsGuid (word : List Char) : Prop where
  length : word.length = 16
  hex : ∀ c ∈ word, isHex c = true

/-- No word goes on here. -/
def Bounded (words : WordChars) (rest : List Char) : Prop :=
  ∀ c ∈ rest.head?, words.isWord c = false

def EndsBlank (l : List Char) : Prop := ∃ lead c, l = lead ++ [c] ∧ isSpace c = true

theorem startsGuid_iff {l : List Char} : startsGuid words l = true ↔
    ∃ word rest, l = word ++ rest ∧ IsGuid word ∧ Bounded words rest := by
  simp only [startsGuid, Bool.and_eq_true, decide_eq_true_eq, List.all_eq_true, Bool.not_eq_true',
    Option.any_eq_false]
  constructor
  · rintro ⟨⟨hlength, hhex⟩, hbound⟩
    exact ⟨l.take 16, l.drop 16, (List.take_append_drop 16 l).symm,
      ⟨List.length_take_of_le hlength, hhex⟩, fun c hc => by simpa using hbound c hc⟩
  · rintro ⟨word, rest, rfl, hword, hbound⟩
    have htake : (word ++ rest).take 16 = word := by rw [← hword.length, List.take_left]
    have hdrop : (word ++ rest).drop 16 = rest := by rw [← hword.length, List.drop_left]
    refine ⟨⟨by simp [hword.length], fun c hc => hword.hex c (htake ▸ hc)⟩, fun c hc => ?_⟩
    rw [hdrop] at hc
    simpa using hbound c hc

theorem toNat_of_isHex {c : Char} (h : isHex c = true) :
    48 ≤ c.toNat ∧ c.toNat ≤ 57 ∨ 97 ≤ c.toNat ∧ c.toNat ≤ 102 := by
  simp only [isHex, Bool.or_eq_true, decide_eq_true_eq, Char.isDigit, Bool.and_eq_true] at h
  rcases h with ⟨hlo, hhi⟩ | ⟨hlo, hhi⟩
  · exact .inr ⟨hlo, hhi⟩
  · exact .inl ⟨hlo, hhi⟩

theorem isSpace_of_isHex {c : Char} (h : isHex c = true) : isSpace c = false := by
  have hrange := toNat_of_isHex h
  simp only [isSpace, List.mem_cons, List.not_mem_nil, or_false, decide_eq_false_iff_not]
  omega

theorem isWord_of_isHex (words : WordChars) {c : Char} (h : isHex c = true) :
    words.isWord c = true := by
  have hrange := toNat_of_isHex h
  rw [words.ascii c (by omega), Bool.or_eq_true]
  left
  simp only [Char.isAlphanum, Char.isAlpha, Char.isUpper, Char.isLower, Char.isDigit, ge_iff_le,
    UInt32.le_iff_toNat_le, Bool.or_eq_true, Bool.and_eq_true, decide_eq_true_eq]
  exact hrange.elim (fun h => .inr h) fun h => .inl (.inr ⟨h.1, le_trans h.2 (by decide)⟩)

theorem startsGuid_append {q x y : List Char} (hq : ∃ c ∈ q, isHex c = false)
    (h : startsGuid words (q ++ x) = true) : startsGuid words (q ++ y) = true := by
  obtain ⟨word, rest, heq, hword, hbound⟩ := startsGuid_iff.mp h
  obtain ⟨c, hc, hhex⟩ := hq
  rcases List.append_eq_append_iff.mp heq with ⟨more, hw, -⟩ | ⟨more, hqw, hrest⟩
  · have hmem : c ∈ word := by
      rw [hw]
      exact List.mem_append_left _ hc
    rw [hword.hex c hmem] at hhex
    cases hhex
  · have hne : more ≠ [] := by
      rintro rfl
      rw [List.append_nil] at hqw
      rw [hword.hex c (hqw ▸ hc)] at hhex
      cases hhex
    refine startsGuid_iff.mpr ⟨word, more ++ y, by rw [hqw, List.append_assoc], hword,
      fun d hd => ?_⟩
    refine hbound d ?_
    rw [hrest]
    rwa [List.head?_append_of_ne_nil _ hne] at hd ⊢

theorem EndsBlank.exists_not_hex {q : List Char} (h : EndsBlank q) : ∃ c ∈ q, isHex c = false := by
  obtain ⟨lead, c, rfl, hblank⟩ := h
  refine ⟨c, by simp, Bool.eq_false_iff.mpr fun hhex => ?_⟩
  rw [isSpace_of_isHex hhex] at hblank
  cases hblank

theorem EndsBlank.of_append {p q : List Char} (h : EndsBlank (p ++ q)) (hq : q ≠ []) :
    EndsBlank q := by
  obtain ⟨lead, c, heq, hblank⟩ := h
  obtain ⟨before, d, rfl⟩ := (List.eq_nil_or_concat' q).resolve_left hq
  rw [← List.append_assoc] at heq
  have hlast : d = c := by simpa using (List.append_inj_right' heq rfl)
  exact ⟨before, d, rfl, hlast ▸ hblank⟩

theorem startsGuid_nil : startsGuid words [] = false := rfl

theorem dropWhile_of_startsGuid {l : List Char} (h : startsGuid words l = true) :
    l.dropWhile isSpace = l ∧ l.takeWhile isSpace = [] := by
  obtain ⟨word, rest, rfl, hword, -⟩ := startsGuid_iff.mp h
  cases word with
  | nil => exact absurd hword.length (by simp)
  | cons c word =>
      have hc : isSpace c = false := isSpace_of_isHex (hword.hex c List.mem_cons_self)
      exact ⟨by rw [List.cons_append, List.dropWhile_cons_of_neg (by simp [hc])], by rw [List.cons_append, List.takeWhile_cons_of_neg (by simp [hc])]⟩

/-! ### Up to the GUID -/

theorem endsBlank_cons_takeWhile {c : Char} (hc : isSpace c = true) (l : List Char) :
    EndsBlank (c :: l.takeWhile isSpace) := by
  obtain ⟨lead, d, heq⟩ :=
    (List.eq_nil_or_concat' (c :: l.takeWhile isSpace)).resolve_left (List.cons_ne_nil _ _)
  refine ⟨lead, d, heq, ?_⟩
  have hd : d ∈ c :: l.takeWhile isSpace := by
    rw [heq]
    simp
  rcases List.mem_cons.mp hd with rfl | hd
  · exact hc
  · exact List.mem_takeWhile_imp hd

theorem EndsBlank.append {q : List Char} (h : EndsBlank q) (p : List Char) :
    EndsBlank (p ++ q) := by
  obtain ⟨lead, c, rfl, hc⟩ := h
  exact ⟨p ++ lead, c, by rw [List.append_assoc], hc⟩

theorem toGuid_eq_some {l : List Char} : ∀ {n : ℕ}, toGuid words l = some n →
    ∃ between rest, l = between ++ rest ∧ between.length = n ∧ EndsBlank between ∧
    startsGuid words rest = true := by
  induction l with
  | nil => exact fun h => nomatch h
  | cons c l ih =>
      intro n h
      rw [toGuid] at h
      split at h
      · rename_i hfound
        obtain ⟨hc, hguid⟩ := Bool.and_eq_true _ _ ▸ hfound
        refine ⟨c :: l.takeWhile isSpace, l.dropWhile isSpace, by simp, ?_,
          endsBlank_cons_takeWhile hc l, hguid⟩
        rw [List.length_cons, ← Option.some.inj h, Nat.add_comm]
      · split at h
        · cases h
        · obtain ⟨k, hk, rfl⟩ := Option.map_eq_some_iff.mp h
          obtain ⟨between, rest, rfl, hlength, hblank, hguid⟩ := ih hk
          exact ⟨c :: between, rest, rfl, by rw [List.length_cons, hlength],
            hblank.append [c], hguid⟩

theorem endsBlank_of_toGuid {between rest : List Char}
    (h : toGuid words (between ++ rest) = some between.length) :
    EndsBlank between ∧ startsGuid words rest = true := by
  obtain ⟨between', rest', heq, hlength, hblank, hguid⟩ := toGuid_eq_some h
  obtain ⟨rfl, rfl⟩ := List.append_inj heq hlength.symm
  exact ⟨hblank, hguid⟩

/-- The GUID found after some blanks is found after the first of them. -/
theorem dropWhile_append_guid {between x : List Char} (hx : startsGuid words x = true) :
    (∀ c ∈ between, isSpace c = true) ∧ (between ++ x).dropWhile isSpace = x ∧
    (between ++ x).takeWhile isSpace = between ∨
    between.dropWhile isSpace ≠ [] ∧ (between ++ x).dropWhile isSpace
      = between.dropWhile isSpace ++ x ∧
      ((between ++ x).takeWhile isSpace).length < between.length := by
  by_cases hall : ∀ c ∈ between, isSpace c = true
  · refine .inl ⟨hall, ?_, ?_⟩
    · rw [List.dropWhile_append_of_pos hall, (dropWhile_of_startsGuid hx).1]
    · rw [List.takeWhile_append_of_pos hall, (dropWhile_of_startsGuid hx).2, List.append_nil]
  · have hne : between.dropWhile isSpace ≠ [] :=
      fun hnil => hall (List.dropWhile_eq_nil_iff.mp hnil)
    have hlt : (between.takeWhile isSpace).length < between.length := by
      have hsum := congrArg List.length (@List.takeWhile_append_dropWhile _ isSpace between)
      rw [List.length_append] at hsum
      have hpos := List.length_pos_iff.mpr hne
      omega
    refine .inr ⟨hne, ?_, ?_⟩
    · rw [List.dropWhile_append]
      simp [hne]
    · rw [List.takeWhile_append, if_neg hlt.ne]
      exact hlt

/-- What stands before the GUID does not depend on which GUID it is, nor on what follows it. -/
theorem toGuid_append {between x y : List Char}
    (h : toGuid words (between ++ x) = some between.length) (hx : startsGuid words x = true)
    (hy : startsGuid words y = true) : toGuid words (between ++ y) = some between.length := by
  induction between with
  | nil =>
      obtain ⟨⟨lead, c, hnil, -⟩, -⟩ := endsBlank_of_toGuid h
      simp at hnil
  | cons c between ih =>
      rw [List.cons_append, toGuid] at h ⊢
      rcases dropWhile_append_guid hx with ⟨hall, hdrop, htake⟩ | ⟨hne, hdrop, htake⟩
      · obtain ⟨-, hdropy, htakey⟩ | ⟨hney, -⟩ := @dropWhile_append_guid words between y hy
        · rw [hdrop, htake, hx] at h
          rw [hdropy, htakey, hy]
          split at h
          · rename_i hc
            rw [if_pos hc, Nat.add_comm, List.length_cons]
          · rename_i hc
            rw [if_neg hc]
            split at h
            · cases h
            · rename_i hline
              obtain ⟨k, hk, hlength⟩ := Option.map_eq_some_iff.mp h
              obtain rfl : k = between.length := by simpa using hlength
              rw [if_neg hline, ih hk]
              rfl
        · exact absurd (List.dropWhile_eq_nil_iff.mpr hall) hney
      · obtain ⟨hally, -⟩ | ⟨-, hdropy, htakey⟩ := @dropWhile_append_guid words between y hy
        · exact absurd (List.dropWhile_eq_nil_iff.mpr hally) hne
        · split at h
          · rw [List.length_cons, Option.some.injEq] at h
            omega
          · rename_i hc
            split at h
            · cases h
            · rename_i hline
              obtain ⟨k, hk, hlength⟩ := Option.map_eq_some_iff.mp h
              obtain rfl : k = between.length := by simpa using hlength
              have hblank : EndsBlank (between.dropWhile isSpace) := by
                refine @EndsBlank.of_append (between.takeWhile isSpace) _ ?_ hne
                rw [List.takeWhile_append_dropWhile]
                exact (endsBlank_of_toGuid hk).1
              have hsame : ¬ (isSpace c && startsGuid words ((between ++ y).dropWhile isSpace))
                  = true := by
                intro hfound
                obtain ⟨hspace, hguid⟩ := Bool.and_eq_true _ _ ▸ hfound
                rw [hdropy] at hguid
                exact hc (by rw [hspace, hdrop, startsGuid_append hblank.exists_not_hex hguid]; rfl)
              rw [if_neg hsame, if_neg hline, ih hk]
              rfl

theorem exists_toGuid {p z : List Char} (hp : EndsBlank p) (hz : startsGuid words z = true)
    (hline : '\n' ∉ p) :
    ∃ k ≤ p.length, toGuid words (p ++ z) = some k := by
  induction p with
  | nil =>
      obtain ⟨lead, c, hnil, -⟩ := hp
      simp at hnil
  | cons c p ih =>
      have hle : ((p ++ z).takeWhile isSpace).length ≤ p.length := by
        rcases dropWhile_append_guid hz with ⟨-, -, htake⟩ | ⟨-, -, htake⟩
        · rw [htake]
        · exact htake.le
      rw [List.cons_append, toGuid]
      split
      · exact ⟨_, by rw [List.length_cons]; omega, rfl⟩
      · rename_i hc
        have hne : p ≠ [] := by
          rintro rfl
          obtain ⟨lead, d, heq, hd⟩ := hp
          obtain ⟨-, rfl⟩ : lead = [] ∧ d = c := by simpa [List.singleton_eq_append_iff] using heq
          rw [List.nil_append, (dropWhile_of_startsGuid hz).1, hd, hz] at hc
          exact hc rfl
        obtain ⟨k, hk, hfound⟩ :=
          ih (EndsBlank.of_append (show EndsBlank ([c] ++ p) from hp) hne) fun hmem =>
            hline (List.mem_cons_of_mem _ hmem)
        rw [if_neg fun heq : c = '\n' => hline (heq ▸ List.mem_cons_self), hfound]
        exact ⟨k + 1, by rw [List.length_cons]; omega, rfl⟩

theorem toGuid_of_append {p s : List Char} (h : toGuid words (p ++ s) = none) (hline : '\n' ∉ p) :
    toGuid words s = none := by
  induction p with
  | nil => exact h
  | cons c p ih =>
      refine ih ?_ fun hmem => hline (List.mem_cons_of_mem _ hmem)
      rw [List.cons_append, toGuid] at h
      split at h
      · cases h
      · rw [if_neg fun heq : c = '\n' => hline (heq ▸ List.mem_cons_self)] at h
        exact Option.map_eq_none_iff.mp h

/-! ### References -/

theorem reference_eq_some {prev : Option Char} {l : List Char} {n : ℕ}
    (h : reference words prev l = some n) :
    ∃ between word rest, l = marker ++ between ++ word ++ rest ∧
    n = (marker ++ between ++ word).length ∧
      toGuid words (between ++ word ++ rest) = some between.length ∧ IsGuid word ∧
      Bounded words rest := by
  unfold reference at h
  split at h
  · rename_i hmarker
    obtain ⟨tail, rfl⟩ := hmarker
    rw [List.drop_left] at h
    obtain ⟨k, hk, rfl⟩ := Option.map_eq_some_iff.mp h
    obtain ⟨between, rest', rfl, rfl, -, hguid⟩ := toGuid_eq_some hk
    obtain ⟨word, rest, rfl, hword, hbound⟩ := startsGuid_iff.mp hguid
    refine ⟨between, word,
      rest, by simp [List.append_assoc], by simp [hword.length, Nat.add_assoc], by rwa [List.append_assoc], hword, hbound⟩
  · cases h

theorem reference_of_toGuid (prev : Option Char) {between word rest : List Char}
    (hword : IsGuid word) (h : toGuid words (between ++ word ++ rest) = some between.length) :
    reference words prev (marker ++ between ++ word ++ rest)
      = some (marker ++ between ++ word).length := by
  have hassoc : marker ++ between ++ word ++ rest = marker ++ (between ++ word ++ rest) := by
    simp [List.append_assoc]
  have hprefix : marker <+: marker ++ (between ++ word ++ rest) := List.prefix_append _ _
  rw [hassoc, reference, if_pos hprefix, List.drop_left, h]
  simp [hword.length, Nat.add_assoc]

theorem reference_eq_none {prev : Option Char} {l : List Char} (h : ¬ marker <+: l) :
    reference words prev l = none := if_neg h

theorem reference_marker (prev : Option Char) (tail : List Char) (h : toGuid words tail = none) :
    reference words prev (marker ++ tail) = none := by
  rw [reference, if_pos (List.prefix_append _ _), List.drop_left, h]
  rfl

theorem proper_reference (words : WordChars) : Scan.Proper (reference words) where
  pos := by
    intro prev l n h
    obtain ⟨between, word, rest, hl, hn, hguid, hword, hbound⟩ := reference_eq_some h
    rw [hn, List.length_append, hword.length]
    omega
  le := by
    intro prev l n h
    obtain ⟨between, word, rest, hl, hn, hguid, hword, hbound⟩ := reference_eq_some h
    rw [hl, hn]
    exact (List.prefix_append _ rest).length_le

theorem reference_found {prev : Option Char} {w rest : List Char}
    (h : reference words prev (w ++ rest) = some w.length) :
    ∃ between word, w = marker ++ between ++ word ∧ toGuid words (between ++ word ++ rest)
      = some between.length ∧ IsGuid word ∧ Bounded words rest := by
  obtain ⟨between, word, rest', heq, hlength, hguid, hword, hbound⟩ := reference_eq_some h
  obtain ⟨rfl, rfl⟩ := List.append_inj heq hlength
  exact ⟨between, word, rfl, hguid, hword, hbound⟩

theorem put_eq {new word : List Char} (lead : List Char) (hword : word.length = 16) :
    put new (lead ++ word) = lead ++ new := by
  have hlead : (lead ++ word).length - 16 = lead.length := by
    rw [List.length_append]
    omega
  rw [put, groups, hlead, List.take_left, List.drop_left]
  simp only
  split
  · rename_i hsame
    rw [hsame]
  · rfl

/-! ### The rewrite of a text -/

/-- Every reference of a text rewritten. -/
def rewritten (words : WordChars) (new l : List Char) : List Char :=
  Scan.sub (reference words) (put new) none l

variable {new : List Char}

theorem rewritten_nil : rewritten words new [] = [] := Scan.sub_nil _ _ _

theorem sub_eq_rewritten (prev : Option Char) (l : List Char) :
    Scan.sub (reference words) (put new) prev l = rewritten words new l :=
  Scan.sub_prev (proper_reference words) (fun _ _ _ => rfl) prev none l

theorem rewritten_of_none {c : Char} {rest : List Char}
    (h : reference words none (c :: rest) = none) :
    rewritten words new (c :: rest) = c :: rewritten words new rest := by
      rw [rewritten, Scan.sub_of_none h, sub_eq_rewritten]

theorem rewritten_reference {between word rest : List Char} (hword : IsGuid word)
    (h : toGuid words (between ++ word ++ rest) = some between.length) :
    rewritten words new (marker ++ between ++ word ++ rest) = marker ++ between ++ new ++
      rewritten words new rest := by
  rw [rewritten, Scan.sub_of_some (proper_reference words) (reference_of_toGuid none hword h),
    put_eq _ hword.length, sub_eq_rewritten]

/-- The rewrite by its steps: nothing left, a reference, or a character where none begins. -/
theorem rewritten_induction (words : WordChars) {P : List Char → Prop} (nil : P [])
    (found : ∀ between word rest, toGuid words (between ++ word ++ rest) = some between.length →
      IsGuid word → Bounded words rest → P rest →
      P (marker ++ between ++ word ++ rest))
    (kept : ∀ c rest, reference words none (c :: rest) = none → P rest → P (c :: rest))
    (l : List Char) : P l := by
  refine Scan.scan_induction (proper_reference words) (P := fun _ l => P l) (fun _ => nil) ?_
    (fun _ c rest hnone => kept c rest hnone) none l
  intro prev w rest _ hfound hrest
  obtain ⟨between, word, rfl, hguid, hword, hbound⟩ := reference_found hfound
  exact found between word rest hguid hword hbound hrest

/-- A text with no part that begins like `--fs-uuid` or goes on to be one. -/
def Apart (w : List Char) : Prop := ∀ s, s <:+ w → s ≠ [] → ¬ s <+: marker ∧ ¬ marker <+: s

theorem Apart.tail {c : Char} {w : List Char} (h : Apart (c :: w)) : Apart w :=
  fun s hs => h s (hs.trans (List.suffix_cons c w))

theorem Apart.not_prefix {w : List Char} (h : Apart w) (hne : w ≠ []) (tail : List Char) :
    ¬ marker <+: w ++ tail := by
  intro hmarker
  have hw := h w (List.suffix_refl w) hne
  exact (List.prefix_or_prefix_of_prefix hmarker (List.prefix_append w tail)).elim hw.2 hw.1

theorem apart_tail_marker : Apart marker.tail := by
  have hall : ∀ s ∈ marker.tail.tails, s ≠ [] → ¬ s <+: marker ∧ ¬ marker <+: s := by decide
  exact fun s hs => hall s ((List.mem_tails _ _).mpr hs)

theorem marker_eq : marker = '-' :: marker.tail := rfl

theorem rewritten_apart {w : List Char} (h : Apart w) (tail : List Char) :
    rewritten words new (w ++ tail) = w ++ rewritten words new tail := by
  induction w with
  | nil => rfl
  | cons c w ih =>
      have hnone : reference words none (c :: (w ++ tail)) = none :=
        reference_eq_none (h.not_prefix (List.cons_ne_nil c w) tail)
      rw [List.cons_append, rewritten_of_none hnone, ih h.tail, List.cons_append]

theorem prefix_of_rewritten (l : List Char) :
    ∀ w, Apart w → w <+: rewritten words new l → w <+: l := by
  induction l using rewritten_induction words with
  | nil =>
      intro w _ h
      rwa [rewritten_nil] at h
  | found between word rest hguid hword hbound ih =>
      intro w hapart h
      cases w with
      | nil => exact List.nil_prefix
      | cons c w =>
          rw [rewritten_reference hword hguid, List.append_assoc, List.append_assoc] at h
          have hw := hapart _ (List.suffix_refl _) (List.cons_ne_nil c w)
          exact ((List.prefix_or_prefix_of_prefix h (List.prefix_append marker _)).elim
            hw.1 hw.2).elim
  | kept c rest hnone ih =>
      intro w hapart h
      cases w with
      | nil => exact List.nil_prefix
      | cons d w =>
          rw [rewritten_of_none hnone, List.cons_prefix_cons] at h
          exact List.cons_prefix_cons.mpr ⟨h.1, ih w hapart.tail h.2⟩

theorem head?_rewritten (l : List Char) : (rewritten words new l).head? = l.head? := by
  refine Scan.head?_sub (proper_reference words) (fun prev w rest h => ?_) none l
  obtain ⟨between, word, rfl, -, hword, -⟩ := reference_found h
  rw [put_eq _ hword.length]
  rfl

theorem head?_of_reference {prev : Option Char} {w rest : List Char}
    (h : reference words prev (w ++ rest) = some w.length) : w.head? = some '-' := by
  obtain ⟨between, word, rfl, -, hword, -⟩ := reference_found h
  rfl

/-- A run of characters that are no dash is kept, and what follows it is rewritten by itself. -/
theorem takeWhile_dropWhile_rewritten {P : Char → Bool} (hP : P '-' = false) (l : List Char) :
    (rewritten words new l).takeWhile P = l.takeWhile P ∧
    (rewritten words new l).dropWhile P = rewritten words new (l.dropWhile P) := by
  have hput : ∀ prev w rest, reference words prev (w ++ rest) = some w.length →
      (put new w).head? = w.head? := by
    intro prev w rest h
    obtain ⟨between, word, rfl, -, hword, -⟩ := reference_found h
    rw [put_eq _ hword.length]
    rfl
  have hhead : ∀ prev w rest, reference words prev (w ++ rest) = some w.length →
      ∀ a ∈ w.head?, P a = false := by
    intro prev w rest h a ha
    rw [head?_of_reference h] at ha
    obtain rfl : '-' = a := Option.some.inj ha
    exact hP
  obtain ⟨htake, prev, hdrop⟩ :=
    Scan.takeWhile_dropWhile_sub (proper_reference words) hput hhead none l
  exact ⟨htake, hdrop.trans (sub_eq_rewritten prev _)⟩

theorem startsGuid_iff_takeWhile {l : List Char} : startsGuid words l = true ↔
    (l.takeWhile isHex).length = 16 ∧ Bounded words (l.dropWhile isHex) := by
  constructor
  · intro h
    obtain ⟨word, rest, rfl, hword, hbound⟩ := startsGuid_iff.mp h
    have hrest : rest.takeWhile isHex = [] ∧ rest.dropWhile isHex = rest := by
      cases rest with
      | nil => exact ⟨rfl, rfl⟩
      | cons c rest =>
          have hc : ¬ isHex c = true := by
            intro hhex
            have hword := hbound c rfl
            rw [isWord_of_isHex words hhex] at hword
            cases hword
          exact ⟨List.takeWhile_cons_of_neg hc, List.dropWhile_cons_of_neg hc⟩
    rw [List.takeWhile_append_of_pos hword.hex, List.dropWhile_append_of_pos hword.hex, hrest.1,
      hrest.2, List.append_nil]
    exact ⟨hword.length, hbound⟩
  · rintro ⟨hlength, hbound⟩
    exact startsGuid_iff.mpr ⟨_, _, List.takeWhile_append_dropWhile.symm,
      ⟨hlength, fun c hc => List.mem_takeWhile_imp hc⟩, hbound⟩

theorem startsGuid_rewritten (l : List Char) :
    startsGuid words (rewritten words new l) = startsGuid words l := by
  rw [Bool.eq_iff_iff, startsGuid_iff_takeWhile, startsGuid_iff_takeWhile]
  obtain ⟨htake, hdrop⟩ :=
    @takeWhile_dropWhile_rewritten words new _ (show isHex '-' = false from rfl) l
  rw [htake, hdrop, Bounded, head?_rewritten, Bounded]

/-- Where no GUID followed on the line, none does once the text is rewritten. -/
theorem toGuid_rewritten {tail : List Char} (h : toGuid words tail = none) :
    toGuid words (rewritten words new tail) = none := by
  induction tail with
  | nil => rwa [rewritten_nil]
  | cons c rest ih =>
      have hkept : reference words none (c :: rest) = none := by
        by_cases hmarker : marker <+: c :: rest
        · obtain ⟨s, hs⟩ := hmarker
          rw [← hs] at h ⊢
          exact reference_marker none s (toGuid_of_append h (by decide))
        · exact reference_eq_none hmarker
      rw [rewritten_of_none hkept]
      rw [toGuid] at h ⊢
      rw [(takeWhile_dropWhile_rewritten (show isSpace '-' = false from rfl) rest).2,
        startsGuid_rewritten]
      split at h
      · cases h
      · rename_i hblank
        rw [if_neg hblank]
        split at h
        · rename_i hline
          rw [if_pos hline]
        · rename_i hline
          rw [if_neg hline, ih (Option.map_eq_none_iff.mp h)]
          rfl

theorem rewritten_again (hnew : IsGuid new) (l : List Char) :
    rewritten words new (rewritten words new l) = rewritten words new l := by
  induction l using rewritten_induction words with
  | nil => rw [rewritten_nil, rewritten_nil]
  | found between word rest hguid hword hbound ih =>
      have hbound' : Bounded words (rewritten words new rest) := by rwa [Bounded, head?_rewritten]
      have hguid' : toGuid words (between ++ new ++ rewritten words new rest)
          = some between.length := by
        rw [List.append_assoc] at hguid ⊢
        exact toGuid_append hguid (startsGuid_iff.mpr ⟨word, rest, rfl, hword, hbound⟩)
          (startsGuid_iff.mpr ⟨new, _, rfl, hnew, hbound'⟩)
      rw [rewritten_reference hword hguid, rewritten_reference hnew hguid', ih]
  | kept c rest hnone ih =>
      have hnone' : reference words none (c :: rewritten words new rest) = none := by
        by_cases hmarker : marker <+: c :: rewritten words new rest
        · rw [marker_eq, List.cons_prefix_cons] at hmarker
          obtain ⟨rfl, hmarker⟩ := hmarker
          obtain ⟨s, rfl⟩ := prefix_of_rewritten rest marker.tail apart_tail_marker hmarker
          have hs : toGuid words s = none := by
            rw [show '-' :: (marker.tail ++ s) = marker ++ s from rfl, reference,
              if_pos (List.prefix_append _ _), List.drop_left] at hnone
            exact Option.map_eq_none_iff.mp hnone
          rw [rewritten_apart apart_tail_marker]
          exact reference_marker none _ (toGuid_rewritten hs)
        · exact reference_eq_none hmarker
      rw [rewritten_of_none hnone, rewritten_of_none hnone', ih]

/-! ### A line -/

/-- A `--fs-uuid` with a GUID after a blank behind it. -/
def HasReference (words : WordChars) (line : List Char) : Prop :=
  ∃ before between rest, line = before ++ marker ++ between ++ rest ∧ EndsBlank between ∧
    startsGuid words rest = true

/-- The first GUID after a blank. -/
structure FirstGuid (words : WordChars) (between rest : List Char) : Prop where
  blank : EndsBlank between
  guid : startsGuid words rest = true
  first : ∀ p q, between = p ++ q → q ≠ [] → EndsBlank p → startsGuid words (q ++ rest) = false

/-- A line and what it becomes: behind its first `--fs-uuid` the first GUID after a blank is the new
one, and so on behind that. -/
inductive Rewritten (words : WordChars) (new : List Char) : List Char → List Char → Prop
  | same {line : List Char} (hnone : ¬ HasReference words line) : Rewritten words new line line
  | reference {before between word rest rest' : List Char}
      (hfirst : ¬ marker <:+: before ++ marker.dropLast) (hword : IsGuid word)
      (hguid : FirstGuid words between (word ++ rest)) (hrest : Rewritten words new rest rest') :
      Rewritten words new (before ++ marker ++ between ++ word ++ rest)
        (before ++ marker ++ between ++ new ++ rest')

theorem firstGuid_of_toGuid {between rest : List Char} (hline : '\n' ∉ between)
    (h : toGuid words (between ++ rest) = some between.length) :
    FirstGuid words between rest := by
  obtain ⟨hblank, hguid⟩ := endsBlank_of_toGuid h
  refine ⟨hblank, hguid, ?_⟩
  rintro p q rfl hq hp
  by_contra hstarts
  rw [Bool.not_eq_false] at hstarts
  obtain ⟨k, hk, hfound⟩ := exists_toGuid hp hstarts fun hmem => hline (List.mem_append_left _ hmem)
  rw [List.append_assoc, hfound, List.length_append, Option.some.injEq] at h
  have hpos := List.length_pos_iff.mpr hq
  omega

theorem reference_ne_none {line : List Char} (hmarker : marker <+: line) (hline : '\n' ∉ line)
    (h : HasReference words line) (prev : Option Char) :
    reference words prev line ≠ none := by
  obtain ⟨before, between, rest, heq, hblank, hguid⟩ := h
  obtain ⟨s, rfl⟩ := hmarker
  have hlength : marker.length < (before ++ marker ++ between).length := by
    obtain ⟨lead, c, rfl, -⟩ := hblank
    simp only [List.length_append, List.length_singleton]
    omega
  have hprefix : marker <+: before ++ marker ++ between :=
    List.prefix_of_prefix_length_le (List.prefix_append marker s)
      (heq ▸ List.prefix_append _ rest) hlength.le
  obtain ⟨p, hp⟩ := hprefix
  have hs : s = p ++ rest := by
    rw [← hp, List.append_assoc] at heq
    exact List.append_cancel_left heq
  have hne : p ≠ [] := by
    rintro rfl
    rw [← hp, List.append_nil] at hlength
    exact absurd hlength (lt_irrefl _)
  have hp' : EndsBlank p := by
    have hwhole : EndsBlank (marker ++ p) := hp ▸ hblank.append (before ++ marker)
    exact hwhole.of_append hne
  obtain ⟨k, -, hfound⟩ := exists_toGuid hp' hguid fun hmem => hline (by rw [hs]; simp [hmem])
  rw [reference, if_pos (List.prefix_append _ _), List.drop_left, hs, hfound]
  simp

theorem rewritten_line (line : List Char) :
    '\n' ∉ line → Rewritten words new line (rewritten words new line) := by
  induction line using rewritten_induction words with
  | nil =>
      intro _
      rw [rewritten_nil]
      refine .same ?_
      rintro ⟨before, between, rest, heq, -⟩
      have hlength := congrArg List.length heq
      simp [marker] at hlength
  | found between word rest hguid hword hbound ih =>
      intro hline
      rw [rewritten_reference hword hguid]
      rw [List.append_assoc] at hguid
      have hbetween : '\n' ∉ between := fun hmem => hline (by simp [hmem])
      exact @Rewritten.reference words new [] _ _ _ _ (by decide) hword
        (firstGuid_of_toGuid hbetween hguid) (ih fun hmem => hline (by simp [hmem]))
  | kept c rest hnone ih =>
      intro hline
      have hkept : HasReference words (c :: rest) → ¬ marker <+: c :: rest :=
        fun href hmarker => reference_ne_none hmarker hline href none hnone
      have hrec := ih fun hmem => hline (List.mem_cons_of_mem _ hmem)
      rw [rewritten_of_none hnone]
      revert hrec
      generalize rewritten words new rest = out
      intro hrec
      cases hrec with
      | same h =>
          refine .same fun href => ?_
          obtain ⟨before, between, tail, heq, hblank, hguid⟩ := href
          cases before with
          | nil =>
              exact hkept ⟨[], between, tail, heq, hblank, hguid⟩
                ⟨between ++ tail, by rw [heq]; simp⟩
          | cons b before =>
              obtain ⟨-, rfl⟩ := List.cons.inj heq
              exact h ⟨before, between, tail, rfl, hblank, hguid⟩
      | @reference before between word tail tail' hfirst hword hguid hrest =>
          refine @Rewritten.reference words new (c :: before) _ _ _ _ ?_ hword hguid hrest
          intro hinfix
          rw [List.cons_append, List.infix_cons_iff] at hinfix
          rcases hinfix with hprefix | hinfix
          · have hwhole : marker <+: c :: (before ++ marker ++ between ++ word ++ tail) := by
              refine hprefix.trans ⟨[marker.getLast (by decide)] ++ between ++ word ++ tail, ?_⟩
              have hlast : marker.dropLast ++ [marker.getLast (by decide)] = marker :=
                List.dropLast_append_getLast _
              rw [← List.cons_append, List.append_assoc, List.append_assoc, List.append_assoc,
                ← List.append_assoc marker.dropLast, hlast]
              simp
            exact hkept ⟨c :: before, between, word ++ tail, by simp, hguid.blank,
              hguid.guid⟩ hwhole
          · exact hfirst hinfix

/-! ### Lines one after the other -/

/-- A `--fs-uuid` with no GUID after a blank behind it on its line, which the text after its line
starts with, blanks apart. -/
def RunsOn (words : WordChars) (text : List Char) : Prop :=
  ∃ before mid rest, text = before ++ marker ++ mid ++ '\n' :: rest ∧ '\n' ∉ mid ∧
    (∀ p q, mid = p ++ q → EndsBlank p → startsGuid words q = false) ∧
    startsGuid words (rest.dropWhile isSpace) = true

theorem toGuid_eq_none {mid : List Char} (h : toGuid words mid = none) (hline : '\n' ∉ mid)
    {p q : List Char} (heq : mid = p ++ q) (hp : EndsBlank p) :
    startsGuid words q = false := by
  by_contra hguid
  rw [Bool.not_eq_false] at hguid
  obtain ⟨k, -, hfound⟩ :=
    exists_toGuid hp hguid fun hmem => hline (heq ▸ List.mem_append_left _ hmem)
  rw [heq, hfound] at h
  cases h

theorem startsGuid_line (q rest : List Char) :
    startsGuid words (q ++ '\n' :: rest) = startsGuid words q := by
  have hnewline : isHex '\n' = false := rfl
  rw [Bool.eq_iff_iff, startsGuid_iff_takeWhile, startsGuid_iff_takeWhile]
  have htake : (q ++ '\n' :: rest).takeWhile isHex = q.takeWhile isHex := by
    rw [List.takeWhile_append]
    split
    · rename_i hall
      rw [List.takeWhile_cons_of_neg (by simp [hnewline]), List.append_nil]
      exact (List.takeWhile_prefix isHex |>.eq_of_length hall).symm
    · rfl
  rw [htake, List.dropWhile_append]
  refine and_congr_right fun _ => ?_
  split
  · rename_i hnil
    have hword : words.isWord '\n' = false := words.ascii '\n' (by decide)
    rw [List.dropWhile_cons_of_neg (by simp [hnewline]), List.isEmpty_iff.mp hnil]
    simp [Bounded, hword]
  · rename_i hne
    rw [Bounded, Bounded, List.head?_append_of_ne_nil _ (by simpa using hne)]

theorem toGuid_of_blank {s : List Char} (h : ∀ d ∈ s, isSpace d = true) :
    toGuid words s = none := by
  induction s with
  | nil => rfl
  | cons c s ih =>
      have hs : ∀ d ∈ s, isSpace d = true := fun d hd => h d (List.mem_cons_of_mem _ hd)
      rw [toGuid, List.dropWhile_eq_nil_iff.mpr hs, startsGuid_nil, ih hs]
      simp

/-- What follows a line does not matter to what is found on it, unless the search runs on. -/
theorem toGuid_line {s rest : List Char} (hline : '\n' ∉ s)
    (h : toGuid words s ≠ none ∨ startsGuid words (rest.dropWhile isSpace) = false) :
    toGuid words (s ++ '\n' :: rest) = toGuid words s := by
  have hspace : isSpace '\n' = true := rfl
  induction s with
  | nil =>
      have hno : startsGuid words (rest.dropWhile isSpace) = false :=
        h.resolve_left fun hne => hne rfl
      simp [toGuid, hno]
  | cons c s ih =>
      have hc : c ≠ '\n' := fun heq => hline (heq ▸ List.mem_cons_self)
      have hs : '\n' ∉ s := fun hmem => hline (List.mem_cons_of_mem _ hmem)
      rw [List.cons_append, toGuid, toGuid, if_neg hc, if_neg hc]
      by_cases hall : ∀ d ∈ s, isSpace d = true
      · have hnone : toGuid words (c :: s) = none := by
          rw [toGuid, List.dropWhile_eq_nil_iff.mpr hall, startsGuid_nil, toGuid_of_blank hall]
          simp
        have hno : startsGuid words (rest.dropWhile isSpace) = false :=
          h.resolve_left fun hne => hne hnone
        rw [List.dropWhile_append_of_pos hall, List.dropWhile_cons_of_pos hspace, hno,
          List.dropWhile_eq_nil_iff.mpr hall, startsGuid_nil, ih hs (.inr hno)]
        simp
      · have hne : s.dropWhile isSpace ≠ [] := fun hnil => hall (List.dropWhile_eq_nil_iff.mp hnil)
        have htake : (s ++ '\n' :: rest).takeWhile isSpace = s.takeWhile isSpace := by
          rw [List.takeWhile_append, if_neg]
          intro hlength
          exact hall fun d hd => List.mem_takeWhile_imp
            (((List.takeWhile_prefix isSpace).eq_of_length hlength).symm ▸ hd)
        have hdrop : (s ++ '\n' :: rest).dropWhile isSpace = s.dropWhile isSpace ++
            '\n' :: rest := by
          rw [List.dropWhile_append, if_neg]
          rwa [List.isEmpty_iff]
        rw [hdrop, startsGuid_line, htake]
        split
        · rfl
        · rename_i hcond
          refine congrArg _ (ih hs (h.imp_left fun hsome hnone => hsome ?_))
          rw [toGuid, if_neg hcond, if_neg hc, hnone]
          rfl

theorem marker_prefix_line {s rest : List Char} : marker <+: s ++ '\n' :: rest ↔ marker <+: s := by
  refine ⟨fun h => ?_, fun h => h.trans (List.prefix_append _ _)⟩
  rcases List.prefix_or_prefix_of_prefix h (List.prefix_append s _) with hs | hs
  · exact hs
  · obtain ⟨more, hmore⟩ := hs
    cases more with
    | nil => exact ⟨[], by rw [List.append_nil, ← hmore, List.append_nil]⟩
    | cons c more =>
        rw [← hmore, List.prefix_append_right_inj, List.cons_prefix_cons] at h
        have hmem : '\n' ∈ marker := by
          rw [← hmore, ← h.1]
          simp
        exact absurd hmem (by decide)

/-- A line is rewritten apart from the next, where the search does not run on. -/
theorem rewritten_append {line rest : List Char} (hline : '\n' ∉ line)
    (h : ¬ RunsOn words (line ++ '\n' :: rest)) :
    rewritten words new (line ++ '\n' :: rest) = rewritten words new line ++
      '\n' :: rewritten words new rest := by
  have hapart : ∀ s, s <:+ line → s ≠ [] →
      ∀ prev, reference words prev (s ++ '\n' :: rest) = reference words prev s := by
    rintro s ⟨before, rfl⟩ - prev
    by_cases hmarker : marker <+: s
    · obtain ⟨mid, rfl⟩ := hmarker
      have hmid : '\n' ∉ mid := fun hmem => hline (by simp [hmem])
      have hruns : toGuid words mid ≠ none ∨ startsGuid words (rest.dropWhile isSpace) = false := by
        by_contra hneither
        rw [not_or, not_not, Bool.not_eq_false] at hneither
        exact h ⟨before, mid, rest, by simp, hmid, fun p q heq hp =>
          toGuid_eq_none hneither.1 hmid heq hp, hneither.2⟩
      rw [List.append_assoc, reference, if_pos (List.prefix_append _ _), List.drop_left,
        toGuid_line hmid hruns, reference, if_pos (List.prefix_append _ _), List.drop_left]
    · rw [reference_eq_none hmarker, reference_eq_none (mt marker_prefix_line.mp hmarker)]
  obtain ⟨prev, hsub⟩ := @Scan.sub_append _ _ (put new) (proper_reference words) _ _ hapart none
  have hnewline : reference words none ('\n' :: rest) = none := reference_eq_none (by simp [marker])
  rw [rewritten, hsub, sub_eq_rewritten, sub_eq_rewritten, rewritten_of_none hnewline]

theorem rewritten_lines : ∀ {lines : List (List Char)}, (∀ line ∈ lines, '\n' ∉ line) →
    ¬ RunsOn words (['\n'].intercalate lines) →
    rewritten words new (['\n'].intercalate lines) = ['\n'].intercalate
      (lines.map (rewritten words new))
  | [], _, _ => rewritten_nil
  | [line], _, _ => by simp
  | line :: next :: lines, hlines, h => by
      have htext : ['\n'].intercalate (line :: next :: lines) = line ++ '\n' :: ['\n'].intercalate
          (next :: lines) := by
        rw [List.intercalate_cons_cons, List.append_assoc, List.singleton_append]
      rw [htext] at h
      have hrest : ¬ RunsOn words (['\n'].intercalate (next :: lines)) := by
        rintro ⟨before, mid, rest, heq, hmid, hnone, hguid⟩
        exact h ⟨line ++ '\n' :: before, mid, rest, by rw [heq]; simp, hmid, hnone, hguid⟩
      rw [htext, rewritten_append (hlines line List.mem_cons_self) h,
        rewritten_lines (fun l hl => hlines l (List.mem_cons_of_mem _ hl)) hrest, List.map_cons,
        List.map_cons, List.map_cons, List.intercalate_cons_cons, List.append_assoc,
        List.singleton_append]

/-! ### The file -/

theorem fixed_cases (file new : List Char) : fixed words file new = file ∧
    rewritten words new (universalNewlines file) = universalNewlines file ∨
    fixed words file new = rewritten words new (universalNewlines file) := by
  have hkept : (∀ w ∈ Scan.findAll (reference words) none (universalNewlines file),
      (groups w).2 = new) →
      rewritten words new (universalNewlines file) = universalNewlines file := fun h =>
    Scan.sub_eq_self_of_findAll (proper_reference words) none _ fun w hw => if_pos (h w hw)
  rw [fixed, fixGrubBpoolUuid]
  split
  · rename_i hnone
    rw [List.map_eq_nil_iff] at hnone
    exact .inl ⟨rfl, hkept (by simp [hnone])⟩
  · split
    · rename_i hold
      refine .inl ⟨rfl, hkept fun w hw => ?_⟩
      have hno := List.filter_eq_nil_iff.mp hold (groups w).2 (List.mem_map_of_mem hw)
      simpa using hno
    · exact .inr rfl

theorem fixed_eq {file : List Char} (h : '\r' ∉ file) (new : List Char) :
    fixed words file new = rewritten words new file := by
  rcases @fixed_cases words file new with ⟨heq, hkept⟩ | heq
  · rw [universalNewlines_eq_self h] at hkept
    rw [heq, hkept]
  · rw [heq, universalNewlines_eq_self h]

theorem mem_of_mem_rewritten {c : Char} (l : List Char) :
    c ∈ rewritten words new l → c ∈ l ∨ c ∈ new := by
  induction l using rewritten_induction words with
  | nil =>
      intro h
      rw [rewritten_nil] at h
      exact .inl h
  | found between word rest hguid hword hbound ih =>
      intro h
      rw [rewritten_reference hword hguid] at h
      simp only [List.mem_append] at h ⊢
      rcases h with ((h | h) | h) | h
      · exact .inl (.inl (.inl (.inl h)))
      · exact .inl (.inl (.inl (.inr h)))
      · exact .inr h
      · exact (ih h).imp_left .inr
  | kept d rest hnone ih =>
      intro h
      rw [rewritten_of_none hnone] at h
      rcases List.mem_cons.mp h with rfl | h
      · exact .inl List.mem_cons_self
      · exact (ih h).imp_left (List.mem_cons_of_mem _)

theorem not_mem_of_isGuid (hnew : IsGuid new) {c : Char} (h : isHex c = false) : c ∉ new := by
  intro hmem
  rw [hnew.hex c hmem] at h
  cases h

theorem fixed_again (words : WordChars) (hnew : IsGuid new) (file : List Char) :
    fixed words (fixed words file new) new = fixed words file new := by
  rcases @fixed_cases words file new with ⟨heq, -⟩ | heq
  · rw [heq, heq]
  · have hreturn : '\r' ∉ rewritten words new (universalNewlines file) := fun hmem =>
      (mem_of_mem_rewritten _ hmem).elim (return_not_mem_universalNewlines file)
        (not_mem_of_isGuid hnew rfl)
    rw [heq, fixed_eq hreturn, rewritten_again hnew]

theorem Rewritten.eq_of_none {line line' : List Char} (h : Rewritten words new line line')
    (hmarker : ¬ marker <:+: line) : line' = line := by
  cases h with
  | same => rfl
  | @reference before between word rest rest' =>
      exact absurd ⟨before, between ++ word ++ rest, by simp⟩ hmarker

/-- In a `grub.cfg` of lines that end with `\n`, where no search runs on from a line to the next, on
every line each reference is given the new GUID and nothing else changes, and a line without
`--fs-uuid` is as it was. Of any text, a second run changes nothing. -/
theorem references_fixed (words : WordChars) {new : List Char} (hnew : IsGuid new) :
    (∀ file, '\r' ∉ file → ¬ RunsOn words file →
      List.Forall₂ (fun line line' => Rewritten words new line line' ∧
        (¬ marker <:+: line → line' = line)) (file.splitOn '\n')
        ((fixed words file new).splitOn '\n')) ∧
      ∀ file, fixed words (fixed words file new) new = fixed words file new := by
  refine ⟨fun file hreturn hruns => ?_, fixed_again words hnew⟩
  have hlines : ∀ line ∈ file.splitOn '\n', '\n' ∉ line :=
    fun line hline => not_mem_of_mem_splitOn hline
  have htext : ['\n'].intercalate (file.splitOn '\n') = file := List.intercalate_splitOn '\n'
  have hfixed : fixed words file new = ['\n'].intercalate
      ((file.splitOn '\n').map (rewritten words new)) := by
    rw [fixed_eq hreturn, ← rewritten_lines hlines (by rwa [htext]), htext]
  have hlines' : ∀ line ∈ (file.splitOn '\n').map (rewritten words new), '\n' ∉ line := by
    intro line hline hmem
    obtain ⟨source, hsource, rfl⟩ := List.mem_map.mp hline
    exact (mem_of_mem_rewritten source hmem).elim (hlines source hsource)
      (not_mem_of_isGuid hnew rfl)
  rw [hfixed, List.splitOn_intercalate _ hlines' (by simp), List.forall₂_map_right_iff,
    List.forall₂_same]
  intro line hline
  have hrewritten := @rewritten_line words new line (hlines line hline)
  exact ⟨hrewritten, hrewritten.eq_of_none⟩

/-- ASCII's words. -/
def asciiWords : WordChars := ⟨fun c => c.isAlphanum || c == '_', fun _ _ => rfl⟩

def ones : List Char := List.replicate 16 '1'

theorem isGuid_ones : IsGuid ones := ⟨by decide, by decide⟩

def searchFile : List Char :=
  "search --fs-uuid --set=root --hint-bios=hd0,gpt3  0123456789abcdef\n\tlinux /vmlinuz\n".toList

/-- A `--fs-uuid` whose own word is no GUID, before a line that starts with one. -/
def runOnFile : List Char :=
  "search --fs-uuid --set=root 1A2B-3C4D\n0123456789abcdef menuentry\n".toList

/-- A line that ends with a return, before a reference. -/
def returnFile : List Char := "set timeout=5\r\nsearch --fs-uuid aaaaaaaaaaaaaaaa\n".toList

theorem references_fixed_search :
    List.Forall₂ (fun line line' => Rewritten asciiWords ones line line' ∧
      (¬ marker <:+: line → line' = line)) (searchFile.splitOn '\n')
      ((fixed asciiWords searchFile ones).splitOn '\n') ∧
    fixed asciiWords (fixed asciiWords runOnFile ones) ones = fixed asciiWords runOnFile ones := by
  obtain ⟨hlines, hagain⟩ := references_fixed asciiWords isGuid_ones
  refine ⟨hlines searchFile (by decide) ?_, hagain runOnFile⟩
  rintro ⟨before, mid, rest, heq, -, -, hguid⟩
  have hall : ∀ t ∈ searchFile.tails, t.head? = some '\n' →
      startsGuid asciiWords (t.tail.dropWhile isSpace) = false := by decide +kernel
  have hno := hall ('\n' :: rest) ((List.mem_tails _ _).mpr ⟨before ++ marker ++ mid, heq.symm⟩) rfl
  rw [List.tail_cons, hguid] at hno
  cases hno

/-- Every reference of a line is given the new GUID, not the first alone; a search that runs on
changes a line without `--fs-uuid`, and a rewrite takes the return off another. -/
theorem fixed_beyond_references :
    fixed asciiWords "search --fs-uuid aaaaaaaaaaaaaaaa --fs-uuid bbbbbbbbbbbbbbbb".toList ones =
        "search --fs-uuid 1111111111111111 --fs-uuid 1111111111111111".toList ∧
      fixed asciiWords runOnFile ones =
        "search --fs-uuid --set=root 1A2B-3C4D\n1111111111111111 menuentry\n".toList ∧
      fixed asciiWords returnFile ones =
        "set timeout=5\nsearch --fs-uuid 1111111111111111\n".toList := by
  decide +kernel

end Zark.GrubUuid
