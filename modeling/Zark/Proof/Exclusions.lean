import Zark.Exclusions
import Zark.Library.Rows

/-!
# Protected datasets are never left out

An accepted exclusion is one `neverExcluded` allows, and that looks at the whole subtree, so no
dataset that must be backed up lies at or below an accepted top. The tops in effect are the
topmost accepted ones of each flag, and cover what those cover. Every value read is in effect,
says what holds anyway, or is reported; a value that holds a tab is not read, for its line has more
than three fields.
-/

namespace Zark

open Hierarchy

/-! ### The nearest top -/

/-- What `covering` gives: the longest of the tops above `rel`. -/
def IsNearest (rel : Rel) (tops : List Rel) : Option Rel → Prop
  | none => ∀ u ∈ tops, Under rel u → u.text = ""
  | some t =>
      t ∈ tops ∧ Under rel t ∧ t.text ≠ "" ∧ ∀ u ∈ tops, Under rel u → u.text.length ≤ t.text.length

theorem isNearest_covering (rel : Rel) (tops : List Rel) :
    IsNearest rel tops (covering rel tops) := by
  induction tops using List.reverseRecOn with
  | nil => exact fun u hu => absurd hu List.not_mem_nil
  | append_singleton tops top ih =>
      have hstep : covering rel (tops ++ [top]) =
          if Under rel top ∧ ((covering rel tops).elim 0 fun b => (Rel.text b).length)
            < top.text.length then some top
          else covering rel tops := by
        rw [covering, List.foldl_append]
        rfl
      rw [hstep]
      split
      · rename_i h
        obtain ⟨hunder, hlt⟩ := h
        refine ⟨by simp, hunder, ?_, ?_⟩
        · intro hempty
          rw [hempty] at hlt
          exact Nat.not_lt_zero _ hlt
        · intro u hu hrel
          rw [List.mem_append, List.mem_singleton] at hu
          obtain hu | rfl := hu
          · cases hc : covering rel tops with
            | none =>
                rw [hc] at ih
                rw [ih u hu hrel]
                exact Nat.zero_le _
            | some t =>
                rw [hc] at ih hlt
                exact (ih.2.2.2 u hu hrel).trans hlt.le
          · exact le_rfl
      · rename_i h
        rw [not_and] at h
        cases hc : covering rel tops with
        | none =>
            rw [hc] at ih h
            intro u hu hrel
            rw [List.mem_append, List.mem_singleton] at hu
            obtain hu | rfl := hu
            · exact ih u hu hrel
            · have := h hrel
              exact String.length_eq_zero_iff.mp (by simpa using this)
        | some t =>
            rw [hc] at ih h
            refine ⟨List.mem_append_left _ ih.1, ih.2.1, ih.2.2.1, fun u hu hrel => ?_⟩
            rw [List.mem_append, List.mem_singleton] at hu
            obtain hu | rfl := hu
            · exact ih.2.2.2 u hu hrel
            · exact not_lt.mp (h hrel)

theorem covering_eq_none_iff {rel : Rel} {tops : List Rel} :
    covering rel tops = none ↔ ∀ u ∈ tops, Under rel u → u.text = "" := by
  have h := isNearest_covering rel tops
  constructor
  · intro hc
    rwa [hc] at h
  · intro hall
    cases hc : covering rel tops with
    | none => rfl
    | some t =>
        rw [hc] at h
        exact absurd (hall t h.1 h.2.1) h.2.2.1

/-- The top `covering` gives lies at or below every other top above the name. -/
theorem covering_eq_some {rel t : Rel} {tops : List Rel} (h : covering rel tops = some t) :
    t ∈ tops ∧ Under rel t ∧ ∀ u ∈ tops, Under rel u → Under t u := by
  have hnear := isNearest_covering rel tops
  rw [h] at hnear
  obtain ⟨hmem, hunder, hne, hmax⟩ := hnear
  refine ⟨hmem, hunder, fun u hu hrel => ?_⟩
  obtain htu | hut := under_or_under hunder hrel
  · exact htu
  · by_cases heq : u = t
    · exact heq ▸ List.prefix_rfl
    · have hlen := hmax u hu hrel
      exact absurd (text_length_lt hut heq hne) (by omega)

/-- With no empty name among them, the minimal tops are the topmost ones. -/
theorem minimal_eq_topmost {rels : List Rel} (h : ∀ t ∈ rels, t.text ≠ "") :
    minimal rels = topmost rels := by
  refine List.filter_congr fun r _ => ?_
  rw [Bool.eq_iff_iff, Option.isNone_iff_eq_none, covering_eq_none_iff, Bool.not_eq_true',
    ← Bool.not_eq_true, covered_iff]
  simp only [List.mem_filter, not_exists, not_and]
  exact ⟨fun hall u hu hunder => h u hu.1 (hall u hu hunder), fun hall u hu hunder =>
    absurd hunder (hall u hu)⟩

/-! ### The values that are read -/

/-- A property line names a dataset: its first field holds something. -/
def NamesDatasets (lines : List String) : Prop := ∀ line ∈ lines, line.toList.head? ≠ some '\t'

/-- A line that sets a property of a dataset: the name, the property and, after a second tab, the
value. -/
def Sets (line : String) (rel : Rel) (flag : Flag) (value : String) : Prop :=
  ∃ name, Rel.ofText name = rel ∧ (∀ c ∈ name.toList, c ≠ '\t' ∧ c ≠ '@' ∧ c ≠ '#') ∧
    line = name ++ "\t" ++ flag.prop ++ "\t" ++ value

/-- The value that stands for a property of a dataset: that of the last line that sets it. -/
def LastSet (lines : List String) (rel : Rel) (flag : Flag) (value : String) : Prop :=
  ∃ before line after, lines = before ++ line :: after ∧ Sets line rel flag value ∧
    ∀ l ∈ after, ∀ v, ¬Sets l rel flag v

theorem row_of_sets {line : String} {rel : Rel} {flag : Flag} {v : String}
    (h : Sets line rel flag v) :
    ∃ name, Rel.ofText name = rel ∧ (∀ c ∈ name.toList, c ≠ '\t' ∧ c ≠ '@' ∧ c ≠ '#') ∧
      line.toList = Text.row [name.toList, flag.prop.toList, v.toList] := by
  obtain ⟨name, hrel, hname, rfl⟩ := h
  refine ⟨name, hrel, hname, ?_⟩
  simp [Text.row, List.intercalate, List.intersperse]

theorem tab_not_mem_prop (flag : Flag) : '\t' ∉ flag.prop.toList := by
  cases flag <;> decide

theorem flagOf_prop (flag : Flag) : flagOf flag.prop = some flag := by
  cases flag <;> decide

theorem flagOf_eq_some {prop : String} {flag : Flag} (h : flagOf prop = some flag) :
    prop = flag.prop := by
  unfold flagOf at h
  split_ifs at h with hreplicate hsnapshot <;> cases h
  · exact hreplicate
  · exact hsnapshot

theorem valueLine_iff {line : String} {rel : Rel} {flag : Flag} {v : String} :
    valueLine line = some (rel, flag, v) ↔ Sets line rel flag v ∧ '\t' ∉ v.toList := by
  constructor
  · intro h
    unfold valueLine at h
    split at h
    · rename_i name prop value hsplit
      split at h
      · cases h
      · rename_i hplain
        obtain ⟨f, hf, heq⟩ := Option.map_eq_some_iff.mp h
        cases heq
        obtain rfl := flagOf_eq_some hf
        have hfields : line.toList.splitOn '\t' = [name.toList, flag.prop.toList, v.toList] := by
          have := congrArg (List.map String.toList) hsplit
          rwa [List.map_map, show String.toList ∘ String.ofList = id from funext fun l =>
            String.toList_ofList, List.map_id] at this
        have hfree : ∀ f ∈ [name.toList, flag.prop.toList, v.toList], '\t' ∉ f := fun f hf =>
          Text.not_mem_of_mem_splitOn (hfields ▸ hf)
        rw [Bool.or_eq_true, List.contains_iff_mem, List.contains_iff_mem, not_or] at hplain
        refine ⟨⟨name, rfl, fun c hc => ⟨?_, ?_, ?_⟩, ?_⟩, hfree _ (by simp)⟩
        · exact fun heq => hfree _ List.mem_cons_self (heq ▸ hc)
        · exact fun heq => hplain.1 (heq ▸ hc)
        · exact fun heq => hplain.2 (heq ▸ hc)
        · apply String.toList_injective
          have hjoin := @List.intercalate_splitOn Char line.toList _ _ '\t'
          rw [hfields] at hjoin
          rw [← hjoin]
          simp [List.intercalate, List.intersperse]
    · cases h
  · rintro ⟨h, htab⟩
    obtain ⟨name, hrel, hname, hline⟩ := row_of_sets h
    have hsplit : line.toList.splitOn '\t' = [name.toList, flag.prop.toList, v.toList] := by
      rw [hline, Text.splitOn_row (by simp)]
      intro f hf
      rw [List.mem_cons, List.mem_cons, List.mem_singleton] at hf
      obtain rfl | rfl | rfl := hf
      · exact fun hc => (hname _ hc).1 rfl
      · exact tab_not_mem_prop flag
      · exact htab
    have hplain : ¬(name.toList.contains '@' || name.toList.contains '#') = true := by
      rw [Bool.or_eq_true, List.contains_iff_mem, List.contains_iff_mem, not_or]
      exact ⟨fun hc => (hname _ hc).2.1 rfl, fun hc => (hname _ hc).2.2 rfl⟩
    rw [valueLine, hsplit]
    simp only [List.map_cons, List.map_nil, String.ofList_toList]
    rw [if_neg hplain, flagOf_prop, hrel]
    rfl

theorem tab_not_mem_of_count {line : String} {rel : Rel} {flag : Flag} {v : String}
    (hline : line.toList.count '\t' ≤ 2) (h : Sets line rel flag v) : '\t' ∉ v.toList := by
  obtain ⟨name, -, -, rfl⟩ := h
  rw [← List.count_pos_iff]
  simp only [String.toList_append, List.count_append,
    show "\t".toList.count '\t' = 1 from rfl] at hline
  omega

/-- The value a line gives a property of a dataset. -/
def valueFor (rel : Rel) (flag : Flag) (line : String) : Option String :=
  (valueLine line).bind fun found =>
    if found.1 = rel ∧ found.2.1 = flag then some found.2.2 else none

theorem valueFor_eq_some_iff {rel : Rel} {flag : Flag} {line v : String} :
    valueFor rel flag line = some v ↔ valueLine line = some (rel, flag, v) := by
  rw [valueFor, Option.bind_eq_some_iff]
  constructor
  · rintro ⟨⟨name, f, value⟩, hline, h⟩
    dsimp only at h
    split_ifs at h with hsame
    obtain ⟨rfl, rfl⟩ := hsame
    cases h
    exact hline
  · intro h
    exact ⟨_, h, if_pos ⟨rfl, rfl⟩⟩

/-- The value the lines give a property of a dataset: the last one read. -/
def lastRead (lines : List String) (rel : Rel) (flag : Flag) : Option String :=
  lines.reverse.findSome? (valueFor rel flag)

/-- A value that stands is the last one read, unless it holds a tab. -/
theorem lastRead_of_lastSet {lines : List String} {rel : Rel} {flag : Flag} {v : String}
    (h : LastSet lines rel flag v) (htab : '\t' ∉ v.toList) : lastRead lines rel flag = some v := by
  obtain ⟨before, line, after, rfl, hsets, hlast⟩ := h
  have hnone : after.reverse.findSome? (valueFor rel flag) = none := by
    rw [List.findSome?_eq_none_iff]
    intro l hl
    rw [← Option.not_isSome_iff_eq_none, Option.isSome_iff_exists]
    rintro ⟨value, hvalue⟩
    exact hlast l (List.mem_reverse.mp hl) value
      (valueLine_iff.mp (valueFor_eq_some_iff.mp hvalue)).1
  rw [lastRead, List.reverse_append, List.reverse_cons, List.append_assoc, List.findSome?_append,
    hnone, Option.none_or, List.singleton_append, List.findSome?_cons,
    valueFor_eq_some_iff.mpr (valueLine_iff.mpr ⟨hsets, htab⟩)]

theorem values_concat (lines : List String) (line : String) :
    values (lines ++ [line]) = addLine (values lines) line := by
  rw [values, List.foldl_append]
  rfl

theorem lastRead_concat (lines : List String) (line : String) (rel : Rel) (flag : Flag) :
    lastRead (lines ++ [line]) rel flag = (valueFor rel flag line).or
      (lastRead lines rel flag) := by
  rw [lastRead, List.reverse_append, List.reverse_singleton, List.singleton_append,
    List.findSome?_cons]
  cases valueFor rel flag line <;> rfl

@[simp] theorem Setting.rel_set (s : Setting) (flag : Flag) (v : String) :
    (s.set flag v).rel = s.rel := by
  cases flag <;> rfl

theorem Setting.value_set (s : Setting) (flag f : Flag) (v : String) :
    (s.set flag v).value f = if f = flag then some v else s.value f := by
  cases flag <;> cases f <;> rfl

theorem value_values (lines : List String) (rel : Rel) (flag : Flag) :
    ((values lines).get? rel).bind (·.value flag) = lastRead lines rel flag := by
  induction lines using List.reverseRecOn with
  | nil => rfl
  | append_singleton lines line ih =>
      rw [values_concat, lastRead_concat, ← ih, addLine, valueFor]
      cases hline : valueLine line with
      | none => rfl
      | some found =>
          obtain ⟨name, prop, v⟩ := found
          dsimp only [Option.bind_some]
          by_cases hname : rel = name
          · subst hname
            have hrel : ((((values lines).get? rel).getD { rel }).set prop v).rel = rel := by
              rw [Setting.rel_set]
              cases hget : (values lines).get? rel with
              | none => rfl
              | some s => exact Keyed.key_of_get? hget
            have hput :=
              Keyed.get?_put_self (s := values lines)
                (a := (((values lines).get? rel).getD { rel }).set prop v)
            rw [hrel] at hput
            rw [hput, Option.bind_some, Setting.value_set]
            by_cases hflag : flag = prop
            · rw [if_pos hflag, if_pos ⟨rfl, hflag.symm⟩]
              rfl
            · rw [if_neg hflag, if_neg fun h => hflag h.2.symm]
              cases (values lines).get? rel with
              | none => cases flag <;> rfl
              | some s => rfl
          · rw [Keyed.get?_put_of_ne, if_neg fun h => hname h.1.symm]
            · rfl
            · rw [Setting.rel_set]
              cases hget : (values lines).get? name with
              | none => exact hname
              | some s => exact fun h => hname (h.trans (Keyed.key_of_get? hget))

theorem exists_line_of_mem_values {lines : List String} {s : Setting} (h : s ∈ values lines) :
    ∃ line ∈ lines, ∃ flag v, valueLine line = some (s.rel, flag, v) := by
  induction lines using List.reverseRecOn generalizing s with
  | nil => exact absurd h List.not_mem_nil
  | append_singleton lines line ih =>
      rw [values_concat, addLine] at h
      have hold : s ∈ values lines → ∃ l ∈ lines ++ [line], ∃ flag v,
          valueLine l = some (s.rel, flag, v) := by
        intro hs
        obtain ⟨l, hl, hvalue⟩ := ih hs
        exact ⟨l, List.mem_append_left _ hl, hvalue⟩
      cases hline : valueLine line with
      | none =>
          rw [hline] at h
          exact hold h
      | some found =>
          obtain ⟨name, prop, v⟩ := found
          rw [hline] at h
          obtain ⟨hs, -⟩ | hs := Keyed.mem_put.mp h
          · exact hold hs
          · refine ⟨line, by simp, prop, v, ?_⟩
            rw [hs, Setting.rel_set, hline]
            cases hget : (values lines).get? name with
            | none => rfl
            | some old => rw [Option.getD_some, Keyed.key_of_get? hget]

theorem text_ne_empty_of_valueLine {line : String} {rel : Rel} {flag : Flag} {v : String}
    (h : valueLine line = some (rel, flag, v)) (hline : line.toList.head? ≠ some '\t') :
    rel.text ≠ "" := by
  unfold valueLine at h
  split at h
  · rename_i name prop value hsplit
    split at h
    · cases h
    · obtain ⟨f, -, hf⟩ := Option.map_eq_some_iff.mp h
      cases hf
      rw [text_ofText]
      rintro rfl
      have hjoin := @List.intercalate_splitOn Char line.toList _ _ '\t'
      obtain ⟨a, rest, hcons⟩ := List.exists_cons_of_ne_nil (List.splitOn_ne_nil '\t' line.toList)
      rw [hcons, List.map_cons, List.cons.injEq] at hsplit
      have ha : a = [] := by
        rw [← String.toList_ofList (l := a), hsplit.1]
        rfl
      obtain ⟨b, rest', rfl⟩ : ∃ b rest', rest = b :: rest' := by
        cases rest with
        | nil => exact absurd hsplit.2 (by simp)
        | cons b rest' => exact ⟨b, rest', rfl⟩
      rw [hcons, ha] at hjoin
      rw [← hjoin] at hline
      exact hline rfl
  · cases h

theorem text_ne_empty_of_mem_values {lines : List String}
    (hnames : NamesDatasets lines) {s : Setting} (h : s ∈ values lines) : s.rel.text ≠ "" := by
  obtain ⟨line, hline, flag, v, hvalue⟩ := exists_line_of_mem_values h
  exact text_ne_empty_of_valueLine hvalue (hnames line hline)

/-! ### What is accepted -/

/-- A dataset of the kinds zark must always back up or keep to itself. -/
def Protected (rel : Rel) : Prop :=
  Under rel ["rpool", "ROOT"] ∨ isBpool rel = true ∨ Under rel keystore ∨ rel ∈ structural ∨
    isArchived rel = true

theorem isSome_ruledOut {rel : Rel} (h : Protected rel) (o : Option Origin) :
    (ruledOut rel o).isSome = true := by
  unfold ruledOut
  split_ifs with hroot hbpool hkeys hstruct hvolume harchived
  all_goals try rfl
  obtain h | h | h | h | h := h
  · exact absurd h hroot
  · exact absurd h hbpool
  · exact absurd h hkeys
  · exact absurd (List.contains_iff_mem.mpr h) hstruct
  · exact absurd h harchived

/-- What may be excluded holds no protected dataset of origin. -/
theorem not_under_of_neverExcluded {top rel : Rel} {origin : Origins}
    (h : neverExcluded top origin = none) (hrel : rel ∈ origin.keys) (hprotected : Protected rel) :
    ¬Under rel top := by
  intro hunder
  unfold neverExcluded at h
  split at h
  · cases h
  · rename_i hruled
    rw [Option.map_eq_none_iff, List.find?_eq_none] at h
    by_cases heq : rel = top
    · have hsome := isSome_ruledOut hprotected (origin.get? top)
      rw [heq, hruled] at hsome
      cases hsome
    · have := h rel (mem_sortRels.mpr hrel)
      simp [heq, hunder, isSome_ruledOut hprotected] at this

theorem mem_sortedSettings {found : Keyed Setting.rel} {s : Setting} :
    s ∈ (sortedSettings found).items ↔ s ∈ found :=
  List.mem_insertionSort _

theorem mem_parse_tops {lines : List String} {origin : Origins} {e : Exclusion} :
    e ∈ (parse lines origin).tops ↔ ∃ s ∈ values lines, accepted s origin = some e := by
  rw [Keyed.mem_def, parse, List.mem_filterMap]
  simp only [mem_sortedSettings]

theorem mem_flagged {d : Declared} {flag : Flag} {t : Rel} :
    t ∈ d.flagged flag ↔ ∃ e ∈ d.tops, e.has flag = true ∧ e.top = t := by
  simp only [Declared.flagged, List.mem_map, List.mem_filter, and_assoc, Keyed.mem_def]

theorem nodup_flagged (d : Declared) (flag : Flag) : (d.flagged flag).Nodup :=
  d.tops.nodup.sublist (List.filter_sublist.map _)

theorem text_ne_empty_of_mem_tops {lines : List String} (hnames : NamesDatasets lines)
    {origin : Origins} {e : Exclusion} (he : e ∈ (parse lines origin).tops) : e.top.text ≠ "" := by
  obtain ⟨s, hs, hacc⟩ := mem_parse_tops.mp he
  obtain ⟨-, -, rfl⟩ := accepted_eq_some_iff.mp hacc
  exact text_ne_empty_of_mem_values hnames hs

theorem minimalTops_parse {lines : List String} (hnames : NamesDatasets lines) (origin : Origins)
    (flag : Flag) :
    (parse lines origin).minimalTops flag = topmost ((parse lines origin).flagged flag) := by
  refine minimal_eq_topmost fun t ht => ?_
  obtain ⟨e, he, -, rfl⟩ := mem_flagged.mp ht
  exact text_ne_empty_of_mem_tops hnames he

theorem antichain_minimalTops {lines : List String} (hnames : NamesDatasets lines)
    (origin : Origins) (flag : Flag) :
    Antichain ((parse lines origin).minimalTops flag) := by
  rw [minimalTops_parse hnames]
  exact antichain_topmost (nodup_flagged _ flag)

theorem covered_minimalTops {lines : List String} (hnames : NamesDatasets lines) {origin : Origins}
    {flag : Flag} {rel : Rel} :
    covered rel ((parse lines origin).minimalTops flag) = true ↔
      ∃ e ∈ (parse lines origin).tops, e.has flag = true ∧ Under rel e.top := by
  rw [minimalTops_parse hnames, covered_topmost, covered_iff]
  constructor
  · rintro ⟨t, ht, hunder⟩
    obtain ⟨e, he, hflag, rfl⟩ := mem_flagged.mp ht
    exact ⟨e, he, hflag, hunder⟩
  · rintro ⟨e, he, hflag, hunder⟩
    exact ⟨e.top, mem_flagged.mpr ⟨e, he, hflag, rfl⟩, hunder⟩

/-- No protected dataset of origin lies at or below an accepted top. -/
theorem not_covered_of_protected {lines : List String} (hnames : NamesDatasets lines)
    {origin : Origins} {flag : Flag} {rel : Rel} (hrel : rel ∈ origin.keys)
    (hprotected : Protected rel) :
    covered rel ((parse lines origin).minimalTops flag) = false := by
  rw [← Bool.not_eq_true, covered_minimalTops hnames]
  rintro ⟨e, he, -, hunder⟩
  obtain ⟨s, -, hacc⟩ := mem_parse_tops.mp he
  obtain ⟨-, hnever, rfl⟩ := accepted_eq_some_iff.mp hacc
  exact not_under_of_neverExcluded hnever hrel hprotected hunder

/-! ### What is reported -/

/-- How a value that is not in effect is reported of its dataset. -/
inductive Reported (d : Declared) (origin : Origins) (rel : Rel) (flag : Flag) : String → Prop
  | refused {why : String} : neverExcluded rel origin = some why → (rel, why) ∈ d.ignored →
  Reported d origin rel flag "no"
  | contrary {top : Rel} : top ∈ d.minimalTops flag → Under rel top →
      (rel, contraryText flag top) ∈ d.ignored →
      Reported d origin rel flag "yes"
  | bad {value : String} {found : List (Flag × String)} : value ≠ "no" → value ≠ "yes" →
      (flag, value) ∈ found →
      (rel, ", ".intercalate (found.map fun p => p.1.prop ++ "=" ++ p.2) ++
        ": only 'no' excludes") ∈ d.ignored →
        Reported d origin rel flag value

/-- A value is in effect: accepted as an exclusion, or a `yes` no exclusion above contradicts. -/
def InEffect (d : Declared) (rel : Rel) (flag : Flag) (value : String) : Prop :=
  value = "no" ∧ (∃ e ∈ d.tops, e.top = rel ∧ e.has flag = true) ∨
    value = "yes" ∧ ∀ top ∈ d.minimalTops flag, Under rel top → top = rel

theorem prefix_intercalate {sep x : String} {l : List String} :
    x.toList <+: (sep.intercalate (x :: l)).toList := by
  by_cases hl : l = []
  · rw [hl, String.intercalate_singleton]
  · rw [String.intercalate_cons_of_ne_nil hl, String.toList_append, String.toList_append,
      List.append_assoc]
    exact List.prefix_append _ _

theorem infix_intercalate {sep x : String} {l : List String} (hx : x ∈ l) :
    x.toList <:+: (sep.intercalate l).toList := by
  induction l with
  | nil => exact absurd hx List.not_mem_nil
  | cons y l ih =>
      obtain rfl | hx := List.mem_cons.mp hx
      · exact prefix_intercalate.isInfix
      · rw [String.intercalate_cons_of_ne_nil (List.ne_nil_of_mem hx), String.toList_append,
          String.toList_append]
        exact (ih hx).trans (List.suffix_append _ _).isInfix

theorem mem_ignored {lines : List String} {origin : Origins} {s : Setting} (hs : s ∈ values lines)
    {row : Rel × String}
    (h : row ∈ refusals s origin ∨ row ∈ contraries s (parse lines origin).minimalTops) :
    row ∈ (parse lines origin).ignored := by
  rw [parse, List.mem_append, List.mem_flatMap, List.mem_flatMap]
  exact h.imp (fun h => ⟨s, mem_sortedSettings.mpr hs, h⟩) fun h =>
    ⟨s, mem_sortedSettings.mpr hs, h⟩

/-- The values other than `no` and `yes`, each with its property. -/
def Setting.badValues (s : Setting) : List (Flag × String) :=
  [Flag.replicate, Flag.snapshot].filterMap fun flag =>
    (s.value flag).bind fun v => if v = "no" ∨ v = "yes" then none else some (flag, v)

theorem Setting.bad_eq (s : Setting) : s.bad = s.badValues.map fun p => p.1.prop ++ "=" ++ p.2 := by
  rw [Setting.bad, Setting.badValues, List.map_filterMap]
  refine List.filterMap_congr fun flag _ => ?_
  cases s.value flag with
  | none => rfl
  | some v =>
      rw [Option.bind_some, Option.bind_some]
      split_ifs <;> rfl

theorem Setting.excludes_of_no {s : Setting} {flag : Flag} (h : s.value flag = some "no") :
    s.excludes = true ∧ s.exclusion.has flag = true := by
  cases flag <;> simp [Setting.value] at h <;>
    simp [Setting.excludes, Setting.exclusion, Exclusion.has, h]

theorem inEffect_or_reported {lines : List String} (hnames : NamesDatasets lines)
    (origin : Origins) {s : Setting} (hs : s ∈ values lines) {flag : Flag} {v : String}
    (hv : s.value flag = some v) :
    InEffect (parse lines origin) s.rel flag v ∨
    Reported (parse lines origin) origin s.rel flag v := by
  by_cases hno : v = "no"
  · subst hno
    obtain ⟨hexcludes, hflag⟩ := Setting.excludes_of_no hv
    cases hnever : neverExcluded s.rel origin with
    | none =>
        have hacc : accepted s origin = some s.exclusion :=
          accepted_eq_some_iff.mpr ⟨hexcludes, hnever, rfl⟩
        exact .inl (.inl ⟨rfl, s.exclusion, mem_parse_tops.mpr ⟨s, hs, hacc⟩, rfl, hflag⟩)
    | some why =>
        refine .inr (.refused hnever (mem_ignored hs (.inl ?_)))
        rw [refusals, List.mem_append, if_pos hexcludes, hnever]
        exact .inr (by simp)
  · by_cases hyes : v = "yes"
    · subst hyes
      cases hcover : covering s.rel (((parse lines origin).minimalTops flag).filter
          (· ≠ s.rel)) with
      | none =>
          refine .inl (.inr ⟨rfl, fun top htop hunder => ?_⟩)
          by_contra hne
          have hempty :=
            covering_eq_none_iff.mp hcover top
              (List.mem_filter.mpr ⟨htop, by simpa using hne⟩) hunder
          rw [minimalTops_parse hnames] at htop
          obtain ⟨e, he, -, rfl⟩ := mem_flagged.mp (mem_topmost.mp htop).1
          exact text_ne_empty_of_mem_tops hnames he hempty
      | some top =>
          obtain ⟨hmem, hunder, -⟩ := covering_eq_some hcover
          refine .inr (.contrary (List.mem_filter.mp hmem).1 hunder (mem_ignored hs (.inr ?_)))
          refine List.mem_filterMap.mpr ⟨flag, by cases flag <;> simp, ?_⟩
          rw [if_pos hv, hcover]
          rfl
    · have hbad : (flag, v) ∈ s.badValues := by
        refine List.mem_filterMap.mpr ⟨flag, by cases flag <;> simp, ?_⟩
        rw [hv, Option.bind_some, if_neg (not_or.mpr ⟨hno, hyes⟩)]
      have hne : s.bad ≠ [] := by
        rw [Setting.bad_eq]
        exact List.ne_nil_of_mem (List.mem_map_of_mem hbad)
      have hrow : (s.rel, s.badText) ∈ (parse lines origin).ignored := by
        refine mem_ignored hs (.inl ?_)
        rw [refusals, List.mem_append, if_neg hne]
        exact .inl (List.mem_singleton.mpr rfl)
      rw [Setting.badText, Setting.bad_eq] at hrow
      exact .inr (.bad hno hyes hbad hrow)

/-! ### A value with a tab -/

theorem tab_not_mem_value {lines : List String} {s : Setting} (hs : s ∈ values lines)
    {flag : Flag} {v : String} (hv : s.value flag = some v) : '\t' ∉ v.toList := by
  have hread : lastRead lines s.rel flag = some v := by
    rw [← value_values, Keyed.get?_eq_some_iff.mpr ⟨hs, rfl⟩]
    exact hv
  obtain ⟨line, -, hline⟩ := List.exists_of_findSome?_eq_some hread
  exact (valueLine_iff.mp (valueFor_eq_some_iff.mp hline)).2

theorem tab_not_mem_name {lines : List String} {s : Setting} (hs : s ∈ values lines) :
    '\t' ∉ s.rel.text.toList := by
  obtain ⟨line, -, flag, v, hline⟩ := exists_line_of_mem_values hs
  obtain ⟨name, hrel, hname, -⟩ := (valueLine_iff.mp hline).1
  rw [← hrel, text_ofText]
  exact fun hc => (hname _ hc).1 rfl

theorem tab_not_mem_badText {lines : List String} {s : Setting} (hs : s ∈ values lines) :
    '\t' ∉ s.badText.toList := by
  have hall : ∀ x ∈ s.bad, '\t' ∉ x.toList := by
    rw [Setting.bad_eq]
    intro x hx
    obtain ⟨⟨flag, v⟩, hmem, rfl⟩ := List.mem_map.mp hx
    obtain ⟨f, -, hf⟩ := List.mem_filterMap.mp hmem
    obtain ⟨value, hvalue, hf⟩ := Option.bind_eq_some_iff.mp hf
    split_ifs at hf
    cases hf
    rw [String.toList_append, String.toList_append, List.mem_append, List.mem_append,
      not_or, not_or]
    exact ⟨⟨tab_not_mem_prop _, by decide⟩, tab_not_mem_value hs hvalue⟩
  have hjoined : ∀ l : List String, (∀ x ∈ l, '\t' ∉ x.toList) →
      '\t' ∉ (", ".intercalate l).toList := by
    intro l hl
    induction l with
    | nil => decide
    | cons x l ih =>
        by_cases hne : l = []
        · rw [hne, String.intercalate_singleton]
          exact hl x List.mem_cons_self
        · rw [String.intercalate_cons_of_ne_nil hne, String.toList_append, String.toList_append,
            List.mem_append, List.mem_append, not_or, not_or]
          exact ⟨⟨hl x List.mem_cons_self, by decide⟩, ih fun y hy =>
            hl y (List.mem_cons_of_mem _ hy)⟩
  rw [Setting.badText, String.toList_append, List.mem_append, not_or]
  exact ⟨hjoined _ hall, by decide⟩

/-- Why a dataset is never excluded does not read like a list of properties. -/
theorem head_neverExcluded {rel : Rel} {origin : Origins} {why : String}
    (h : neverExcluded rel origin = some why) :
    why.toList.head? ≠ some 'o' := by
  unfold neverExcluded at h
  split at h
  · rename_i why' hruled
    cases h
    unfold ruledOut at hruled
    split_ifs at hruled <;> cases hruled <;> decide
  · obtain ⟨x, -, rfl⟩ := Option.map_eq_some_iff.mp h
    rw [String.toList_append, List.head?_append_of_ne_nil _ (by decide)]
    decide

theorem tab_not_mem_ignored {lines : List String} {origin : Origins} {row : Rel × String}
    (h : row ∈ (parse lines origin).ignored) (hhead : row.2.toList.head? = some 'o') :
    '\t' ∉ row.2.toList := by
  rw [parse, List.mem_append, List.mem_flatMap, List.mem_flatMap] at h
  obtain ⟨s, hs, h⟩ | ⟨s, hs, h⟩ := h
  · rw [mem_sortedSettings] at hs
    obtain h | h := List.mem_append.mp h
    · split_ifs at h
      · cases h
      · rw [List.mem_singleton.mp h]
        exact tab_not_mem_badText hs
    · split_ifs at h
      · obtain ⟨why, hwhy, heq⟩ := Option.map_eq_some_iff.mp (Option.mem_toList.mp h)
        rw [← heq] at hhead
        exact absurd hhead (head_neverExcluded hwhy)
      · cases h
  · obtain ⟨flag, -, h⟩ := List.mem_filterMap.mp h
    split_ifs at h
    obtain ⟨top, htop, rfl⟩ := Option.map_eq_some_iff.mp h
    have hflagged : top ∈ (parse lines origin).flagged flag :=
      (List.mem_filter.mp (List.mem_filter.mp (covering_eq_some htop).1).1).1
    obtain ⟨e, he, -, rfl⟩ := mem_flagged.mp hflagged
    obtain ⟨s', hs', hacc⟩ := mem_parse_tops.mp he
    obtain ⟨-, -, rfl⟩ := accepted_eq_some_iff.mp hacc
    simp only [contraryText, String.toList_append, List.mem_append, not_or]
    exact ⟨⟨⟨tab_not_mem_prop flag, by decide⟩, tab_not_mem_name hs'⟩, by decide⟩

theorem tab_not_mem_of_reported {lines : List String} {origin : Origins} {rel : Rel}
    {flag : Flag} {v : String}
    (h : InEffect (parse lines origin) rel flag v ∨
      Reported (parse lines origin) origin rel flag v) : '\t' ∉ v.toList := by
  obtain (⟨rfl, -⟩ | ⟨rfl, -⟩) | h := h
  · decide
  · decide
  cases h with
  | refused | contrary => decide
  | @bad _ found _ _ hfound hrow =>
      obtain ⟨p, rest, rfl⟩ := List.exists_cons_of_ne_nil (List.ne_nil_of_mem hfound)
      have htext : ∀ x : String, (x ++ ": only 'no' excludes").toList = x.toList ++
          ": only 'no' excludes".toList := fun x =>
        String.toList_append
      have hhead : (", ".intercalate ((p :: rest).map fun p => p.1.prop ++ "=" ++ p.2) ++
          ": only 'no' excludes").toList.head? = some 'o' := by
        obtain ⟨tail, htail⟩ :=
          @prefix_intercalate ", " (p.1.prop ++ "=" ++ p.2) (rest.map fun p =>
            p.1.prop ++ "=" ++ p.2)
        rw [htext, List.map_cons, ← htail]
        cases p.1 <;> simp [Flag.prop]
      intro hc
      refine tab_not_mem_ignored hrow hhead ?_
      have hwithin :=
        @infix_intercalate ", " _ _ (List.mem_map_of_mem (f := fun p : Flag × String =>
          p.1.prop ++ "=" ++ p.2) hfound)
      rw [htext]
      refine List.mem_append_left _ (hwithin.subset ?_)
      simp [hc]

/-- Protected datasets are never left out, the tops in effect are antichains that cover what the
accepted ones cover, and every value that stands is in effect or reported exactly when none of them
holds a tab. -/
theorem parse_spares_protected (lines : List String) (hnames : NamesDatasets lines)
    (origin : Origins) :
    let d := parse lines origin
    (∀ rel ∈ origin.keys, Protected rel → covered rel d.noBackup = false ∧
      covered rel d.noSnapshot = false) ∧
    (∀ rel ∈ expected origin [], Protected rel → rel ∈ expected origin d.noBackup) ∧
    (Antichain d.noBackup ∧ Antichain d.noSnapshot) ∧
    (∀ rel, (covered rel d.noBackup = true ↔ ∃ e ∈ d.tops, e.replicate = true ∧ Under rel e.top) ∧
      (covered rel d.noSnapshot = true ↔ ∃ e ∈ d.tops, e.snapshot = true ∧ Under rel e.top)) ∧
    ((∀ rel flag v, LastSet lines rel flag v → InEffect d rel flag v ∨
      Reported d origin rel flag v) ↔
      ∀ rel flag v, LastSet lines rel flag v → '\t' ∉ v.toList) := by
  refine ⟨fun rel hrel hp => ⟨not_covered_of_protected hnames hrel hp,
    not_covered_of_protected hnames hrel hp⟩, ?_,
    ⟨antichain_minimalTops hnames origin .replicate, antichain_minimalTops hnames origin .snapshot⟩,
    fun rel => ⟨covered_minimalTops hnames, covered_minimalTops hnames⟩, ?_⟩
  · intro rel hrel hp
    obtain ⟨o, ho, hexpected⟩ := mem_expected.mp hrel
    refine mem_expected.mpr ⟨o, ho, ?_⟩
    have hkey : o.rel = rel := Keyed.key_of_get? ho
    have hfree : isExcluded o.rel (parse lines origin).noBackup = false :=
      not_covered_of_protected hnames (Keyed.key_mem_keys (Keyed.mem_of_get? ho)) (hkey ▸ hp)
    rw [isExpected, hfree]
    simpa [isExpected, isExcluded, covered] using hexpected
  · refine forall_congr' fun rel => forall_congr' fun flag => forall_congr' fun v =>
      forall_congr' fun hset => ?_
    refine ⟨tab_not_mem_of_reported, fun htab => ?_⟩
    have hread := lastRead_of_lastSet hset htab
    rw [← value_values] at hread
    obtain ⟨s, hs, hvalue⟩ := Option.bind_eq_some_iff.mp hread
    rw [← show s.rel = rel from Keyed.key_of_get? hs]
    exact inEffect_or_reported hnames origin (Keyed.mem_of_get? hs) hvalue

/-- A value set on the pool root holds the boot environments: it is refused, and said to be. -/
theorem parse_spares_protected_root :
    let origin : Origins :=
      ⟨[{ rel := ["rpool"] }, { rel := ["rpool", "ROOT"] }, { rel := ["rpool", "ROOT", "ubuntu"] },
        { rel := ["rpool", "data"] }], by decide⟩
    let lines := ["rpool\torg.zark:replicate\tno", "rpool/data\torg.zark:snapshot\tno"]
    covered ["rpool", "ROOT", "ubuntu"] (parse lines origin).noBackup = false ∧
      Reported (parse lines origin) origin ["rpool"] .replicate "no" := by
  intro origin lines
  obtain ⟨hspared, -, -, -, hreported⟩ :=
    parse_spares_protected lines (by unfold NamesDatasets; decide) origin
  refine ⟨(hspared _ (by decide) (.inl (by decide))).1, ?_⟩
  have hcounts : ∀ line ∈ lines, line.toList.count '\t' ≤ 2 := by decide
  have hset : LastSet lines ["rpool"] .replicate "no" := by
    refine ⟨[], _, ["rpool/data\torg.zark:snapshot\tno"], rfl,
      ⟨"rpool", by decide, by decide, by decide⟩, fun l hl v hsets => ?_⟩
    have hvalue :=
      valueLine_iff.mpr ⟨hsets, tab_not_mem_of_count (hcounts l (List.mem_cons_of_mem _ hl)) hsets⟩
    rw [List.mem_singleton.mp hl, show valueLine "rpool/data\torg.zark:snapshot\tno"
      = some (["rpool", "data"], .snapshot, "no") from by decide]
      at hvalue
    cases hvalue
  refine (hreported.mpr (fun rel flag v h => ?_) _ _ _ hset).resolve_left ?_
  · obtain ⟨before, line, after, heq, hsets, -⟩ := h
    exact tab_not_mem_of_count (hcounts line (heq ▸ by simp)) hsets
  · rintro (⟨-, hthere⟩ | ⟨hyes, -⟩)
    · revert hthere
      decide
    · exact absurd hyes (by decide)

/-- A value with a tab in it, set by hand on the boot environments: nothing is said of it. -/
theorem parse_drops_tab :
    let origin : Origins := ⟨[{ rel := ["rpool"] }, { rel := ["rpool", "ROOT"] }], by decide⟩
    let lines := ["rpool/ROOT\torg.zark:replicate\tno\tno"]
    NamesDatasets lines ∧ ¬∀ rel flag v, LastSet lines rel flag v →
      InEffect (parse lines origin) rel flag v ∨
      Reported (parse lines origin) origin rel flag v := by
  refine ⟨by unfold NamesDatasets; decide, fun hall => ?_⟩
  have hset : LastSet ["rpool/ROOT\torg.zark:replicate\tno\tno"] ["rpool", "ROOT"]
      .replicate "no\tno" :=
    ⟨[], _, [], rfl, ⟨"rpool/ROOT", by decide, by decide, by decide⟩, by simp⟩
  exact tab_not_mem_of_reported (hall _ _ _ hset) (by decide)

end Zark
