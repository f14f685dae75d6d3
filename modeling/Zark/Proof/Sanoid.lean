import Zark.Library.Best
import Zark.Proof.Exclusions
import Zark.Sanoid

/-!
# The sections mean the policy in any order

Splitting walks down from each recursive rule, and opens a section as long as a drained subtree or
an override lies below. What it writes is read off the walk: a section is recursive only where
nothing was left to open, so no section lies below a recursive one, and what covers a dataset is the
section where its walk stopped, with the rule it started from. -/

namespace Zark

open Hierarchy

/-! ### Rules by name -/

section Lookup

variable {rules : Rules} {name a : Rel} {rule : SanoidRule}

theorem lookup_eq_some_iff (h : (rules.map Prod.fst).Nodup) :
    rules.lookup name = some rule ↔ (name, rule) ∈ rules := by
  induction rules with
  | nil => simp
  | cons e rules ih =>
      rw [List.map_cons, List.nodup_cons] at h
      rw [List.lookup_cons, List.mem_cons]
      by_cases heq : name = e.1
      · subst heq
        rw [beq_self_eq_true]
        constructor
        · rintro ⟨⟩
          exact .inl rfl
        · rintro (heq | hmem)
          · rw [← heq]
          · exact absurd (List.mem_map_of_mem hmem) h.1
      · rw [beq_eq_false_iff_ne.mpr heq, ih h.2]
        constructor
        · exact .inr
        · rintro (rfl | hmem)
          · exact absurd rfl heq
          · exact hmem

theorem lookup_isSome_iff : (rules.lookup name).isSome = true ↔ name ∈ rules.map Prod.fst := by
  rw [List.lookup_isSome_iff, List.mem_map]
  constructor
  · rintro ⟨e, he, heq⟩
    exact ⟨e, he, (beq_iff_eq.mp heq).symm⟩
  · rintro ⟨e, he, rfl⟩
    exact ⟨e, he, beq_self_eq_true _⟩

theorem mem_ancestors : a ∈ ancestors name ↔ a ≠ [] ∧ Under name a ∧ a ≠ name := by
  rw [ancestors, List.mem_map]
  constructor
  · rintro ⟨i, hi, rfl⟩
    rw [List.mem_range] at hi
    have hlen : (name.take (name.length - 1 - i)).length = name.length - 1 - i := by
      rw [List.length_take]
      omega
    refine ⟨List.ne_nil_of_length_pos (by omega), List.take_prefix _ _, fun heq => ?_⟩
    rw [heq] at hlen
    omega
  · rintro ⟨hne, hunder, hself⟩
    have hlt := length_lt_of_under_of_ne hunder (Ne.symm hself)
    have hpos := List.length_pos_of_ne_nil hne
    refine ⟨name.length - 1 - a.length, List.mem_range.mpr (by omega), ?_⟩
    rw [show name.length - 1 - (name.length - 1 - a.length) = a.length by omega]
    exact (List.prefix_iff_eq_take.mp hunder).symm

/-- A recursive rule strictly above a name. -/
def IsAbove (rules : Rules) (name : Rel) (e : Rel × SanoidRule) : Prop :=
  e ∈ rules ∧ e.2.recursive = true ∧ e.1 ≠ [] ∧ Under name e.1 ∧ e.1 ≠ name

theorem nearestRecursive_eq_some (h : (rules.map Prod.fst).Nodup)
    (hrule : nearestRecursive rules name = some rule) :
    ∃ a, IsAbove rules name (a, rule) := by
  obtain ⟨a, ha, hfilter⟩ := List.exists_of_findSome?_eq_some hrule
  obtain ⟨hlookup, hrec⟩ := Option.filter_eq_some_iff.mp hfilter
  obtain ⟨hne, hunder, hself⟩ := mem_ancestors.mp ha
  exact ⟨a, (lookup_eq_some_iff h).mp hlookup, hrec, hne, hunder, hself⟩

theorem nearestRecursive_eq_none_iff (h : (rules.map Prod.fst).Nodup) :
    nearestRecursive rules name = none ↔ ∀ e, ¬IsAbove rules name e := by
  rw [nearestRecursive, List.findSome?_eq_none_iff]
  constructor
  · rintro hnone ⟨a, rule⟩ ⟨hmem, hrec, hne, hunder, hself⟩
    have := hnone a (mem_ancestors.mpr ⟨hne, hunder, hself⟩)
    rw [(lookup_eq_some_iff h).mpr hmem, Option.filter_some_pos hrec] at this
    cases this
  · intro hnone a ha
    rw [Option.filter_eq_none_iff]
    intro rule hlookup hrec
    obtain ⟨hne, hunder, hself⟩ := mem_ancestors.mp ha
    exact hnone (a, rule) ⟨(lookup_eq_some_iff h).mp hlookup, hrec, hne, hunder, hself⟩

/-- When every recursive rule above a name has one template, that is the policy in force on it. -/
theorem policyOf_eq_of_isAbove (h : (rules.map Prod.fst).Nodup) (hown : name ∉ rules.map Prod.fst)
    {e : Rel × SanoidRule} (he : IsAbove rules name e)
    (hone : ∀ e', IsAbove rules name e' → e'.2.template = e.2.template) :
    policyOf rules name = some e.2.template := by
  have hnone : rules.lookup name = none := by
    rw [← Option.not_isSome_iff_eq_none, lookup_isSome_iff]
    exact hown
  rw [policyOf, hnone]
  cases hnear : nearestRecursive rules name with
  | none => exact absurd he ((nearestRecursive_eq_none_iff h).mp hnear e)
  | some rule =>
      obtain ⟨a, ha⟩ := nearestRecursive_eq_some h hnear
      exact congrArg some (hone _ ha)

theorem policyOf_of_mem (h : (rules.map Prod.fst).Nodup) (hmem : (name, rule) ∈ rules) :
    policyOf rules name = some rule.template := by
  rw [policyOf, (lookup_eq_some_iff h).mpr hmem]

theorem policyOf_eq_none (h : (rules.map Prod.fst).Nodup) (hown : name ∉ rules.map Prod.fst)
    (habove : ∀ e, ¬IsAbove rules name e) :
    policyOf rules name = none := by
  have hnone : rules.lookup name = none := by
    rw [← Option.not_isSome_iff_eq_none, lookup_isSome_iff]
    exact hown
  rw [policyOf, hnone, (nearestRecursive_eq_none_iff h).mpr habove]
  rfl

end Lookup

/-! ### The walk -/

section Walk

variable {rules : Rules} {datasets drained overrides : List Rel}

/-- The datasets the walk from a rule's own comes to. -/
inductive Reached (rules : Rules) (datasets drained overrides : List Rel) (root : Rel) : Rel → Prop
  | root : Reached rules datasets drained overrides root root
  | child {name : Rel} : Reached rules datasets drained overrides root (parent name) →
      splits drained overrides (parent name) = true → name ∈ datasets → 2 ≤ name.length →
      (name ∈ rules.map Prod.fst → name ∈ drained) →
      Reached rules datasets drained overrides root name

/-- The section written where the walk comes. -/
def sectionAt (drained overrides : List Rel) (name : Rel) (rule : SanoidRule) : SanoidRule :=
  if name ∈ drained then
    drainedRule
  else if splits drained overrides name then { rule with recursive := false } else rule

theorem splits_iff {name : Rel} : splits drained overrides name = true ↔
    name ∉ drained ∧ name ∉ overrides ∧ ∃ t, (t ∈ drained ∨ t ∈ overrides) ∧ t ≠ name ∧
    Under t name := by
  simp [splits, and_assoc, or_and_right, exists_or]

theorem Reached.under {root name : Rel} (h : Reached rules datasets drained overrides root name) :
    Under name root := by
  induction h with
  | root => exact List.prefix_rfl
  | child _ _ _ _ _ ih => exact (under_parent _).trans ih

theorem Reached.between {root name mid : Rel}
    (h : Reached rules datasets drained overrides root name) (hmid : Under name mid)
    (hroot : Under mid root) : Reached rules datasets drained overrides root mid ∧
    (mid ≠ name → splits drained overrides mid = true) := by
  induction h with
  | root =>
      obtain rfl := hmid.antisymm hroot
      exact ⟨.root, fun h => absurd rfl h⟩
  | @child name hparent hsplit hmem hlen hown ih =>
      by_cases heq : name = mid
      · subst heq
        exact ⟨.child hparent hsplit hmem hlen hown, fun h => absurd rfl h⟩
      · obtain ⟨hreached, hsplits⟩ := ih (hmid.parent_of_ne heq)
        refine ⟨hreached, fun _ => ?_⟩
        by_cases hpar : mid = parent name
        · rwa [hpar]
        · exact hsplits hpar

theorem Reached.mem {root name : Rel} (h : Reached rules datasets drained overrides root name)
    (hroot : root ∈ datasets) :
    name ∈ datasets := by
  cases h with
  | root => exact hroot
  | child _ _ hmem _ _ => exact hmem

theorem mem_children {name d : Rel} :
    d ∈ children datasets name ↔ d ∈ datasets ∧ parent d = name ∧ 2 ≤ d.length := by
  rw [children, List.mem_filter, decide_eq_true_eq]

theorem Reached.cons {root child name : Rel} (hchild : child ∈ children datasets root)
    (hsplit : splits drained overrides root = true)
    (hown : child ∈ rules.map Prod.fst → child ∈ drained)
    (h : Reached rules datasets drained overrides child name) :
    Reached rules datasets drained overrides root name := by
  obtain ⟨hmem, rfl, hlen⟩ := mem_children.mp hchild
  induction h with
  | root => exact .child .root hsplit hmem hlen hown
  | child _ hsplit' hmem' hlen' hown' ih => exact .child ih hsplit' hmem' hlen' hown'

theorem Reached.cases_cons {root name : Rel}
    (h : Reached rules datasets drained overrides root name) :
    name = root ∨ ∃ child ∈ children datasets root, splits drained overrides root = true ∧
      (child ∈ rules.map Prod.fst → child ∈ drained) ∧
      Reached rules datasets drained overrides child name := by
  induction h with
  | root => exact .inl rfl
  | @child name _ hsplit hmem hlen hown ih =>
      right
      obtain heq | ⟨child, hchild, hsplit', hown', hreached⟩ := ih
      · exact ⟨name, mem_children.mpr ⟨hmem, heq, hlen⟩, heq ▸ hsplit, hown, .root⟩
      · exact ⟨child, hchild, hsplit', hown', .child hreached hsplit hmem hlen hown⟩

/-- With fuel for the deepest name, the sections of a rule are those of its walk. -/
theorem mem_expand {fuel : ℕ} {root name : Rel} {rule s : SanoidRule}
    (hfuel : ∀ d ∈ datasets, d.length < fuel + root.length) (hpos : 0 < fuel) :
    (name, s) ∈ expand rules datasets drained overrides fuel root rule ↔
      Reached rules datasets drained overrides root name ∧
      s = sectionAt drained overrides name rule := by
  induction fuel generalizing root s with
  | zero => exact absurd hpos (Nat.lt_irrefl 0)
  | succ fuel ih =>
      unfold expand
      split_ifs with hdrained hsplit
      · have hstop : splits drained overrides root = false := by
          rw [← Bool.not_eq_true, splits_iff]
          exact fun h => h.1 hdrained
        rw [List.mem_singleton, Prod.mk.injEq]
        constructor
        · rintro ⟨rfl, rfl⟩
          exact ⟨.root, (if_pos hdrained).symm⟩
        · rintro ⟨hreached, rfl⟩
          obtain rfl | ⟨_, _, hsplit, _⟩ := hreached.cases_cons
          · exact ⟨rfl, if_pos hdrained⟩
          · rw [hstop] at hsplit
            cases hsplit
      · have hbelow : ∀ child ∈ children datasets root, ∀ s,
            (name, s) ∈ expand rules datasets drained overrides fuel child rule ↔
              Reached rules datasets drained overrides child name ∧
              s = sectionAt drained overrides name rule := by
          intro child hchild s
          obtain ⟨hmem, hparent, hlen⟩ := mem_children.mp hchild
          have hlen' : child.length = root.length + 1 := by
            rw [← hparent, List.length_dropLast]
            omega
          have := hfuel child hmem
          refine ih (fun d hd => ?_) (by omega)
          have := hfuel d hd
          omega
        rw [List.mem_cons, List.mem_flatMap, Prod.mk.injEq]
        constructor
        · rintro (⟨rfl, rfl⟩ | ⟨child, hchild, hmem⟩)
          · exact ⟨.root, by rw [sectionAt, if_neg hdrained, if_pos hsplit]⟩
          · split_ifs at hmem with hown
            · cases hmem
            · obtain ⟨hreached, rfl⟩ := (hbelow child hchild s).mp hmem
              refine ⟨hreached.cons hchild hsplit fun hin => ?_, rfl⟩
              by_contra hnot
              exact hown ⟨lookup_isSome_iff.mpr hin, hnot⟩
        · rintro ⟨hreached, rfl⟩
          obtain rfl | ⟨child, hchild, -, hown, hreached⟩ := hreached.cases_cons
          · exact .inl ⟨rfl, by rw [sectionAt, if_neg hdrained, if_pos hsplit]⟩
          · refine .inr ⟨child, hchild, ?_⟩
            rw [if_neg fun h => h.2 (hown (lookup_isSome_iff.mp h.1))]
            exact (hbelow child hchild _).mpr ⟨hreached, rfl⟩
      · rw [List.mem_singleton, Prod.mk.injEq]
        constructor
        · rintro ⟨rfl, rfl⟩
          exact ⟨.root, by rw [sectionAt, if_neg hdrained, if_neg hsplit]⟩
        · rintro ⟨hreached, rfl⟩
          obtain rfl | ⟨_, _, hsplit', _⟩ := hreached.cases_cons
          · exact ⟨rfl, by rw [sectionAt, if_neg hdrained, if_neg hsplit]⟩
          · exact absurd hsplit' hsplit

theorem nodup_expand (hdatasets : datasets.Nodup) (fuel : ℕ) (root : Rel) (rule : SanoidRule) :
    ((expand rules datasets drained overrides fuel root rule).map Prod.fst).Nodup ∧
      ∀ name ∈ (expand rules datasets drained overrides fuel root rule).map Prod.fst,
      Under name root := by
  induction fuel generalizing root with
  | zero => exact ⟨List.nodup_nil, fun _ h => absurd h List.not_mem_nil⟩
  | succ fuel ih =>
      unfold expand
      split_ifs
      · exact ⟨List.nodup_singleton _, fun name h => by rw [List.mem_singleton.mp h]⟩
      · have hbelow :
            ∀ child, ∀ name ∈ (if (rules.lookup child).isSome ∧ child ∉ drained then [] else
            expand rules datasets drained overrides fuel child rule).map Prod.fst,
                Under name child := by
          intro child name h
          split_ifs at h
          · cases h
          · exact (ih child).2 name h
        rw [List.map_cons, List.map_flatMap, List.nodup_cons]
        refine ⟨⟨fun h => ?_, List.nodup_flatMap.mpr ⟨fun child _ => ?_, ?_⟩⟩, fun name h => ?_⟩
        · obtain ⟨child, hchild, hmem⟩ := List.mem_flatMap.mp h
          obtain ⟨-, hparent, hlen⟩ := mem_children.mp hchild
          have hle := (hbelow child root hmem).length_le
          have hlen' := congrArg List.length hparent
          rw [List.length_dropLast] at hlen'
          omega
        · split_ifs
          · exact List.nodup_nil
          · exact (ih child).1
        · -- Two children of one name have nothing below them in common.
          refine (hdatasets.filter _).imp_of_mem fun {c d} hc hd hne name hname hname' => hne ?_
          obtain ⟨-, hparent, hlen⟩ := mem_children.mp hc
          obtain ⟨-, hparent', hlen'⟩ := mem_children.mp hd
          have hlengths := congrArg List.length (hparent.trans hparent'.symm)
          rw [List.length_dropLast, List.length_dropLast] at hlengths
          obtain hcd | hdc := under_or_under (hbelow c name hname) (hbelow d name hname')
          · exact hcd.eq_of_length (by omega) |>.symm
          · exact hdc.eq_of_length (by omega)
        · obtain rfl | h := List.mem_cons.mp h
          · exact List.prefix_rfl
          · obtain ⟨child, hchild, hmem⟩ := List.mem_flatMap.mp h
            obtain ⟨-, rfl, -⟩ := mem_children.mp hchild
            exact (hbelow child name hmem).trans (under_parent child)
      · exact ⟨List.nodup_singleton _, fun name h => by rw [List.mem_singleton.mp h]⟩

end Walk

/-! ### Splitting -/

/-- Rules that can be split: those under a recursive one are the overrides, which do not recurse and
have nothing below. -/
structure Splittable (rules : Rules) (datasets drained overrides : List Rel) : Prop where
  nodup : (rules.map Prod.fst).Nodup
  listed : ∀ e ∈ rules, e.1 ∈ datasets
  datasets_nodup : datasets.Nodup
  closed : ParentClosed datasets
  antichain : Antichain drained
  named : ∀ t ∈ drained, t.text ≠ ""
  nested : ∀ e ∈ rules, ∀ a, IsAbove rules e.1 a → e.1 ∈ overrides
  plain : ∀ e ∈ rules, e.1 ∈ overrides → e.2.recursive = false ∧ e.1 ∉ drained
  own : ∀ o ∈ overrides, o ∈ rules.map Prod.fst
  leaf : ∀ o ∈ overrides, ∀ d ∈ datasets, Under d o → d = o

namespace Splittable

variable {rules : Rules} {datasets drained overrides : List Rel}
  (h : Splittable rules datasets drained overrides)

include h

theorem inside_iff {name : Rel} : (covering name drained).isSome = true ↔
    covered name drained = true := by
  rw [covered_iff, ← not_iff_not, Option.not_isSome_iff_eq_none, covering_eq_none_iff]
  constructor
  · rintro hall ⟨t, ht, hunder⟩
    exact h.named t ht (hall t ht hunder)
  · exact fun hnot t ht hunder => absurd ⟨t, ht, hunder⟩ hnot

/-- The sections of one rule: those of its walk, unless a drained subtree above it takes its
place. -/
theorem mem_splitRule {e : Rel × SanoidRule} {name : Rel} {s : SanoidRule} :
    (name, s) ∈ splitRule rules datasets drained overrides e ↔
    (covered e.1 drained = true → e.1 ∈ drained) ∧
      Reached rules datasets drained overrides e.1 name ∧ (name ≠ e.1 → e.2.recursive = true) ∧
      s = sectionAt drained overrides name e.2 := by
  have hdeep : ∀ d ∈ datasets, d.length < deepest datasets + 1 + e.1.length := by
    intro d hd
    have hle : d.length ≤ deepest datasets :=
      (Best.foldl_max_le_iff (f := id).mp (le_refl (deepest datasets))).2 d.length
        (List.mem_map_of_mem hd)
    omega
  rw [splitRule]
  simp only [h.inside_iff]
  by_cases hcovered : covered e.1 drained = true ∧ e.1 ∉ drained
  · rw [if_pos hcovered]
    simp only [List.not_mem_nil, false_iff, not_and]
    exact fun hin => absurd (hin hcovered.1) hcovered.2
  · rw [if_neg hcovered]
    have hin : covered e.1 drained = true → e.1 ∈ drained :=
      fun hc => by_contra fun hn => hcovered ⟨hc, hn⟩
    by_cases hexpand : e.2.recursive = true ∨ e.1 ∈ drained
    · rw [if_pos hexpand, mem_expand hdeep (Nat.succ_pos _)]
      constructor
      · rintro ⟨hreached, rfl⟩
        refine ⟨hin, hreached, fun hne => hexpand.resolve_right fun hdrained => ?_, rfl⟩
        obtain heq | ⟨_, -, hsplit, -⟩ := hreached.cases_cons
        · exact hne heq
        · exact (splits_iff.mp hsplit).1 hdrained
      · rintro ⟨-, hreached, -, rfl⟩
        exact ⟨hreached, rfl⟩
    · rw [if_neg hexpand, List.mem_singleton]
      obtain ⟨hrec, hdrained⟩ := not_or.mp hexpand
      have hsection : sectionAt drained overrides e.1 e.2 = e.2 := by
        rw [sectionAt, if_neg hdrained]
        split_ifs
        · rw [Bool.not_eq_true] at hrec
          rw [← hrec]
        · rfl
      constructor
      · rintro rfl
        exact ⟨hin, .root, fun hne => absurd rfl hne, hsection.symm⟩
      · rintro ⟨-, -, hne, rfl⟩
        have heq : name = e.1 := by_contra fun hne' => hrec (hne hne')
        rw [heq, hsection]

theorem eq_root_of_rule {e e' : Rel × SanoidRule} (he : e ∈ rules) (he' : e' ∈ rules)
    (hrec : e.1 ≠ e'.1 → e.2.recursive = true)
    (hreached : Reached rules datasets drained overrides e.1 e'.1) : e'.1 = e.1 := by
  by_contra hne
  have habove : IsAbove rules e'.1 e :=
    ⟨he, hrec (Ne.symm hne), (h.closed e.1 (h.listed e he)).1, hreached.under, Ne.symm hne⟩
  have hover := h.nested e' he' e habove
  generalize hname : e'.1 = name at hreached hne
  cases hreached with
  | root => exact hne rfl
  | child _ _ _ _ hown =>
      exact (h.plain e' he' hover).2 (hname ▸ hown (hname ▸ List.mem_map_of_mem he'))

/-- Every section has one rule it comes from. -/
theorem rule_unique {e e' : Rel × SanoidRule} {name : Rel} {s s' : SanoidRule} (he : e ∈ rules)
    (he' : e' ∈ rules) (hs : (name, s) ∈ splitRule rules datasets drained overrides e)
    (hs' : (name, s') ∈ splitRule rules datasets drained overrides e') :
    e = e' := by
  suffices hname : e.1 = e'.1 from List.inj_on_of_nodup_map h.nodup he he' hname
  obtain ⟨-, hreached, hrec, -⟩ := h.mem_splitRule.mp hs
  obtain ⟨-, hreached', hrec', -⟩ := h.mem_splitRule.mp hs'
  obtain hunder | hunder := under_or_under hreached.under hreached'.under
  · refine h.eq_root_of_rule he' he (fun hne => hrec' fun heq => ?_)
      (hreached'.between hreached.under hunder).1
    exact hne (hunder.antisymm (heq ▸ hreached.under) ▸ rfl)
  · refine (h.eq_root_of_rule he he' (fun hne => hrec fun heq => ?_)
      (hreached.between hreached'.under hunder).1).symm
    exact hne (hunder.antisymm (heq ▸ hreached'.under) ▸ rfl)

omit h in
theorem mem_splitAround {name : Rel} {s : SanoidRule} :
    (name, s) ∈ splitAround rules datasets drained overrides ↔
    (∃ e ∈ rules, (name, s) ∈ splitRule rules datasets drained overrides e) ∨
      (name ∈ drained ∧ name ∉ (rules.flatMap (splitRule rules datasets drained overrides)).map
        Prod.fst) ∧ s = drainedRule := by
  rw [splitAround, List.mem_append, List.mem_flatMap]
  refine or_congr_right ?_
  simp only [List.mem_map, List.mem_filter, mem_sortRels, decide_eq_true_eq, Prod.mk.injEq]
  constructor
  · rintro ⟨top, htop, rfl, rfl⟩
    exact ⟨htop, rfl⟩
  · rintro ⟨htop, rfl⟩
    exact ⟨name, htop, rfl, rfl⟩

theorem nodup_splitAround :
    ((splitAround rules datasets drained overrides).map Prod.fst).Nodup := by
  rw [splitAround, List.map_append, List.map_map]
  have hid : (Prod.fst ∘ fun top => (top, drainedRule)) = (id : Rel → Rel) := rfl
  rw [hid, List.map_id, List.nodup_append]
  refine ⟨?_, (nodup_sortRels.mpr h.antichain.nodup).filter _, ?_⟩
  · rw [List.map_flatMap, List.nodup_flatMap]
    refine ⟨fun e _ => ?_, ?_⟩
    · unfold splitRule
      split_ifs
      · exact List.nodup_nil
      · exact (nodup_expand h.datasets_nodup _ _ _).1
      · exact List.nodup_singleton _
    · refine (List.Nodup.of_map _ h.nodup).imp_of_mem fun {e e'} he he' hne name hname hname' =>
        hne ?_
      obtain ⟨x, hx, rfl⟩ := List.mem_map.mp hname
      obtain ⟨x', hx', heq⟩ := List.mem_map.mp hname'
      exact h.rule_unique he he' hx (show (x.1, x'.2) ∈ _ from heq ▸ hx')
  · rintro x hx y hy rfl
    exact of_decide_eq_true (List.mem_filter.mp hy).2 hx

theorem drained_mem {top : Rel} (htop : top ∈ drained) :
    (top, drainedRule) ∈ splitAround rules datasets drained overrides := by
  rw [mem_splitAround]
  by_cases hmem : top ∈ (rules.flatMap (splitRule rules datasets drained overrides)).map Prod.fst
  · obtain ⟨⟨name, s⟩, hs, rfl⟩ := List.mem_map.mp hmem
    obtain ⟨e, he, hs⟩ := List.mem_flatMap.mp hs
    obtain ⟨-, -, -, hsection⟩ := h.mem_splitRule.mp hs
    rw [sectionAt, if_pos htop] at hsection
    exact .inl ⟨e, he, hsection ▸ hs⟩
  · exact .inr ⟨⟨htop, hmem⟩, rfl⟩

/-- A recursive section is a drained subtree's, or where the walk of a recursive rule stopped. -/
theorem recursive_cases {name : Rel} {s : SanoidRule}
    (hs : (name, s) ∈ splitAround rules datasets drained overrides) (hrec : s.recursive = true) :
    name ∈ drained ∨ (∀ t, t ∈ drained ∨ t ∈ overrides → Under t name → t = name) ∧
      ∃ e ∈ rules, e.2.recursive = true ∧
      Reached rules datasets drained overrides e.1 name ∧ s = e.2 := by
  by_cases hdrained : name ∈ drained
  · exact .inl hdrained
  · obtain ⟨e, he, hs⟩ | ⟨⟨hmem, -⟩, -⟩ := mem_splitAround.mp hs
    · obtain ⟨-, hreached, -, hsection⟩ := h.mem_splitRule.mp hs
      rw [sectionAt, if_neg hdrained] at hsection
      split_ifs at hsection with hsplit
      · rw [hsection] at hrec
        cases hrec
      · subst hsection
        refine .inr ⟨fun t ht hunder => ?_, e, he, hrec, hreached, rfl⟩
        by_contra hne
        have hover : name ∉ overrides := by
          intro hover
          obtain ⟨x, hx, rfl⟩ := List.mem_map.mp (h.own name hover)
          have hroot := h.eq_root_of_rule he hx (fun _ => hrec) hreached
          rw [List.inj_on_of_nodup_map h.nodup hx he hroot] at hover
          rw [(h.plain e he hover).1] at hrec
          cases hrec
        exact hsplit (splits_iff.mpr ⟨hdrained, hover, t, ht, hne, hunder⟩)
    · exact absurd hmem hdrained

/-- No section lies below a recursive one. -/
theorem eq_of_below_recursive {name below : Rel} {s s' : SanoidRule}
    (hs : (name, s) ∈ splitAround rules datasets drained overrides) (hrec : s.recursive = true)
    (hs' : (below, s') ∈ splitAround rules datasets drained overrides) (hunder : Under below name) :
    below = name := by
  have hcases := h.recursive_cases hs hrec
  have hstop : splits drained overrides name = false := by
    rw [← Bool.not_eq_true, splits_iff]
    rintro ⟨hdrained, -, t, ht, hne, hbelow⟩
    obtain hmem | ⟨hnone, -⟩ := hcases
    · exact hdrained hmem
    · exact hne (hnone t ht hbelow)
  obtain ⟨e, he, hs'⟩ | ⟨⟨hmem, -⟩, -⟩ := mem_splitAround.mp hs'
  · obtain ⟨hhidden, hreached, -, -⟩ := h.mem_splitRule.mp hs'
    by_contra hne
    obtain hroot | hroot := under_or_under hunder hreached.under
    · -- The walk came through the name, where it had to stop.
      rw [(hreached.between hunder hroot).2 (Ne.symm hne)] at hstop
      cases hstop
    · obtain heq | hbelow := eq_or_ne e.1 name
      · subst heq
        rw [(hreached.between hreached.under List.prefix_rfl).2 (Ne.symm hne)] at hstop
        cases hstop
      · obtain hdrained | ⟨hnone, e', he', hrec', hreached', -⟩ := hcases
        · -- A rule inside a drained subtree is hidden by it.
          have hin := hhidden (covered_iff.mpr ⟨name, hdrained, hroot⟩)
          exact hbelow (h.antichain.unique hin hdrained List.prefix_rfl hroot)
        · have hstrict : e'.1 ≠ e.1 := fun heq => hbelow (hroot.antisymm (heq ▸ hreached'.under))
          have hover :=
            h.nested e he e' ⟨he', hrec', (h.closed e'.1 (h.listed e' he')).1,
              hroot.trans hreached'.under, hstrict⟩
          exact hbelow (hnone e.1 (.inr hover) hroot)
  · obtain hdrained | ⟨hnone, -⟩ := hcases
    · exact h.antichain.unique hmem hdrained List.prefix_rfl hunder
    · exact hnone below (.inl hmem) hunder

/-- What a recursive rule covers, outside the drained subtrees, has a section with its template or
is below one. -/
theorem exists_section {e : Rel × SanoidRule} (he : e ∈ rules) (hrec : e.2.recursive = true)
    {name : Rel} (hname : name ∈ datasets) (hunder : Under name e.1)
    (hfree : covered name drained = false) (hown : name ≠ e.1 → name ∉ rules.map Prod.fst) :
    ∃ mid s, (mid, s) ∈ splitAround rules datasets drained overrides ∧ Under name mid ∧
    s.template = e.2.template ∧
      (mid = name ∨ s.recursive = true) := by
  have hclear : ∀ mid, Under name mid → mid ∉ drained := by
    intro mid hmid hdrained
    rw [covered_iff.mpr ⟨mid, hdrained, hmid⟩] at hfree
    cases hfree
  have hhidden : covered e.1 drained = true → e.1 ∈ drained := by
    intro hc
    obtain ⟨t, ht, hte⟩ := covered_iff.mp hc
    exact absurd ht (hclear t (hunder.trans hte))
  -- The walk from the rule towards the name, by what is left of the way.
  have hwalk : ∀ n mid, name.length - mid.length = n → Under name mid →
      Reached rules datasets drained overrides e.1 mid →
      ∃ mid s, (mid, s) ∈ splitAround rules datasets drained overrides ∧ Under name mid ∧
        s.template = e.2.template ∧
        (mid = name ∨ s.recursive = true) := by
    intro n
    induction n with
    | zero =>
        intro mid hn hmid hreached
        have heq : mid = name := (hmid.eq_of_length (by have := hmid.length_le; omega))
        refine ⟨mid, _, mem_splitAround.mpr (.inl
          ⟨e, he, h.mem_splitRule.mpr ⟨hhidden, hreached, fun _ => hrec, rfl⟩⟩), hmid, ?_, .inl heq⟩
        rw [sectionAt, if_neg (hclear mid hmid)]
        split_ifs <;> rfl
    | succ n ih =>
        intro mid hn hmid hreached
        by_cases hsplit : splits drained overrides mid = true
        · have hlt : mid.length < name.length := by omega
          have htake : Under name (name.take (mid.length + 1)) := List.take_prefix _ _
          have hlen : (name.take (mid.length + 1)).length = mid.length + 1 := by
            rw [List.length_take]
            omega
          have hparent : parent (name.take (mid.length + 1)) = mid := by
            rw [parent, List.dropLast_eq_take, hlen, Nat.add_sub_cancel, List.take_take,
              Nat.min_eq_left (Nat.le_succ _)]
            exact (List.prefix_iff_eq_take.mp hmid).symm
          have hmidne : mid ≠ [] := (h.closed mid (hreached.mem (h.listed e he))).1
          have hmem : name.take (mid.length + 1) ∈ datasets :=
            h.closed.mem_of_under hname htake (List.ne_nil_of_length_pos (by omega))
          have hpos := List.length_pos_of_ne_nil hmidne
          refine ih _ (by omega) htake (.child (hparent.symm ▸ hreached)
            (hparent.symm ▸ hsplit) hmem (by omega) fun hrule => ?_)
          -- A rule on the way is an override, and nothing lies below one.
          exfalso
          obtain ⟨x, hx, hxname⟩ := List.mem_map.mp hrule
          have hstrict : e.1 ≠ x.1 := by
            intro heq
            have hle := hreached.under.length_le
            rw [heq, hxname, hlen] at hle
            omega
          have hbelow : Under x.1 e.1 := by
            rw [hxname]
            exact (hparent ▸ under_parent (name.take (mid.length + 1))).trans hreached.under
          have hover :=
            h.nested x hx e ⟨he, hrec, (h.closed e.1 (h.listed e he)).1, hbelow, hstrict⟩
          rw [hxname] at hover hstrict
          have hleaf := h.leaf _ hover name hname htake
          rw [← hleaf] at hrule hstrict
          exact hown (Ne.symm hstrict) hrule
        · refine ⟨mid, _, mem_splitAround.mpr
            (.inl ⟨e, he, h.mem_splitRule.mpr ⟨hhidden, hreached, fun _ => hrec, rfl⟩⟩),
            hmid, ?_, .inr ?_⟩
          · rw [sectionAt, if_neg (hclear mid hmid), if_neg hsplit]
          · rw [sectionAt, if_neg (hclear mid hmid), if_neg hsplit]
            exact hrec
  exact hwalk _ e.1 rfl hunder .root

/-- Outside the drained subtrees every dataset keeps its policy. -/
theorem policyOf_splitAround {name : Rel} (hname : name ∈ datasets)
    (hfree : covered name drained = false) :
    policyOf (splitAround rules datasets drained overrides) name = policyOf rules name := by
  have hclear : ∀ mid, Under name mid → mid ∉ drained := by
    intro mid hmid hdrained
    rw [covered_iff.mpr ⟨mid, hdrained, hmid⟩] at hfree
    cases hfree
  by_cases hown : name ∈ rules.map Prod.fst
  · obtain ⟨e, he, rfl⟩ := List.mem_map.mp hown
    have hself : (e.1, sectionAt drained overrides e.1 e.2) ∈ splitAround rules datasets drained
        overrides := by
      refine mem_splitAround.mpr (.inl ⟨e, he,
        h.mem_splitRule.mpr ⟨fun hc => ?_, .root, fun hne => absurd rfl hne, rfl⟩⟩)
      rw [hfree] at hc
      cases hc
    rw [policyOf_of_mem h.nodup_splitAround hself, policyOf_of_mem h.nodup he, sectionAt,
      if_neg (hclear e.1 List.prefix_rfl)]
    split_ifs <;> rfl
  · cases hnear : nearestRecursive rules name with
    | none =>
        have hnone := (nearestRecursive_eq_none_iff h.nodup).mp hnear
        have hfrom : ∀ e ∈ rules, ∀ mid, Under name mid → (mid ≠ e.1 → e.2.recursive = true) →
            (mid = e.1 → mid ≠ name → e.2.recursive = true) →
            ¬Reached rules datasets drained overrides e.1 mid := by
          intro e he mid hmid hrec hrec' hreached
          have hne : e.1 ≠ name := fun heq => hown (heq ▸ List.mem_map_of_mem he)
          refine hnone e ⟨he, ?_, (h.closed e.1 (h.listed e he)).1, hmid.trans hreached.under, hne⟩
          by_cases heq : mid = e.1
          · exact hrec' heq (heq ▸ hne)
          · exact hrec heq
        rw [policyOf_eq_none h.nodup hown hnone, policyOf_eq_none h.nodup_splitAround]
        · intro hmem
          obtain ⟨⟨x, s⟩, hs, rfl⟩ := List.mem_map.mp hmem
          obtain ⟨e, he, hs⟩ | ⟨⟨hdrained, -⟩, -⟩ := mem_splitAround.mp hs
          · obtain ⟨-, hreached, hrec, -⟩ := h.mem_splitRule.mp hs
            exact hfrom e he x List.prefix_rfl hrec (fun _ hne => absurd rfl hne) hreached
          · exact hclear x List.prefix_rfl hdrained
        · rintro ⟨mid, s⟩ ⟨hs, hrec, -, hunder, -⟩
          obtain hdrained | ⟨-, e, he, hrec', hreached, -⟩ := h.recursive_cases hs hrec
          · exact hclear mid hunder hdrained
          · exact hfrom e he mid hunder (fun _ => hrec') (fun _ _ => hrec') hreached
    | some rule =>
        obtain ⟨a, ha⟩ := nearestRecursive_eq_some h.nodup hnear
        have hpolicy : policyOf rules name = some rule.template := by
          have hnone : rules.lookup name = none := by
            rw [← Option.not_isSome_iff_eq_none, lookup_isSome_iff]
            exact hown
          rw [policyOf, hnone, hnear]
          rfl
        obtain ⟨hmem, hrec, -, hunder, -⟩ := ha
        obtain ⟨mid, s, hs, hmid, htemplate, hcover⟩ :=
          h.exists_section hmem hrec hname hunder hfree fun _ => hown
        rw [hpolicy, ← show s.template = rule.template from htemplate]
        by_cases heq : mid = name
        · exact policyOf_of_mem h.nodup_splitAround (heq ▸ hs)
        · have hrec' := hcover.resolve_left heq
          have habove : IsAbove (splitAround rules datasets drained overrides) name (mid, s) := by
            refine ⟨hs, hrec', ?_, hmid, heq⟩
            rintro rfl
            obtain hdrained | ⟨-, e, he, -, hreached, -⟩ := h.recursive_cases hs hrec'
            · exact hclear [] hmid hdrained
            · exact (h.closed [] (hreached.mem (h.listed e he))).1 rfl
          refine policyOf_eq_of_isAbove h.nodup_splitAround (fun hself => ?_) habove ?_
          · obtain ⟨x, hx, hxname⟩ := List.mem_map.mp hself
            exact heq (hxname ▸ (h.eq_of_below_recursive hs hrec' hx (hxname.symm ▸ hmid)).symm)
          · rintro ⟨mid', s'⟩ ⟨hs', hrec'', -, hmid', -⟩
            have hsame : mid' = mid := by
              obtain hle | hle := under_or_under hmid hmid'
              · exact (h.eq_of_below_recursive hs' hrec'' hs hle).symm
              · exact h.eq_of_below_recursive hs hrec' hs' hle
            exact congrArg (fun e : Rel × SanoidRule => e.2.template)
              (List.inj_on_of_nodup_map h.nodup_splitAround hs' hs hsame)

end Splittable

theorem splitAround_nil (rules : Rules) (datasets : List Rel) :
    splitAround rules datasets [] [] = rules := by
  have hone : ∀ e : Rel × SanoidRule, splitRule rules datasets [] [] e = [e] := by
    intro e
    have hcovering : covering e.1 [] = none := rfl
    rw [splitRule, hcovering, if_neg (by simp)]
    split_ifs
    · simp [expand, splits]
    · rfl
  rw [splitAround]
  simp [funext hone, sortRels]

/-! ### The rules of a listing -/

/-- A listing of datasets as ZFS has them: the one above each is there, and nothing is below a
volume. -/
structure ZfsTree (zfs : Origins) : Prop where
  closed : ParentClosed zfs.keys
  leaf : ∀ o ∈ zfs, o.kind = .volume → ∀ d ∈ zfs, Under d.rel o.rel → d = o

section Listing

variable {zfs : Origins} {ubuntu : String}

theorem mem_listDatasets {ds : Origin} : ds ∈ listDatasets zfs ↔
    ds ∈ zfs ∧ (Under ds.rel ["rpool"] ∧ ["rpool"] ∈ zfs.keys ∨ Under ds.rel ["bpool"] ∧
      ["bpool"] ∈ zfs.keys) := by
  have hpool : ∀ pool, (ds ∈ if [pool] ∈ zfs.keys then zfs.items.filter fun d =>
      decide (Under d.rel [pool]) else []) ↔
      ds ∈ zfs ∧ Under ds.rel [pool] ∧ [pool] ∈ zfs.keys := by
    intro pool
    split_ifs with hexists
    · rw [List.mem_filter, decide_eq_true_eq, and_iff_left hexists]
      rfl
    · simp [hexists]
  rw [listDatasets, List.mem_flatMap]
  constructor
  · rintro ⟨pool, hmem, hds⟩
    obtain rfl | rfl : pool = "rpool" ∨ pool = "bpool" := by simpa using hmem
    · obtain ⟨hin, hcase⟩ := (hpool _).mp hds
      exact ⟨hin, .inl hcase⟩
    · obtain ⟨hin, hcase⟩ := (hpool _).mp hds
      exact ⟨hin, .inr hcase⟩
  · rintro ⟨hin, hcase | hcase⟩
    · exact ⟨"rpool", by simp, (hpool _).mpr ⟨hin, hcase⟩⟩
    · exact ⟨"bpool", by simp, (hpool _).mpr ⟨hin, hcase⟩⟩

theorem nodup_listDatasets (zfs : Origins) : ((listDatasets zfs).map Origin.rel).Nodup := by
  rw [listDatasets, List.map_flatMap, List.nodup_flatMap]
  refine ⟨fun pool _ => ?_, ?_⟩
  · split_ifs
    · exact zfs.nodup.sublist (List.filter_sublist.map _)
    · exact List.nodup_nil
  · have hunder :
        ∀ pool,
            ∀ name ∈ (if [pool] ∈ zfs.keys then zfs.items.filter fun d => decide (Under d.rel [pool]) else []).map Origin.rel, Under name [pool] := by
      intro pool name hname
      split_ifs at hname
      · obtain ⟨d, hd, rfl⟩ := List.mem_map.mp hname
        exact of_decide_eq_true (List.mem_filter.mp hd).2
      · cases hname
    refine List.pairwise_pair.mpr fun name hname hname' => ?_
    obtain hle | hle := under_or_under (hunder _ name hname) (hunder _ name hname')
    · exact absurd hle (by decide)
    · exact absurd hle (by decide)

theorem parentClosed_listDatasets (hzfs : ZfsTree zfs) :
    ParentClosed ((listDatasets zfs).map Origin.rel) := by
  intro x hx
  obtain ⟨ds, hds, rfl⟩ := List.mem_map.mp hx
  obtain ⟨hin, hpool⟩ := mem_listDatasets.mp hds
  obtain ⟨hne, hparent⟩ := hzfs.closed ds.rel (Keyed.key_mem_keys hin)
  have hup : ∀ pool, Under ds.rel [pool] → parent ds.rel = [] ∨ Under (parent ds.rel) [pool] := by
    intro pool hunder
    by_cases heq : ds.rel = [pool]
    · exact .inl (by rw [heq]; rfl)
    · exact .inr (hunder.parent_of_ne heq)
  refine ⟨hne, hparent.elim .inl fun hmem => ?_⟩
  obtain ⟨p, hp, hprel⟩ := Keyed.mem_keys.mp hmem
  obtain ⟨hunder, hexists⟩ | ⟨hunder, hexists⟩ := hpool
  · refine (hup _ hunder).imp id fun habove => ?_
    rw [← hprel]
    exact List.mem_map_of_mem (mem_listDatasets.mpr ⟨hp, .inl ⟨hprel ▸ habove, hexists⟩⟩)
  · refine (hup _ hunder).imp id fun habove => ?_
    rw [← hprel]
    exact List.mem_map_of_mem (mem_listDatasets.mpr ⟨hp, .inr ⟨hprel ▸ habove, hexists⟩⟩)

theorem mem_initialRules {name : Rel} {rule : SanoidRule} :
    (name, rule) ∈ initialRules zfs ubuntu ↔ ∃ ds ∈ listDatasets zfs, ds.rel = name ∧
    classify ds ubuntu = some rule := by
  rw [initialRules, List.mem_filterMap]
  refine exists_congr fun ds => and_congr_right fun _ => ?_
  rw [Option.map_eq_some_iff]
  constructor
  · rintro ⟨r, hr, heq⟩
    obtain ⟨rfl, rfl⟩ := Prod.mk.inj heq
    exact ⟨rfl, hr⟩
  · rintro ⟨rfl, hr⟩
    exact ⟨rule, hr, rfl⟩

theorem nodup_initialRules (zfs : Origins) (ubuntu : String) :
    ((initialRules zfs ubuntu).map Prod.fst).Nodup := by
  refine (nodup_listDatasets zfs).sublist ?_
  rw [initialRules]
  induction listDatasets zfs with
  | nil => exact List.Sublist.slnil
  | cons ds rest ih =>
      cases hclass : classify ds ubuntu with
      | none =>
          rw [List.filterMap_cons_none (by rw [hclass]; rfl)]
          exact ih.cons _
      | some rule =>
          rw [List.filterMap_cons_some (b := (ds.rel, rule)) (by rw [hclass]; rfl)]
          exact ih.cons_cons _

/-- What a recursive rule says of its dataset. -/
theorem classify_recursive {ds : Origin} {rule : SanoidRule} (h : classify ds ubuntu = some rule)
    (hrec : rule.recursive = true) :
    ds.kind = .filesystem ∧ (ds.rel = ["rpool", "ROOT", ubuntu] ∨ ds.rel = ["rpool", "USERDATA"] ∨
      ds.rel = ["bpool", "BOOT"] ∨
      2 ≤ ds.rel.length ∧ ¬Under ds.rel ["rpool", "ROOT"] ∧ rule.template = some .minimal) := by
  have hkind : ds.kind = .filesystem := by
    cases hds : ds.kind with
    | filesystem => rfl
    | volume =>
        rw [classify, if_pos hds] at h
        cases h
        cases hrec
  refine ⟨hkind, ?_⟩
  unfold classify at h
  split_ifs at h with hvolume hroot hbe huser hcontainer hother hcovered hboot htwo <;>
    cases h <;> cases hrec
  · exact .inl hbe
  · exact .inr (.inl huser)
  · exact .inr (.inr (.inl hboot))
  · exact .inr (.inr (.inr ⟨by omega, fun hunder => hother ⟨hunder, hbe⟩, rfl⟩))
  · exact .inr (.inr (.inr ⟨by omega, fun hunder => hother ⟨hunder, hbe⟩, rfl⟩))

theorem classify_volume {ds : Origin} {rule : SanoidRule} (h : classify ds ubuntu = some rule)
    (hkind : ds.kind = .volume) :
    rule.recursive = false := by
  rw [classify, if_pos hkind] at h
  cases h
  rfl

/-- A filesystem below a recursive rule that has a rule of its own has the same policy. -/
theorem classify_below {above ds : Origin} {ruleAbove rule : SanoidRule}
    (habove : classify above ubuntu = some ruleAbove) (hrec : ruleAbove.recursive = true)
    (h : classify ds ubuntu = some rule) (hkind : ds.kind = .filesystem)
    (hunder : Under ds.rel above.rel) (hne : above.rel ≠ ds.rel) :
    rule.recursive = true ∧ rule.template = ruleAbove.template := by
  obtain ⟨-, hcases⟩ := classify_recursive habove hrec
  have hlt := length_lt_of_under_of_ne hunder (Ne.symm hne)
  have htwo : 2 ≤ above.rel.length := by
    obtain heq | heq | heq | ⟨hlen, -⟩ := hcases
    · simp [heq]
    · simp [heq]
    · simp [heq]
    · exact hlen
  unfold classify at h
  split_ifs at h with hvolume hroot hbe huser hcontainer hother hcovered hboot hlen <;> cases h
  · rw [hkind] at hvolume
    cases hvolume
  · omega
  · -- Above the boot environment is only the container, which does not recurse.
    exfalso
    rw [hbe] at hunder hlt hne
    obtain heq | heq | heq | ⟨-, hnot, -⟩ := hcases
    · exact hne heq
    · rw [heq] at hunder
      simp [List.cons_prefix_cons] at hunder
    · rw [heq] at hunder
      simp [List.cons_prefix_cons] at hunder
    · have hcontainer : above.rel = ["rpool", "ROOT"] := by
        rw [List.prefix_iff_eq_take.mp hunder, show above.rel.length = 2 by simp at hlt; omega]
        rfl
      exact hnot (hcontainer ▸ List.prefix_rfl)
  · rw [huser] at hlt
    simp at hlt
    omega
  · rw [hcontainer] at hlt
    simp at hlt
    omega
  · rw [hboot] at hlt
    simp at hlt
    omega
  · omega
  · refine ⟨rfl, ?_⟩
    have htops : ∀ top ∈ coveredPrefixes ubuntu, above.rel ≠ top := by
      rintro top htop rfl
      refine hcovered (List.any_eq_true.mpr ⟨above.rel, htop, ?_⟩)
      rw [Bool.and_eq_true, decide_eq_true_eq, bne_iff_ne]
      exact ⟨hunder, Ne.symm hne⟩
    obtain heq | heq | heq | ⟨-, -, hminimal⟩ := hcases
    · exact absurd heq (htops _ (by simp [coveredPrefixes]))
    · exact absurd heq (htops _ (by simp [coveredPrefixes]))
    · exact absurd heq (htops _ (by simp [coveredPrefixes]))
    · exact hminimal.symm

theorem below_cases {e a : Rel × SanoidRule} (he : e ∈ initialRules zfs ubuntu)
    (ha : IsAbove (initialRules zfs ubuntu) e.1 a) :
    (e.2.recursive = false ∧ ∃ ds ∈ zfs, ds.rel = e.1 ∧ ds.kind = .volume) ∨ e.2.recursive = true ∧
    e.2.template = a.2.template := by
  obtain ⟨ds, hds, hrel, hclass⟩ := mem_initialRules.mp he
  obtain ⟨above, habove, harel, haclass⟩ := mem_initialRules.mp ha.1
  obtain ⟨-, hrec, -, hunder, hne⟩ := ha
  cases hkind : ds.kind with
  | volume =>
      exact .inl ⟨classify_volume hclass hkind, ds, (mem_listDatasets.mp hds).1, hrel, hkind⟩
  | filesystem =>
      rw [← hrel, ← harel] at hunder hne
      exact .inr (classify_below haclass hrec hclass hkind hunder hne)

theorem isRedundant_iff {e : Rel × SanoidRule} (he : e ∈ initialRules zfs ubuntu) :
    isRedundant (initialRules zfs ubuntu) e = true ↔
    e.2.recursive = true ∧ ∃ a, IsAbove (initialRules zfs ubuntu) e.1 a := by
  rw [isRedundant, Option.any_eq_true]
  simp only [Bool.and_eq_true, beq_iff_eq]
  constructor
  · rintro ⟨anc, hnear, -, hsame⟩
    obtain ⟨a, ha⟩ := nearestRecursive_eq_some (nodup_initialRules zfs ubuntu) hnear
    exact ⟨hsame ▸ ha.2.1, _, ha⟩
  · rintro ⟨hrec, a, ha⟩
    cases hnear : nearestRecursive (initialRules zfs ubuntu) e.1 with
    | none =>
        exact absurd ha ((nearestRecursive_eq_none_iff (nodup_initialRules zfs ubuntu)).mp hnear a)
    | some anc =>
        obtain ⟨b, hb⟩ := nearestRecursive_eq_some (nodup_initialRules zfs ubuntu) hnear
        obtain ⟨hno, -⟩ | ⟨-, htemplate⟩ := below_cases he hb
        · rw [hrec] at hno
          cases hno
        · exact ⟨anc, rfl, htemplate.symm, hb.2.1.trans hrec.symm⟩

theorem mem_prunedRules {e : Rel × SanoidRule} : e ∈ prunedRules zfs ubuntu ↔
    e ∈ initialRules zfs ubuntu ∧ (e.2.recursive = true →
      ∀ a, ¬IsAbove (initialRules zfs ubuntu) e.1 a) := by
  rw [prunedRules, List.mem_filter, Bool.not_eq_true', ← Bool.not_eq_true]
  refine and_congr_right fun he => ?_
  rw [isRedundant_iff he]
  simp only [not_and, not_exists]

theorem nodup_prunedRules (zfs : Origins) (ubuntu : String) :
    ((prunedRules zfs ubuntu).map Prod.fst).Nodup :=
  (nodup_initialRules zfs ubuntu).sublist (List.filter_sublist.map _)

theorem IsAbove.of_pruned {name : Rel} {a : Rel × SanoidRule}
    (ha : IsAbove (prunedRules zfs ubuntu) name a) :
    IsAbove (initialRules zfs ubuntu) name a := ⟨(mem_prunedRules.mp ha.1).1, ha.2⟩

theorem exists_kept_above {name : Rel} {a : Rel × SanoidRule}
    (ha : IsAbove (initialRules zfs ubuntu) name a) :
    ∃ b, IsAbove (prunedRules zfs ubuntu) name b ∧ b.2.template = a.2.template := by
  induction hn : a.1.length using Nat.strong_induction_on generalizing a with
  | _ n ih =>
      by_cases htop : ∀ b, ¬IsAbove (initialRules zfs ubuntu) a.1 b
      · exact ⟨a, ⟨mem_prunedRules.mpr ⟨ha.1, fun _ => htop⟩, ha.2⟩, rfl⟩
      · simp only [not_forall, not_not] at htop
        obtain ⟨b, hb⟩ := htop
        obtain ⟨hno, -⟩ | ⟨-, htemplate⟩ := below_cases ha.1 hb
        · rw [ha.2.1] at hno
          cases hno
        · obtain ⟨hmem, hrec, hne, hunder, hself⟩ := hb
          obtain ⟨-, -, -, hunder', -⟩ := ha
          have hlt := length_lt_of_under_of_ne hunder (Ne.symm hself)
          have hstrict : b.1 ≠ name := by
            intro heq
            have hle := hunder'.length_le
            rw [← heq] at hle
            omega
          obtain ⟨c, hc, hctemplate⟩ :=
            ih b.1.length (hn ▸ hlt) ⟨hmem, hrec, hne, hunder'.trans hunder, hstrict⟩ rfl
          exact ⟨c, hc, hctemplate.trans htemplate.symm⟩

theorem template_eq_of_isAbove {name : Rel} {a b : Rel × SanoidRule}
    (ha : IsAbove (initialRules zfs ubuntu) name a)
    (hb : IsAbove (initialRules zfs ubuntu) name b) : a.2.template = b.2.template := by
  have hone : ∀ {a b : Rel × SanoidRule}, IsAbove (initialRules zfs ubuntu) name a →
      IsAbove (initialRules zfs ubuntu) name b →
      Under a.1 b.1 → a.2.template = b.2.template := by
    intro a b ha hb hunder
    by_cases heq : b.1 = a.1
    · rw [List.inj_on_of_nodup_map (nodup_initialRules zfs ubuntu) ha.1 hb.1 heq.symm]
    · obtain ⟨hno, -⟩ | ⟨-, htemplate⟩ := below_cases ha.1 ⟨hb.1, hb.2.1, hb.2.2.1, hunder, heq⟩
      · rw [ha.2.1] at hno
        cases hno
      · exact htemplate
  obtain hunder | hunder := under_or_under ha.2.2.2.1 hb.2.2.2.1
  · exact hone ha hb hunder
  · exact (hone hb ha hunder).symm

/-- Leaving out what a rule above says changes no policy. -/
theorem policyOf_prunedRules (name : Rel) :
    policyOf (prunedRules zfs ubuntu) name = policyOf (initialRules zfs ubuntu) name := by
  have hnodup := nodup_initialRules zfs ubuntu
  have hnodup' := nodup_prunedRules zfs ubuntu
  by_cases hkept : name ∈ (prunedRules zfs ubuntu).map Prod.fst
  · obtain ⟨e, he, rfl⟩ := List.mem_map.mp hkept
    rw [policyOf_of_mem hnodup' he, policyOf_of_mem hnodup (mem_prunedRules.mp he).1]
  · by_cases hown : name ∈ (initialRules zfs ubuntu).map Prod.fst
    · obtain ⟨e, he, rfl⟩ := List.mem_map.mp hown
      obtain ⟨hrec, a, ha⟩ : e.2.recursive = true ∧
          ∃ a, IsAbove (initialRules zfs ubuntu) e.1 a := by
        by_contra hnot
        refine hkept (List.mem_map_of_mem
          (mem_prunedRules.mpr ⟨he, fun hrec a ha => hnot ⟨hrec, a, ha⟩⟩))
      have htemplate : ∀ a, IsAbove (initialRules zfs ubuntu) e.1 a →
          e.2.template = a.2.template := by
        intro a ha
        obtain ⟨hno, -⟩ | ⟨-, htemplate⟩ := below_cases he ha
        · rw [hrec] at hno
          cases hno
        · exact htemplate
      obtain ⟨b, hb, -⟩ := exists_kept_above ha
      rw [policyOf_of_mem hnodup he, htemplate b hb.of_pruned]
      exact policyOf_eq_of_isAbove hnodup' hkept hb fun c hc =>
        template_eq_of_isAbove hc.of_pruned hb.of_pruned
    · by_cases habove : ∀ a, ¬IsAbove (initialRules zfs ubuntu) name a
      · rw [policyOf_eq_none hnodup hown habove, policyOf_eq_none hnodup' hkept fun a ha =>
          habove a ha.of_pruned]
      · simp only [not_forall, not_not] at habove
        obtain ⟨a, ha⟩ := habove
        obtain ⟨b, hb, -⟩ := exists_kept_above ha
        rw [policyOf_eq_of_isAbove hnodup hown hb.of_pruned fun c hc =>
          template_eq_of_isAbove hc hb.of_pruned]
        exact policyOf_eq_of_isAbove hnodup' hkept hb fun c hc =>
          template_eq_of_isAbove hc.of_pruned hb.of_pruned

theorem mem_overrideNames {name : Rel} : name ∈ overrideNames zfs ubuntu ↔
    ∃ e ∈ prunedRules zfs ubuntu, e.1 = name ∧ ∃ a, IsAbove (initialRules zfs ubuntu) e.1 a := by
  rw [overrideNames, List.mem_map]
  refine exists_congr fun e => ?_
  rw [List.mem_filter, and_assoc]
  refine and_congr_right fun _ => ?_
  rw [and_comm]
  refine and_congr_right fun _ => ?_
  rw [← not_iff_not, Option.not_isSome_iff_eq_none,
    nearestRecursive_eq_none_iff (nodup_initialRules zfs ubuntu), not_exists]

theorem volume_of_override {e : Rel × SanoidRule} (he : e ∈ prunedRules zfs ubuntu)
    (hover : e.1 ∈ overrideNames zfs ubuntu) :
    e.2.recursive = false ∧ ∃ ds ∈ zfs, ds.rel = e.1 ∧ ds.kind = .volume := by
  obtain ⟨e', he', heq, a, ha⟩ := mem_overrideNames.mp hover
  obtain rfl := List.inj_on_of_nodup_map (nodup_prunedRules zfs ubuntu) he' he heq
  obtain ⟨hinitial, hpruned⟩ := mem_prunedRules.mp he'
  exact (below_cases hinitial ha).resolve_right fun hsame => hpruned hsame.1 a ha

theorem ruledOut_volume (rel : Rel) {o : Origin} (h : o.kind = .volume) :
    (ruledOut rel (some o)).isSome = true := by
  unfold ruledOut
  split_ifs with h1 h2 h3 h4 h5 h6
  all_goals try rfl
  simp [h] at h5

theorem splittable_prunedRules (hzfs : ZfsTree zfs) (ubuntu : String) {drained : List Rel}
    (hanti : Antichain drained) (hnamed : ∀ t ∈ drained, t.text ≠ "")
    (hallowed : ∀ t ∈ drained, neverExcluded t zfs = none) :
    Splittable (prunedRules zfs ubuntu) (sortRels ((listDatasets zfs).map Origin.rel)) drained
      (overrideNames zfs ubuntu) where
  nodup := nodup_prunedRules zfs ubuntu
  listed e he := by
    obtain ⟨ds, hds, hrel, -⟩ := mem_initialRules.mp (mem_prunedRules.mp he).1
    rw [mem_sortRels, ← hrel]
    exact List.mem_map_of_mem hds
  datasets_nodup := nodup_sortRels.mpr (nodup_listDatasets zfs)
  closed x hx := by
    have hclosed := parentClosed_listDatasets hzfs x (mem_sortRels.mp hx)
    exact ⟨hclosed.1, hclosed.2.imp id mem_sortRels.mpr⟩
  antichain := hanti
  named := hnamed
  nested e he a ha := mem_overrideNames.mpr ⟨e, he, rfl, a, ha.of_pruned⟩
  plain e he hover := by
    obtain ⟨hrec, ds, hds, hrel, hkind⟩ := volume_of_override he hover
    refine ⟨hrec, fun hdrained => ?_⟩
    have hnever := hallowed e.1 hdrained
    have hget : zfs.get? e.1 = some ds := hrel ▸ Keyed.get?_of_mem hds
    have hruled := ruledOut_volume e.1 hkind
    rw [neverExcluded, hget] at hnever
    cases hwhy : ruledOut e.1 (some ds) with
    | none =>
        rw [hwhy] at hruled
        cases hruled
    | some why =>
        rw [hwhy] at hnever
        cases hnever
  own o ho := by
    obtain ⟨e, he, rfl, -⟩ := mem_overrideNames.mp ho
    exact List.mem_map_of_mem he
  leaf o ho d hd hunder := by
    obtain ⟨e, he, rfl, -⟩ := mem_overrideNames.mp ho
    obtain ⟨-, v, hv, hrel, hkind⟩ := volume_of_override he ho
    obtain ⟨ds, hds, rfl⟩ := List.mem_map.mp (mem_sortRels.mp hd)
    rw [← hrel] at hunder ⊢
    rw [hzfs.leaf v hv hkind ds (mem_listDatasets.mp hds).1 hunder]

end Listing

/-! ### The sections -/

theorem discoverRules_eq (zfs : Origins) (ubuntu : String) (drained : List Rel) :
    discoverRules zfs ubuntu drained =
    splitAround (prunedRules zfs ubuntu) (sortRels ((listDatasets zfs).map Origin.rel)) drained
      (overrideNames zfs ubuntu) := by
  rw [discoverRules]
  split_ifs with h
  · rw [h.1, h.2, splitAround_nil]
  · rfl

/-- Each section is written once and none below a recursive one, every drained subtree has its own,
and every other dataset keeps the policy its classification gives it. -/
theorem discoverRules_any_order (zfs : Origins) (hzfs : ZfsTree zfs) (ubuntu : String)
    (drained : List Rel) (hanti : Antichain drained) (hnamed : ∀ t ∈ drained, t.text ≠ "")
    (hallowed : ∀ t ∈ drained, neverExcluded t zfs = none) :
    let out := discoverRules zfs ubuntu drained
    (out.map Prod.fst).Nodup ∧
    (∀ e ∈ out, e.2.recursive = true → ∀ e' ∈ out, Under e'.1 e.1 → e' = e) ∧
    (∀ ds ∈ listDatasets zfs, covered ds.rel drained = true → ∃ e ∈ out, Under ds.rel e.1 ∧
      e.2 = drainedRule) ∧
    ∀ ds ∈ listDatasets zfs, covered ds.rel drained = false →
    policyOf out ds.rel = policyOf (initialRules zfs ubuntu) ds.rel := by
  have h := splittable_prunedRules hzfs ubuntu hanti hnamed hallowed
  rw [discoverRules_eq]
  refine ⟨h.nodup_splitAround, fun e he hrec e' he' hunder => ?_, fun ds _ hcovered => ?_,
    fun ds hds hfree => ?_⟩
  · exact List.inj_on_of_nodup_map h.nodup_splitAround he' he
      (h.eq_of_below_recursive he hrec he' hunder)
  · obtain ⟨top, htop, hunder⟩ := covered_iff.mp hcovered
    exact ⟨(top, drainedRule), h.drained_mem htop, hunder, rfl⟩
  · rw [h.policyOf_splitAround (mem_sortRels.mpr (List.mem_map_of_mem hds)) hfree,
      policyOf_prunedRules]

/-- Images left out of snapshots and a swap volume beside the data they lie in. -/
theorem discoverRules_any_order_swap :
    let zfs : Origins :=
      ⟨[{ rel := ["rpool"] }, { rel := ["rpool", "data"] }, { rel := ["rpool", "data", "images"] },
        { rel := ["rpool", "data", "swap"], kind := .volume },
        { rel := ["rpool", "data", "web"] }], by decide⟩
    policyOf (discoverRules zfs "ubuntu" [["rpool", "data", "images"]]) ["rpool", "data", "web"]
        = some (some .minimal) := by
  intro zfs
  have htree : ZfsTree zfs := ⟨by decide, by decide⟩
  have hpolicy :=
    (discoverRules_any_order zfs htree "ubuntu" [["rpool", "data", "images"]]
      (List.pairwise_singleton _ _)
      (by decide) (by decide)).2.2.2 { rel := ["rpool", "data", "web"] } (by decide) (by decide)
  exact hpolicy.trans (by decide)

end Zark
