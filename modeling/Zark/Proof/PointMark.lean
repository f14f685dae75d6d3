import Zark.PointMark
import Zark.Proof.Exclusions

/-!
# The record of a point reads back

What `pointMark` records of the declared exclusions, and that the text of a record gives it back:
the same tops with their flags, the same datasets with their mount properties.
-/

namespace Zark

open Hierarchy

/-! ### The text of a record -/

theorem flagsNamed_text (flags : Flags) : flagsNamed flags.text = some flags := by
  cases flags <;> decide

section Fields

variable {α : Type*} {name : α → Rel} {value : α → Json} {items : List α}

/-- Named fields read one by one give the items back, in some order. -/
theorem filterMap_namedFields (read : String × Json → Option α)
    (hread : ∀ a ∈ items, read ((name a).text, value a) = some a) :
    ((namedFields name value items).filterMap read).Perm items := by
  refine ((Json.sortFields_perm _).filterMap read).trans (List.Perm.of_eq ?_)
  rw [List.filterMap_map]
  refine (List.filterMap_congr fun a ha => ?_).trans List.filterMap_some
  exact hread a ha

theorem nodup_names (hnames : ∀ a ∈ items, (name a).IsName) (hnodup : (items.map name).Nodup) :
    ((items.map fun a => ((name a).text, value a)).map Prod.fst).Nodup := by
  rw [List.map_map]
  have hmap : (Prod.fst ∘ fun a => ((name a).text, value a)) = Rel.text ∘ name := rfl
  rw [hmap, ← List.map_map]
  refine hnodup.map_on fun a ha b hb h => ?_
  obtain ⟨x, hx, rfl⟩ := List.mem_map.mp ha
  obtain ⟨y, hy, rfl⟩ := List.mem_map.mp hb
  exact text_injective (hnames x hx) (hnames y hy) h

theorem plain_namedFields (hnames : ∀ a ∈ items, (name a).IsName) (hnodup : (items.map name).Nodup)
    (hvalues : ∀ a ∈ items, Json.Plain (value a)) :
    Json.Plain (.obj (namedFields name value items)) := by
  refine Json.plain_sortFields (fun f hf => ?_) (nodup_names hnames hnodup)
  obtain ⟨a, ha, rfl⟩ := List.mem_map.mp hf
  exact hvalues a ha

end Fields

/-- Every name a record holds is a dataset name. -/
def PointMark.Named (m : PointMark) : Prop :=
  (∀ t ∈ m.tops, t.top.IsName) ∧ ∀ d ∈ m.datasets, d.rel.IsName

theorem plain_toJson {m : PointMark} (h : m.Named) : Json.Plain m.toJson := by
  have hdatasets : Json.Plain
      (.obj (namedFields MarkDataset.rel (fun d => .arr [.str d.canmount, .str d.mountpoint])
      m.datasets.items)) :=
    plain_namedFields h.2 m.datasets.nodup fun _ _ => ⟨trivial, trivial, trivial⟩
  have htops :
      Json.Plain (.obj (namedFields MarkTop.top (fun t => .str t.flags.text) m.tops.items)) :=
    plain_namedFields h.1 m.tops.nodup fun _ _ => trivial
  exact ⟨⟨hdatasets, htops, trivial⟩, by simp⟩

/-- Two records say the same. -/
structure PointMark.Same (a b : PointMark) : Prop where
  tops : ∀ t, t ∈ a.tops ↔ t ∈ b.tops
  datasets : ∀ d, d ∈ a.datasets ↔ d ∈ b.datasets

/-- A record leaves out the datasets it names and what lies at or below its tops. -/
theorem PointMark.covers_iff {m : PointMark} {rel : Rel} :
    m.covers rel = true ↔ rel ∈ m.datasets.keys ∨ ∃ t ∈ m.tops, t.flags ≠ .snapshots ∧
    Under rel t.top ∧ t.top.text ≠ "" := by
  rw [PointMark.covers, Bool.or_eq_true, decide_eq_true_eq]
  refine or_congr_right ?_
  rw [← not_iff_not, Bool.not_eq_true, Option.isSome_eq_false_iff, Option.isNone_iff_eq_none,
    covering_eq_none_iff]
  simp only [PointMark.leftOut, List.mem_map, List.mem_filter, bne_iff_ne, ← Keyed.mem_def]
  constructor
  · rintro h ⟨t, ht, hflags, hunder, htext⟩
    exact htext (h t.top ⟨t, ⟨ht, hflags⟩, rfl⟩ hunder)
  · rintro h _ ⟨t, ⟨ht, hflags⟩, rfl⟩ hunder
    by_contra htext
    exact h ⟨t, ht, hflags, hunder, htext⟩

theorem PointMark.Same.covers {a b : PointMark} (h : a.Same b) (rel : Rel) :
    a.covers rel = b.covers rel := by
  rw [Bool.eq_iff_iff, PointMark.covers_iff, PointMark.covers_iff]
  simp only [Keyed.mem_keys, h.tops, h.datasets]

theorem named_of_parsePointMark {value : String} {m : PointMark}
    (h : parsePointMark value = some m) : m.Named := by
  unfold parsePointMark at h
  split at h
  · split at h
    · obtain rfl := (Option.some.inj h).symm
      refine ⟨fun t ht => ?_, fun d hd => ?_⟩
      · obtain ⟨field, -, hread⟩ :=
          List.mem_filterMap.mp ((Keyed.of_mem_foldl_put ht).resolve_left List.not_mem_nil)
        unfold readTop at hread
        split at hread
        · obtain ⟨flags, -, rfl⟩ := Option.map_eq_some_iff.mp hread
          exact isName_ofText _
        · cases hread
      · obtain ⟨field, -, hread⟩ :=
          List.mem_filterMap.mp ((Keyed.of_mem_foldl_put hd).resolve_left List.not_mem_nil)
        unfold readDataset at hread
        split at hread
        · obtain rfl := (Option.some.inj hread).symm
          exact isName_ofText _
        · cases hread
    · cases h
  · cases h

/-- The text of a record gives it back. -/
theorem parsePointMark_dump {m : PointMark} (h : m.Named) :
    ∃ m', parsePointMark m.dump = some m' ∧ m'.Same m := by
  have htops : ((namedFields MarkTop.top (fun t => .str t.flags.text) m.tops.items).filterMap
      readTop).Perm m.tops.items := by
    refine filterMap_namedFields readTop fun t ht => ?_
    show (flagsNamed t.flags.text).map _ = _
    rw [flagsNamed_text, Option.map_some]
    exact congrArg (fun top => some (MarkTop.mk top t.flags)) (h.1 t ht)
  have hdatasets :
      ((namedFields MarkDataset.rel (fun d => .arr [.str d.canmount, .str d.mountpoint])
      m.datasets.items).filterMap readDataset).Perm m.datasets.items := by
    refine filterMap_namedFields readDataset fun d hd => ?_
    exact congrArg (fun rel => some (MarkDataset.mk rel d.canmount d.mountpoint)) (h.2 d hd)
  have hparse : parsePointMark m.dump =
      some { tops := Keyed.putAll ((namedFields MarkTop.top (fun t => .str t.flags.text) m.tops.items).filterMap readTop)
             datasets := Keyed.putAll ((namedFields MarkDataset.rel
               (fun d => .arr [.str d.canmount, .str d.mountpoint]) m.datasets.items).filterMap
                   readDataset) } := by
    rw [parsePointMark, PointMark.dump, String.toList_ofList, Json.loads_dumps (plain_toJson h)]
    rfl
  exact ⟨_, hparse,
    fun t => (Keyed.mem_putAll_of_nodup ((htops.map _).nodup_iff.mpr m.tops.nodup)).trans
      htops.mem_iff,
    fun d => (Keyed.mem_putAll_of_nodup ((hdatasets.map _).nodup_iff.mpr m.datasets.nodup)).trans
      hdatasets.mem_iff⟩

/-! ### What is recorded -/

section Recorded

variable {d : Declared} {origin : Origins}

theorem mem_pointMark_tops {t : MarkTop} : t ∈ (pointMark d origin).tops ↔
    t.top ∈ d.noBackup ∧ t.flags = d.flagsOf t.top ∨
      (t.top ∈ d.noSnapshot ∧ t.top ∉ d.noBackup) ∧ t.flags = .snapshots := by
  have hone : ∀ a : MarkTop, a ∈ ((sortRels d.noBackup).map fun t => MarkTop.mk t (d.flagsOf t)) ++
      ((sortRels d.noSnapshot).filter (· ∉ d.noBackup)).map (fun t => MarkTop.mk t .snapshots) ↔
        a.top ∈ d.noBackup ∧ a.flags = d.flagsOf a.top ∨
        (a.top ∈ d.noSnapshot ∧ a.top ∉ d.noBackup) ∧ a.flags = .snapshots := by
    intro a
    simp only [List.mem_append, List.mem_map, mem_sortRels, List.mem_filter, decide_eq_true_eq]
    constructor
    · rintro (⟨top, htop, rfl⟩ | ⟨top, htop, rfl⟩)
      · exact .inl ⟨htop, rfl⟩
      · exact .inr ⟨htop, rfl⟩
    · rintro (⟨htop, hflags⟩ | ⟨htop, hflags⟩)
      · exact .inl ⟨a.top, htop, by rw [← hflags]⟩
      · exact .inr ⟨a.top, htop, by rw [← hflags]⟩
  refine (Keyed.mem_putAll fun a ha b hb hkey => ?_).trans (hone t)
  obtain ⟨top, flags⟩ := a
  obtain ⟨top', flags'⟩ := b
  obtain rfl : top = top' := hkey
  obtain ⟨ha, hfa⟩ | ⟨ha, hfa⟩ := (hone _).mp ha <;> obtain ⟨hb, hfb⟩ | ⟨hb, hfb⟩ := (hone _).mp hb
  · rw [MarkTop.mk.injEq]
    exact ⟨rfl, hfa.trans hfb.symm⟩
  · exact absurd ha hb.2
  · exact absurd hb ha.2
  · rw [MarkTop.mk.injEq]
    exact ⟨rfl, hfa.trans hfb.symm⟩

theorem mem_subtree {top rel : Rel} :
    rel ∈ subtree top origin ↔ rel ∈ origin.keys ∧ Under rel top := by
  rw [subtree, mem_sortRels, List.mem_filter, decide_eq_true_eq]

theorem mem_pointMark_datasets {x : MarkDataset} : x ∈ (pointMark d origin).datasets ↔
    ∃ o ∈ origin, covered o.rel d.noBackup = true ∧ x = ⟨o.rel, o.canmount, o.mountpoint⟩ := by
  have hone : ∀ x : MarkDataset, x ∈ (((sortRels d.noBackup).flatMap fun top =>
      (subtree top origin).filterMap origin.get?).map fun o =>
        MarkDataset.mk o.rel o.canmount o.mountpoint) ↔
        ∃ o ∈ origin, covered o.rel d.noBackup = true ∧ x = ⟨o.rel, o.canmount, o.mountpoint⟩ := by
    intro x
    simp only [List.mem_map, List.mem_flatMap, mem_sortRels, List.mem_filterMap,
      mem_subtree, covered_iff]
    constructor
    · rintro ⟨o, ⟨top, htop, rel, ⟨-, hunder⟩, ho⟩, rfl⟩
      obtain ⟨hmem, rfl⟩ := Keyed.get?_eq_some_iff.mp ho
      exact ⟨o, hmem, ⟨top, htop, hunder⟩, rfl⟩
    · rintro ⟨o, ho, ⟨top, htop, hunder⟩, rfl⟩
      exact ⟨o, ⟨top, htop, o.rel, ⟨Keyed.key_mem_keys ho, hunder⟩, Keyed.get?_of_mem ho⟩, rfl⟩
  refine (Keyed.mem_putAll fun a ha b hb hkey => ?_).trans (hone x)
  obtain ⟨o, ho, -, rfl⟩ := (hone a).mp ha
  obtain ⟨o', ho', -, rfl⟩ := (hone b).mp hb
  obtain rfl : o = o' := Keyed.eq_of_key ho ho' hkey
  rfl

end Recorded

end Zark
