import Zark.Library.Checks
import Zark.PoolRecord

/-!
# A pool record decodes to what was encoded

The writer gives every object distinct names, so what it writes is read back field by field. A boot
entry is accepted in two forms only, and one that is there in any other form leaves its reason in
the record, which recover then refuses; the versions come from the object whatever else it holds,
and are compared first.
-/

namespace Zark.PoolRecord

open Json

/-! ### The round trip -/

theorem ofList_toList {β : Type} (m : Std.ExtTreeMap String β) :
    Std.ExtTreeMap.ofList m.toList = m := by
  refine Std.ExtTreeMap.ext_getElem? fun k => ?_
  cases hk : m[k]? with
  | some v =>
      exact Std.ExtTreeMap.getElem?_ofList_of_mem Std.ReflCmp.compare_self
        Std.ExtTreeMap.distinct_keys_toList
        (Std.ExtTreeMap.mem_toList_iff_getElem?_eq_some.mpr hk)
  | none =>
      refine Std.ExtTreeMap.getElem?_ofList_of_contains_eq_false ?_
      rw [Bool.eq_false_iff, ne_eq, List.contains_iff_mem]
      rintro hmem
      obtain ⟨⟨k', v⟩, hv, rfl⟩ := List.mem_map.mp hmem
      rw [Std.ExtTreeMap.mem_toList_iff_getElem?_eq_some, hk] at hv
      cases hv

theorem nodup_keys {β : Type} (m : Std.ExtTreeMap String β) : (m.toList.map Prod.fst).Nodup := by
  refine List.pairwise_map.mpr (Std.ExtTreeMap.distinct_keys_toList.imp fun {a b} hab heq => hab ?_)
  rw [heq]
  exact Std.ReflCmp.compare_self

theorem mapM_map {α β : Type} {f : β → Option α} {g : α → β} (h : ∀ a, f (g a) = some a)
    (l : List α) : (l.map g).mapM f = some l := by
  induction l with
  | nil => rfl
  | cons a l ih => rw [List.map_cons, List.mapM_cons, h, ih]; rfl

/-! ### Readers of one value -/

section Readers

variable {v : Json}

theorem isText_iff {s : String} : isText v s = true ↔ v = str s := by
  cases v <;> simp [isText]

theorem size_eq_ok {n : ℕ+} : size v = .ok n ↔ v = num (n : ℕ) := by
  unfold size
  split
  · rename_i k
    by_cases hk : 0 < k
    · rw [dif_pos hk, Except.ok.injEq, num.injEq]
      constructor
      · rintro rfl
        exact (Int.toNat_of_nonneg hk.le).symm
      · rintro rfl
        exact PNat.eq rfl
    · rw [dif_neg hk]
      refine iff_of_false nofun fun h => hk ?_
      rw [num.injEq] at h
      rw [h]
      exact_mod_cast n.pos
  · rename_i hnot
    exact iff_of_false nofun fun h => hnot _ h

theorem toOption_ok {α : Type} (a : α) : (Except.ok a : Except String α).toOption = some a := rfl

theorem text_eq_ok {s : String} : text v = .ok s ↔ v = str s := by
  cases v <;> simp [text]

theorem entry_eq_ok {fields : List (String × Json)} : entry v = .ok fields ↔ v = obj fields := by
  cases v <;> simp [entry]

theorem names_eq_ok {l : List String} : names v = .ok l ↔ v = arr (l.map str) := by
  have hmapM : ∀ (items : List Json) (l : List String),
      (items.mapM fun v => (text v).toOption) = some l ↔ items = l.map str := by
    intro items
    induction items with
    | nil => simp [eq_comm]
    | cons v items ih =>
        intro l
        rw [List.mapM_cons]
        cases l with
        | nil => cases v <;> simp [text, Except.toOption, Option.bind_eq_some_iff]
        | cons s l =>
            rw [Option.bind_eq_bind, Option.bind_eq_some_iff, List.map_cons, List.cons.injEq]
            constructor
            · rintro ⟨t, ht, hrest⟩
              obtain ⟨ts, hts, heq⟩ := Option.bind_eq_some_iff.mp hrest
              obtain ⟨rfl, rfl⟩ := List.cons.inj (Option.some.inj heq)
              exact ⟨text_eq_ok.mp (Except.toOption_eq_some.mp ht), (ih _).mp hts⟩
            · rintro ⟨rfl, hitems⟩
              exact ⟨s, rfl, by rw [(ih l).mpr hitems]; rfl⟩
  cases v with
  | arr items =>
      rw [names, arr.injEq, ← hmapM]
      cases (items.mapM fun v => (text v).toOption) with
      | none => exact iff_of_false (by simp) (by simp)
      | some names => rw [Except.ok.injEq, Option.some.injEq]
  | _ => simp [names]

theorem mapM_eq_ok {α β : Type} {f : α → Except String β} {o : Option α} {r : Option β} :
    o.mapM f = .ok r ↔ o = none ∧ r = none ∨ ∃ a b, o = some a ∧ r = some b ∧ f a = .ok b := by
  cases o with
  | none =>
      rw [Option.mapM_none]
      constructor
      · intro h
        exact .inl ⟨rfl, (Except.ok.inj h).symm⟩
      · rintro (⟨-, rfl⟩ | ⟨_, _, h, -⟩)
        · rfl
        · cases h
  | some a =>
      rw [Option.mapM_some, map_eq_pure_bind, Except.bind_eq_ok]
      constructor
      · rintro ⟨b, hb, h⟩
        exact .inr ⟨a, b, rfl, (Except.ok.inj h).symm, hb⟩
      · rintro (⟨h, -⟩ | ⟨_, b, ha, rfl, hb⟩)
        · cases h
        · exact ⟨b, Option.some.inj ha ▸ hb, rfl⟩

end Readers

/-! ### The boot entry -/

/-- An entry that may be left out. -/
inductive MaybeEntry {α : Type} (is : List (String × Json) → α → Prop) :
    Option Json → Option α → Prop
  | left : MaybeEntry is none none
  | there {fields : List (String × Json)} {a : α} (h : is fields a) :
      MaybeEntry is (some (obj fields)) (some a)

structure IsEsp (fields : List (String × Json)) (e : Esp) : Prop where
  size : get fields "size_bytes" = num (e.sizeBytes : ℕ)
  uuid : get fields "uuid" = str e.uuid

structure IsSwap (fields : List (String × Json)) (s : Swap) : Prop where
  size : get fields "size_bytes" = num (s.sizeBytes : ℕ)
  crypttab : get fields "crypttab" = str s.crypttab

structure IsPartition (fields : List (String × Json)) (p : Partition) : Prop where
  size : get fields "size_bytes" = num (p.sizeBytes : ℕ)
  typeGuid : get fields "type_guid" = str p.typeGuid

/-- A complete ext4 entry: the fields of a record, where only the label, the mount options, the ESP
and the swap may be left out. -/
structure IsExt4 (b : List (String × Json)) (r : BootRecord) : Prop where
  layout : get b "layout" = str "ext4"
  fstype : get b "fstype" = str "ext4" ∧ r.fstype = "ext4"
  dataset : get b "dataset" = str r.dataset
  uuid : get b "uuid" = str r.uuid
  label : (field? b "label").getD (str "") = str r.label
  size : get b "size_bytes" = num (r.sizeBytes : ℕ)
  features : get b "features" = arr (r.features.map str)
  mountOptions : (field? b "mount_options").getD (str "defaults") = str r.mountOptions
  partition : ∃ part, get b "partition" = obj part ∧ IsPartition part r.partition
  esp : MaybeEntry IsEsp (field? b "esp") r.esp
  swap : MaybeEntry IsSwap (field? b "swap") r.swap

section Boot

variable {b : List (String × Json)} {r : BootRecord} {raw : Json}

theorem espOf_eq_ok {fields : List (String × Json)} {e : Esp} :
    espOf fields = .ok e ↔ IsEsp fields e := by
  simp only [espOf, Except.bind_eq_ok, size_eq_ok, text_eq_ok]
  constructor
  · rintro ⟨n, hn, s, hs, he⟩
    obtain rfl := Except.ok.inj he
    exact ⟨hn, hs⟩
  · exact fun h => ⟨_, h.size, _, h.uuid, rfl⟩

theorem swapOf_eq_ok {fields : List (String × Json)} {s : Swap} :
    swapOf fields = .ok s ↔ IsSwap fields s := by
  simp only [swapOf, Except.bind_eq_ok, size_eq_ok, text_eq_ok]
  constructor
  · rintro ⟨n, hn, t, ht, hs⟩
    obtain rfl := Except.ok.inj hs
    exact ⟨hn, ht⟩
  · exact fun h => ⟨_, h.size, _, h.crypttab, rfl⟩

/-- An entry read in two steps: as an object, then its fields. -/
theorem maybeEntry_iff {α : Type} {f : List (String × Json) → Except String α}
    {is : List (String × Json) → α → Prop} (hf : ∀ {fields a}, f fields = .ok a ↔ is fields a)
    {o : Option Json} {r : Option α} :
    (∃ fields, o.mapM entry = .ok fields ∧ fields.mapM f = .ok r) ↔ MaybeEntry is o r := by
  simp only [mapM_eq_ok, entry_eq_ok]
  constructor
  · rintro ⟨fields, ⟨rfl, rfl⟩ | ⟨_, fs, rfl, rfl, rfl⟩, h⟩
    · obtain ⟨-, rfl⟩ | ⟨_, _, h, -⟩ := h
      · exact .left
      · cases h
    · obtain ⟨h, -⟩ | ⟨_, a, h, rfl, ha⟩ := h
      · cases h
      · exact .there (hf.mp (Option.some.inj h ▸ ha))
  · rintro (_ | h)
    · exact ⟨none, .inl ⟨rfl, rfl⟩, .inl ⟨rfl, rfl⟩⟩
    · exact ⟨_, .inr ⟨_, _, rfl, rfl, rfl⟩, .inr ⟨_, _, rfl, rfl, hf.mpr h⟩⟩

theorem ext4Of_eq_ok (hlayout : get b "layout" = str "ext4")
    (hfstype : get b "fstype" = str "ext4") : ext4Of b = .ok r ↔ IsExt4 b r := by
  simp only [ext4Of, Except.bind_eq_ok, size_eq_ok, text_eq_ok, entry_eq_ok, names_eq_ok]
  constructor
  · rintro ⟨features, hfeatures, part, hpart, esp, hesp, swap, hswap, dataset, hdataset, uuid,
      huuid, label, hlabel, size, hsize, options, hoptions, partSize, hpartSize, typeGuid,
      htypeGuid, esp', hesp', swap', hswap', hr⟩
    obtain rfl := Except.ok.inj hr
    exact ⟨hlayout, ⟨hfstype, rfl⟩, hdataset, huuid, hlabel, hsize, hfeatures, hoptions,
      ⟨part, hpart, hpartSize, htypeGuid⟩, (maybeEntry_iff espOf_eq_ok).mp ⟨esp, hesp, hesp'⟩,
      (maybeEntry_iff swapOf_eq_ok).mp ⟨swap, hswap, hswap'⟩⟩
  · intro h
    obtain ⟨part, hpart, hpartition⟩ := h.partition
    obtain ⟨esp, hesp, hesp'⟩ := (maybeEntry_iff espOf_eq_ok).mpr h.esp
    obtain ⟨swap, hswap, hswap'⟩ := (maybeEntry_iff swapOf_eq_ok).mpr h.swap
    refine ⟨_, h.features, part, hpart, esp, hesp, swap, hswap, _, h.dataset, _, h.uuid, _, h.label,
      _, h.size, _, h.mountOptions, _, hpartition.size, _, hpartition.typeGuid, _, hesp',
      _, hswap', ?_⟩
    obtain ⟨dataset, fstype, uuid, label, size, features, options, partition, esp, swap⟩ := r
    obtain rfl : fstype = "ext4" := h.fstype.2
    rfl

theorem bootOf_eq_ok {boot : Option BootRecord} : bootOf raw = .ok boot ↔
    ∃ b, raw = obj b ∧ (get b "layout" = str "bpool" ∧ boot = none ∨ ∃ r, IsExt4 b r ∧
      boot = some r) := by
  rw [bootOf, Except.bind_eq_ok]
  simp only [entry_eq_ok]
  refine exists_congr fun b => and_congr_right fun _ => ?_
  by_cases hbpool : get b "layout" = str "bpool"
  · rw [if_pos (isText_iff.mpr hbpool)]
    constructor
    · exact fun h => .inl ⟨hbpool, (Except.ok.inj h).symm⟩
    · rintro (⟨-, rfl⟩ | ⟨r, hr, -⟩)
      · rfl
      · have := hr.layout
        rw [hbpool] at this
        simp at this
  · rw [if_neg fun h => hbpool (isText_iff.mp h)]
    by_cases hext4 : get b "layout" = str "ext4" ∧ get b "fstype" = str "ext4"
    · rw [if_pos (by simpa [isText_iff] using hext4), map_eq_pure_bind, Except.bind_eq_ok]
      simp only [ext4Of_eq_ok hext4.1 hext4.2]
      constructor
      · rintro ⟨r, hr, h⟩
        exact .inr ⟨r, hr, (Except.ok.inj h).symm⟩
      · rintro (⟨h, -⟩ | ⟨r, hr, rfl⟩)
        · exact absurd h hbpool
        · exact ⟨r, hr, rfl⟩
    · rw [if_neg (by simpa [isText_iff] using hext4)]
      refine iff_of_false nofun ?_
      rintro (⟨h, -⟩ | ⟨r, hr, -⟩)
      · exact hbpool h
      · exact hext4 ⟨hr.layout, hr.fstype.1⟩

end Boot

/-! ### What the writer writes -/

section Written

variable {b : BootRecord} {rec : PoolRecord}

/-- The fields of a boot entry, as they are sorted. -/
def bootFieldsOf (b : BootRecord) : List (String × Json) :=
  [("layout", str "ext4"), ("dataset", str b.dataset), ("fstype", str b.fstype),
      ("uuid", str b.uuid), ("label", str b.label), ("size_bytes", num (b.sizeBytes : ℕ)),
      ("features", arr (b.features.map str)), ("mount_options", str b.mountOptions),
      ("partition", obj [("size_bytes", num (b.partition.sizeBytes : ℕ)),
        ("type_guid", str b.partition.typeGuid)])] ++
    ((b.esp.elim [] fun e => [("esp", espJson e)]) ++ b.swap.elim [] fun s =>
      [("swap", swapJson s)])

theorem nodup_bootFields : ((bootFieldsOf b).map Prod.fst).Nodup := by
  unfold bootFieldsOf
  cases b.esp <;> cases b.swap <;> simp

theorem isEsp_espJson (e : Esp) : MaybeEntry IsEsp (some (espJson e)) (some e) := .there ⟨rfl, rfl⟩

theorem isSwap_swapJson (s : Swap) : MaybeEntry IsSwap (some (swapJson s)) (some s) :=
  .there ⟨rfl, rfl⟩

theorem isExt4_bootJson (h : b.fstype = "ext4") : IsExt4 (sortFields (bootFieldsOf b)) b := by
  have hfield : ∀ name, field? (sortFields (bootFieldsOf b)) name = field? (bootFieldsOf b) name :=
    field?_sortFields nodup_bootFields
  have hget : ∀ name, get (sortFields (bootFieldsOf b)) name
      = (field? (bootFieldsOf b) name).getD null := fun name => by
    rw [Json.get, hfield]
  refine ⟨?_, ⟨?_, h⟩, ?_, ?_, ?_, ?_, ?_, ?_,
    ⟨[("size_bytes", num (b.partition.sizeBytes : ℕ)), ("type_guid", str b.partition.typeGuid)], ?_,
      ⟨rfl, rfl⟩⟩, ?_, ?_⟩
  all_goals simp only [hget, hfield]
  all_goals simp only [bootFieldsOf, field?_append]
  · simp [field?]
  · simp [field?, h]
  · simp [field?]
  · simp [field?]
  · simp [field?]
  · simp [field?]
  · simp [field?]
  · simp [field?]
  · simp [field?]
  · cases b.esp with
    | none => cases b.swap <;> simpa [field?] using MaybeEntry.left
    | some e => simpa [field?] using isEsp_espJson e
  · cases b.swap with
    | none => cases b.esp <;> simpa [field?] using MaybeEntry.left
    | some s => cases b.esp <;> simpa [field?] using isSwap_swapJson s

theorem bootOf_bootJson (h : b.fstype = "ext4") : bootOf (bootJson b) = .ok (some b) :=
  bootOf_eq_ok.mpr ⟨_, rfl, .inr ⟨b, isExt4_bootJson h, rfl⟩⟩

theorem poolState_poolJson (p : PoolState) : poolState (poolJson p) = some p := by
  have hfeatures : (p.features.toList.map fun f => (f.1, str f.2.text)).mapM featureOf
      = some p.features.toList := by
    refine mapM_map (fun f => ?_) _
    obtain ⟨name, state⟩ := f
    cases state <;> simp [featureOf, isText, FeatureState.text]
  have hread : poolState (poolJson p)
      = (((p.features.toList.map fun f => (f.1, str f.2.text)).mapM featureOf).map fun features =>
      { compatibility := p.compatibility, features := .ofList features }) := by
    simp [poolState, poolJson, Json.get, field?]
  rw [hread, hfeatures, Option.map_some, ofList_toList]

/-! The whole record. -/

def recordFields (rec : PoolRecord) : List (String × Json) :=
  [("format", num 1), ("ubuntu", str rec.ubuntu), ("zfs", str rec.zfs), ("kmod", str rec.kmod),
      ("pools", obj (rec.pools.toList.map fun p => (p.1, poolJson p.2)))] ++
    ((rec.boot.elim [] fun b => [("boot", bootJson b)]) ++
      ((if rec.writtenBy = "" then [] else [("written_by", str rec.writtenBy)]) ++
        if rec.minRecover = "" then [] else [("min_recover", str rec.minRecover)]))

theorem nodup_recordFields : ((recordFields rec).map Prod.fst).Nodup := by
  unfold recordFields
  cases rec.boot <;> by_cases hwritten : rec.writtenBy = "" <;>
    by_cases hmin : rec.minRecover = "" <;> simp [hwritten, hmin]

theorem plain_poolJson (p : PoolState) : Plain (poolJson p) := by
  have hnames : ((p.features.toList.map fun f => (f.1, str f.2.text)).map Prod.fst).Nodup := by
    rw [List.map_map]
    exact nodup_keys p.features
  have hvalues : PlainFields (p.features.toList.map fun f => (f.1, str f.2.text)) := by
    rw [plainFields_iff]
    intro f hf
    obtain ⟨g, -, rfl⟩ := List.mem_map.mp hf
    exact trivial
  exact ⟨⟨trivial, ⟨hvalues, hnames⟩, trivial⟩, by simp⟩

theorem plain_bootJson (b : BootRecord) : Plain (bootJson b) := by
  refine plain_sortFields (fun f hf => ?_) (nodup_bootFields (b := b))
  have hfeatures : Plain (arr (b.features.map str)) := by
    change PlainItems _
    rw [plainItems_iff]
    intro v hv
    obtain ⟨s, -, rfl⟩ := List.mem_map.mp hv
    exact trivial
  have hpartition : Plain (obj [("size_bytes", num (b.partition.sizeBytes : ℕ)),
      ("type_guid", str b.partition.typeGuid)]) := by
    simp [Plain, PlainFields]
  have hesp : ∀ e : Esp, Plain (espJson e) := fun e => by simp [espJson, Plain, PlainFields]
  have hswap : ∀ s : Swap, Plain (swapJson s) := fun s => by simp [swapJson, Plain, PlainFields]
  simp only [List.mem_append, List.mem_cons, List.not_mem_nil, or_false] at hf
  obtain (rfl | rfl | rfl | rfl | rfl | rfl | rfl | rfl | rfl) | hesps | hswaps := hf
  all_goals try exact trivial
  · exact hfeatures
  · exact hpartition
  · cases hb : b.esp with
    | none => simp [hb] at hesps
    | some e =>
        obtain rfl : f = ("esp", espJson e) := by simpa [hb] using hesps
        exact hesp e
  · cases hb : b.swap with
    | none => simp [hb] at hswaps
    | some s =>
        obtain rfl : f = ("swap", swapJson s) := by simpa [hb] using hswaps
        exact hswap s

theorem plain_toJson : Plain rec.toJson := by
  refine plain_sortFields (fun f hf => ?_) (@nodup_recordFields rec)
  have hpools : Plain (obj (rec.pools.toList.map fun p => (p.1, poolJson p.2))) := by
    refine ⟨plainFields_iff.mpr fun f hf => ?_, ?_⟩
    · obtain ⟨p, -, rfl⟩ := List.mem_map.mp hf
      exact plain_poolJson p.2
    · rw [List.map_map]
      exact nodup_keys rec.pools
  simp only [List.mem_append, List.mem_cons, List.not_mem_nil, or_false] at hf
  obtain (rfl | rfl | rfl | rfl | rfl) | hboot | hwritten | hmin := hf
  all_goals try exact trivial
  · exact hpools
  · cases hb : rec.boot with
    | none => simp [hb] at hboot
    | some b =>
        obtain rfl : f = ("boot", bootJson b) := by simpa [hb] using hboot
        exact plain_bootJson b
  · by_cases hb : rec.writtenBy = ""
    · simp [hb] at hwritten
    · obtain rfl : f = ("written_by", str rec.writtenBy) := by simpa [hb] using hwritten
      exact trivial
  · by_cases hb : rec.minRecover = ""
    · simp [hb] at hmin
    · obtain rfl : f = ("min_recover", str rec.minRecover) := by simpa [hb] using hmin
      exact trivial

variable {host : Host}

theorem loads_dump : loads rec.dump.toList = some (obj (sortFields (recordFields rec))) := by
  rw [dump, String.toList_ofList, loads_dumps plain_toJson]
  rfl

theorem parse_dump (hproblem : rec.bootProblem = "")
    (hboot : ∀ b, rec.boot = some b → b.fstype = "ext4") : parse host rec.dump = some rec := by
  have hfield : ∀ name, field? (sortFields (recordFields rec)) name
      = field? (recordFields rec) name := field?_sortFields nodup_recordFields
  have hget : ∀ name, get (sortFields (recordFields rec)) name
      = (field? (recordFields rec) name).getD null := fun name => by
    rw [Json.get, hfield]
  have hformat : get (sortFields (recordFields rec)) "format" = num 1 := by
    rw [hget, recordFields, field?_append]
    simp [field?]
  have hpools : get (sortFields (recordFields rec)) "pools"
      = obj (rec.pools.toList.map fun p => (p.1, poolJson p.2)) := by
    rw [hget, recordFields, field?_append]
    simp [field?]
  have hubuntu : field? (sortFields (recordFields rec)) "ubuntu" = some (str rec.ubuntu) := by
    rw [hfield, recordFields, field?_append]
    simp [field?]
  have hzfs : field? (sortFields (recordFields rec)) "zfs" = some (str rec.zfs) := by
    rw [hfield, recordFields, field?_append]
    simp [field?]
  have hkmod : field? (sortFields (recordFields rec)) "kmod" = some (str rec.kmod) := by
    rw [hfield, recordFields, field?_append]
    simp [field?]
  have hentry : field? (sortFields (recordFields rec)) "boot" = rec.boot.map bootJson := by
    rw [hfield, recordFields]
    cases rec.boot <;> by_cases hwritten : rec.writtenBy = "" <;>
      by_cases hmin : rec.minRecover = "" <;> simp [field?, hwritten, hmin]
  have hversions : versionsOf host (sortFields (recordFields rec))
      = (rec.writtenBy, rec.minRecover) := by
    rw [versionsOf, hfield, hfield, recordFields]
    cases rec.boot <;> by_cases hwritten : rec.writtenBy = "" <;>
      by_cases hmin : rec.minRecover = "" <;>
      simp [field?, versionText, hwritten, hmin]
  have hread : bootFields (sortFields (recordFields rec)) = (rec.boot, "") := by
    rw [bootFields, hentry]
    cases hb : rec.boot with
    | none => rfl
    | some b => simp [bootOf_bootJson (hboot b hb)]
  have hstates : (rec.pools.toList.map fun p => (p.1, poolJson p.2)).mapM
      (fun p => (poolState p.2).map fun state => (p.1, state)) =
      some rec.pools.toList := mapM_map (fun p => by rw [poolState_poolJson, Option.map_some]) _
  rw [parse, loads_dump]
  simp only [hformat, hpools, hubuntu, hzfs, hkmod, hversions, hread, hstates, isFormat,
    decide_true, if_true, Option.getD_some, text, toOption_ok, Option.bind_eq_bind,
    Option.bind_some, ofList_toList]
  rw [← hproblem]
  rfl

end Written

/-! ### What recover refuses -/

/-- A boot entry that says the point has no partition of its own for `/boot`. -/
def BpoolEntry (raw : Json) : Prop := ∃ b, raw = obj b ∧ get b "layout" = str "bpool"

def Ext4Entry (raw : Json) : Prop := ∃ b r, raw = obj b ∧ IsExt4 b r

section Refused

variable {host : Host} {value pool point be : String} {data : List (String × Json)} {raw : Json}
  {rec : PoolRecord} {marks : SnapName → Option String}
  {snaps : List Snap} {originLayout : Option String}

theorem bootFields_unreadable (hraw : field? data "boot" = some raw) (hbpool : ¬BpoolEntry raw)
    (hext4 : ¬Ext4Entry raw) :
    (bootFields data).1 = none ∧ (bootFields data).2 ≠ "" := by
  simp only [bootFields, hraw]
  cases hread : bootOf raw with
  | ok boot =>
      obtain ⟨b, hb, ⟨hlayout, -⟩ | ⟨r, hr, -⟩⟩ := bootOf_eq_ok.mp hread
      · exact absurd ⟨b, hb, hlayout⟩ hbpool
      · exact absurd ⟨b, r, hb, hr⟩ hext4
  | error why =>
      refine ⟨rfl, ?_⟩
      by_cases hwhy : why = ""
      · simp [hwhy]
      · simp [hwhy]

theorem fields_of_parse (hdata : loads value.toList = some (obj data))
    (h : parse host value = some rec) :
    (rec.boot, rec.bootProblem) = bootFields data ∧
    (rec.writtenBy, rec.minRecover) = versionsOf host data := by
  rw [parse, hdata] at h
  dsimp only at h
  split at h
  · split at h
    · simp only [Option.bind_eq_bind, Option.bind_eq_some_iff] at h
      obtain ⟨pools, -, ubuntu, -, zfs, -, kmod, -, hrec⟩ := h
      obtain rfl := Option.some.inj hrec
      exact ⟨rfl, rfl⟩
    · cases h
  · cases h

theorem versions_of_loads (hdata : loads value.toList = some (obj data)) :
    versions host value = versionsOf host data := by
  rw [versions, hdata]

/-- A value of a point is its record, or the point is not read. -/
theorem readRecord_of_mem (h : value ∈ valuesAt marks snaps point) :
    (valuesAt marks snaps point = [value] ∧ ∃ rec, parse host value = some rec ∧
      readRecord host marks snaps point = .ok (some rec)) ∨
      readRecord host marks snaps point
        = .error (recordError host point (valuesAt marks snaps point)) := by
  rw [readRecord]
  split
  · rename_i hnil
    rw [hnil] at h
    cases h
  · rename_i only honly
    obtain rfl : value = only := by simpa [honly] using h
    cases hparse : parse host value with
    | none => exact .inr (by rw [honly])
    | some rec => exact .inl ⟨honly, rec, rfl, rfl⟩
  · exact .inr rfl

/-- The versions an unread point is refused by are those of the first value that blocks it, when
one does. -/
theorem recordError_blocked (point : String) {values : List String} (hvalue : value ∈ values)
    (hblocks : recovers host (versions host value).2 = false) :
    ∃ first ∈ values, recovers host (versions host first).2 = false ∧
      (∀ v ∈ values, recovers host (versions host v).2 = false → first ≤ v) ∧
        (recordError host point values).writtenBy = (versions host first).1 ∧
          (recordError host point values).minRecover = (versions host first).2 := by
  let sorted := values.insertionSort (· ≤ ·)
  let blocking := sorted.filter fun v => !recovers host (versions host v).2
  have hmem : ∀ v, v ∈ blocking ↔ v ∈ values ∧ recovers host (versions host v).2 = false := by
    simp [blocking, sorted, List.mem_filter]
  have hsorted : blocking.Pairwise (· ≤ ·) :=
    (List.pairwise_insertionSort (· ≤ ·) values).sublist List.filter_sublist
  have hnamed : ((sorted.map (versions host)).filter fun v => !recovers host v.2)
      = blocking.map (versions host) := List.filter_map
  cases hfirst : blocking with
  | nil =>
      have hnil := (hmem value).mpr ⟨hvalue, hblocks⟩
      rw [hfirst] at hnil
      cases hnil
  | cons first rest =>
      rw [hfirst] at hmem hsorted hnamed
      obtain ⟨hin, hfails⟩ := (hmem first).mp List.mem_cons_self
      have hhead : (((sorted.map (versions host)).filter fun v => !recovers host v.2) ++
          sorted.map (versions host)).headD ("", "") =
          versions host first := by
        rw [hnamed, List.map_cons, List.cons_append, List.headD_cons]
      refine ⟨first, hin, hfails, fun v hv hunmet => ?_, congrArg Prod.fst hhead,
        congrArg Prod.snd hhead⟩
      obtain rfl | hrest := List.mem_cons.mp ((hmem v).mpr ⟨hv, hunmet⟩)
      · exact le_refl _
      · exact (List.pairwise_cons.mp hsorted).1 v hrest

theorem refuseMinRecover_isSome {minRecover : String} (writtenBy : String)
    (h : recovers host minRecover = false) :
    ∃ refusal, refuseMinRecover host minRecover writtenBy = some refusal := by
  rw [refuseMinRecover, h]
  exact ⟨_, rfl⟩

theorem refuse_noBoot (hboot : rec.boot = none) :
    ∃ refusal, refuseUnrecoverable host (some rec) .ext4 = some refusal := by
  rw [refuseUnrecoverable]
  cases refuseMinRecover host rec.minRecover rec.writtenBy with
  | some refusal => exact ⟨refusal, rfl⟩
  | none => exact ⟨noBoot rec, if_pos ⟨rfl, hboot⟩⟩

/-- A boot entry in neither form is never taken for none. -/
theorem parse_unreadable_boot (hdata : loads value.toList = some (obj data))
    (hraw : field? data "boot" = some raw) (hbpool : ¬BpoolEntry raw) (hext4 : ¬Ext4Entry raw)
    (h : parse host value = some rec) : layoutOf (some rec) = .ext4 ∧ rec.boot = none := by
  obtain ⟨hnone, hproblem⟩ := bootFields_unreadable hraw hbpool hext4
  have hfields := (fields_of_parse hdata h).1
  rw [← hfields] at hnone hproblem
  exact ⟨if_pos (.inr hproblem), hnone⟩

theorem refused_of_unreadable_boot (hdata : loads value.toList = some (obj data))
    (hraw : field? data "boot" = some raw) (hbpool : ¬BpoolEntry raw) (hext4 : ¬Ext4Entry raw)
    (hvalue : value ∈ valuesAt marks snaps point) :
    ∃ refusal, poolsFromRecord host (.ok marks) pool point snaps be originLayout
      = .error refusal := by
  obtain ⟨-, rec, hparse, hread⟩ | hread := @readRecord_of_mem host _ _ _ _ hvalue
  · obtain ⟨hlayout, hboot⟩ := parse_unreadable_boot hdata hraw hbpool hext4 hparse
    obtain ⟨refusal, hrefusal⟩ : ∃ refusal, refuseUnrecoverable host (some rec) .ext4
        = some refusal := refuse_noBoot hboot
    refine ⟨refusal, ?_⟩
    simp only [poolsFromRecord, hread, pointLayout, hlayout, hrefusal]
  · exact ⟨_, by simp only [poolsFromRecord, hread]; rfl⟩

/-- A version this zark does not meet blocks its point, whatever else is on it: the first that does
is the one that is named. -/
theorem refused_of_unmet (hdata : loads value.toList = some (obj data))
    (hvalue : value ∈ valuesAt marks snaps point)
    (hunmet : recovers host (versions host value).2 = false) :
    ∃ first ∈ valuesAt marks snaps point, recovers host (versions host first).2 = false ∧
      (∀ v ∈ valuesAt marks snaps point, recovers host (versions host v).2 = false → first ≤ v) ∧
      ∃ refusal,
        refuseMinRecover host (versions host first).2 (versions host first).1 = some refusal ∧
          poolsFromRecord host (.ok marks) pool point snaps be originLayout = .error refusal := by
  obtain ⟨honly, rec, hparse, hread⟩ | hread := @readRecord_of_mem host _ _ _ _ hvalue
  · obtain ⟨refusal, hrefusal⟩ := refuseMinRecover_isSome (versions host value).1 hunmet
    have hfirst : ∀ v ∈ valuesAt marks snaps point, recovers host (versions host v).2 = false →
        value ≤ v := by
      intro v hv _
      rw [honly, List.mem_singleton] at hv
      exact hv.ge
    refine ⟨value, hvalue, hunmet, hfirst, refusal, hrefusal, ?_⟩
    have hversions := (fields_of_parse hdata hparse).2
    rw [versions_of_loads hdata, ← hversions] at hrefusal
    simp only [poolsFromRecord, hread, refuseUnrecoverable, hrefusal]
  · obtain ⟨first, hin, hblocks, hleast, hwritten, hmin⟩ := recordError_blocked point hvalue hunmet
    obtain ⟨refusal, hrefusal⟩ := refuseMinRecover_isSome (versions host first).1 hblocks
    refine ⟨first, hin, hblocks, hleast, refusal, hrefusal, ?_⟩
    simp only [poolsFromRecord, hread, refuseUnreadable, hwritten, hmin, hrefusal, Option.getD_some]

end Refused

/-- A record of an ext4 `/boot` or of none is read as it was written; of any other object, a boot
entry in neither form is refused, and so is a version this zark does not meet. -/
theorem decoded_or_refused (host : Host) :
    (∀ rec : PoolRecord, rec.bootProblem = "" → (∀ b, rec.boot = some b → b.fstype = "ext4") →
      parse host rec.dump = some rec) ∧
    ∀ value data, loads value.toList = some (obj data) →
      (∀ raw, field? data "boot" = some raw → ¬BpoolEntry raw → ¬Ext4Entry raw →
        (parse host value = none ∨ ∃ rec, parse host value = some rec ∧
          layoutOf (some rec) = .ext4 ∧ rec.boot = none) ∧
        ∀ marks pool point snaps be originLayout, value ∈ valuesAt marks snaps point →
          ∃ refusal, poolsFromRecord host (.ok marks) pool point snaps be originLayout
            = .error refusal) ∧
      versions host value =
        (versionText host ((field? data "written_by").getD (str "")),
          versionText host ((field? data "min_recover").getD (str ""))) ∧
      (∀ rec, parse host value = some rec → (rec.writtenBy, rec.minRecover) = versions host value) ∧
      (recovers host (versions host value).2 = false →
        ∀ marks pool point snaps be originLayout, value ∈ valuesAt marks snaps point →
        ∃ first ∈ valuesAt marks snaps point, recovers host (versions host first).2 = false ∧
          (∀ v ∈ valuesAt marks snaps point, recovers host (versions host v).2 = false →
            first ≤ v) ∧ ∃ refusal,
            refuseMinRecover host (versions host first).2 (versions host first).1 = some refusal ∧
              poolsFromRecord host (.ok marks) pool point snaps be originLayout
                = .error refusal) := by
  refine ⟨fun rec hproblem hboot => parse_dump hproblem hboot, fun value data hdata =>
    ⟨fun raw hraw hbpool hext4 => ⟨?_, ?_⟩, ?_, ?_, ?_⟩⟩
  · cases hparse : parse host value with
    | none => exact .inl rfl
    | some rec => exact .inr ⟨rec, rfl, parse_unreadable_boot hdata hraw hbpool hext4 hparse⟩
  · intro marks pool point snaps be originLayout hvalue
    exact refused_of_unreadable_boot hdata hraw hbpool hext4 hvalue
  · exact versions_of_loads hdata
  · intro rec hparse
    rw [versions_of_loads hdata]
    exact (fields_of_parse hdata hparse).2
  · intro hunmet marks pool point snaps be originLayout hvalue
    exact refused_of_unmet hdata hvalue hunmet

/-- A computer that knows the ASCII digits and has no floats to compare. -/
def asciiHost : Host where
  isOne _ := false
  floatText x := String.ofList x.text
  decimal c := if c.isDigit then some (c.toNat - '0'.toNat) else none

def bootRecordOf (fstype : String) : BootRecord where
  dataset := "rpool/ROOT/ubuntu_abc123"
  fstype := fstype
  uuid := "1b5f1c3e-7a3d-4c0f-9e4b-2f7a1c9d8e6f"
  label := ""
  sizeBytes := 2147483648
  features := ["has_journal", "extent"]
  mountOptions := "defaults"
  partition := ⟨2147483648, "0FC63DAF-8483-4772-8E79-3D69D8477DE4"⟩
  esp := some ⟨536870912, "ABCD-1234"⟩
  swap := none

def poolRecordOf (fstype : String) : PoolRecord where
  ubuntu := "26.04"
  zfs := "zfs-2.4.0"
  kmod := "zfs-kmod-2.4.0"
  pools :=
    .ofList [("rpool", PoolState.mk "off" (.ofList [("async_destroy", FeatureState.enabled)]))]
  boot := some (bootRecordOf fstype)
  writtenBy := "2.2.0"
  minRecover := "2.2.0"

/-- A record with a layout of a later zark. -/
def lvmRecord : List (String × Json) := [("boot", obj [("layout", str "lvm")])]

theorem decoded_or_refused_later : parse asciiHost (poolRecordOf "ext4").dump
      = some (poolRecordOf "ext4") ∧
    ∃ refusal, poolsFromRecord asciiHost (.ok fun _ => some (String.ofList (dumps (obj lvmRecord))))
      "p" "a" [⟨["rpool"], "a", "", 0, 0, ""⟩] "be" none =
      .error refusal := by
  obtain ⟨hdecoded, hrefused⟩ := decoded_or_refused asciiHost
  refine ⟨hdecoded _ rfl ?_, ?_⟩
  · rintro b ⟨⟩
    rfl
  · have hloads : loads (String.ofList (dumps (obj lvmRecord))).toList = some (obj lvmRecord) := by
      rw [String.toList_ofList, loads_dumps (by simp [lvmRecord, Plain, PlainFields])]
    refine ((hrefused _ lvmRecord hloads).1 (obj [("layout", str "lvm")]) rfl ?_ ?_).2 _ "p" "a" _
      "be" none (by simp [valuesAt])
    · rintro ⟨b, ⟨⟩, hlayout⟩
      simp [Json.get, field?] at hlayout
    · rintro ⟨b, r, ⟨⟩, hr⟩
      have hlayout := hr.layout
      simp [Json.get, field?] at hlayout

/-- Only an ext4 `/boot` is read back. -/
theorem fstype_of_parse {host : Host} {rec : PoolRecord} {b : BootRecord} (hb : rec.boot = some b)
    (h : parse host rec.dump = some rec) :
    b.fstype = "ext4" := by
  have hentry : field? (sortFields (recordFields rec)) "boot" = some (bootJson b) := by
    rw [field?_sortFields nodup_recordFields, recordFields, hb]
    simp [field?]
  have hfields : (rec.boot, rec.bootProblem) = bootFields (sortFields (recordFields rec)) :=
    (fields_of_parse loads_dump h).1
  simp only [bootFields, hentry, hb] at hfields
  cases hread : bootOf (bootJson b) with
  | error why => simp [hread] at hfields
  | ok boot =>
      simp only [hread, Prod.mk.injEq] at hfields
      obtain ⟨b', hb', ⟨-, hnone⟩ | ⟨r, hr, hsome⟩⟩ := bootOf_eq_ok.mp hread
      · rw [hnone] at hfields
        cases hfields.1
      · rw [hsome, Option.some.injEq] at hfields
        rw [hfields.1]
        exact hr.fstype.2

theorem parse_dump_xfs : ¬∀ (host : Host) (rec : PoolRecord), rec.bootProblem = "" →
    parse host rec.dump = some rec := fun h =>
  absurd (fstype_of_parse rfl (h asciiHost (poolRecordOf "xfs") rfl)) (by decide)

end Zark.PoolRecord
