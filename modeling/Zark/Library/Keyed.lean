import Mathlib

/-!
# Lists whose members carry distinct keys

A finite table in the order it was read: every member has a key of its own, and the structure
carries the proof. Looking a key up is a search of the list, and membership and lookup say the same
thing. Every operation here keeps the keys distinct, so no later proof returns to them.
-/

/-- A list of rows no two of which share a key. -/
structure Keyed {α κ : Type*} (key : α → κ) where
  items : List α
  nodup : (items.map key).Nodup

namespace Keyed

variable {α κ : Type*} {key : α → κ}

instance : EmptyCollection (Keyed key) := ⟨⟨[], List.nodup_nil⟩⟩

instance : Membership α (Keyed key) := ⟨fun s a => a ∈ s.items⟩

instance [DecidableEq α] : DecidableEq (Keyed key) := fun s t =>
  decidable_of_iff (s.items = t.items)
    ⟨fun h => by cases s; cases t; cases h; rfl, fun h => h ▸ rfl⟩

instance [DecidableEq α] (a : α) (s : Keyed key) : Decidable (a ∈ s) :=
  inferInstanceAs (Decidable (a ∈ s.items))

instance (s : Keyed key) (p : α → Prop) [DecidablePred p] : Decidable (∀ a ∈ s, p a) :=
  inferInstanceAs (Decidable (∀ a ∈ s.items, p a))

theorem mem_def {a : α} {s : Keyed key} : a ∈ s ↔ a ∈ s.items := Iff.rfl

@[ext] theorem ext {s t : Keyed key} (h : s.items = t.items) : s = t := by
  cases s
  cases t
  cases h
  rfl

/-- Two rows with one key are one row. -/
theorem eq_of_key {s : Keyed key} {a b : α} (ha : a ∈ s) (hb : b ∈ s) (h : key a = key b) : a = b :=
  List.inj_on_of_nodup_map s.nodup ha hb h

/-- The keys in the order of the rows. -/
def keys (s : Keyed key) : List κ := s.items.map key

@[simp] theorem mem_keys {s : Keyed key} {k : κ} : k ∈ s.keys ↔ ∃ a ∈ s, key a = k := List.mem_map

theorem key_mem_keys {s : Keyed key} {a : α} (ha : a ∈ s) : key a ∈ s.keys := List.mem_map_of_mem ha

/-! ### Lookup -/

section Lookup

variable [DecidableEq κ]

/-- The row with key `k`. -/
def get? (s : Keyed key) (k : κ) : Option α := s.items.find? (key · = k)

theorem get?_eq_some_iff {s : Keyed key} {k : κ} {a : α} :
    s.get? k = some a ↔ a ∈ s ∧ key a = k := by
  constructor
  · intro h
    exact ⟨List.mem_of_find?_eq_some h, by simpa using List.find?_some h⟩
  · rintro ⟨ha, rfl⟩
    cases hfind : s.get? (key a) with
    | none =>
        have := List.find?_eq_none.mp hfind a ha
        simp at this
    | some b =>
        have hb : key b = key a := by simpa using List.find?_some hfind
        rw [eq_of_key (List.mem_of_find?_eq_some hfind) ha hb]

theorem get?_of_mem {s : Keyed key} {a : α} (ha : a ∈ s) : s.get? (key a) = some a :=
  get?_eq_some_iff.mpr ⟨ha, rfl⟩

theorem mem_of_get? {s : Keyed key} {k : κ} {a : α} (h : s.get? k = some a) : a ∈ s :=
  (get?_eq_some_iff.mp h).1

theorem key_of_get? {s : Keyed key} {k : κ} {a : α} (h : s.get? k = some a) : key a = k :=
  (get?_eq_some_iff.mp h).2

theorem get?_eq_none_iff {s : Keyed key} {k : κ} : s.get? k = none ↔ k ∉ s.keys := by
  simp only [get?, List.find?_eq_none, mem_keys, not_exists, not_and, decide_eq_true_eq]
  rfl

theorem get?_isSome_iff {s : Keyed key} {k : κ} : (s.get? k).isSome ↔ k ∈ s.keys := by
  rw [← not_iff_not, ← get?_eq_none_iff]
  simp

end Lookup

/-! ### Operations -/

/-- The rows that satisfy `p`. -/
def filter (s : Keyed key) (p : α → Bool) : Keyed key where
  items := s.items.filter p
  nodup := s.nodup.sublist (List.filter_sublist.map key)

@[simp] theorem mem_filter {s : Keyed key} {p : α → Bool} {a : α} :
    a ∈ s.filter p ↔ a ∈ s ∧ p a = true :=
  List.mem_filter

@[simp] theorem filter_items {s : Keyed key} {p : α → Bool} :
    (s.filter p).items = s.items.filter p := rfl

/-- Every row rewritten by a function that keeps its key. -/
def map (s : Keyed key) (f : α → α) (hf : ∀ a, key (f a) = key a) : Keyed key where
  items := s.items.map f
  nodup := by
    rw [List.map_map, show key ∘ f = key from funext hf]
    exact s.nodup

@[simp] theorem mem_map {s : Keyed key} {f : α → α} {hf : ∀ a, key (f a) = key a} {b : α} :
    b ∈ s.map f hf ↔ ∃ a ∈ s, f a = b := List.mem_map

@[simp] theorem map_items {s : Keyed key} {f : α → α} {hf : ∀ a, key (f a) = key a} :
    (s.map f hf).items = s.items.map f := rfl

@[simp] theorem keys_map {s : Keyed key} {f : α → α} {hf : ∀ a, key (f a) = key a} :
    (s.map f hf).keys = s.keys := by
  simp [keys, Function.comp_def, hf]

theorem get?_map [DecidableEq κ] {s : Keyed key} {f : α → α} {hf : ∀ a, key (f a) = key a} (k : κ) :
    (s.map f hf).get? k = (s.get? k).map f := by
  cases h : s.get? k with
  | none =>
      rw [get?_eq_none_iff] at h
      rwa [Option.map_none, get?_eq_none_iff, keys_map]
  | some a =>
      obtain ⟨ha, rfl⟩ := get?_eq_some_iff.mp h
      exact get?_eq_some_iff.mpr ⟨mem_map.mpr ⟨a, ha, rfl⟩, hf a⟩

theorem get?_filter [DecidableEq κ] {s : Keyed key} {p : α → Bool} (k : κ) :
    (s.filter p).get? k = (s.get? k).filter p := by
  cases h : s.get? k with
  | none =>
      rw [get?_eq_none_iff] at h
      rw [Option.filter_none, get?_eq_none_iff]
      rintro hk
      obtain ⟨a, ha, rfl⟩ := mem_keys.mp hk
      exact h (key_mem_keys (mem_filter.mp ha).1)
  | some a =>
      obtain ⟨ha, rfl⟩ := get?_eq_some_iff.mp h
      by_cases hp : p a = true
      · rw [Option.filter_some_pos hp]
        exact get?_of_mem (mem_filter.mpr ⟨ha, hp⟩)
      · rw [Option.filter_some_neg (by simpa using hp), get?_eq_none_iff]
        intro hk
        obtain ⟨b, hb, hkey⟩ := mem_keys.mp hk
        obtain ⟨hb, hpb⟩ := mem_filter.mp hb
        rw [eq_of_key hb ha hkey] at hpb
        exact hp hpb

section Set

variable [DecidableEq κ]

/-- The row with `a`'s key replaced by `a`. -/
def set (s : Keyed key) (a : α) : Keyed key :=
  s.map (fun b => if key b = key a then a else b) fun b => by
    split
    · rename_i h
      exact h.symm
    · rfl

@[simp] theorem keys_set {s : Keyed key} {a : α} : (s.set a).keys = s.keys := keys_map

theorem mem_set {s : Keyed key} {a b : α} :
    b ∈ s.set a ↔ b ∈ s ∧ key b ≠ key a ∨ b = a ∧ key a ∈ s.keys := by
  rw [set, mem_map]
  constructor
  · rintro ⟨c, hc, rfl⟩
    split
    · rename_i h
      exact .inr ⟨rfl, h ▸ key_mem_keys hc⟩
    · rename_i h
      exact .inl ⟨hc, h⟩
  · rintro (⟨hb, hne⟩ | ⟨rfl, hb⟩)
    · exact ⟨b, hb, if_neg hne⟩
    · obtain ⟨c, hc, hkey⟩ := mem_keys.mp hb
      exact ⟨c, hc, if_pos hkey⟩

theorem get?_set_self {s : Keyed key} {a : α} (h : key a ∈ s.keys) :
    (s.set a).get? (key a) = some a :=
  get?_of_mem (mem_set.mpr (.inr ⟨rfl, h⟩))

theorem get?_set_of_get? {s : Keyed key} {a b : α} {k : κ} (h : s.get? k = some a)
    (hb : key b = k) :
    (s.set b).get? k = some b := by
  rw [← hb]
  apply get?_set_self
  rw [hb, ← get?_isSome_iff, h]
  rfl

theorem get?_set_of_ne {s : Keyed key} {a : α} {k : κ} (h : k ≠ key a) :
    (s.set a).get? k = s.get? k := by
  cases hget : s.get? k with
  | none =>
      rw [get?_eq_none_iff] at hget ⊢
      rwa [keys_set]
  | some b =>
      obtain ⟨hb, rfl⟩ := get?_eq_some_iff.mp hget
      exact get?_of_mem (mem_set.mpr (.inl ⟨hb, h⟩))

/-- The later row under a key stays. -/
theorem set_set {s : Keyed key} {a b : α} (h : key b = key a) : (s.set a).set b = s.set b := by
  apply Keyed.ext
  simp only [set, map, List.map_map]
  refine List.map_congr_left fun c _ => ?_
  by_cases hc : key c = key a
  · simp [hc, h]
  · simp [hc, h]

end Set

section Put

variable [DecidableEq κ]

/-- `a` in the place of the row with its key, or at the end when there is none. -/
def put (s : Keyed key) (a : α) : Keyed key :=
  if h : key a ∈ s.keys then s.set a
  else
    { items := s.items ++ [a]
      nodup := by
        rw [List.map_append, List.map_singleton]
        exact s.nodup.append (List.nodup_singleton _) (List.disjoint_singleton.mpr h) }

theorem mem_put {s : Keyed key} {a b : α} : b ∈ s.put a ↔ b ∈ s ∧ key b ≠ key a ∨ b = a := by
  unfold put
  split
  · rename_i h
    rw [mem_set, and_iff_left h]
  · rename_i h
    rw [mem_def, List.mem_append, List.mem_singleton]
    refine or_congr_left ⟨fun hb => ⟨hb, fun hkey => h (hkey ▸ key_mem_keys hb)⟩, And.left⟩

@[simp] theorem mem_keys_put {s : Keyed key} {a : α} {k : κ} :
    k ∈ (s.put a).keys ↔ k ∈ s.keys ∨ k = key a := by
  simp only [mem_keys, mem_put]
  constructor
  · rintro ⟨b, ⟨hb, -⟩ | rfl, rfl⟩
    · exact .inl ⟨b, hb, rfl⟩
    · exact .inr rfl
  · rintro (⟨b, hb, rfl⟩ | rfl)
    · by_cases h : key b = key a
      · exact ⟨a, .inr rfl, h.symm⟩
      · exact ⟨b, .inl ⟨hb, h⟩, rfl⟩
    · exact ⟨a, .inr rfl, rfl⟩

@[simp] theorem get?_put_self {s : Keyed key} {a : α} : (s.put a).get? (key a) = some a :=
  get?_of_mem (mem_put.mpr (.inr rfl))

theorem get?_put_of_ne {s : Keyed key} {a : α} {k : κ} (h : k ≠ key a) :
    (s.put a).get? k = s.get? k := by
  cases hget : s.get? k with
  | none =>
      rw [get?_eq_none_iff] at hget ⊢
      simp only [mem_keys_put, not_or]
      exact ⟨hget, h⟩
  | some b =>
      obtain ⟨hb, rfl⟩ := get?_eq_some_iff.mp hget
      exact get?_of_mem (mem_put.mpr (.inl ⟨hb, h⟩))

theorem put_items {s : Keyed key} {a : α} (h : key a ∉ s.keys) :
    (s.put a).items = s.items ++ [a] := by
  rw [put, dif_neg h]

/-- Rows with new keys, put one after the other. -/
theorem foldl_put_items {l : List α} {s : Keyed key} (h : ((s.items ++ l).map key).Nodup) :
    (l.foldl put s).items = s.items ++ l := by
  induction l generalizing s with
  | nil => simp
  | cons a l ih =>
      have hnew : key a ∉ s.keys := by
        rw [List.map_append, List.map_cons] at h
        intro hmem
        exact (List.nodup_append.mp h).2.2 (key a) hmem (key a) List.mem_cons_self rfl
      have hitems := put_items hnew
      rw [List.foldl_cons, ih (by rwa [hitems, List.append_assoc]), hitems, List.append_assoc]
      rfl

/-- The last row put again. -/
theorem put_items_last {s : Keyed key} {l : List α} {a b : α} (hs : s.items = l ++ [a])
    (hkey : key b = key a) :
    (s.put b).items = l ++ [b] := by
  have hnodup := s.nodup
  rw [hs, List.map_append, List.map_singleton] at hnodup
  have hkeys : key b ∈ s.keys := by
    rw [hkey]
    exact key_mem_keys (mem_def.mpr (hs ▸ List.mem_append_right _ List.mem_cons_self))
  rw [put, dif_pos hkeys, set, map_items, hs, List.map_append, List.map_singleton, if_pos hkey.symm]
  congr 1
  refine (List.map_congr_left fun c hc => if_neg fun hcb => ?_).trans (List.map_id _)
  have hdisjoint :=
    (List.nodup_append.mp hnodup).2.2 (key c) (List.mem_map_of_mem hc) (key a) List.mem_cons_self
  exact hdisjoint (hcb.trans hkey)

theorem of_mem_foldl_put {l : List α} {s : Keyed key} {a : α} (h : a ∈ l.foldl put s) :
    a ∈ s ∨ a ∈ l := by
  induction l generalizing s with
  | nil => exact .inl h
  | cons b l ih =>
      rcases ih h with h | h
      · exact (mem_put.mp h).imp And.left fun hab => List.mem_cons.mpr (.inl hab)
      · exact .inr (List.mem_cons_of_mem _ h)

theorem mem_keys_foldl_put {l : List α} {s : Keyed key} {k : κ} :
    k ∈ (l.foldl put s).keys ↔ k ∈ s.keys ∨ k ∈ l.map key := by
  induction l generalizing s with
  | nil => simp
  | cons b l ih => rw [List.foldl_cons, ih, mem_keys_put, List.map_cons, List.mem_cons, or_assoc]

/-- A list put in row by row: of two rows with one key the later one stays. -/
def putAll (l : List α) : Keyed key := l.foldl put ∅

/-- Rows that are one where their keys are one are all there. -/
theorem mem_putAll {l : List α} (hl : ∀ a ∈ l, ∀ b ∈ l, key a = key b → a = b) {a : α} :
    a ∈ (putAll l : Keyed key) ↔ a ∈ l := by
  have hfold : ∀ (l : List α) (s : Keyed key), (∀ a ∈ l, ∀ b ∈ l, key a = key b → a = b) →
      (∀ a ∈ l, ∀ b ∈ s, key a = key b → a = b) → (a ∈ l.foldl put s ↔ a ∈ s ∨ a ∈ l) := by
    intro l
    induction l with
    | nil => simp
    | cons b l ih =>
        intro s hone hold
        have hput : ∀ c, c ∈ s.put b ↔ c ∈ s ∨ c = b := by
          intro c
          rw [mem_put]
          constructor
          · exact Or.imp_left And.left
          · rintro (hc | rfl)
            · by_cases hkey : key c = key b
              · exact .inr (hold b List.mem_cons_self c hc hkey.symm).symm
              · exact .inl ⟨hc, hkey⟩
            · exact .inr rfl
        rw [List.foldl_cons, ih, hput, List.mem_cons, or_assoc]
        · exact fun x hx y hy => hone x (List.mem_cons_of_mem _ hx) y (List.mem_cons_of_mem _ hy)
        · intro x hx y hy hkey
          obtain hy | rfl := (hput y).mp hy
          · exact hold x (List.mem_cons_of_mem _ hx) y hy hkey
          · exact hone x (List.mem_cons_of_mem _ hx) y List.mem_cons_self hkey
  rw [putAll, hfold l ∅ hl fun _ _ _ h => absurd h List.not_mem_nil]
  exact or_iff_right List.not_mem_nil

theorem mem_putAll_of_nodup {l : List α} (hl : (l.map key).Nodup) {a : α} :
    a ∈ (putAll l : Keyed key) ↔ a ∈ l :=
  mem_putAll fun _ ha _ hb => List.inj_on_of_nodup_map hl ha hb

end Put

/-- Rows read off a table under its own keys have distinct keys. -/
theorem nodup_filterMap {β : Type*} (s : Keyed key) {f : α → Option β} {key' : β → κ}
    (hf : ∀ a b, f a = some b → key' b = key a) : ((s.items.filterMap f).map key').Nodup := by
  have hsub : ((s.items.filterMap f).map key').Sublist (s.items.map key) := by
    induction s.items with
    | nil => exact List.Sublist.slnil
    | cons a rest ih =>
        cases h : f a with
        | none =>
            rw [List.filterMap_cons_none h]
            exact ih.cons (key a)
        | some b =>
            rw [List.filterMap_cons_some h, List.map_cons, hf a b h]
            exact ih.cons_cons (key a)
  exact s.nodup.sublist hsub

/-- A row that is read off counts once under its key, one that is not does not count. -/
theorem count_filterMap {β : Type*} [BEq κ] [LawfulBEq κ] (s : Keyed key) (f : α → Option β)
    (key' : β → κ) (hf : ∀ a b, f a = some b → key' b = key a) {a : α} (ha : a ∈ s) :
    (s.items.filterMap f).countP (fun b => key' b == key a) = if (f a).isSome then 1 else 0 := by
  have hmap : (s.items.filterMap f).countP (fun b => key' b == key a)
      = ((s.items.filterMap f).map key').count (key a) := by
    rw [List.count, List.countP_map]
    rfl
  have hmem : key a ∈ (s.items.filterMap f).map key' ↔ (f a).isSome = true := by
    rw [List.mem_map]
    constructor
    · rintro ⟨b, hb, hkey⟩
      obtain ⟨c, hc, hfc⟩ := List.mem_filterMap.mp hb
      obtain rfl : c = a := s.eq_of_key hc ha ((hf c b hfc).symm.trans hkey)
      rw [hfc]
      rfl
    · intro h
      obtain ⟨b, hb⟩ := Option.isSome_iff_exists.mp h
      exact ⟨b, List.mem_filterMap.mpr ⟨a, ha, hb⟩, hf a b hb⟩
  rw [hmap]
  split
  · rename_i h
    exact List.count_eq_one_of_mem (s.nodup_filterMap hf) (hmem.mpr h)
  · rename_i h
    exact List.count_eq_zero_of_not_mem fun hk => h (hmem.mp hk)

section Partial

variable [DecidableEq κ]

/-- A list as a table, refused when two rows share a key. -/
def ofList? (key : α → κ) (l : List α) : Option (Keyed key) :=
  if h : (l.map key).Nodup then some ⟨l, h⟩ else none

theorem ofList?_eq_some_iff {l : List α} {s : Keyed key} :
    ofList? key l = some s ↔ s.items = l := by
  constructor
  · intro h
    unfold ofList? at h
    split at h
    · cases h
      rfl
    · cases h
  · rintro rfl
    exact dif_pos s.nodup

/-- A row added at the end, refused when its key is taken. -/
def push? (s : Keyed key) (a : α) : Option (Keyed key) := ofList? key (s.items ++ [a])

theorem push?_isSome_iff {s : Keyed key} {a : α} : (s.push? a).isSome ↔ key a ∉ s.keys := by
  have hnodup : ((s.items ++ [a]).map key).Nodup ↔ key a ∉ s.keys := by
    rw [List.map_append, List.map_singleton, List.nodup_append]
    refine ⟨fun h hk => h.2.2 _ hk _ (List.mem_singleton_self _) rfl, fun h => ?_⟩
    refine ⟨s.nodup, List.nodup_singleton _, ?_⟩
    rintro x hx y hy rfl
    rw [List.mem_singleton.mp hy] at hx
    exact h hx
  rw [← hnodup]
  unfold push? ofList?
  split
  · rename_i h
    exact ⟨fun _ => h, fun _ => rfl⟩
  · rename_i h
    exact ⟨fun h' => absurd h' (by simp), fun h' => absurd h' h⟩

theorem push?_items {s t : Keyed key} {a : α} (h : s.push? a = some t) : t.items = s.items ++ [a] :=
  ofList?_eq_some_iff.mp h

theorem mem_push? {s t : Keyed key} {a b : α} (h : s.push? a = some t) : b ∈ t ↔ b ∈ s ∨ b = a := by
  rw [mem_def, push?_items h, List.mem_append, List.mem_singleton]
  rfl

theorem get?_push?_of_ne {s t : Keyed key} {a : α} {k : κ} (h : s.push? a = some t)
    (hk : k ≠ key a) :
    t.get? k = s.get? k := by
  cases hget : s.get? k with
  | none =>
      rw [get?_eq_none_iff] at hget ⊢
      intro hmem
      obtain ⟨b, hb, hkey⟩ := mem_keys.mp hmem
      rcases (mem_push? h).mp hb with hb | rfl
      · exact hget (hkey ▸ key_mem_keys hb)
      · exact hk hkey.symm
  | some b =>
      obtain ⟨hb, hkey⟩ := get?_eq_some_iff.mp hget
      exact get?_eq_some_iff.mpr ⟨(mem_push? h).mpr (.inl hb), hkey⟩

end Partial

/-! ### Cutting a table at a key -/

section Cut

variable [DecidableEq κ]

/-- The rows up to the one with key `k`, that one included. -/
def upTo (s : Keyed key) (k : κ) : Keyed key where
  items := s.items.rdropWhile (key · ≠ k)
  nodup := s.nodup.sublist ((List.rdropWhile_prefix _ _).sublist.map key)

/-- The rows after the one with key `k`. -/
def after (s : Keyed key) (k : κ) : Keyed key where
  items := s.items.rtakeWhile (key · ≠ k)
  nodup := s.nodup.sublist ((List.rtakeWhile_suffix _ _).sublist.map key)

theorem upTo_append_after (s : Keyed key) (k : κ) :
    (s.upTo k).items ++ (s.after k).items = s.items :=
  List.rdropWhile_append_rtakeWhile

theorem mem_of_mem_upTo {s : Keyed key} {k : κ} {a : α} (h : a ∈ s.upTo k) : a ∈ s :=
  mem_def.mpr (upTo_append_after s k ▸ List.mem_append_left _ h)

theorem cut {s : Keyed key} {before behind : List α} {a : α} (h : s.items = before ++ a :: behind) :
    (s.upTo (key a)).items = before ++ [a] ∧ (s.after (key a)).items = behind := by
  have hbehind : ∀ b ∈ behind, decide (key b ≠ key a) = true := by
    intro b hb
    have hnodup := s.nodup
    rw [h, List.map_append, List.map_cons, List.nodup_append, List.nodup_cons] at hnodup
    exact decide_eq_true fun heq => hnodup.2.1.1 (heq ▸ List.mem_map_of_mem hb)
  have hafter : (s.after (key a)).items = behind := by
    change s.items.rtakeWhile (key · ≠ key a) = behind
    rw [h, List.rtakeWhile, List.reverse_append, List.reverse_cons, List.append_assoc,
      List.singleton_append, List.takeWhile_append_of_pos fun b hb =>
        hbehind b (List.mem_reverse.mp hb), List.takeWhile_cons_of_neg (by simp),
      List.append_nil, List.reverse_reverse]
  refine ⟨?_, hafter⟩
  have hall := s.upTo_append_after (key a)
  rw [hafter, h, ← List.singleton_append, ← List.append_assoc] at hall
  exact List.append_cancel_right hall

end Cut

end Keyed
