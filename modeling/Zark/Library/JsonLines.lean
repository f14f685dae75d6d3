import Zark.Library.Json

/-!
# JSON values as a program holds them, and their indented text

A program that reads a text holds a number with a fraction as a float, known by the one text it is
written with, and objects with distinct names. Such values come back from the indented text they are
written as.
-/

namespace Json

/-! ### Floats -/

/-- A literal the reader takes for itself, whatever follows a value. -/
structure Reads (x : Literal) : Prop where
  head : ∃ c l, x.text = c :: l ∧ (c ∈ ['N', 'I', '-'] ∨ c.isDigit = true)
  read : ∀ rest, Ends rest →
    (readName (x.text ++ rest) <|> readNumber (x.text ++ rest)) = some (real x, rest)

/-- How the floats of texts are written: each as one literal, which is read as the same float. -/
structure Floats where
  repr : Literal → Literal
  reads : ∀ x, Reads (repr x)
  repr_repr : ∀ x, repr (repr x) = repr x

section Floats

variable (floats : Floats)

mutual

/-- A value with its floats as they are written. -/
def hold : Json → Json
  | real x => real (floats.repr x)
  | arr items => arr (holdItems items)
  | obj fields => obj (holdFields fields)
  | v => v

def holdItems : List Json → List Json
  | [] => []
  | v :: items => hold v :: holdItems items

def holdFields : List (String × Json) → List (String × Json)
  | [] => []
  | (k, v) :: fields => (k, hold v) :: holdFields fields

end

mutual

/-- What a program holds. -/
def Held : Json → Prop
  | real x => floats.repr x = x
  | arr items => HeldItems items
  | obj fields => HeldFields fields ∧ (fields.map Prod.fst).Nodup
  | _ => True

def HeldItems : List Json → Prop
  | [] => True
  | v :: items => Held v ∧ HeldItems items

def HeldFields : List (String × Json) → Prop
  | [] => True
  | (_, v) :: fields => Held v ∧ HeldFields fields

end

/-- A text as a program reads it. -/
def held (l : List Char) : Option Json := (loads l).map (hold floats)

end Floats

/-! ### The indented text -/

/-- A new line at a level. -/
def gap (level : ℕ) : List Char := '\n' :: List.replicate (2 * level) ' '

mutual

/-- The text of a value whose first line is at a level. -/
def pretty : ℕ → Json → List Char
  | level, arr (v :: items) =>
      '[' :: (gap (level + 1) ++ (pretty (level + 1) v ++ prettyItems level items))
  | level, obj ((k, v) :: fields) =>
      '{' :: (gap (level + 1) ++ '"' :: (escapes k.toList ++
        ':' :: ' ' :: (pretty (level + 1) v ++ prettyFields level fields)))
  | _, v => dumps v

def prettyItems : ℕ → List Json → List Char
  | level, [] => gap level ++ [']']
  | level, v :: items =>
      ',' :: (gap (level + 1) ++ (pretty (level + 1) v ++ prettyItems level items))

def prettyFields : ℕ → List (String × Json) → List Char
  | level, [] => gap level ++ ['}']
  | level, (k, v) :: fields =>
      ',' :: (gap (level + 1) ++ '"' :: (escapes k.toList ++
        ':' :: ' ' :: (pretty (level + 1) v ++ prettyFields level fields)))

end

/-! ### Held values -/

section Held

variable {floats : Floats}

theorem heldFields_iff {fields : List (String × Json)} :
    HeldFields floats fields ↔ ∀ f ∈ fields, Held floats f.2 := by
  induction fields with
  | nil => simp [HeldFields]
  | cons f fields ih =>
      obtain ⟨k, v⟩ := f
      simp [HeldFields, ih]

theorem holdFields_eq_map (fields : List (String × Json)) :
    holdFields floats fields = fields.map fun f => (f.1, hold floats f.2) := by
  induction fields with
  | nil => rfl
  | cons f fields ih =>
      obtain ⟨k, v⟩ := f
      rw [holdFields, ih, List.map_cons]

mutual

/-- What is held is held as it is. -/
theorem hold_of_held : ∀ v : Json, Held floats v → hold floats v = v
  | null, _ => by rw [hold] <;> simp
  | bool _, _ => by rw [hold] <;> simp
  | num _, _ => by rw [hold] <;> simp
  | str _, _ => by rw [hold] <;> simp
  | real x, h => by
      rw [hold]
      exact congrArg real h
  | arr items, h => by rw [hold, holdItems_of_held items h]
  | obj fields, h => by rw [hold, holdFields_of_held fields h.1]

theorem holdItems_of_held : ∀ items : List Json, HeldItems floats items →
    holdItems floats items = items
  | [], _ => by rw [holdItems]
  | v :: items, h => by rw [holdItems, hold_of_held v h.1, holdItems_of_held items h.2]

theorem holdFields_of_held : ∀ fields : List (String × Json), HeldFields floats fields →
    holdFields floats fields = fields
  | [], _ => by rw [holdFields]
  | (k, v) :: fields, h => by rw [holdFields, hold_of_held v h.1, holdFields_of_held fields h.2]

end

/-! ### The indented text read back -/

theorem dropWs_gap (level : ℕ) (l : List Char) : dropWs (gap level ++ l) = dropWs l := by
  have hws : ∀ c ∈ gap level, (c = ' ' || c = '\t' || c = '\n' || c = '\r') = true := by
    intro c hc
    obtain rfl | hc := List.mem_cons.mp hc
    · rfl
    · rw [List.eq_of_mem_replicate hc]
      rfl
  rw [dropWs, List.dropWhile_append_of_pos hws, dropWs]

theorem pretty_eq_dumps {v : Json} (level : ℕ) (harr : ∀ w items, v ≠ arr (w :: items))
    (hobj : ∀ f fields, v ≠ obj (f :: fields)) :
    pretty level v = dumps v := by
  rw [pretty]
  · exact fun w items h => harr w items h
  · exact fun k w fields h => hobj (k, w) fields h

/-- The characters a held value's text may start with. -/
theorem starts_pretty {v : Json} (h : Held floats v) (level : ℕ) :
    ∃ c l, pretty level v = c :: l ∧ c ∉ [' ', '\t', '\n', '\r'] ∧ c ≠ ']' := by
  have hatom : Plain v → pretty level v = dumps v → ∃ c l, pretty level v = c :: l ∧
      c ∉ [' ', '\t', '\n', '\r'] ∧ c ≠ ']' := by
    intro hplain hdumps
    obtain ⟨c, l, hcons, hstarts⟩ := starts_dumps hplain
    exact ⟨c, l, hdumps.trans hcons, hstarts.not_ws⟩
  cases v with
  | null => exact hatom trivial (pretty_eq_dumps level (by simp) (by simp))
  | bool b => exact hatom trivial (pretty_eq_dumps level (by simp) (by simp))
  | num n => exact hatom trivial (pretty_eq_dumps level (by simp) (by simp))
  | str t => exact hatom trivial (pretty_eq_dumps level (by simp) (by simp))
  | real x =>
      obtain ⟨c, l, hcons, hc⟩ := (floats.reads x).head
      have hx : floats.repr x = x := h
      rw [hx] at hcons
      refine ⟨c, l, by rw [pretty_eq_dumps level (by simp) (by simp), dumps, hcons], ?_⟩
      obtain hc | hc := hc
      · revert hc
        simp only [List.mem_cons, List.not_mem_nil, or_false]
        rintro (rfl | rfl | rfl) <;> decide
      · exact Starts.not_ws (.inr hc)
  | arr items =>
      cases items with
      | nil => exact hatom trivial (pretty_eq_dumps level (by simp) (by simp))
      | cons v items => exact ⟨'[', _, by rw [pretty], by decide, by decide⟩
  | obj fields =>
      cases fields with
      | nil => exact hatom ⟨trivial, List.nodup_nil⟩ (pretty_eq_dumps level (by simp) (by simp))
      | cons f fields => exact ⟨'{', _, by rw [pretty], by decide, by decide⟩

theorem dropWs_pretty {v : Json} (h : Held floats v) (level : ℕ) (rest : List Char) :
    dropWs (pretty level v ++ rest) = pretty level v ++ rest := by
  obtain ⟨c, l, hcons, hc, -⟩ := starts_pretty h level
  rw [hcons, List.cons_append]
  exact dropWs_cons hc

theorem ends_prettyItems (level : ℕ) (items : List Json) (rest : List Char) :
    Ends (prettyItems level items ++ rest) := by
  cases items with
  | nil => rw [prettyItems, gap]; exact ends_cons (by decide)
  | cons v items => rw [prettyItems]; exact ends_cons (by decide)

theorem ends_prettyFields (level : ℕ) (fields : List (String × Json)) (rest : List Char) :
    Ends (prettyFields level fields ++ rest) := by
  cases fields with
  | nil => rw [prettyFields, gap]; exact ends_cons (by decide)
  | cons f fields => rw [prettyFields]; exact ends_cons (by decide)

theorem readValue_real {x : Literal} (h : Reads x) (fuel : ℕ) {rest : List Char}
    (hrest : Ends rest) :
    readValue (fuel + 1) (x.text ++ rest) = some (real x, rest) := by
  rw [← h.read rest hrest]
  obtain ⟨c, l, hcons, hc⟩ := h.head
  have hne : ∀ d ∈ ['"', '[', '{'], c ≠ d := by
    intro d hd heq
    subst heq
    obtain hc | hc := hc
    · revert hd hc
      simp only [List.mem_cons, List.not_mem_nil, or_false]
      rintro (rfl | rfl | rfl) <;> decide
    · revert hc
      simp only [List.mem_cons, List.not_mem_nil, or_false] at hd
      obtain rfl | rfl | rfl := hd <;> decide
  rw [hcons, List.cons_append, readValue]
  · exact fun _ heq => hne _ (by simp) (List.cons.inj heq).1
  · exact fun _ heq => hne _ (by simp) (List.cons.inj heq).1
  · exact fun _ heq => hne _ (by simp) (List.cons.inj heq).1

mutual

/-- A held value is read back from its indented text. -/
theorem readValue_pretty : ∀ (v : Json) (level fuel : ℕ) (rest : List Char), Held floats v →
    cost v ≤ fuel → Ends rest →
    readValue fuel (pretty level v ++ rest) = some (v, rest)
  | v, _, 0, rest, _, hcost, _ => by
      cases v <;> simp [cost] at hcost
  | null, level, fuel + 1, rest, _, hcost, hrest => by
      rw [pretty_eq_dumps level (by simp) (by simp)]
      exact readValue_dumps null _ rest trivial hcost hrest
  | bool b, level, fuel + 1, rest, _, hcost, hrest => by
      rw [pretty_eq_dumps level (by simp) (by simp)]
      exact readValue_dumps (bool b) _ rest trivial hcost hrest
  | num n, level, fuel + 1, rest, _, hcost, hrest => by
      rw [pretty_eq_dumps level (by simp) (by simp)]
      exact readValue_dumps (num n) _ rest trivial hcost hrest
  | str t, level, fuel + 1, rest, _, hcost, hrest => by
      rw [pretty_eq_dumps level (by simp) (by simp)]
      exact readValue_dumps (str t) _ rest trivial hcost hrest
  | real x, level, fuel + 1, rest, hheld, _, hrest => by
      have hx : floats.repr x = x := hheld
      rw [pretty_eq_dumps level (by simp) (by simp)]
      rw [dumps]
      exact readValue_real (hx ▸ floats.reads x) fuel hrest
  | arr [], level, fuel + 1, rest, _, hcost, hrest => by
      rw [pretty_eq_dumps level (by simp) (by simp)]
      exact readValue_dumps (arr []) _ rest trivial hcost hrest
  | arr (v :: items), level, fuel + 1, rest, hheld, hcost, _ => by
      have hread :=
        readItems_pretty (v :: items) level fuel rest hheld
          (by simp only [cost] at hcost; omega) v items rfl
      obtain ⟨c, l, hcons, hws, hend⟩ := starts_pretty hheld.1 (level + 1)
      rw [hcons, List.cons_append, List.cons_append] at hread
      rw [pretty, hcons, List.cons_append, readValue, List.append_assoc, dropWs_gap,
        List.cons_append, List.cons_append, dropWs_cons hws]
      split
      · rename_i heq
        exact absurd (List.cons.inj heq).1 hend
      · rw [hread]
        rfl
  | obj [], level, fuel + 1, rest, _, hcost, hrest => by
      rw [pretty_eq_dumps level (by simp) (by simp)]
      exact readValue_dumps (obj []) _ rest ⟨trivial, List.nodup_nil⟩ hcost hrest
  | obj ((k, v) :: fields), level, fuel + 1, rest, hheld, hcost, _ => by
      have hread :=
        readFields_pretty ((k, v) :: fields) level fuel rest hheld.1
          (by simp only [cost] at hcost; omega) k v fields rfl
      rw [pretty, List.cons_append, readValue, List.append_assoc, dropWs_gap, List.cons_append,
        dropWs_cons (by decide)]
      change Option.map _ (readFields fuel (escapes k.toList ++
        ':' :: ' ' :: (pretty (level + 1) v ++ prettyFields level fields) ++ rest)) = _
      rw [hread, Option.map_some, foldl_putField hheld.2]

theorem readItems_pretty : ∀ (items : List Json) (level fuel : ℕ) (rest : List Char),
    HeldItems floats items → itemsCost items ≤ fuel →
    ∀ v more, items = v :: more → readItems fuel
      (pretty (level + 1) v ++ prettyItems level more ++ rest) = some (items, rest)
  | [], _, _, _, _, _ => fun v more h => by cases h
  | v :: items, _, 0, rest, hheld, hcost => by
      simp [itemsCost] at hcost
  | v :: items, level, fuel + 1, rest, hheld, hcost => by
      rintro _ _ ⟨rfl, rfl⟩
      simp only [itemsCost] at hcost
      rw [readItems, List.append_assoc, readValue_pretty v (level + 1) fuel _ hheld.1 (by omega)
        (ends_prettyItems level items rest), Option.bind_some]
      cases items with
      | nil => rw [prettyItems, List.append_assoc, dropWs_gap]; simp [dropWs]
      | cons w more =>
          have hread := readItems_pretty (w :: more) level fuel rest hheld.2 (by omega) w more rfl
          rw [prettyItems, List.cons_append, dropWs_cons (by decide)]
          change Option.map _ (readItems fuel (dropWs
            (gap (level + 1) ++ (pretty (level + 1) w ++ prettyItems level more) ++ rest))) = _
          have htext :
              dropWs (gap (level + 1) ++ (pretty (level + 1) w ++ prettyItems level more) ++ rest) =
              pretty (level + 1) w ++ prettyItems level more ++ rest := by
            rw [List.append_assoc, dropWs_gap, List.append_assoc, dropWs_pretty hheld.2.1]
          rw [htext, hread, Option.map_some]

theorem readFields_pretty : ∀ (fields : List (String × Json)) (level fuel : ℕ) (rest : List Char),
    HeldFields floats fields →
    fieldsCost fields ≤ fuel → ∀ k v more, fields = (k, v) :: more →
      readFields fuel (escapes k.toList ++
        ':' :: ' ' :: (pretty (level + 1) v ++ prettyFields level more) ++ rest)
          = some (fields, rest)
  | [], _, _, _, _, _ => fun k v more h => by cases h
  | (k, v) :: fields, _, 0, rest, hheld, hcost => by
      simp [fieldsCost] at hcost
  | (k, v) :: fields, level, fuel + 1, rest, hheld, hcost => by
      rintro _ _ _ ⟨⟨rfl, rfl⟩, rfl⟩
      simp only [fieldsCost] at hcost
      rw [readFields, List.append_assoc, readString_escapes, Option.bind_some, List.cons_append,
        dropWs_cons (by decide)]
      change Option.bind (readValue fuel
        (dropWs (' ' :: (pretty (level + 1) v ++ prettyFields level fields ++ rest)))) _ = _
      have hspace : dropWs (' ' :: (pretty (level + 1) v ++ prettyFields level fields ++ rest)) =
          pretty (level + 1) v ++ (prettyFields level fields ++ rest) := by
        rw [List.append_assoc]
        exact dropWs_pretty hheld.1 (level + 1) _
      rw [hspace, readValue_pretty v (level + 1) fuel _ hheld.1 (by omega)
        (ends_prettyFields level fields rest), Option.bind_some]
      cases fields with
      | nil => rw [prettyFields, List.append_assoc, dropWs_gap]; simp [dropWs]
      | cons f more =>
          obtain ⟨name, w⟩ := f
          have hread :=
            readFields_pretty ((name, w) :: more) level fuel rest hheld.2 (by omega) name w more rfl
          rw [prettyFields, List.cons_append, dropWs_cons (by decide)]
          have hname : dropWs (gap (level + 1) ++ '"' :: (escapes name.toList ++
              ':' :: ' ' :: (pretty (level + 1) w ++ prettyFields level more)) ++ rest) =
              '"' :: (escapes name.toList ++ ':' :: ' ' :: (pretty (level + 1) w ++
                  prettyFields level more) ++ rest) := by
            rw [List.append_assoc, dropWs_gap, List.cons_append, dropWs_cons (by decide)]
          simp only [hname, hread, Option.map_some]

end

mutual

theorem cost_le_length_pretty : ∀ (v : Json) (level : ℕ), Held floats v →
    cost v ≤ (pretty level v).length
  | null, level, _ => by
      rw [pretty_eq_dumps level (by simp) (by simp)]
      exact cost_le_length null trivial
  | bool b, level, _ => by
      rw [pretty_eq_dumps level (by simp) (by simp)]
      exact cost_le_length (bool b) trivial
  | num n, level, _ => by
      rw [pretty_eq_dumps level (by simp) (by simp)]
      exact cost_le_length (num n) trivial
  | str t, level, _ => by
      rw [pretty_eq_dumps level (by simp) (by simp)]
      exact cost_le_length (str t) trivial
  | real x, level, h => by
      obtain ⟨c, l, hcons, -⟩ := starts_pretty h level
      simp [cost, hcons]
  | arr [], level, _ => by
      rw [pretty_eq_dumps level (by simp) (by simp)]
      exact cost_le_length (arr []) trivial
  | arr (v :: items), level, h => by
      have hv := cost_le_length_pretty v (level + 1) h.1
      have hitems := itemsCost_le_length_pretty items level h.2
      simp only [cost, itemsCost, pretty, List.length_cons, List.length_append]
      omega
  | obj [], level, _ => by
      rw [pretty_eq_dumps level (by simp) (by simp)]
      exact cost_le_length (obj []) ⟨trivial, List.nodup_nil⟩
  | obj ((k, v) :: fields), level, h => by
      have hv := cost_le_length_pretty v (level + 1) h.1.1
      have hfields := fieldsCost_le_length_pretty fields level h.1.2
      simp only [cost, fieldsCost, pretty, List.length_cons, List.length_append]
      omega

theorem itemsCost_le_length_pretty : ∀ (items : List Json) (level : ℕ), HeldItems floats items →
    itemsCost items + 1 ≤ (prettyItems level items).length
  | [], level, _ => by simp [itemsCost, prettyItems]
  | v :: items, level, h => by
      have hv := cost_le_length_pretty v (level + 1) h.1
      have hitems := itemsCost_le_length_pretty items level h.2
      simp only [itemsCost, prettyItems, List.length_cons, List.length_append]
      omega

theorem fieldsCost_le_length_pretty :
    ∀ (fields : List (String × Json)) (level : ℕ), HeldFields floats fields →
    fieldsCost fields + 1 ≤ (prettyFields level fields).length
  | [], level, _ => by simp [fieldsCost, prettyFields]
  | (k, v) :: fields, level, h => by
      have hv := cost_le_length_pretty v (level + 1) h.1
      have hfields := fieldsCost_le_length_pretty fields level h.2
      simp only [fieldsCost, prettyFields, List.length_cons, List.length_append]
      omega

end

/-- A held value comes back from its indented text. -/
theorem held_pretty {v : Json} (h : Held floats v) :
    held floats (pretty 0 v ++ ['\n']) = some v := by
  have hcost : cost v ≤ (pretty 0 v ++ ['\n']).length := by
    rw [List.length_append]
    exact (cost_le_length_pretty v 0 h).trans (Nat.le_add_right _ _)
  have hread := readValue_pretty v 0 _ ['\n'] h hcost (ends_cons (by decide))
  have hend : dropWs ['\n'] = [] := rfl
  rw [held, loads, dropWs_pretty h, hread, Option.bind_some, if_pos hend, Option.map_some,
    hold_of_held v h]

/-! ### What is read is held -/

mutual

/-- Every object has distinct names. -/
def Distinct : Json → Prop
  | arr items => DistinctItems items
  | obj fields => DistinctFields fields ∧ (fields.map Prod.fst).Nodup
  | _ => True

def DistinctItems : List Json → Prop
  | [] => True
  | v :: items => Distinct v ∧ DistinctItems items

def DistinctFields : List (String × Json) → Prop
  | [] => True
  | (_, v) :: fields => Distinct v ∧ DistinctFields fields

end

theorem distinctFields_iff {fields : List (String × Json)} :
    DistinctFields fields ↔ ∀ f ∈ fields, Distinct f.2 := by
  induction fields with
  | nil => simp [DistinctFields]
  | cons f fields ih =>
      obtain ⟨k, v⟩ := f
      simp [DistinctFields, ih]

mutual

theorem held_hold : ∀ v : Json, Distinct v → Held floats (hold floats v)
  | null, _ => by rw [hold] <;> simp [Held]
  | bool _, _ => by rw [hold] <;> simp [Held]
  | num _, _ => by rw [hold] <;> simp [Held]
  | str _, _ => by rw [hold] <;> simp [Held]
  | real x, _ => by
      rw [hold, Held]
      exact floats.repr_repr x
  | arr items, h => by
      rw [hold, Held]
      exact heldItems_hold items h
  | obj fields, h => by
      rw [hold, Held]
      refine ⟨heldFields_hold fields h.1, ?_⟩
      rw [holdFields_eq_map, List.map_map]
      exact h.2

theorem heldItems_hold : ∀ items : List Json, DistinctItems items →
    HeldItems floats (holdItems floats items)
  | [], _ => trivial
  | v :: items, h => ⟨held_hold v h.1, heldItems_hold items h.2⟩

theorem heldFields_hold : ∀ fields : List (String × Json), DistinctFields fields →
    HeldFields floats (holdFields floats fields)
  | [], _ => trivial
  | (_, v) :: fields, h => ⟨held_hold v h.1, heldFields_hold fields h.2⟩

end

theorem putField_keys {fields : List (String × Json)} {f : String × Json} :
    (putField fields f).map Prod.fst =
      if f.1 ∈ fields.map Prod.fst then fields.map Prod.fst else fields.map Prod.fst ++ [f.1] := by
  rw [putField]
  split
  · rw [List.map_map]
    refine List.map_congr_left fun g _ => ?_
    rw [Function.comp_apply]
    split
    · rename_i heq
      exact heq.symm
    · rfl
  · rw [List.map_append]
    rfl

theorem nodup_putField {fields : List (String × Json)} (h : (fields.map Prod.fst).Nodup)
    (f : String × Json) :
    ((putField fields f).map Prod.fst).Nodup := by
  rw [putField_keys]
  split
  · exact h
  · rename_i hnot
    exact h.append (List.nodup_singleton _) (by simpa using hnot)

theorem mem_of_mem_putField {fields : List (String × Json)} {f g : String × Json}
    (h : g ∈ putField fields f) : g ∈ fields ∨ g = f := by
  rw [putField] at h
  split at h
  · obtain ⟨g', hg', rfl⟩ := List.mem_map.mp h
    split
    · exact .inr rfl
    · exact .inl hg'
  · exact (List.mem_append.mp h).imp id List.mem_singleton.mp

/-- Fields put one by one. -/
theorem distinct_putFields {fields : List (String × Json)} (h : DistinctFields fields) :
    Distinct (obj (fields.foldl putField [])) := by
  rw [distinctFields_iff] at h
  have hall : ∀ (start : List (String × Json)), (∀ f ∈ start, Distinct f.2) →
      (start.map Prod.fst).Nodup →
      (∀ f ∈ fields.foldl putField start, Distinct f.2) ∧
      ((fields.foldl putField start).map Prod.fst).Nodup := by
    induction fields with
    | nil => exact fun start hstart hnodup => ⟨hstart, hnodup⟩
    | cons f fields ih =>
        intro start hstart hnodup
        refine ih (fun g hg => h g (List.mem_cons_of_mem _ hg)) _ (fun g hg => ?_)
          (nodup_putField hnodup f)
        obtain hg | rfl := mem_of_mem_putField hg
        · exact hstart g hg
        · exact h g List.mem_cons_self
  obtain ⟨hvalues, hnodup⟩ := hall [] (by simp) List.nodup_nil
  exact ⟨distinctFields_iff.mpr hvalues, hnodup⟩

theorem distinct_readWord {word l r : List Char} {v w : Json} (hw : Distinct w)
    (h : readWord word w l = some (v, r)) : Distinct v := by
  rw [readWord] at h
  split at h
  · obtain ⟨rfl, -⟩ := Prod.mk.inj (Option.some.inj h)
    exact hw
  · cases h

theorem distinct_readName {l r : List Char} {v : Json} (h : readName l = some (v, r)) :
    Distinct v := by
  simp only [readName, Option.orElse_eq_orElse, Option.orElse_eq_or, Option.or_eq_some_iff] at h
  obtain h | ⟨-, h | ⟨-, h | ⟨-, h | ⟨-, h | ⟨-, h⟩⟩⟩⟩⟩ := h
  all_goals exact distinct_readWord (by simp [Distinct]) h

theorem distinct_literal {text : List Char} {v : Json} (h : literal text = some v) :
    Distinct v := by
  rw [literal] at h
  split at h
  · obtain rfl := Option.some.inj h
    simp [Distinct]
  · cases h

theorem distinct_readNumber {l r : List Char} {v : Json} (h : readNumber l = some (v, r)) :
    Distinct v := by
  have hrest : ∀ negative ds l, readRest negative ds l = some (v, r) → Distinct v := by
    intro negative ds l h
    simp only [readRest] at h
    split at h
    · obtain ⟨rfl, -⟩ := Prod.mk.inj (Option.some.inj h)
      simp [Distinct]
    · obtain ⟨w, hw, heq⟩ := Option.map_eq_some_iff.mp h
      obtain ⟨rfl, -⟩ := Prod.mk.inj heq
      exact distinct_literal hw
  have hunsigned : ∀ negative l, readUnsigned negative l = some (v, r) → Distinct v := by
    intro negative l h
    rw [readUnsigned.eq_def] at h
    split at h
    · exact hrest _ _ _ h
    · split at h
      · exact hrest _ _ _ h
      · cases h
    · cases h
  rw [readNumber.eq_def] at h
  split at h
  · exact hunsigned _ _ h
  · exact hunsigned _ _ h

/-- By the reader's depth, for values, items and fields together. -/
theorem distinct_read : ∀ fuel, (∀ l v r, readValue fuel l = some (v, r) → Distinct v) ∧
    (∀ l items r, readItems fuel l = some (items, r) → DistinctItems items) ∧
      ∀ l fields r, readFields fuel l = some (fields, r) → DistinctFields fields
  | 0 =>
      ⟨fun _ _ _ h => by simp [readValue] at h, fun _ _ _ h => by simp [readItems] at h,
        fun _ _ _ h => by simp [readFields] at h⟩
  | fuel + 1 => by
      obtain ⟨hvalue, hitems, hfields⟩ := distinct_read fuel
      refine ⟨fun l v r h => ?_, fun l items r h => ?_, fun l fields r h => ?_⟩
      · rw [readValue.eq_def] at h
        dsimp only at h
        split at h
        · obtain ⟨s, -, heq⟩ := Option.map_eq_some_iff.mp h
          obtain ⟨rfl, -⟩ := Prod.mk.inj heq
          simp [Distinct]
        · split at h
          · obtain ⟨rfl, -⟩ := Prod.mk.inj (Option.some.inj h)
            simp [Distinct, DistinctItems]
          · obtain ⟨⟨items, rest⟩, hread, heq⟩ := Option.map_eq_some_iff.mp h
            obtain ⟨rfl, -⟩ := Prod.mk.inj heq
            exact hitems _ _ _ hread
        · split at h
          · obtain ⟨rfl, -⟩ := Prod.mk.inj (Option.some.inj h)
            simp [Distinct, DistinctFields]
          · obtain ⟨⟨fields, rest⟩, hread, heq⟩ := Option.map_eq_some_iff.mp h
            obtain ⟨rfl, -⟩ := Prod.mk.inj heq
            exact distinct_putFields (hfields _ _ _ hread)
          · cases h
        · simp only [Option.orElse_eq_orElse, Option.orElse_eq_or, Option.or_eq_some_iff] at h
          obtain h | ⟨-, h⟩ := h
          · exact distinct_readName h
          · exact distinct_readNumber h
      · rw [readItems] at h
        obtain ⟨⟨v, rest⟩, hread, h⟩ := Option.bind_eq_some_iff.mp h
        have hv := hvalue _ _ _ hread
        dsimp only at h
        split at h
        · obtain ⟨rfl, -⟩ := Prod.mk.inj (Option.some.inj h)
          exact ⟨hv, trivial⟩
        · obtain ⟨⟨more, rest'⟩, hmore, heq⟩ := Option.map_eq_some_iff.mp h
          obtain ⟨rfl, -⟩ := Prod.mk.inj heq
          exact ⟨hv, hitems _ _ _ hmore⟩
        · cases h
      · rw [readFields] at h
        obtain ⟨⟨name, rest⟩, -, h⟩ := Option.bind_eq_some_iff.mp h
        dsimp only at h
        split at h
        · obtain ⟨⟨v, rest'⟩, hread, h⟩ := Option.bind_eq_some_iff.mp h
          have hv := hvalue _ _ _ hread
          dsimp only at h
          split at h
          · obtain ⟨rfl, -⟩ := Prod.mk.inj (Option.some.inj h)
            exact ⟨hv, trivial⟩
          · split at h
            · obtain ⟨⟨more, rest''⟩, hmore, heq⟩ := Option.map_eq_some_iff.mp h
              obtain ⟨rfl, -⟩ := Prod.mk.inj heq
              exact ⟨hv, hfields _ _ _ hmore⟩
            · cases h
          · cases h
        · cases h

/-- What a program reads, it holds. -/
theorem held_of_read {l : List Char} {v : Json} (h : held floats l = some v) : Held floats v := by
  obtain ⟨w, hw, rfl⟩ := Option.map_eq_some_iff.mp h
  obtain ⟨⟨w', rest⟩, hread, hrest⟩ := Option.bind_eq_some_iff.mp hw
  dsimp only at hrest
  split at hrest
  · obtain rfl := Option.some.inj hrest
    exact held_hold _ ((distinct_read _).1 _ _ _ hread)
  · cases hrest

end Held

end Json
