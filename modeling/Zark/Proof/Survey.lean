import Zark.Survey

/-!
# What is read is what is there

What `zfs` prints of an origin and of a drive, row by row, and that the readers give both back. A
strict read then either has everything or is an error that names the listing which failed.
-/

namespace Zark.Survey

open Text

/-! ### What `zfs` prints -/

def kindText : Kind → List Char
  | .filesystem => "filesystem".toList
  | .volume => "volume".toList

/-- A value, or `-` where there is none. -/
def dash (s : String) : List Char := if s = "" then ['-'] else s.toList

def digits (n : ℕ) : List Char := Nat.toDigits 10 n

def snapText (name : SnapName) : List Char := name.1.text.toList ++ '@' :: name.2.toList

def originFields (o : Origin) : List (List Char) :=
  [o.rel.text.toList, kindText o.kind, o.canmount.toList, o.mountpoint.toList, digits o.referenced,
    (o.cloneOf.map snapText).getD ['-']]

def destFields (start : List Char) (d : Dest) : List (List Char) :=
  [start ++ d.rel.text.toList, kindText d.kind, dash d.token, dash d.orphan, digits d.used,
    digits d.written, (d.cloneOf.map fun name => start ++ snapText name).getD ['-']]

def keptFields (start : List Char) (d : Dest) : List (List Char) :=
  [start ++ d.rel.text.toList, d.excludedKept.toList]

def refFields (start : List Char) (r : RefRow) : List (List Char) :=
  [start ++ r.rel.text.toList ++ (if r.bookmark then '#' else '@') :: r.ref.name.toList,
    r.ref.guid.toList, digits r.ref.createtxg, digits r.ref.creation]

/-- A command whose output, where it succeeds, is these rows. -/
def Prints (run : String → RunResult) (command : String) (rows : List (List (List Char))) : Prop :=
  (run command).ok = true → (run command).stdout = unlines (rows.map row)

/-! ### What ZFS lets a name be -/

/-- A text that starts with no blank and holds neither sign that ends a dataset's name. -/
structure IsNamed (text : List Char) : Prop where
  field : IsField text
  head : ∃ c ∈ text.head?, isSpace c = false
  plain : '@' ∉ text ∧ '#' ∉ text

/-- A dataset's name. -/
structure IsDataset (rel : Rel) : Prop where
  isName : rel.IsName
  named : IsNamed rel.text.toList

/-- A snapshot's or a bookmark's name, which ends with no blank. -/
structure IsSnapshot (name : String) : Prop where
  field : IsField name.toList
  last : ∃ c ∈ name.toList.getLast?, isSpace c = false
  plain : '@' ∉ name.toList ∧ '#' ∉ name.toList

structure IsRef (r : Ref) : Prop where
  name : IsSnapshot r.name
  guid : IsField r.guid.toList

/-- A value that can be told from none. -/
def IsValue (s : String) : Prop := IsField s.toList ∧ s ≠ "-"

structure IsOrigin (o : Origin) : Prop where
  rel : IsDataset o.rel
  canmount : IsField o.canmount.toList
  mountpoint : IsField o.mountpoint.toList
  cloneOf : ∀ name ∈ o.cloneOf, IsDataset name.1 ∧ IsSnapshot name.2

structure IsDest (d : Dest) : Prop where
  rel : IsDataset d.rel
  token : IsValue d.token
  orphan : IsValue d.orphan
  kept : IsValue d.excludedKept ∧ (d.excludedKept ≠ "" →
    ∃ c ∈ d.excludedKept.toList.getLast?, isSpace c = false)
  cloneOf : ∀ name ∈ d.cloneOf, IsDataset name.1 ∧ IsSnapshot name.2

variable {run : String → RunResult} {start : List Char} {command : String}

/-! ### Rows read back -/

theorem isField_append {a b : List Char} (ha : IsField a) (hb : IsField b) : IsField (a ++ b) :=
  ⟨fun hmem => (List.mem_append.mp hmem).elim ha.1 hb.1, fun c hc =>
    (List.mem_append.mp hc).elim (ha.2 c) (hb.2 c)⟩

theorem isField_digits (n : ℕ) : IsField (digits n) := by
  have hdigit : ∀ c ∈ digits n, c.isDigit = true := fun c hc => isDigit_of_mem_digits hc
  refine ⟨fun hmem => by simpa using hdigit '\t' hmem, fun c hc => ?_⟩
  have hc : 48 ≤ c.toNat ∧ c.toNat ≤ 57 := Char.isDigit_iff_toNat.mp (hdigit c hc)
  simp only [isBreak, List.mem_cons, List.not_mem_nil, or_false, decide_eq_false_iff_not]
  omega

theorem isSpace_of_isDigit {c : Char} (h : c.isDigit = true) : isSpace c = false := by
  have h : 48 ≤ c.toNat ∧ c.toNat ≤ 57 := Char.isDigit_iff_toNat.mp h
  simp only [isSpace, List.mem_cons, List.not_mem_nil, or_false, decide_eq_false_iff_not]
  omega

theorem last_digits (n : ℕ) : ∃ c ∈ (digits n).getLast?, isSpace c = false := by
  have hne : digits n ≠ [] := digits_ne_nil n
  exact ⟨(digits n).getLast hne, List.getLast?_eq_some_getLast hne,
    isSpace_of_isDigit (isDigit_of_mem_digits (List.getLast_mem hne))⟩

/-- The fields of a row that stands as a line. -/
structure IsRow (fields : List (List Char)) : Prop where
  field : ∀ f ∈ fields, IsField f
  head : ∃ first, fields.head? = some first ∧ ∃ c ∈ first.head?, isSpace c = false
  last : ∃ last, fields.getLast? = some last ∧ ∃ c ∈ last.getLast?, isSpace c = false

theorem lines_of_prints {rows : List (List (List Char))} (h : Prints run command rows)
    (hok : (run command).ok = true) (hrows : ∀ fields ∈ rows, IsRow fields) :
    lines isSpace (run command).stdout = rows.map row := by
  rw [h hok, lines_unlines (by decide) fun line hline => ?_]
  obtain ⟨fields, hfields, rfl⟩ := List.mem_map.mp hline
  obtain ⟨first, hfirst, hhead⟩ := (hrows fields hfields).head
  obtain ⟨last, hlast, hend⟩ := (hrows fields hfields).last
  exact isLine_row (hrows fields hfields).field hfirst hhead hlast hend

theorem rows_of_prints {rows : List (List (List Char))} (h : Prints run command rows)
    (hok : (run command).ok = true) (hrows : ∀ fields ∈ rows, IsRow fields) :
    (run command).rows = rows := by
  rw [RunResult.rows, if_pos hok, lines_of_prints h hok hrows, List.map_map]
  refine (List.map_congr_left fun fields hfields => ?_).trans (List.map_id _)
  obtain ⟨first, hfirst, -⟩ := (hrows fields hfields).head
  exact splitOn_row (List.ne_nil_of_mem (List.mem_of_mem_head? hfirst)) fun f hf =>
    ((hrows fields hfields).field f hf).1

theorem cut_at {c : Char} {a b : List Char} (ha : c ∉ a) :
    (a ++ c :: b).takeWhile (· ≠ c) = a ∧ ((a ++ c :: b).dropWhile (· ≠ c)).drop 1 = b := by
  have hne : ∀ x ∈ a, decide (x ≠ c) = true := fun x hx => decide_eq_true fun heq => ha (heq ▸ hx)
  rw [List.takeWhile_append_of_pos hne, List.dropWhile_append_of_pos hne]
  simp

theorem ofText_text {rel : Rel} (h : IsDataset rel) :
    Rel.ofText (String.ofList rel.text.toList) = rel := by
  rw [String.ofList_toList]
  exact h.isName

theorem snapName_snapText {name : SnapName} (h : IsDataset name.1) :
    snapName (snapText name) = name := by
  obtain ⟨htake, hdrop⟩ := cut_at (b := name.2.toList) h.named.plain.1
  rw [snapName, snapText, htake, hdrop, ofText_text h, String.ofList_toList]

theorem kindOf_kindText (kind : Kind) : kindOf (kindText kind) = kind := by
  cases kind <;> rfl

theorem value_dash {s : String} (h : IsValue s) : value (dash s) = s := by
  rw [dash]
  split
  · rename_i hs
    rw [hs]
    rfl
  · have hne : s.toList ≠ ['-'] := fun heq => h.2 (String.toList_injective heq)
    rw [value, if_neg hne, String.ofList_toList]

theorem number?_digits' (n : ℕ) : number? (digits n) = some n := number?_digits n

/-- A row whose name is cut at `sep`. -/
theorem refRow_cut {rel : Rel} {sep : Char} (name guid : String) (txg time : ℕ)
    (hrel : IsDataset rel) (hplain : sep ∉ rel.text.toList)
    (hsep : (if '@' ∈ start ++ rel.text.toList ++ sep :: name.toList then '@' else '#') = sep) :
    refRow start [start ++ rel.text.toList ++ sep :: name.toList, guid.toList, digits txg,
      digits time] =
      some ⟨rel, sep = '#', ⟨name, guid, txg, time⟩⟩ := by
  obtain ⟨htake, hdrop⟩ := cut_at (b := name.toList) hplain
  have hthere : sep ∈ start ++ rel.text.toList ++ sep :: name.toList ∧
      start <+: start ++ rel.text.toList ++ sep :: name.toList :=
    ⟨List.mem_append_right _ List.mem_cons_self, List.append_assoc _ _ _ ▸ List.prefix_append _ _⟩
  rw [refRow]
  simp only [hsep]
  rw [if_pos hthere, number?_digits', number?_digits', List.append_assoc]
  simp only [List.drop_left]
  rw [htake, hdrop, ofText_text hrel, String.ofList_toList, String.ofList_toList]

theorem refRow_refFields {r : RefRow} (hstart : '@' ∉ start) (hrel : IsDataset r.rel)
    (hname : IsSnapshot r.ref.name) :
    refRow start (refFields start r) = some r := by
  obtain ⟨rel, bookmark, name, guid, txg, time⟩ := r
  have hplain := hrel.named.plain
  have hat : '@' ∉ name.toList := hname.plain.1
  cases bookmark with
  | false =>
      exact refRow_cut name guid txg time hrel hplain.1
        (if_pos (List.mem_append_right _ List.mem_cons_self))
  | true =>
      refine refRow_cut name guid txg time hrel hplain.2 (if_neg fun hmem => ?_)
      obtain hmem | hmem := List.mem_append.mp hmem
      · exact (List.mem_append.mp hmem).elim hstart hplain.1
      · exact (List.mem_cons.mp hmem).elim (show '@' = '#' → False by decide) hat

theorem originRow_originFields {o : Origin} (h : IsOrigin o) :
    originRow (originFields o) = some { o with snaps := ∅, bookmarks := ∅ } := by
  obtain ⟨rel, kind, canmount, mountpoint, referenced, snaps, bookmarks, cloneOf⟩ := o
  have hclone : ∀ name : SnapName, snapText name ≠ ['-'] ∧ snapText name ≠ [] := by
    intro name
    have hat : '@' ∈ snapText name := List.mem_append_right _ List.mem_cons_self
    constructor <;> intro heq <;> simp [heq] at hat
  have hrel : Rel.ofText rel.text = rel := h.rel.isName
  rw [originFields, originRow]
  simp only [number?_digits', Option.getD_some, String.ofList_toList, kindOf_kindText]
  rw [hrel]
  cases hcl : cloneOf with
  | none => rfl
  | some name =>
      rw [Option.map_some, Option.getD_some, if_neg (not_or.mpr (hclone name)),
        snapName_snapText (h.cloneOf name hcl).1]

theorem cloneFrom_getD {cloneOf : Option SnapName} (hstart : ∃ c ∈ start.head?, c ≠ '-')
    (h : ∀ name ∈ cloneOf, IsDataset name.1) :
    cloneFrom start ((cloneOf.map fun name => start ++ snapText name).getD ['-']) = cloneOf := by
  cases hcl : cloneOf with
  | none =>
      rw [Option.map_none, Option.getD_none, cloneFrom, if_neg fun hprefix => ?_]
      obtain ⟨c, hc, hne⟩ := hstart
      obtain ⟨rest, rfl⟩ := List.head?_eq_some_iff.mp hc
      exact hne (List.cons_prefix_cons.mp hprefix).1
  | some name =>
      rw [Option.map_some, Option.getD_some, cloneFrom, if_pos (List.prefix_append _ _),
        List.drop_left, snapName_snapText (h name hcl)]

theorem destRow_destFields {d : Dest} (h : IsDest d) (hstart : ∃ c ∈ start.head?, c ≠ '-') :
    destRow start (destFields start d) = some { d with excludedKept := "", snaps := ∅ } := by
  obtain ⟨rel, kind, token, orphan, excludedKept, used, written, snaps, cloneOf⟩ := d
  have hclone : ∀ name ∈ cloneOf, IsDataset name.1 := fun name hname => (h.cloneOf name hname).1
  have hrel : IsDataset rel := h.rel
  rw [destFields, destRow, if_pos (List.prefix_append _ _)]
  simp only [number?_digits', Option.getD_some, kindOf_kindText, List.headD_cons, List.drop_left]
  rw [ofText_text hrel, value_dash h.token, value_dash h.orphan, cloneFrom_getD hstart hclone]

/-! ### Rows stand as lines -/

theorem head_append {a b : List Char} (h : ∃ c ∈ a.head?, isSpace c = false) :
    ∃ c ∈ (a ++ b).head?, isSpace c = false := by
  obtain ⟨c, hc, hspace⟩ := h
  obtain ⟨rest, rfl⟩ := List.head?_eq_some_iff.mp hc
  exact ⟨c, rfl, hspace⟩

theorem last_append {a b : List Char} (h : ∃ c ∈ b.getLast?, isSpace c = false) :
    ∃ c ∈ (a ++ b).getLast?, isSpace c = false := by
  obtain ⟨c, hc, hspace⟩ := h
  obtain ⟨rest, rfl⟩ := List.getLast?_eq_some_iff.mp hc
  exact ⟨c, by rw [← List.append_assoc, List.getLast?_concat]; rfl, hspace⟩

theorem isField_kindText (kind : Kind) : IsField (kindText kind) := by
  cases kind <;> exact ⟨by decide, by decide⟩

theorem isField_mark : IsField ['-'] := ⟨by decide, by decide⟩

theorem isField_dash {s : String} (h : IsField s.toList) : IsField (dash s) := by
  rw [dash]
  split
  · exact isField_mark
  · exact h

theorem isField_sign {c : Char} {a b : List Char} (ha : IsField a) (hc : IsField [c])
    (hb : IsField b) : IsField (a ++ c :: b) :=
  isField_append ha (isField_append hc hb)

theorem isField_clone {cloneOf : Option SnapName} (hstart : IsField start)
    (h : ∀ name ∈ cloneOf, IsDataset name.1 ∧ IsSnapshot name.2) :
    IsField ((cloneOf.map fun name => start ++ snapText name).getD ['-']) := by
  cases hcl : cloneOf with
  | none => exact isField_mark
  | some name =>
      obtain ⟨hdataset, hsnapshot⟩ := h name hcl
      exact isField_append hstart (isField_sign hdataset.named.field
        ⟨by decide, by decide⟩ hsnapshot.field)

theorem last_clone {cloneOf : Option SnapName}
    (h : ∀ name ∈ cloneOf, IsDataset name.1 ∧ IsSnapshot name.2) :
    ∃ c ∈ ((cloneOf.map fun name => start ++ snapText name).getD ['-']).getLast?,
    isSpace c = false := by
  cases hcl : cloneOf with
  | none => exact ⟨'-', rfl, rfl⟩
  | some name =>
      have hlast : ∃ c ∈ ('@' :: name.2.toList).getLast?, isSpace c = false :=
        last_append (a := ['@']) (h name hcl).2.last
      exact last_append (last_append hlast)

theorem isRow_originFields {o : Origin} (h : IsOrigin o) : IsRow (originFields o) := by
  have hclone := @isField_clone [] _ ⟨by decide, by decide⟩ h.cloneOf
  refine ⟨?_, ⟨_, rfl, h.rel.named.head⟩, ⟨_, rfl, @last_clone [] _ h.cloneOf⟩⟩
  simp only [originFields, List.forall_mem_cons]
  exact ⟨h.rel.named.field, isField_kindText _, h.canmount, h.mountpoint, isField_digits _,
    hclone, by simp⟩

/-- How every name on a drive starts: with its pool. -/
structure IsStart (start : List Char) : Prop where
  field : IsField start
  head : ∃ c ∈ start.head?, isSpace c = false ∧ c ≠ '-'
  plain : '@' ∉ start

theorem IsStart.blank (h : IsStart start) : ∃ c ∈ start.head?, isSpace c = false := by
  obtain ⟨c, hc, hspace, -⟩ := h.head
  exact ⟨c, hc, hspace⟩

theorem IsStart.dash (h : IsStart start) : ∃ c ∈ start.head?, c ≠ '-' := by
  obtain ⟨c, hc, -, hne⟩ := h.head
  exact ⟨c, hc, hne⟩

theorem isRow_destFields {d : Dest} (h : IsDest d) (hstart : IsStart start) :
    IsRow (destFields start d) := by
  refine ⟨?_, ⟨_, rfl, head_append hstart.blank⟩, ⟨_, rfl, last_clone h.cloneOf⟩⟩
  simp only [destFields, List.forall_mem_cons]
  exact ⟨isField_append hstart.field h.rel.named.field, isField_kindText _, isField_dash h.token.1,
    isField_dash h.orphan.1, isField_digits _, isField_digits _,
    isField_clone hstart.field h.cloneOf, by simp⟩

theorem isRow_keptFields {d : Dest} (h : IsDest d) (hkept : d.excludedKept ≠ "")
    (hstart : IsStart start) : IsRow (keptFields start d) := by
  refine ⟨?_, ⟨_, rfl, head_append hstart.blank⟩, ⟨_, rfl, h.kept.2 hkept⟩⟩
  simp only [keptFields, List.forall_mem_cons]
  exact ⟨isField_append hstart.field h.rel.named.field, h.kept.1.1, by simp⟩

theorem isRow_refFields {r : RefRow} (hrel : IsDataset r.rel) (hname : IsRef r.ref)
    (hstart : IsField start) (hhead : ∃ c ∈ (start ++ r.rel.text.toList).head?, isSpace c = false) :
    IsRow (refFields start r) := by
  have hsign : IsField [if r.bookmark then '#' else '@'] := by
    cases r.bookmark <;> exact ⟨by decide, by decide⟩
  refine ⟨?_, ⟨_, rfl, head_append hhead⟩, ⟨_, rfl, last_digits _⟩⟩
  simp only [refFields, List.forall_mem_cons]
  exact ⟨isField_sign (isField_append hstart hrel.named.field) hsign hname.name.field, hname.guid,
    isField_digits _, isField_digits _, by simp⟩

/-! ### Reading in steps -/

section Reading

variable (run) {α β : Type}

/-- What strict reads come to: an error at the first listing that failed. -/
def reading (commands : List String) (a : α) : Except String α :=
  match commands.find? fun command => !(run command).ok with
  | some command => .error ("could not read: " ++ command)
  | none => .ok a

theorem read_true (command : String) :
    read run true command = reading run [command] (run command) := by
  cases hok : (run command).ok <;> simp [read, checked, reading, hok]

theorem reading_bind {commands rest : List String} {a : α} {b : β} {f : α → Except String β}
    (h : (∀ command ∈ commands, (run command).ok = true) → f a = reading run rest b) :
    (reading run commands a >>= f) = reading run (commands ++ rest) b := by
  rw [reading, reading, List.find?_append]
  cases hfind : commands.find? fun command => !(run command).ok with
  | some command => rfl
  | none =>
      have hok : ∀ command ∈ commands, (run command).ok = true := by simpa using hfind
      exact h hok

theorem read_then {command : String} {rest : List String} {b : β} {f : RunResult → Except String β}
    (h : (run command).ok = true → f (run command) = reading run rest b) :
    (read run true command >>= f) = reading run (command :: rest) b := by
  rw [read_true]
  exact reading_bind run fun hok => h (hok command List.mem_cons_self)

theorem reading_foldlM {γ : Type*} {commands : γ → List String} {f : α → γ → Except String α}
    {Q : List γ → α → Prop} {l : List γ}
    (step : ∀ done x rest a, l = done ++ x :: rest → Q done a →
      ∃ b, Q (done ++ [x]) b ∧ f a x = reading run (commands x) b)
    {a : α} (start : Q [] a) : ∃ b, Q l b ∧ l.foldlM f a = reading run (l.flatMap commands) b := by
  have hrest : ∀ rest done a, l = done ++ rest → Q done a →
      ∃ b, Q l b ∧ rest.foldlM f a = reading run (rest.flatMap commands) b := by
    intro rest
    induction rest with
    | nil =>
        intro done a hl ha
        exact ⟨a, by rwa [hl, List.append_nil], rfl⟩
    | cons x rest ih =>
        intro done a hl ha
        obtain ⟨b, hb, hf⟩ := step done x rest a hl ha
        obtain ⟨c, hc, hfold⟩ := ih (done ++ [x]) b (by simp [hl]) hb
        refine ⟨c, hc, ?_⟩
        rw [List.foldlM_cons, hf, List.flatMap_cons]
        exact reading_bind run fun _ => hfold
  exact hrest l [] a rfl start

end Reading

/-! ### Snapshots and bookmarks -/

/-- The snapshots of a dataset, or its bookmarks, as they are listed: in any order, those of one txg
in their own. -/
structure ListsRefs (refs : List RefRow) (rel : Rel) (bookmark : Bool) (s : Keyed Ref.name) :
    Prop where
  sorted : s.items.Pairwise fun a b => a.createtxg ≤ b.createtxg
  listed : ∀ txg, ((refs.filter fun r => decide (r.rel = rel) && r.bookmark == bookmark).map
    RefRow.ref).filter (·.createtxg = txg) =
    s.items.filter (·.createtxg = txg)

theorem refsOf_eq {refs : List RefRow} {rel : Rel} {bookmark : Bool} {s : Keyed Ref.name}
    (h : ListsRefs refs rel bookmark s) :
    refsOf refs rel bookmark = s := by
  rw [refsOf, insertionSort_eq Ref.createtxg h.sorted h.listed, Keyed.ofList?_eq_some_iff.mpr rfl,
    Option.getD_some]

/-- A dataset of which nothing is listed has none. -/
theorem eq_empty_of_lists {refs : List RefRow} {rel : Rel} {bookmark : Bool} {s : Keyed Ref.name}
    (h : ListsRefs refs rel bookmark s) (hnone : rel ∉ refs.map RefRow.rel) : s = ∅ := by
  have hfilter : refs.filter (fun r => decide (r.rel = rel) && r.bookmark == bookmark) = [] := by
    refine List.filter_eq_nil_iff.mpr fun r hr hrel => hnone ?_
    rw [Bool.and_eq_true, decide_eq_true_eq] at hrel
    exact List.mem_map.mpr ⟨r, hr, hrel.1⟩
  apply Keyed.ext
  refine List.eq_nil_iff_forall_not_mem.mpr fun a ha => ?_
  have hlisted := h.listed a.createtxg
  rw [hfilter] at hlisted
  have hmem : a ∈ s.items.filter (·.createtxg = a.createtxg) :=
    List.mem_filter.mpr ⟨ha, decide_eq_true rfl⟩
  rw [← hlisted] at hmem
  exact absurd hmem List.not_mem_nil

theorem Origin.attach_eq {refs : List RefRow} {o : Origin}
    (hsnaps : ListsRefs refs o.rel false o.snaps)
    (hbookmarks : ListsRefs refs o.rel true o.bookmarks) :
    Origin.attach refs { o with snaps := ∅, bookmarks := ∅ } = o := by
  obtain ⟨rel, kind, canmount, mountpoint, referenced, snaps, bookmarks, cloneOf⟩ := o
  rw [Origin.attach]
  split
  · rw [refsOf_eq hsnaps, refsOf_eq hbookmarks]
  · rename_i hnone
    obtain rfl : snaps = ∅ := eq_empty_of_lists hsnaps hnone
    obtain rfl : bookmarks = ∅ := eq_empty_of_lists hbookmarks hnone
    rfl

theorem Dest.attach_eq {refs : List RefRow} {d : Dest}
    (hsnaps : ListsRefs refs d.rel false d.snaps) :
    Dest.attach refs { d with snaps := ∅ } = d := by
  obtain ⟨rel, kind, token, orphan, excludedKept, used, written, snaps, cloneOf⟩ := d
  rw [Dest.attach]
  split
  · rw [refsOf_eq hsnaps]
  · rename_i hnone
    obtain rfl : snaps = ∅ := eq_empty_of_lists hsnaps hnone
    rfl

/-! ### Origin as it is -/

/-- The datasets of one pool. -/
def originOf (origin : Origins) (pool : String) : List Origin :=
  origin.items.filter fun o => decide (Hierarchy.Under o.rel [pool])

/-- What the listings of origin print: its datasets, pool by pool, and the snapshots and bookmarks
they have. -/
structure OriginPrints (run : String → RunResult) (pools : List String) (origin : Origins)
    (refs : String → List RefRow) : Prop where
  items : origin.items = pools.flatMap (originOf origin)
  datasets : ∀ o ∈ origin, IsOrigin o
  rows : ∀ pool ∈ pools, Prints run (originCommand pool) ((originOf origin pool).map originFields)
  refRows : ∀ pool ∈ pools, Prints run (originRefsCommand pool) ((refs pool).map (refFields []))
  ref : ∀ pool ∈ pools, ∀ r ∈ refs pool, IsRef r.ref ∧ r.rel ∈ (originOf origin pool).map Origin.rel
  lists : ∀ pool ∈ pools, ∀ o ∈ originOf origin pool,
    ListsRefs (refs pool) o.rel false o.snaps ∧ ListsRefs (refs pool) o.rel true o.bookmarks

def originCommands (pool : String) : List String := [originCommand pool, originRefsCommand pool]

section OriginRead

variable {pools : List String} {origin : Origins} {refs : String → List RefRow}

theorem readOriginPool_eq (h : OriginPrints run pools origin refs) {done rest : List String}
    {pool : String} {a : Origins} (hpools : pools = done ++ pool :: rest)
    (ha : a.items = done.flatMap (originOf origin)) :
    ∃ b : Origins, b.items = (done ++ [pool]).flatMap (originOf origin) ∧
      readOriginPool run true a pool = reading run (originCommands pool) b := by
  have hmem : pool ∈ pools := hpools ▸ List.mem_append_right _ List.mem_cons_self
  have hpart : ∀ o ∈ originOf origin pool, o ∈ origin := fun o ho => (List.mem_filter.mp ho).1
  let bare : Origin → Origin := fun o => { o with snaps := ∅, bookmarks := ∅ }
  have hbare : ((originOf origin pool).map bare).map Origin.rel
      = (originOf origin pool).map Origin.rel := by rw [List.map_map]; rfl
  have hnodup : ((a.items ++ originOf origin pool).map Origin.rel).Nodup := by
    have hitems := h.items
    rw [hpools, List.flatMap_append, List.flatMap_cons, ← ha, ← List.append_assoc] at hitems
    have hall := origin.nodup
    rw [hitems, List.map_append] at hall
    exact (List.nodup_append.mp hall).1
  have hput : (((originOf origin pool).map bare).foldl Keyed.put a).items
      = a.items ++ (originOf origin pool).map bare :=
    Keyed.foldl_put_items (by rwa [List.map_append, hbare, ← List.map_append])
  refine ⟨(((originOf origin pool).map bare).foldl Keyed.put a).map (Origin.attach (refs pool))
    (Origin.attach_rel (refs pool)), ?_, ?_⟩
  · rw [Keyed.map_items, hput, List.map_append, List.map_map, List.flatMap_append,
      List.flatMap_singleton, ← ha]
    congr 1
    · refine (List.map_congr_left fun o ho => if_neg fun hrel => ?_).trans (List.map_id _)
      obtain ⟨r, hr, hor⟩ := List.mem_map.mp hrel
      rw [List.map_append] at hnodup
      exact (List.nodup_append.mp hnodup).2.2 o.rel (List.mem_map_of_mem ho) r.rel
        (h.ref pool hmem r hr).2 hor.symm
    · refine (List.map_congr_left fun o ho => ?_).trans (List.map_id _)
      exact Origin.attach_eq (h.lists pool hmem o ho).1 (h.lists pool hmem o ho).2
  · have hrow : ∀ fields ∈ (originOf origin pool).map originFields, IsRow fields := by
      intro fields hfields
      obtain ⟨o, ho, rfl⟩ := List.mem_map.mp hfields
      exact isRow_originFields (h.datasets o (hpart o ho))
    have hrel : ∀ r ∈ refs pool, IsDataset r.rel := by
      intro r hr
      obtain ⟨o, ho, hor⟩ := List.mem_map.mp (h.ref pool hmem r hr).2
      exact hor ▸ (h.datasets o (hpart o ho)).rel
    have href : ∀ fields ∈ (refs pool).map (refFields []), IsRow fields := by
      intro fields hfields
      obtain ⟨r, hr, rfl⟩ := List.mem_map.mp hfields
      exact isRow_refFields (hrel r hr) (h.ref pool hmem r hr).1 ⟨by decide, by decide⟩
        (hrel r hr).named.head
    refine read_then run fun hok => ?_
    rw [rows_of_prints (h.rows pool hmem) hok hrow]
    have hread : ((originOf origin pool).map originFields).filterMap originRow
        = (originOf origin pool).map bare := by
      rw [List.filterMap_map, ← List.filterMap_eq_map]
      exact List.filterMap_congr fun o ho => originRow_originFields (h.datasets o (hpart o ho))
    rw [hread]
    refine read_then run fun hok => ?_
    rw [rows_of_prints (h.refRows pool hmem) hok href]
    have hread : ((refs pool).map (refFields [])).filterMap (refRow []) = refs pool := by
      rw [List.filterMap_map]
      refine (List.filterMap_congr fun r hr => ?_).trans List.filterMap_some
      exact refRow_refFields List.not_mem_nil (hrel r hr) (h.ref pool hmem r hr).1.name
    rw [hread]
    rfl

/-- Origin is read as it is, or the first listing that failed is named. -/
theorem readOrigin_eq (h : OriginPrints run pools origin refs) :
    readOrigin run pools true = reading run (pools.flatMap originCommands) origin := by
  obtain ⟨b, hb, hread⟩ :=
    reading_foldlM run (Q := fun done (a : Origins) => a.items = done.flatMap (originOf origin))
      (fun _ _ _ _ hpools ha => readOriginPool_eq h hpools ha) (a := ∅) rfl
  rw [readOrigin, hread, show b = origin from Keyed.ext (hb.trans h.items.symm)]

end OriginRead

/-! ### The marks of excluded copies -/

/-- A row of the drive with the mark of another one, where it is the same dataset. -/
def keep (d k : Dest) : Dest :=
  if d.rel = k.rel then { d with excludedKept := k.excludedKept } else d

theorem keep_rel (d k : Dest) : (keep d k).rel = d.rel := by
  rw [keep]
  split <;> rfl

theorem keepRow_keptFields {k : Dest} (h : IsDest k) (hkept : k.excludedKept ≠ "") (s : Drive) :
    keepRow start s (keptFields start k) = s.map (keep · k) fun d => keep_rel d k := by
  have hmark : ¬(k.excludedKept.toList = ['-'] ∨ k.excludedKept.toList = []) := by
    rintro (heq | heq)
    · exact h.kept.1.2 (String.toList_injective heq)
    · exact hkept (String.toList_injective heq)
  rw [keptFields, keepRow, if_pos (List.prefix_append _ _), List.drop_left, ofText_text h.rel]
  apply Keyed.ext
  cases hget : s.get? k.rel with
  | none =>
      refine ((List.map_congr_left fun d hd => if_neg fun hrel => ?_).trans (List.map_id _)).symm
      exact Keyed.get?_eq_none_iff.mp hget (hrel ▸ Keyed.key_mem_keys hd)
  | some d =>
      obtain ⟨hd, hdk⟩ := Keyed.get?_eq_some_iff.mp hget
      simp only [if_neg hmark, String.ofList_toList]
      refine List.map_congr_left fun x hx => ?_
      by_cases hrel : x.rel = d.rel
      · rw [if_pos hrel, Keyed.eq_of_key hx hd hrel, keep, if_pos hdk]
      · rw [if_neg hrel, keep, if_neg (hdk ▸ hrel)]

theorem foldl_keepRow {ks : List Dest} (h : ∀ k ∈ ks, IsDest k ∧ k.excludedKept ≠ "") (s : Drive) :
    ((ks.map (keptFields start)).foldl (keepRow start) s).items = s.items.map fun d =>
      ks.foldl keep d := by
  induction ks generalizing s with
  | nil => simp
  | cons k ks ih =>
      obtain ⟨hk, hkept⟩ := h k List.mem_cons_self
      rw [List.map_cons, List.foldl_cons, keepRow_keptFields hk hkept, ih fun x hx =>
        h x (List.mem_cons_of_mem _ hx), Keyed.map_items, List.map_map]
      rfl

/-- Rows that agree on a dataset's mark leave it that. -/
theorem foldl_keep {ks : List Dest} {d : Dest} {mark : String}
    (h : ∀ k ∈ ks, k.rel = d.rel → k.excludedKept = mark)
    (hthere : d.excludedKept = mark ∨ ∃ k ∈ ks, k.rel = d.rel) :
    ks.foldl keep d = { d with excludedKept := mark } := by
  induction ks generalizing d with
  | nil =>
      obtain hmark | ⟨k, hk, -⟩ := hthere
      · rw [← hmark]
        rfl
      · cases hk
  | cons k ks ih =>
      have hrest : ∀ x ∈ ks, x.rel = (keep d k).rel → x.excludedKept = mark := by
        intro x hx hrel
        exact h x (List.mem_cons_of_mem _ hx) (hrel.trans (keep_rel d k))
      by_cases hrel : d.rel = k.rel
      · have hmark := h k List.mem_cons_self hrel.symm
        have hkeep : keep d k = { d with excludedKept := mark } := by rw [keep, if_pos hrel, hmark]
        rw [List.foldl_cons, ih hrest (.inl (by rw [hkeep])), hkeep]
      · have hkeep : keep d k = d := if_neg hrel
        rw [List.foldl_cons, ih hrest ?_, hkeep]
        rw [hkeep]
        obtain hmark | ⟨x, hx, hxrel⟩ := hthere
        · exact .inl hmark
        · obtain rfl | hx := List.mem_cons.mp hx
          · exact absurd hxrel.symm hrel
          · exact .inr ⟨x, hx, hxrel⟩

/-! ### A drive as it is -/

/-- The datasets under one root. -/
def destOf (dest : Drive) (root : String) : List Dest :=
  dest.items.filter fun d => decide (Hierarchy.Under d.rel [root])

/-- The copies that were marked when they were excluded. -/
def keptOf (dest : Drive) (root : String) : List Dest :=
  (destOf dest root).filter fun d => decide (d.excludedKept ≠ "")

/-- The roots a drive has. -/
def rootsOf (dest : Drive) : List String :=
  ["rpool", "bpool"].filter fun root => destOf dest root ≠ []

/-- What the listings of a drive print. -/
structure DrivePrints (run : String → RunResult) (pool : String) (dest : Drive)
    (children : List String) (refs : String → List RefRow) : Prop where
  start : IsStart (pool ++ "/").toList
  items : dest.items = ["rpool", "bpool"].flatMap (destOf dest)
  datasets : ∀ d ∈ dest, IsDest d
  childRows : Prints run (childrenCommand pool) (children.map fun child => [child.toList])
  child : ∀ child ∈ children, IsRow [child.toList]
  roots : ∀ root ∈ ["rpool", "bpool"], pool ++ "/" ++ root ∈ children ↔ destOf dest root ≠ []
  rows : ∀ root ∈ rootsOf dest, Prints run (destCommand (pool ++ "/" ++ root))
    ((destOf dest root).map (destFields (pool ++ "/").toList))
  keptRows : ∀ root ∈ rootsOf dest, Prints run (keptCommand (pool ++ "/" ++ root))
    ((keptOf dest root).map (keptFields (pool ++ "/").toList))
  refRows : ∀ root ∈ rootsOf dest, Prints run (destRefsCommand (pool ++ "/" ++ root))
    ((refs root).map (refFields (pool ++ "/").toList))
  ref : ∀ root ∈ rootsOf dest, ∀ r ∈ refs root, IsRef r.ref ∧
    r.rel ∈ (destOf dest root).map Dest.rel
  lists : ∀ root ∈ rootsOf dest, ∀ d ∈ destOf dest root, ListsRefs (refs root) d.rel false d.snaps

def destCommands (pool root : String) : List String :=
  [destCommand (pool ++ "/" ++ root), keptCommand (pool ++ "/" ++ root),
    destRefsCommand (pool ++ "/" ++ root)]

section DriveRead

variable {pool : String} {dest : Drive} {children : List String} {refs : String → List RefRow}

theorem mem_of_destOf {root : String} {d : Dest} (h : d ∈ destOf dest root) : d ∈ dest :=
  (List.mem_filter.mp h).1

theorem foldl_keep_keptOf {root : String} {d x : Dest} (hd : d ∈ dest) (hrel : x.rel = d.rel)
    (hmark : x.excludedKept = d.excludedKept ∨ x.excludedKept = "" ∧ d ∈ destOf dest root) :
    (keptOf dest root).foldl keep x = { x with excludedKept := d.excludedKept } := by
  refine foldl_keep (fun k hk hkx => ?_) ?_
  · rw [Keyed.eq_of_key (mem_of_destOf (List.mem_filter.mp hk).1) hd (hkx.trans hrel)]
  · obtain hmark | ⟨hempty, hpart⟩ := hmark
    · exact .inl hmark
    · by_cases hkept : d.excludedKept = ""
      · exact .inl (hempty.trans hkept.symm)
      · exact .inr ⟨d, List.mem_filter.mpr ⟨hpart, decide_eq_true hkept⟩, hrel.symm⟩

theorem readRoot_eq (h : DrivePrints run pool dest children refs) {done rest : List String}
    {root : String} {a : Drive} (hroots : rootsOf dest = done ++ root :: rest)
    (hall : dest.items = (rootsOf dest).flatMap (destOf dest))
    (ha : a.items = done.flatMap (destOf dest)) :
    ∃ b : Drive, b.items = (done ++ [root]).flatMap (destOf dest) ∧
      readRoot run true (pool ++ "/").toList (pool ++ "/" ++ root) a
        = reading run (destCommands pool root) b := by
  have hmem : root ∈ rootsOf dest := hroots ▸ List.mem_append_right _ List.mem_cons_self
  let bare : Dest → Dest := fun d => { d with excludedKept := "", snaps := ∅ }
  have hbare : ((destOf dest root).map bare).map Dest.rel = (destOf dest root).map Dest.rel := by
    rw [List.map_map]
    rfl
  have hitems := hall
  rw [hroots, List.flatMap_append, List.flatMap_cons, ← ha, ← List.append_assoc] at hitems
  have hdone : ∀ d ∈ a.items, d ∈ dest := by
    intro d hd
    rw [Keyed.mem_def, hitems]
    exact List.mem_append_left _ (List.mem_append_left _ hd)
  have hnodup : (a.items.map Dest.rel ++ (destOf dest root).map Dest.rel).Nodup := by
    have hdest := dest.nodup
    rw [hitems, List.map_append, List.map_append] at hdest
    exact (List.nodup_append.mp hdest).1
  have hput : (((destOf dest root).map bare).foldl Keyed.put a).items = a.items ++
      (destOf dest root).map bare :=
    Keyed.foldl_put_items (by rwa [List.map_append, hbare])
  have hkept : ∀ k ∈ keptOf dest root, IsDest k ∧ k.excludedKept ≠ "" := by
    intro k hk
    obtain ⟨hk, hmark⟩ := List.mem_filter.mp hk
    exact ⟨h.datasets k (mem_of_destOf hk), of_decide_eq_true hmark⟩
  refine ⟨(((keptOf dest root).map (keptFields (pool ++ "/").toList)).foldl
    (keepRow (pool ++ "/").toList)
    (((destOf dest root).map bare).foldl Keyed.put a)).map (Dest.attach (refs root))
    (Dest.attach_rel (refs root)), ?_, ?_⟩
  · rw [Keyed.map_items, foldl_keepRow hkept, hput, List.map_map, List.map_append, List.map_map,
      List.flatMap_append, List.flatMap_singleton, ← ha]
    congr 1
    · refine (List.map_congr_left fun d hd => ?_).trans (List.map_id _)
      change Dest.attach (refs root) ((keptOf dest root).foldl keep d) = d
      rw [foldl_keep_keptOf (hdone d hd) rfl (.inl rfl)]
      refine if_neg fun hrel => ?_
      obtain ⟨r, hr, hrd⟩ := List.mem_map.mp hrel
      exact (List.nodup_append.mp hnodup).2.2 d.rel (List.mem_map_of_mem hd) r.rel
        (h.ref root hmem r hr).2 hrd.symm
    · refine (List.map_congr_left fun d hd => ?_).trans (List.map_id _)
      change Dest.attach (refs root) ((keptOf dest root).foldl keep (bare d)) = d
      rw [foldl_keep_keptOf (x := bare d) (mem_of_destOf hd) rfl (.inr ⟨rfl, hd⟩)]
      exact Dest.attach_eq (h.lists root hmem d hd)
  · have hrel : ∀ r ∈ refs root, IsDataset r.rel := by
      intro r hr
      obtain ⟨d, hd, hdr⟩ := List.mem_map.mp (h.ref root hmem r hr).2
      exact hdr ▸ (h.datasets d (mem_of_destOf hd)).rel
    have hrow : ∀ fields ∈ (destOf dest root).map (destFields (pool ++ "/").toList),
        IsRow fields := by
      intro fields hfields
      obtain ⟨d, hd, rfl⟩ := List.mem_map.mp hfields
      exact isRow_destFields (h.datasets d (mem_of_destOf hd)) h.start
    have hkeptRow : ∀ fields ∈ (keptOf dest root).map (keptFields (pool ++ "/").toList),
        IsRow fields := by
      intro fields hfields
      obtain ⟨k, hk, rfl⟩ := List.mem_map.mp hfields
      exact isRow_keptFields (hkept k hk).1 (hkept k hk).2 h.start
    have hrefRow : ∀ fields ∈ (refs root).map (refFields (pool ++ "/").toList), IsRow fields := by
      intro fields hfields
      obtain ⟨r, hr, rfl⟩ := List.mem_map.mp hfields
      exact isRow_refFields (hrel r hr) (h.ref root hmem r hr).1 h.start.field
        (head_append h.start.blank)
    refine read_then run fun hok => ?_
    rw [rows_of_prints (h.rows root hmem) hok hrow]
    have hread : ((destOf dest root).map (destFields (pool ++ "/").toList)).filterMap
        (destRow (pool ++ "/").toList) = (destOf dest root).map bare := by
      rw [List.filterMap_map, ← List.filterMap_eq_map]
      exact List.filterMap_congr fun d hd =>
        destRow_destFields (h.datasets d (mem_of_destOf hd)) h.start.dash
    rw [hread]
    refine read_then run fun hok => ?_
    rw [rows_of_prints (h.keptRows root hmem) hok hkeptRow]
    refine read_then run fun hok => ?_
    rw [rows_of_prints (h.refRows root hmem) hok hrefRow]
    have hread : ((refs root).map (refFields (pool ++ "/").toList)).filterMap
        (refRow (pool ++ "/").toList) = refs root := by
      rw [List.filterMap_map]
      refine (List.filterMap_congr fun r hr => ?_).trans List.filterMap_some
      exact refRow_refFields h.start.plain (hrel r hr) (h.ref root hmem r hr).1.name
    rw [hread]
    rfl

/-- A drive is read as it is, or the first listing that failed is named. -/
theorem readDest_eq (h : DrivePrints run pool dest children refs) :
    readDest run pool true = reading run
      (childrenCommand pool :: (rootsOf dest).flatMap (destCommands pool)) dest := by
  have hall : dest.items = (rootsOf dest).flatMap (destOf dest) := by
    rw [h.items, rootsOf]
    by_cases hr : destOf dest "rpool" = [] <;>
      by_cases hb : destOf dest "bpool" = [] <;> simp [hr, hb]
  obtain ⟨b, hb, hread⟩ :=
    reading_foldlM run (Q := fun done (a : Drive) => a.items = done.flatMap (destOf dest))
      (fun _ _ _ _ hroots ha => readRoot_eq h hroots hall ha) (a := ∅) rfl
  rw [readDest]
  simp only [if_true, pure_bind]
  refine read_then run fun hok => ?_
  have hlines : (lines isSpace (run (childrenCommand pool)).stdout).map String.ofList
      = children := by
    rw [lines_of_prints h.childRows hok, List.map_map, List.map_map]
    · refine (List.map_congr_left fun child _ => ?_).trans (List.map_id _)
      change String.ofList (row [child.toList]) = child
      rw [row_singleton, String.ofList_toList]
    · intro fields hfields
      obtain ⟨child, hchild, rfl⟩ := List.mem_map.mp hfields
      exact h.child child hchild
  have hroots : [pool ++ "/rpool", pool ++ "/bpool"].filter (fun root => decide (root ∈ children)) =
      (rootsOf dest).map fun root => pool ++ "/" ++ root := by
    have htexts : [pool ++ "/rpool", pool ++ "/bpool"] = ["rpool", "bpool"].map fun root =>
        pool ++ "/" ++ root := by
      simp only [List.map_cons, List.map_nil, String.append_assoc]
      rfl
    rw [htexts, rootsOf, List.filter_map]
    exact congrArg _ (List.filter_congr fun root hroot => decide_eq_decide.mpr (h.roots root hroot))
  rw [hlines, hroots, List.foldlM_map, hread, show b = dest from Keyed.ext (hb.trans hall.symm)]

end DriveRead

/-! ### The survey -/

section Whole

variable {pools : List String} {origin : Origins} {originRefs : String → List RefRow}
  {pool : String} {dest : Drive} {children : List String}
  {destRefs : String → List RefRow}

/-- The listings of a survey, in their order. -/
def surveyCommands (pools : List String) (pool : String) (dest : Drive) : List String :=
  pools.flatMap originCommands ++ childrenCommand pool :: (rootsOf dest).flatMap (destCommands pool)

/-- The first root the drive holds and origin has not imported. -/
def notImported (pools : List String) (ext4 : Bool) (dest : Drive) : Option String :=
  (rootsOf dest).find? fun root => decide (root ∉ pools) && !(decide (root = "bpool") && ext4)

theorem destOf_ne_nil_iff {root : String} : destOf dest root ≠ [] ↔
    (dest.keys.any fun rel => decide (Hierarchy.Under rel [root])) = true := by
  rw [List.any_eq_true, destOf, ne_eq, List.filter_eq_nil_iff]
  constructor
  · intro h
    push Not at h
    obtain ⟨d, hd, hunder⟩ := h
    exact ⟨d.rel, Keyed.key_mem_keys hd, hunder⟩
  · rintro ⟨rel, hrel, hunder⟩ h
    obtain ⟨d, hd, rfl⟩ := Keyed.mem_keys.mp hrel
    exact h d hd hunder

theorem forIn_refuse {α β : Type} (l : List β) (p : β → Bool) (msg : β → String) (a : α) :
    (do for x in l do if p x then .error (msg x)
        return a : Except String α) = match l.find? p with
      | some x => .error (msg x)
      | none => .ok a := by
  induction l with
  | nil => rfl
  | cons x l ih =>
      cases hp : p x with
      | true => simp [hp]; rfl
      | false => simpa [hp] using ih

/-- A survey plans from exactly what is on both sides, or is an error: it names the first listing
that failed, or a pool which is not imported and whose backup the drive holds. -/
theorem survey_eq (horigin : OriginPrints run pools origin originRefs)
    (hdest : DrivePrints run pool dest children destRefs) (ext4 : Bool) (point : String)
    (skip : List Rel) :
    survey run pools pool ext4 point skip =
      match (surveyCommands pools pool dest).find? fun command => !(run command).ok,
          notImported pools ext4 dest with
      | some command, _ => .error ("could not read: " ++ command)
      | none, some root =>
          .error (root ++ " is not imported, and " ++ pool ++
            " holds its backup (import it first: sudo zpool import " ++ root ++ ")")
      | none, none => .ok (plan origin dest point skip) := by
  have hnot : (["rpool", "bpool"].find? fun root =>
      (dest.keys.any fun rel => decide (Hierarchy.Under rel [root])) && decide (root ∉ pools) &&
      !(decide (root = "bpool") && ext4)) = notImported pools ext4 dest := by
    rw [notImported, rootsOf, List.find?_filter]
    refine congrArg (List.find? · _) (funext fun root => ?_)
    rw [Bool.eq_iff_iff, decide_eq_true_iff, decide_eq_true_iff, Bool.and_assoc, Bool.and_eq_true,
      destOf_ne_nil_iff]
  rw [survey, readOrigin_eq horigin, readDest_eq hdest, surveyCommands, List.find?_append,
    reading, reading]
  cases (pools.flatMap originCommands).find? fun command => !(run command).ok with
  | some command => rfl
  | none =>
      cases (childrenCommand pool :: (rootsOf dest).flatMap (destCommands pool)).find?
          fun command => !(run command).ok with
      | some command => rfl
      | none =>
          refine (forIn_refuse ["rpool", "bpool"]
            (fun root => (dest.keys.any fun rel => decide (Hierarchy.Under rel [root])) &&
            decide (root ∉ pools) && !(decide (root = "bpool") && ext4))
              (fun root => root ++ " is not imported, and " ++ pool ++
              " holds its backup (import it first: sudo zpool import " ++ root ++
                ")") (plan origin dest point skip)).trans ?_
          rw [hnot]
          cases notImported pools ext4 dest <;> rfl

end Whole

/-! ### A drive one point behind -/

def firstRef : Ref := ⟨"zark_20260301_020000", "8101", 31, 1772330400⟩

def secondRef : Ref := ⟨"zark_20260302_020000", "8102", 57, 1772416800⟩

def bootRef : Ref := ⟨"zark_20260302_020000", "9102", 44, 1772416800⟩

def anchorRef : Ref := ⟨"zark_4711_20260301_020000", "8101", 31, 1772330400⟩

/-- A root with an anchor, a clone of its first snapshot, and the boot pool. -/
def surveyedOrigin : Origins where
  items :=
    [{ rel := ["rpool"], canmount := "off", mountpoint := "/", referenced := 196608
       snaps := ⟨[firstRef, secondRef], by decide⟩, bookmarks := ⟨[anchorRef], by decide⟩ },
      { rel := ["rpool", "copy"], canmount := "on", mountpoint := "/copy", referenced := 8192,
        cloneOf := some (["rpool"], firstRef.name) },
      { rel := ["bpool"], canmount := "off", mountpoint := "/boot", referenced := 4096,
        snaps := ⟨[bootRef], by decide⟩ }]
  nodup := by decide

def surveyedDrive : Drive where
  items :=
    [{ rel := ["rpool"], used := 4096, excludedKept := "kept@1772330400",
       snaps := ⟨[firstRef], by decide⟩ },
      { rel := ["rpool", "copy"], used := 2048, written := 512,
        cloneOf := some (["rpool"], firstRef.name) },
      { rel := ["bpool"], token := "1-c740b4779", used := 1024 }]
  nodup := by decide

/-- The snapshots and bookmarks of one pool as they are listed, the newest first. -/
def surveyedRefs : String → List RefRow
  | "rpool" =>
      [⟨["rpool"], false, secondRef⟩, ⟨["rpool"], false, firstRef⟩, ⟨["rpool"], true, anchorRef⟩]
  | _ => [⟨["bpool"], false, bootRef⟩]

def keptRefs : String → List RefRow
  | "rpool" => [⟨["rpool"], false, firstRef⟩]
  | _ => []

/-- What each listing prints. -/
def surveyedListings : List (String × List (List (List Char))) :=
  ["rpool", "bpool"].flatMap (fun pool =>
    [(originCommand pool, (originOf surveyedOrigin pool).map originFields),
      (originRefsCommand pool, (surveyedRefs pool).map (refFields []))]) ++
  (childrenCommand "vault", [["vault".toList], ["vault/bpool".toList], ["vault/rpool".toList]]) ::
  ["rpool", "bpool"].flatMap fun root =>
    [(destCommand ("vault/" ++ root), (destOf surveyedDrive root).map (destFields "vault/".toList)),
      (keptCommand ("vault/" ++ root), (keptOf surveyedDrive root).map
        (keptFields "vault/".toList)),
      (destRefsCommand ("vault/" ++ root), (keptRefs root).map (refFields "vault/".toList))]

def surveyedRun (command : String) : RunResult where
  ok := true
  stdout := unlines (((surveyedListings.lookup command).getD []).map row)

theorem isDataset_rpool : IsDataset ["rpool"] :=
  ⟨by decide, ⟨by decide, by decide⟩, ⟨'r', rfl, rfl⟩, by decide⟩

theorem isDataset_copy : IsDataset ["rpool", "copy"] :=
  ⟨by decide, ⟨by decide, by decide⟩, ⟨'r', rfl, rfl⟩, by decide⟩

theorem isDataset_bpool : IsDataset ["bpool"] :=
  ⟨by decide, ⟨by decide, by decide⟩, ⟨'b', rfl, rfl⟩, by decide⟩

theorem isRef_surveyed : ∀ s ∈ [firstRef, secondRef, bootRef, anchorRef], IsRef s := by
  simp only [List.forall_mem_cons]
  refine ⟨⟨⟨⟨?_, ?_⟩, ⟨'0', rfl, rfl⟩, ?_⟩, ?_, ?_⟩, ⟨⟨⟨?_, ?_⟩, ⟨'0', rfl, rfl⟩, ?_⟩, ?_, ?_⟩,
    ⟨⟨⟨?_, ?_⟩, ⟨'0', rfl, rfl⟩, ?_⟩, ?_, ?_⟩,
    ⟨⟨⟨?_, ?_⟩, ⟨'0', rfl, rfl⟩, ?_⟩, ?_, ?_⟩, by simp⟩ <;> decide

theorem listsRefs_of_txgs {refs : List RefRow} {rel : Rel} {bookmark : Bool} {s : Keyed Ref.name}
    (h : (s.items.Pairwise fun a b => a.createtxg ≤ b.createtxg) ∧
      ∀ txg ∈ (refs.map RefRow.ref ++ s.items).map Ref.createtxg,
        ((refs.filter fun r => decide (r.rel = rel) && r.bookmark == bookmark).map
          RefRow.ref).filter
        (·.createtxg = txg) =
          s.items.filter (·.createtxg = txg)) :
    ListsRefs refs rel bookmark s := by
  refine ⟨h.1, fun txg => ?_⟩
  by_cases hmem : txg ∈ (refs.map RefRow.ref ++ s.items).map Ref.createtxg
  · exact h.2 txg hmem
  · have hnone : ∀ a ∈ refs.map RefRow.ref ++ s.items, ¬decide (a.createtxg = txg) = true :=
      fun a ha heq =>
        hmem (of_decide_eq_true heq ▸ List.mem_map_of_mem ha)
    rw [List.filter_eq_nil_iff.mpr fun a ha => hnone a (List.mem_append_right _ ha),
      List.filter_eq_nil_iff.mpr fun a ha => ?_]
    obtain ⟨r, hr, rfl⟩ := List.mem_map.mp ha
    exact hnone r.ref (List.mem_append_left _ (List.mem_map_of_mem (List.mem_of_mem_filter hr)))

theorem originPrints_surveyed :
    OriginPrints surveyedRun ["rpool", "bpool"] surveyedOrigin surveyedRefs where
  items := by decide
  datasets := by
    change ∀ o ∈ surveyedOrigin.items, IsOrigin o
    simp only [surveyedOrigin, List.forall_mem_cons]
    refine ⟨⟨isDataset_rpool, ⟨by decide, by decide⟩, ⟨by decide, by decide⟩, by simp⟩,
      ⟨isDataset_copy, ⟨by decide, by decide⟩, ⟨by decide, by decide⟩, ?_⟩,
      ⟨isDataset_bpool, ⟨by decide, by decide⟩, ⟨by decide, by decide⟩, by simp⟩, by simp⟩
    rintro name ⟨⟩
    exact ⟨isDataset_rpool, (isRef_surveyed firstRef List.mem_cons_self).name⟩
  rows := by
    simp only [List.forall_mem_cons]
    exact ⟨fun _ => rfl, fun _ => rfl, by simp⟩
  refRows := by
    simp only [List.forall_mem_cons]
    exact ⟨fun _ => rfl, fun _ => rfl, by simp⟩
  ref := by
    have hlisted : ∀ pool ∈ ["rpool", "bpool"], ∀ r ∈ surveyedRefs pool,
        r.ref ∈ [firstRef, secondRef, bootRef, anchorRef] ∧
        r.rel ∈ (originOf surveyedOrigin pool).map Origin.rel := by decide
    exact fun pool hpool r hr => ⟨isRef_surveyed r.ref (hlisted pool hpool r hr).1,
      (hlisted pool hpool r hr).2⟩
  lists := by
    have hlisted : ∀ pool ∈ ["rpool", "bpool"], ∀ o ∈ originOf surveyedOrigin pool,
        ∀ bookmark : Bool, ((if bookmark then o.bookmarks else o.snaps).items.Pairwise fun a b =>
          a.createtxg ≤ b.createtxg) ∧
        ∀ txg ∈ ((surveyedRefs pool).map RefRow.ref ++ (if bookmark then o.bookmarks else o.snaps).items).map Ref.createtxg,
          (((surveyedRefs pool).filter fun r => decide (r.rel = o.rel) && r.bookmark ==
            bookmark).map RefRow.ref).filter (·.createtxg = txg) =
            (if bookmark then o.bookmarks else o.snaps).items.filter
              (·.createtxg = txg) := by decide +kernel
    exact fun pool hpool o ho => ⟨listsRefs_of_txgs (hlisted pool hpool o ho false),
      listsRefs_of_txgs (hlisted pool hpool o ho true)⟩

theorem drivePrints_surveyed : DrivePrints surveyedRun "vault" surveyedDrive ["vault",
      "vault/bpool", "vault/rpool"] keptRefs where
  start := ⟨⟨by decide, by decide⟩, ⟨'v', rfl, by decide⟩, by decide⟩
  items := by decide
  datasets := by
    change ∀ d ∈ surveyedDrive.items, IsDest d
    simp only [surveyedDrive, List.forall_mem_cons]
    refine ⟨⟨isDataset_rpool, ⟨⟨by decide, by decide⟩, by decide⟩,
        ⟨⟨by decide, by decide⟩, by decide⟩,
        ⟨⟨⟨by decide, by decide⟩, by decide⟩, fun _ => ⟨'0', rfl, rfl⟩⟩, by simp⟩,
      ⟨isDataset_copy, ⟨⟨by decide, by decide⟩, by decide⟩, ⟨⟨by decide, by decide⟩, by decide⟩,
        ⟨⟨⟨by decide, by decide⟩, by decide⟩, by simp⟩, ?_⟩,
      ⟨isDataset_bpool, ⟨⟨by decide, by decide⟩, by decide⟩, ⟨⟨by decide, by decide⟩, by decide⟩,
        ⟨⟨⟨by decide, by decide⟩, by decide⟩, by simp⟩, by simp⟩, by simp⟩
    rintro name ⟨⟩
    exact ⟨isDataset_rpool, (isRef_surveyed firstRef List.mem_cons_self).name⟩
  childRows := fun _ => rfl
  child := by
    simp only [List.forall_mem_cons]
    refine ⟨⟨?_, ⟨_, rfl, 'v', rfl, rfl⟩, ⟨_, rfl, 't', rfl, rfl⟩⟩,
      ⟨?_, ⟨_, rfl, 'v', rfl, rfl⟩, ⟨_, rfl, 'l', rfl, rfl⟩⟩,
      ⟨?_, ⟨_, rfl, 'v', rfl, rfl⟩, ⟨_, rfl, 'l', rfl, rfl⟩⟩, by simp⟩ <;>
      exact fun f hf => List.mem_singleton.mp hf ▸ ⟨by decide, by decide⟩
  roots := by decide
  rows := by
    have hrows : ∀ root ∈ ["rpool", "bpool"],
        Prints surveyedRun (destCommand ("vault" ++ "/" ++ root))
        ((destOf surveyedDrive root).map (destFields ("vault" ++ "/").toList)) := by
      simp only [List.forall_mem_cons]
      exact ⟨fun _ => rfl, fun _ => rfl, by simp⟩
    exact fun root hroot => hrows root (List.mem_of_mem_filter hroot)
  keptRows := by
    have hrows : ∀ root ∈ ["rpool", "bpool"],
        Prints surveyedRun (keptCommand ("vault" ++ "/" ++ root))
        ((keptOf surveyedDrive root).map (keptFields ("vault" ++ "/").toList)) := by
      simp only [List.forall_mem_cons]
      exact ⟨fun _ => rfl, fun _ => rfl, by simp⟩
    exact fun root hroot => hrows root (List.mem_of_mem_filter hroot)
  refRows := by
    have hrows : ∀ root ∈ ["rpool", "bpool"],
        Prints surveyedRun (destRefsCommand ("vault" ++ "/" ++ root))
        ((keptRefs root).map (refFields ("vault" ++ "/").toList)) := by
      simp only [List.forall_mem_cons]
      exact ⟨fun _ => rfl, fun _ => rfl, by simp⟩
    exact fun root hroot => hrows root (List.mem_of_mem_filter hroot)
  ref := by
    have hlisted : ∀ root ∈ ["rpool", "bpool"], ∀ r ∈ keptRefs root,
        r.ref ∈ [firstRef, secondRef, bootRef, anchorRef] ∧
        r.rel ∈ (destOf surveyedDrive root).map Dest.rel := by decide
    exact fun root hroot r hr =>
      ⟨isRef_surveyed r.ref (hlisted root (List.mem_of_mem_filter hroot) r hr).1,
        (hlisted root (List.mem_of_mem_filter hroot) r hr).2⟩
  lists := by
    have hlisted : ∀ root ∈ ["rpool", "bpool"], ∀ d ∈ destOf surveyedDrive root,
        (d.snaps.items.Pairwise fun a b => a.createtxg ≤ b.createtxg) ∧
        ∀ txg ∈ ((keptRefs root).map RefRow.ref ++ d.snaps.items).map Ref.createtxg,
          (((keptRefs root).filter fun r => decide (r.rel = d.rel) && r.bookmark == false).map
            RefRow.ref).filter (·.createtxg = txg) =
            d.snaps.items.filter (·.createtxg = txg) := by decide +kernel
    exact fun root hroot d hd => listsRefs_of_txgs
      (hlisted root (List.mem_of_mem_filter hroot) d hd)

theorem survey_eq_surveyed :
    survey surveyedRun ["rpool", "bpool"] "vault" false "zark_20260302_020000" [] =
    .ok (plan surveyedOrigin surveyedDrive "zark_20260302_020000" []) :=
  (survey_eq originPrints_surveyed drivePrints_surveyed false "zark_20260302_020000" []).trans rfl

end Zark.Survey
