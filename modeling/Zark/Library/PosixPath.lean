import Zark.Library.Text

/-!
# POSIX paths as text

Python's `posixpath`: splitting, joining and normalising the text of a path, and the text of one
path relative to another. A path below an absolute one, without `..`, is the absolute one and the
names that follow.
-/

namespace Posix

/-- `path.split("/")`. -/
def split (path : String) : List String := (path.toList.splitOn '/').map String.ofList

def isAbs (path : String) : Bool := decide (path.toList.head? = some '/')

/-- `os.path.join` of two paths. -/
def join (a b : String) : String :=
  if isAbs b then
    b
  else if a.toList = [] ∨ a.toList.getLast? = some '/' then a ++ b else a ++ "/" ++ b

/-- `os.path.join(a, *rest)`. -/
def joinAll (a : String) (rest : List String) : String := rest.foldl join a

/-- One component into those normalised so far. -/
def normStep (abs : Bool) (comps : List String) (comp : String) : List String :=
  if comp = "" ∨ comp = "." then comps
  else if comp ≠ ".." ∨ (abs = false ∧ comps = []) ∨ comps.getLast? = some ".." then comps ++ [comp]
  else comps.dropLast

/-- Two slashes at the start stay two; one, or three and more, are one. -/
def leading (path : String) : String :=
  match path.toList with
  | '/' :: '/' :: '/' :: _ => "/"
  | '/' :: '/' :: _ => "//"
  | '/' :: _ => "/"
  | _ => ""

def normpath (path : String) : String :=
  let result := leading path ++ "/".intercalate ((split path).foldl (normStep (isAbs path)) [])
  if path = "" ∨ result = "" then "." else result

def abspath (cwd path : String) : String := normpath (if isAbs path then path else join cwd path)

/-- `[x for x in path.split("/") if x]`. -/
def parts (path : String) : List String := (split path).filter (· ≠ "")

/-- How many components two paths share from the start. -/
def shared : List String → List String → ℕ
  | a :: as, b :: bs => if a = b then shared as bs + 1 else 0
  | _, _ => 0

/-- `os.path.relpath(path, start)`; the empty path raises. -/
def relpath (cwd path start : String) : Except String String :=
  if path = "" then .error "no path specified"
  else
    let startParts := parts (abspath cwd start)
    let pathParts := parts (abspath cwd path)
    let i := shared startParts pathParts
    match List.replicate (startParts.length - i) ".." ++ pathParts.drop i with
    | [] => .ok "."
    | first :: rest => .ok (joinAll first rest)

/-! ### Names -/

/-- A component that is neither empty nor `.`. -/
def isStep (c : String) : Bool := decide (c ≠ "" ∧ c ≠ ".")

/-- The name of an entry of a directory. -/
structure IsName (c : String) : Prop where
  step : isStep c = true
  up : c ≠ ".."
  slash : '/' ∉ c.toList

instance (c : String) : Decidable (IsName c) :=
  decidable_of_iff (isStep c = true ∧ c ≠ ".." ∧ '/' ∉ c.toList)
    ⟨fun ⟨h, h', h''⟩ => ⟨h, h', h''⟩, fun ⟨h, h', h''⟩ => ⟨h, h', h''⟩⟩

theorem IsName.ne_empty {c : String} (h : IsName c) : c ≠ "" := (of_decide_eq_true h.step).1

/-- The absolute path through some names. -/
def absolute (names : List String) : String := "/" ++ "/".intercalate names

/-- No piece of a path holds a slash. -/
theorem slash_of_mem_split {c path : String} (h : c ∈ split path) : '/' ∉ c.toList := by
  obtain ⟨l, hl, rfl⟩ := List.mem_map.mp h
  rw [String.toList_ofList]
  exact Text.not_mem_of_mem_splitOn hl

theorem split_of_no_slash {c : String} (h : '/' ∉ c.toList) : split c = [c] := by
  rw [split, List.splitOn_eq_singleton h, List.map_singleton, String.ofList_toList]

theorem split_append (a b : String) : split (a ++ "/" ++ b) = split a ++ split b := by
  have htext : (a ++ "/" ++ b).toList = a.toList ++ '/' :: b.toList := by simp
  rw [split, htext, List.splitOn_append_cons_self, List.map_append, split, split]

theorem split_intercalate {names : List String} (h : ∀ c ∈ names, '/' ∉ c.toList)
    (hne : names ≠ []) : split ("/".intercalate names) = names := by
  have hsep : "/".toList = ['/'] := rfl
  rw [split, String.toList_intercalate, hsep,
    List.splitOn_intercalate _ (by simpa using h) (by simpa using hne), List.map_map]
  simp [Function.comp_def]

theorem split_empty : split "" = [""] := rfl

theorem absolute_eq (names : List String) :
    absolute names = "" ++ "/" ++ "/".intercalate names := by rw [String.empty_append]; rfl

theorem split_absolute {names : List String} (h : ∀ c ∈ names, '/' ∉ c.toList) :
    split (absolute names) = "" :: if names = [] then [""] else names := by
  rw [absolute_eq, split_append, split_empty]
  split
  · rename_i hnil
    rw [hnil]
    rfl
  · rw [split_intercalate h ‹_›]
    rfl

theorem absolute_snoc (names : List String) (c : String) :
    absolute (names ++ [c]) = if names = [] then "/" ++ c else absolute names ++ "/" ++ c := by
  split
  · rename_i hnil
    simp [hnil, absolute]
  · rename_i hne
    rw [absolute, String.intercalate_append_of_ne_nil hne (by simp), absolute]
    simp [String.append_assoc]

theorem isAbs_of_no_slash {c : String} (h : '/' ∉ c.toList) : isAbs c = false := by
  rw [isAbs, decide_eq_false_iff_not]
  intro hhead
  exact h (List.mem_of_mem_head? hhead)

theorem join_ne_empty {a : String} (b : String) (h : a ≠ "") : join a b ≠ "" := by
  unfold join
  split
  · rintro rfl
    exact absurd ‹isAbs "" = true› (by decide)
  · split
    · simp [h]
    · simp [h]

/-- A name put after a path that does not end in a slash. -/
theorem join_of_name {a c : String} (hc : IsName c) (ha : a.toList ≠ [])
    (hlast : a.toList.getLast? ≠ some '/') : join a c = a ++ "/" ++ c := by
  rw [join, isAbs_of_no_slash hc.slash]
  simp [ha, hlast]

theorem IsName.toList_ne_nil {c : String} (h : IsName c) : c.toList ≠ [] := by
  simpa using h.ne_empty

theorem IsName.getLast?_ne {c : String} (h : IsName c) : c.toList.getLast? ≠ some '/' :=
  fun hlast => h.slash (List.mem_of_getLast? hlast)

theorem getLast?_append_name (a : String) {c : String} (h : IsName c) :
    (a ++ c).toList.getLast? ≠ some '/' := by
  rw [String.toList_append, List.getLast?_append_of_ne_nil _ h.toList_ne_nil]
  exact h.getLast?_ne

theorem getLast?_absolute {names : List String} (hne : names ≠ []) (h : ∀ d ∈ names, IsName d) :
    (absolute names).toList.getLast? ≠ some '/' := by
  obtain ⟨before, d, rfl⟩ := List.eq_nil_or_concat' names |>.resolve_left hne
  rw [absolute_snoc]
  split <;> exact getLast?_append_name _ (h d (by simp))

theorem join_absolute {names : List String} (hnames : ∀ d ∈ names, IsName d) {c : String}
    (hc : IsName c) :
    join (absolute names) c = absolute (names ++ [c]) := by
  rw [absolute_snoc]
  split
  · rename_i hnil
    rw [hnil, join, isAbs_of_no_slash hc.slash]
    simp [absolute]
  · rename_i hne
    exact join_of_name hc (by simp [absolute]) (getLast?_absolute hne hnames)

theorem joinAll_absolute {names : List String} :
    ∀ {rest : List String}, (∀ c ∈ names ++ rest, IsName c) →
    joinAll (absolute names) rest = absolute (names ++ rest)
  | [], _ => by rw [List.append_nil]; rfl
  | c :: rest, h => by
      have hc : IsName c := h c (by simp)
      have hnames : ∀ d ∈ names, IsName d := fun d hd => h d (List.mem_append_left _ hd)
      rw [joinAll, List.foldl_cons, join_absolute hnames hc, ← joinAll,
        joinAll_absolute (by simpa using h)]
      simp

theorem split_joinAll {a : String} (ha : a.toList ≠ []) (hlast : a.toList.getLast? ≠ some '/') :
    ∀ {rest : List String}, (∀ c ∈ rest, IsName c) →
    split (joinAll a rest) = split a ++ rest := by
  intro rest
  induction rest generalizing a with
  | nil => intro _; rw [List.append_nil]; rfl
  | cons c rest ih =>
      intro h
      have hc : IsName c := h c List.mem_cons_self
      have hne : (a ++ "/" ++ c).toList ≠ [] := by simp
      rw [joinAll, List.foldl_cons, join_of_name hc ha hlast, ← joinAll,
        ih hne (getLast?_append_name _ hc) (fun d hd => h d (List.mem_cons_of_mem _ hd)),
        split_append, split_of_no_slash hc.slash]
      simp

/-! ### Normalising -/

/-- Without `..`, normalising drops what is no step. -/
theorem foldl_normStep {comps : List String} (h : ".." ∉ comps) (abs : Bool) :
    ∀ acc, comps.foldl (normStep abs) acc = acc ++ comps.filter isStep := by
  induction comps with
  | nil => simp
  | cons c comps ih =>
      intro acc
      have hc : c ≠ ".." := fun heq => h (heq ▸ List.mem_cons_self)
      rw [List.foldl_cons, ih (fun hmem => h (List.mem_cons_of_mem _ hmem)), normStep,
        List.filter_cons]
      by_cases hstep : c = "" ∨ c = "."
      · have hno : isStep c = false := by
          rw [isStep, decide_eq_false_iff_not]
          tauto
        rw [if_pos hstep, hno]
        rfl
      · have hyes : isStep c = true := by
          rw [isStep, decide_eq_true_iff]
          tauto
        rw [if_neg hstep, if_pos (.inl hc), hyes]
        simp

theorem leading_of_isAbs {path : String} (h : isAbs path = true) :
    leading path = "/" ∨ leading path = "//" := by
  rw [isAbs, decide_eq_true_iff] at h
  unfold leading
  split
  · exact .inl rfl
  · exact .inr rfl
  · exact .inl rfl
  · rename_i hnone
    cases hlist : path.toList with
    | nil => simp [hlist] at h
    | cons c rest =>
        rw [hlist, List.head?_cons, Option.some.injEq] at h
        exact absurd (h ▸ hlist) (hnone rest)

theorem parts_slash (path : String) : parts ("/" ++ path) = parts path := by
  have htext : "/" ++ path = "" ++ "/" ++ path := by rw [String.empty_append]
  rw [parts, htext, split_append, split_empty]
  rfl

theorem parts_intercalate {names : List String} (h : ∀ c ∈ names, c ≠ "" ∧ '/' ∉ c.toList) :
    parts ("/".intercalate names) = names := by
  by_cases hne : names = []
  · rw [hne]
    rfl
  · rw [parts, split_intercalate (fun c hc => (h c hc).2) hne]
    exact List.filter_eq_self.mpr fun c hc => decide_eq_true (h c hc).1

/-- What normalising leaves of an absolute path without `..`. -/
theorem parts_normpath {path : String} (habs : isAbs path = true) (h : ".." ∉ split path) :
    parts (normpath path) = (split path).filter isStep := by
  have hne : path ≠ "" := by
    rintro rfl
    exact absurd habs (by decide)
  have hnames : ∀ c ∈ (split path).filter isStep, c ≠ "" ∧ '/' ∉ c.toList := by
    intro c hc
    obtain ⟨hmem, hstep⟩ := List.mem_filter.mp hc
    exact ⟨(of_decide_eq_true hstep).1, slash_of_mem_split hmem⟩
  rw [normpath, foldl_normStep h, List.nil_append]
  have hparts : ∀ start, start = "/" ∨ start = "//" →
      parts (start ++ "/".intercalate ((split path).filter isStep))
          = (split path).filter isStep := by
    rintro start (rfl | rfl)
    · rw [parts_slash, parts_intercalate hnames]
    · have htwo : "//" = "/" ++ "/" := rfl
      rw [htwo, String.append_assoc, parts_slash, parts_slash, parts_intercalate hnames]
  have hlead := leading_of_isAbs habs
  have hresult : leading path ++ "/".intercalate ((split path).filter isStep) ≠ "" := by
    rcases hlead with hlead | hlead <;> simp [hlead]
  rw [if_neg (by simp [hne, hresult])]
  exact hparts _ hlead

theorem shared_append : ∀ a b : List String, shared a (a ++ b) = a.length
  | [], b => by cases b <;> rfl
  | c :: a, b => by simp [shared, shared_append a b]

theorem steps_absolute {names : List String} (h : ∀ c ∈ names, IsName c) :
    (split (absolute names)).filter isStep = names := by
  rw [split_absolute fun c hc => (h c hc).slash]
  by_cases hnil : names = []
  · rw [hnil]
    rfl
  · rw [if_neg hnil, List.filter_cons_of_neg (by decide), List.filter_eq_self]
    exact fun c hc => (h c hc).step

theorem up_absolute {names : List String} (h : ∀ c ∈ names, IsName c) :
    ".." ∉ split (absolute names) := by
  intro hmem
  have hmem' : ".." ∈ (split (absolute names)).filter isStep :=
    List.mem_filter.mpr ⟨hmem, by decide⟩
  exact (h _ (steps_absolute h ▸ hmem')).up rfl

theorem isAbs_absolute (names : List String) : isAbs (absolute names) = true := by
  simp [isAbs, absolute]

/-- A path below an absolute one: put after it and a slash, or joined to it. -/
def Below (root : List String) (rest path : String) : Prop :=
  path = absolute root ++ "/" ++ rest ∨ isAbs rest = false ∧ path = join (absolute root) rest

/-- The steps of a path below an absolute one. -/
theorem Below.steps {root : List String} {rest path : String} (h : Below root rest path)
    (hroot : ∀ c ∈ root, IsName c) (hup : ".." ∉ split rest) :
    isAbs path = true ∧ ".." ∉ split path ∧
    (split path).filter isStep = root ++ (split rest).filter isStep := by
  have hafter : path = absolute root ++ "/" ++ rest →
      isAbs path = true ∧ ".." ∉ split path ∧
      (split path).filter isStep = root ++ (split rest).filter isStep := by
    rintro rfl
    refine ⟨by simp [isAbs, absolute],
      ?_, by rw [split_append, List.filter_append, steps_absolute hroot]⟩
    rw [split_append, List.mem_append]
    exact fun hmem => hmem.elim (up_absolute hroot) hup
  obtain hpath | ⟨hrel, rfl⟩ := h
  · exact hafter hpath
  · by_cases hnil : root = []
    · have hpath : join (absolute root) rest = "" ++ "/" ++ rest := by
        simp [join, hrel, hnil, absolute]
      rw [hpath, split_append, split_empty, hnil]
      exact ⟨by simp [isAbs], fun hmem => (List.mem_cons.mp hmem).elim (by decide) hup, rfl⟩
    · have hlast := getLast?_absolute hnil hroot
      have hne : (absolute root).toList ≠ [] := by simp [absolute]
      exact hafter (by rw [join, hrel, if_neg Bool.false_ne_true, if_neg (not_or.mpr ⟨hne, hlast⟩)])

/-- A path whose steps go on from those of an absolute one: what follows is what it is relative to
it. -/
theorem relpath_of_steps (cwd : String) {root steps : List String} (hroot : ∀ c ∈ root, IsName c)
    {path : String} (habs : isAbs path = true) (hup : ".." ∉ split path)
    (h : (split path).filter isStep = root ++ steps) :
    ∃ rel, relpath cwd path (absolute root) = .ok rel ∧
    (if rel = "." then [] else split rel) = steps := by
  have hstartParts : parts (abspath cwd (absolute root)) = root := by
    rw [abspath, if_pos (isAbs_absolute root),
      parts_normpath (isAbs_absolute root) (up_absolute hroot), steps_absolute hroot]
  have hpathParts : parts (abspath cwd path) = root ++ steps := by
    rw [abspath, if_pos habs, parts_normpath habs hup, h]
  have hne : path ≠ "" := by
    rintro rfl
    exact absurd habs (by decide)
  rw [relpath, if_neg hne, hstartParts, hpathParts]
  simp only [shared_append, Nat.sub_self, List.replicate_zero, List.nil_append, List.drop_left]
  have hnames : ∀ c ∈ steps, IsName c := by
    intro c hc
    have hmem : c ∈ (split path).filter isStep := h ▸ List.mem_append_right _ hc
    obtain ⟨hmem, hstep⟩ := List.mem_filter.mp hmem
    exact ⟨hstep, fun heq => hup (heq ▸ hmem), slash_of_mem_split hmem⟩
  cases steps with
  | nil => exact ⟨".", rfl, if_pos rfl⟩
  | cons first more =>
      have hfirst : IsName first := hnames first List.mem_cons_self
      have hsplit : split (joinAll first more) = first :: more := by
        rw [split_joinAll hfirst.toList_ne_nil hfirst.getLast?_ne fun c hc =>
          hnames c (List.mem_cons_of_mem _ hc), split_of_no_slash hfirst.slash]
        rfl
      refine ⟨joinAll first more, rfl, ?_⟩
      rw [if_neg ?_, hsplit]
      intro hdot
      rw [hdot] at hsplit
      have hfirstDot : "." = first := (List.cons.inj hsplit).1
      exact (of_decide_eq_true hfirst.step).2 hfirstDot.symm

/-- Only the empty path has no path relative to another. -/
theorem relpath_eq_ok {cwd path start : String} (h : path ≠ "") :
    ∃ rel, relpath cwd path start = .ok rel := by
  rw [relpath, if_neg h]
  simp only
  split
  · exact ⟨_, rfl⟩
  · exact ⟨_, rfl⟩

end Posix
