import Zark.Library.Scan

/-!
# What a substitution leaves of a token

A pattern is substituted by texts in brackets. What stands in the result and holds no bracket was
there before: a token, which no letter stands beside, was a token, and the pattern did not find it.
So a substitution whose pattern finds every token of a kind leaves none, and a later one brings none
back.
-/

namespace Scan

variable {α : Type*} {m : Pattern α} {put : List α → List α} {k a b : List α}

/-! ### Parts of a search -/

/-- What a piece was. -/
def Piece.source : Piece α → List α
  | kept a => [a]
  | found l => l

/-- From any piece on, a search is the search of what is left. -/
theorem pieces_append (hm : Proper m) (prev : Option α) (l : List α) :
    ∀ {before after : List (Piece α)}, pieces m prev l = before ++ after →
    ∃ b, l = before.flatMap Piece.source ++ b ∧
    pieces m ((before.flatMap Piece.source).getLast?.or prev) b = after := by
  induction prev, l using scan_induction hm with
  | nil prev =>
      intro before after h
      rw [pieces_nil, eq_comm, List.append_eq_nil_iff] at h
      obtain ⟨rfl, rfl⟩ := h
      exact ⟨[], rfl, pieces_nil _ _⟩
  | found prev w rest hne hfound ih =>
      intro before after h
      rw [pieces_of_some hm hfound] at h
      cases before with
      | nil => exact ⟨w ++ rest, rfl, (pieces_of_some hm hfound).trans h⟩
      | cons piece before =>
          obtain ⟨rfl, hrest⟩ := List.cons.inj h
          obtain ⟨b, rfl, hb⟩ := ih hrest
          refine ⟨b, by simp [Piece.source], ?_⟩
          rw [← hb, List.flatMap_cons, Piece.source, List.getLast?_append, Option.or_assoc]
          congr 2
          exact Option.or_of_isSome (by simpa using hne)
  | kept prev c rest hnone ih =>
      intro before after h
      rw [pieces_of_none hnone] at h
      cases before with
      | nil => exact ⟨c :: rest, rfl, (pieces_of_none hnone).trans h⟩
      | cons piece before =>
          obtain ⟨rfl, hrest⟩ := List.cons.inj h
          obtain ⟨b, rfl, hb⟩ := ih hrest
          refine ⟨b, by simp [Piece.source], ?_⟩
          rw [← hb, List.flatMap_cons, Piece.source, List.getLast?_append, Option.or_assoc]
          rfl

/-- The first piece is what is found there, or nothing is. -/
theorem of_pieces_found (hm : Proper m) {prev : Option α} {l w : List α} {after : List (Piece α)}
    (h : pieces m prev l = .found w :: after) :
    ∃ rest, l = w ++ rest ∧ m prev (w ++ rest) = some w.length := by
  cases l with
  | nil => simp [pieces_nil] at h
  | cons c l =>
      cases hfound : m prev (c :: l) with
      | none => simp [pieces_of_none hfound] at h
      | some n =>
          obtain ⟨w', rest, hcut, -, hmatch⟩ := hm.exists_append hfound
          rw [hcut, pieces_of_some hm hmatch] at h
          obtain ⟨hw, -⟩ := List.cons.inj h
          obtain rfl := Piece.found.inj hw
          exact ⟨rest, hcut, hmatch⟩

theorem of_pieces_kept (hm : Proper m) {prev : Option α} {l : List α} {c : α}
    {after : List (Piece α)} (h : pieces m prev l = .kept c :: after) :
    ∃ rest, l = c :: rest ∧ m prev (c :: rest) = none := by
  cases l with
  | nil => simp [pieces_nil] at h
  | cons d l =>
      cases hfound : m prev (d :: l) with
      | none =>
          rw [pieces_of_none hfound] at h
          obtain ⟨hd, -⟩ := List.cons.inj h
          obtain rfl := Piece.kept.inj hd
          exact ⟨l, rfl, hfound⟩
      | some n =>
          obtain ⟨w, rest, hcut, -, hmatch⟩ := hm.exists_append hfound
          rw [hcut, pieces_of_some hm hmatch] at h
          cases (List.cons.inj h).1

theorem eq_nil_of_pieces (hm : Proper m) {prev : Option α} {l : List α} (h : pieces m prev l = []) :
    l = [] := by
  cases l with
  | nil => rfl
  | cons c l =>
      cases hfound : m prev (c :: l) with
      | none => simp [pieces_of_none hfound] at h
      | some n =>
          obtain ⟨w, rest, hcut, -, hmatch⟩ := hm.exists_append hfound
          simp [hcut, pieces_of_some hm hmatch] at h

/-! ### Tokens -/

section Tokens

variable {isLetter : α → Bool} {opening closing : α}

/-- A text in brackets, which does not hold `k`. -/
structure Bracketed (opening closing : α) (k text : List α) : Prop where
  opens : text.head? = some opening
  closes : text.getLast? = some closing
  apart : ¬ k <:+: text

/-- `k` stands as a token after `before` and in front of `after`: no letter is beside it, and no
bracket beside an end of its own that is no letter. -/
structure TokenAt (isLetter : α → Bool) (opening closing : α) (k : List α)
    (before after : Option α) : Prop where
  before_letter : before.any isLetter = false
  after_letter : after.any isLetter = false
  before_bracket : k.head?.any isLetter = false → before ≠ some closing
  after_bracket : k.getLast?.any isLetter = false → after ≠ some opening

/-- No letter follows what is found, and none goes before it but where it begins with none. -/
structure Bordered (isLetter : α → Bool) (m : Pattern α) : Prop where
  after : ∀ prev w rest, m prev (w ++ rest) = some w.length → rest.head?.any isLetter = false
  before : ∀ prev w rest, m prev (w ++ rest) = some w.length → prev.any isLetter = false ∨
    w.head?.any isLetter = false

/-- What holds no bracket and begins where a piece does was kept. -/
theorem pieces_of_start (ho : opening ∉ k) :
    ∀ {ps : List (Piece α)}, (∀ w, Piece.found w ∈ ps → (put w).head? = some opening) →
    ps.flatMap (Piece.out put) = k ++ b → ∃ after, ps = k.map .kept ++ after ∧
    after.flatMap (Piece.out put) = b := by
  induction k with
  | nil => exact fun {ps} _ h => ⟨ps, rfl, h⟩
  | cons c k ih =>
      intro ps hput h
      rw [List.mem_cons, not_or] at ho
      cases ps with
      | nil => cases h
      | cons piece ps =>
          cases piece with
          | found w =>
              have hhead := congrArg List.head? h
              rw [List.flatMap_cons, Piece.out, List.head?_append,
                hput w List.mem_cons_self] at hhead
              exact absurd (Option.some.inj hhead) ho.1
          | kept d =>
              obtain ⟨rfl, hrest⟩ := List.cons.inj h
              obtain ⟨after, rfl, hafter⟩ :=
                ih ho.2 (fun w hw => hput w (List.mem_cons_of_mem _ hw)) hrest
              exact ⟨after, rfl, hafter⟩

/-- What holds no bracket and is in none of the texts put in was kept. -/
theorem pieces_of_infix (hk : k ≠ []) (ho : opening ∉ k) (hc : closing ∉ k) :
    ∀ {ps : List (Piece α)} {a : List α},
    (∀ w, Piece.found w ∈ ps → Bracketed opening closing k (put w)) →
    ps.flatMap (Piece.out put) = a ++ k ++ b →
      ∃ before after, ps = before ++ k.map .kept ++ after ∧ before.flatMap (Piece.out put) = a ∧
      after.flatMap (Piece.out put) = b := by
  intro ps
  induction ps with
  | nil =>
      intro a _ h
      rw [List.flatMap_nil, eq_comm, List.append_eq_nil_iff, List.append_eq_nil_iff] at h
      exact absurd h.1.2 hk
  | cons piece ps ih =>
      intro a hput h
      have hrest : ∀ w, Piece.found w ∈ ps → Bracketed opening closing k (put w) :=
        fun w hw => hput w (List.mem_cons_of_mem _ hw)
      rw [List.flatMap_cons, List.append_assoc, List.append_eq_append_iff] at h
      rcases h with ⟨a', rfl, htail⟩ | ⟨c, hout, htail⟩
      · -- it begins after this piece
        obtain ⟨before, after, rfl, hbefore, hafter⟩ :=
          ih hrest (htail.trans (List.append_assoc _ _ _).symm)
        exact ⟨piece :: before, after, rfl, by rw [List.flatMap_cons, hbefore], hafter⟩
      · -- it begins in this piece
        cases piece with
        | kept d =>
            cases a with
            | nil =>
                obtain ⟨after, hps, hafter⟩ := @pieces_of_start _ put k b opening ho (.kept d :: ps)
                  (fun w hw => (hput w hw).opens)
                  (by rw [List.flatMap_cons, hout, List.nil_append, htail])
                exact ⟨[], after, by simpa using hps, rfl, hafter⟩
            | cons e a =>
                obtain ⟨rfl, hnil⟩ := List.cons.inj hout
                obtain ⟨rfl, rfl⟩ := List.append_eq_nil_iff.mp hnil.symm
                rw [List.nil_append] at htail
                obtain ⟨after, rfl, hafter⟩ :=
                  pieces_of_start ho (fun w hw => (hrest w hw).opens) htail.symm
                exact ⟨[.kept d], after, rfl, rfl, hafter⟩
        | found w =>
            have hw := hput w List.mem_cons_self
            rw [Piece.out] at hout
            by_cases hnil : c = []
            · subst hnil
              obtain ⟨after, rfl, hafter⟩ :=
                pieces_of_start ho (fun w hw => (hrest w hw).opens) htail.symm
              exact ⟨[.found w], after, rfl, by simp [Piece.out, hout], hafter⟩
            · rcases List.append_eq_append_iff.mp htail with ⟨c', rfl, -⟩ | ⟨k', rfl, -⟩
              · -- it lies in what was put in
                exact absurd ⟨a, c', by rw [hout, List.append_assoc]⟩ hw.apart
              · -- it goes on after what was put in
                have hlast := hw.closes
                rw [hout, List.getLast?_append_of_ne_nil _ hnil] at hlast
                exact absurd (List.mem_append_left _ (List.mem_of_getLast? hlast)) hc

theorem flatMap_source_kept (k : List α) : (k.map Piece.kept).flatMap Piece.source = k := by
  induction k with
  | nil => rfl
  | cons c k ih => rw [List.map_cons, List.flatMap_cons, ih]; rfl

/-- What is found somewhere is found by the pattern. -/
theorem match_of_mem_pieces (hm : Proper m) {prev : Option α} {l w : List α}
    (h : Piece.found w ∈ pieces m prev l) :
    ∃ prev rest, m prev (w ++ rest) = some w.length := by
  obtain ⟨before, after, hps⟩ := List.mem_iff_append.mp h
  obtain ⟨rest, -, hrest⟩ := pieces_append hm prev l hps
  obtain ⟨rest', -, hmatch⟩ := of_pieces_found hm hrest
  exact ⟨_, rest', hmatch⟩

/-- A token that a substitution leaves was a token, at which the pattern found nothing. -/
theorem token_of_sub (hm : Proper m) (hborder : Bordered isLetter m) (hk : k ≠ [])
    (ho : opening ∉ k) (hc : closing ∉ k)
    (hput : ∀ prev w rest, m prev (w ++ rest) = some w.length → Bracketed opening closing k (put w))
    {l : List α} (h : sub m put none l = a ++ k ++ b)
    (ht : TokenAt isLetter opening closing k a.getLast? b.head?) :
    ∃ a' b', l = a' ++ k ++ b' ∧ TokenAt isLetter opening closing k a'.getLast? b'.head? ∧
    m a'.getLast? (k ++ b') = none := by
  have hfoundPut : ∀ w, Piece.found w ∈ pieces m none l → Bracketed opening closing k (put w) :=
    fun w hw => by
      obtain ⟨prev, rest, hmatch⟩ := match_of_mem_pieces hm hw
      exact hput prev w rest hmatch
  obtain ⟨before, after, hps, rfl, rfl⟩ := pieces_of_infix hk ho hc hfoundPut h
  rw [List.append_assoc] at hps
  obtain ⟨rest, hl, hrest⟩ := pieces_append hm none l hps
  obtain ⟨b', rfl, hafter⟩ := pieces_append hm _ rest hrest
  rw [flatMap_source_kept] at hl hrest hafter
  rw [Option.or_none] at hrest
  -- what goes before is as it was
  have hbefore : (before.flatMap (Piece.out put)).getLast?
      = (before.flatMap Piece.source).getLast? := by
    induction before using List.reverseRecOn with
    | nil => rfl
    | append_singleton before piece _ =>
        cases piece with
        | kept c => simp [Piece.out, Piece.source]
        | found w =>
            have hw := hfoundPut w (by rw [hps]; simp)
            rw [List.append_assoc] at hps
            obtain ⟨rest', hl', hrest'⟩ := pieces_append hm none l hps
            obtain ⟨rest'', rfl, hmatch⟩ := of_pieces_found hm hrest'
            have hsame : rest'' = k ++ b' := by
              rw [hl', List.flatMap_append] at hl
              simpa [Piece.source] using hl
            have hhead := hborder.after _ _ _ hmatch
            rw [hsame, List.head?_append_of_ne_nil _ hk] at hhead
            refine absurd ?_ (ht.before_bracket hhead)
            simp [Piece.out, List.getLast?_append, hw.closes]
  -- what comes after is as it was, or begins something found
  have hnext : b'.head?.any isLetter = false ∧
      (k.getLast?.any isLetter = false → b'.head? ≠ some opening) := by
    cases after with
    | nil =>
        rw [eq_nil_of_pieces hm hafter]
        exact ⟨rfl, fun _ => by simp⟩
    | cons piece after =>
        cases piece with
        | kept c =>
            obtain ⟨rest', rfl, -⟩ := of_pieces_kept hm hafter
            exact ⟨ht.after_letter, ht.after_bracket⟩
        | found w =>
            obtain ⟨rest', rfl, hmatch⟩ := of_pieces_found hm hafter
            have hw := hfoundPut w (by rw [hps]; simp)
            have hne : w ≠ [] := fun hnil => absurd (hm.pos _ _ _ hmatch) (by simp [hnil])
            have hopens : ((Piece.found w :: after).flatMap (Piece.out put)).head?
                = some opening := by
              rw [List.flatMap_cons, Piece.out, List.head?_append, hw.opens, Option.some_or]
            have hletter : k.getLast?.any isLetter = true := by
              by_contra hnot
              exact ht.after_bracket (Bool.not_eq_true _ ▸ hnot) hopens
            rcases hborder.before _ _ _ hmatch with hprev | hhead
            · have hlast : k.getLast?.isSome = true := by simpa using hk
              rw [Option.or_of_isSome hlast, hletter] at hprev
              cases hprev
            · rw [List.head?_append_of_ne_nil _ hne]
              exact ⟨hhead, fun hnot => absurd (hletter.symm.trans hnot) (by decide)⟩
  refine ⟨before.flatMap Piece.source, b', by rw [hl, List.append_assoc],
    ⟨?_, hnext.1, ?_, hnext.2⟩, ?_⟩
  · rw [← hbefore]
    exact ht.before_letter
  · rw [← hbefore]
    exact ht.before_bracket
  · obtain ⟨c, k, rfl⟩ := List.exists_cons_of_ne_nil hk
    obtain ⟨rest', hcons, hnone⟩ := of_pieces_kept hm hrest
    rwa [hcons]

end Tokens

/-! ### What may be passed -/

/-- The pattern where what it finds is of a kind. -/
def only (m : Pattern α) (Q : List α → Bool) : Pattern α :=
  fun prev l => (m prev l).filter fun n => Q (l.take n)

theorem proper_only (hm : Proper m) (Q : List α → Bool) : Proper (only m Q) where
  pos prev l n h := hm.pos prev l n (Option.filter_eq_some_iff.mp h).1
  le prev l n h := hm.le prev l n (Option.filter_eq_some_iff.mp h).1

theorem only_append {Q : List α → Bool} {prev : Option α} {w rest : List α} :
    only m Q prev (w ++ rest) = some w.length ↔
    m prev (w ++ rest) = some w.length ∧ Q w = true := by
  rw [only, Option.filter_eq_some_iff, List.take_left]

theorem getLast?_cons_or (c : α) (u : List α) (prev : Option α) :
    (c :: u).getLast?.or prev = u.getLast?.or (some c) := by
  rw [← List.singleton_append, List.getLast?_append, Option.or_assoc]
  rfl

/-- Where nothing is found, nothing changes. -/
theorem sub_append_of_none {w rest : List α} {prev : Option α}
    (h : ∀ u c v, w = u ++ c :: v → m (u.getLast?.or prev) (c :: v ++ rest) = none) :
    sub m put prev (w ++ rest) = w ++ sub m put (w.getLast?.or prev) rest := by
  induction w generalizing prev with
  | nil => rfl
  | cons c w ih =>
      have hrest := @ih (some c) fun u d v hw => by
        rw [← getLast?_cons_or c u prev]
        exact h (c :: u) d v (by rw [hw]; rfl)
      have hnone : m prev (c :: (w ++ rest)) = none := h [] c w rfl
      rw [List.cons_append, sub_of_none hnone, hrest, getLast?_cons_or, List.cons_append]

/-- What is put back as it was, and inside of which nothing else is found, may be passed. -/
theorem sub_only (hm : Proper m) {Q : List α → Bool} (hput : ∀ w, Q w = false → put w = w)
    (hinside : ∀ prev w rest, m prev (w ++ rest) = some w.length → ∀ u c v, w = u ++ c :: v →
      u ≠ [] → m u.getLast? (c :: v ++ rest) = none)
    (prev : Option α) (l : List α) : sub (only m Q) put prev l = sub m put prev l := by
  induction prev, l using scan_induction hm with
  | nil prev => rw [sub_nil, sub_nil]
  | found prev w rest hne hfound ih =>
      rw [sub_of_some hm hfound]
      cases hQ : Q w with
      | true => rw [sub_of_some (proper_only hm Q) (only_append.mpr ⟨hfound, hQ⟩), ih]
      | false =>
          have hnone : ∀ u c v, w = u ++ c :: v →
              only m Q (u.getLast?.or prev) (c :: v ++ rest) = none := by
            rintro u c v rfl
            by_cases hu : u = []
            · subst hu
              rw [List.nil_append] at hfound hQ
              rw [List.getLast?_nil, Option.none_or, only, hfound, Option.filter_some,
                List.take_left, hQ]
              rfl
            · have hlast : u.getLast?.isSome = true := by simpa using hu
              rw [Option.or_of_isSome hlast, only, hinside prev _ rest hfound u c v rfl hu]
              rfl
          have hlast : w.getLast?.isSome = true := by simpa using hne
          rw [sub_append_of_none hnone, Option.or_of_isSome hlast, ih, hput w hQ]
  | kept prev c rest hnone ih => rw [sub_of_none hnone, sub_of_none (by rw [only, hnone]; rfl), ih]

/-! ### Parts of a text -/

/-- A text begins as it did, or with what is put in. -/
theorem head?_sub_of (hm : Proper m) {P : α → Bool}
    (hput : ∀ prev w rest, m prev (w ++ rest) = some w.length →
      put w ≠ [] ∧ (put w).head?.any P = false)
    {x : List α} (hx : x.head?.any P = false) (prev : Option α) :
    (sub m put prev x).head?.any P = false := by
  cases x with
  | nil => rwa [sub_nil]
  | cons c x =>
      cases hfound : m prev (c :: x) with
      | none => rwa [sub_of_none hfound]
      | some n =>
          obtain ⟨w, rest, hcut, -, hmatch⟩ := hm.exists_append hfound
          rw [hcut, sub_of_some hm hmatch, List.head?_append_of_ne_nil _ (hput _ _ _ hmatch).1]
          exact (hput _ _ _ hmatch).2

/-- Where nothing is found first, what stands before does not matter. -/
theorem sub_of_head_none {x : List α} (h : ∀ prev, x ≠ [] → m prev x = none)
    (prev prev' : Option α) : sub m put prev x = sub m put prev' x := by
  cases x with
  | nil => rw [sub_nil, sub_nil]
  | cons c x => rw [sub_of_none (h prev (by simp)), sub_of_none (h prev' (by simp))]

/-- A part that what is found in it does not leave: it is put otherwise by itself, and holds what it
held and what is put in. -/
theorem sub_within (hm : Proper m) {P : α → Prop} {x : List α}
    (hput : ∀ prev w rest, m prev (w ++ rest) = some w.length → put w ≠ [] ∧ ∀ c ∈ put w, P c) :
    ∀ (n : ℕ) {u : List α} (prev : Option α), u.length = n →
      (∀ s, s <:+ u → s ≠ [] → ∀ prev n, m prev (s ++ x) = some n → n ≤ s.length) → (∀ c ∈ u, P c) →
        ∃ u' prev', sub m put prev (u ++ x) = u' ++ sub m put prev' x ∧ (∀ c ∈ u', P c) ∧
        (u ≠ [] → u' ≠ []) := by
  intro n
  induction n using Nat.strong_induction_on with
  | _ n ih =>
      intro u prev hn hwithin hu
      cases u with
      | nil => exact ⟨[], prev, rfl, by simp, id⟩
      | cons c u =>
          cases hfound : m prev (c :: u ++ x) with
          | none =>
              obtain ⟨u', prev', hsub, hP, -⟩ := ih u.length (by rw [← hn]; simp) (some c) rfl
                (fun s hs => hwithin s (hs.trans (List.suffix_cons c u)))
                (fun d hd => hu d (List.mem_cons_of_mem _ hd))
              have hnone : m prev (c :: (u ++ x)) = none := hfound
              refine ⟨c :: u',
                prev', by rw [List.cons_append, sub_of_none hnone, hsub, List.cons_append], ?_,
                nofun⟩
              exact List.forall_mem_cons.mpr ⟨hu c List.mem_cons_self, hP⟩
          | some k =>
              obtain ⟨w, rest, hcut, hne, hmatch⟩ := hm.exists_append hfound
              have hle := hwithin (c :: u) (List.suffix_refl _) (by simp) prev _ (hcut ▸ hmatch)
              obtain ⟨v, hv, rfl⟩ : ∃ v, c :: u = w ++ v ∧ rest = v ++ x := by
                rcases List.append_eq_append_iff.mp hcut with ⟨v, hw, hx⟩ | ⟨v, hu, hrest⟩
                · rw [hw, List.length_append] at hle
                  obtain rfl : v = [] := List.length_eq_zero_iff.mp (by omega)
                  exact ⟨[], by simpa using hw.symm, by simpa using hx.symm⟩
                · exact ⟨v, hu, hrest⟩
              have hless : v.length < n := by
                rw [← hn, hv, List.length_append]
                exact Nat.lt_add_of_pos_left (List.length_pos_iff.mpr hne)
              rw [hv] at hwithin hu ⊢
              obtain ⟨u', prev', hsub, hP, -⟩ := ih v.length hless w.getLast? rfl
                (fun s hs => hwithin s (hs.trans (List.suffix_append w v)))
                (fun d hd => hu d (List.mem_append_right _ hd))
              obtain ⟨hputne, hputP⟩ := hput _ _ _ hmatch
              refine ⟨put w ++ u',
                prev', by rw [List.append_assoc, sub_of_some hm hmatch, hsub, List.append_assoc],
                ?_, fun _ => by simp [hputne]⟩
              exact List.forall_mem_append.mpr ⟨hputP, hP⟩

end Scan
