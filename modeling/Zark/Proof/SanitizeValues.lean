import Zark.Proof.Sanitize

/-!
# Which value stands where does not show

Two texts are alike when they differ only in the serials, GUIDs and by-id values that stand at the
same places. Each pass takes alike texts to alike texts and the last three each do away with the
values of one kind, so what comes out is the same.
-/

namespace Zark.Sanitize

open Scan Text

/-- A run of digits, a run of hexadecimal digits that are not all decimal, and a by-id path. -/
inductive Kind
  | number
  | hex
  | byId
  deriving DecidableEq

/-- No letter of a word, or no character. -/
def wordless (isWord : Char → Bool) (o : Option Char) : Prop := o.any isWord = false

instance (isWord : Char → Bool) (o : Option Char) : Decidable (wordless isWord o) :=
  inferInstanceAs (Decidable (_ = _))

/-- Two texts, after what has gone before in each, that differ only in which values stand at a
place. A value stands between characters that are no words'; a by-id path ends at white space, a
quote or the end, and is `clear` of what is masked by name. -/
inductive Alike (isWord : Char → Bool) (fits : Kind → List Char → Prop)
    (clear : List Char → List Char → Prop) :
    List Char → List Char → List Char → List Char → Prop
  | nil {pre pre' : List Char} : Alike isWord fits clear pre pre' [] []
  | same {pre pre' x y : List Char} (c : Char) : Alike isWord fits clear (pre ++ [c])
      (pre' ++ [c]) x y → Alike isWord fits clear pre pre' (c :: x) (c :: y)
  | value {pre pre' v w x y : List Char} {kind : Kind} : kind ≠ .byId → fits kind v → fits kind w →
      wordless isWord pre.getLast? → wordless isWord pre'.getLast? →
      wordless isWord x.head? → wordless isWord y.head? → Alike isWord fits clear (pre ++ v)
      (pre' ++ w) x y → Alike isWord fits clear pre pre' (v ++ x) (w ++ y)
  | path {pre pre' v w x y : List Char} : fits .byId v → fits .byId w → clear pre (v ++ x) →
      clear pre' (w ++ y) →
      wordless isPathChar x.head? → wordless isPathChar y.head? → Alike isWord fits clear (pre ++ v)
      (pre' ++ w) x y → Alike isWord fits clear pre pre' (v ++ x) (w ++ y)

section Alike

variable {isWord : Char → Bool} {fits fits' : Kind → List Char → Prop}
  {clear clear' : List Char → List Char → Prop} {pre pre' o o' x y u : List Char}

theorem Alike.symm (h : Alike isWord fits clear pre pre' x y) :
    Alike isWord fits clear pre' pre y x := by
  induction h with
  | nil => exact .nil
  | same c _ ih => exact .same c ih
  | value hkind hv hw hpre hpre' hx hy _ ih => exact .value hkind hw hv hpre' hpre hy hx ih
  | path hv hw hx hy hx' hy' _ ih => exact .path hw hv hy hx hy' hx' ih

theorem wordless_append (h : wordless isWord pre.getLast? → wordless isWord o.getLast?)
    (u : List Char) :
    wordless isWord (pre ++ u).getLast? → wordless isWord (o ++ u).getLast? := by
  rw [List.getLast?_append, List.getLast?_append]
  cases u.getLast? with
  | none => exact h
  | some c => exact id

/-- What has gone before matters only by whether a value may begin, and to what a by-id path is
clear of. -/
theorem Alike.context (h : Alike isWord fits clear pre pre' x y)
    (hclear : ∀ a v b, fits .byId v → clear' a (v ++ b)) :
    ∀ {o o' : List Char}, (wordless isWord pre.getLast? → wordless isWord o.getLast?) →
    (wordless isWord pre'.getLast? → wordless isWord o'.getLast?) →
      Alike isWord fits clear' o o' x y := by
  induction h with
  | nil => exact fun _ _ => .nil
  | same c _ ih =>
      exact fun ho ho' => .same c (ih (wordless_append ho [c]) (wordless_append ho' [c]))
  | value hkind hv hw hpre hpre' hx hy _ ih =>
      exact fun ho ho' => .value hkind hv hw (ho hpre) (ho' hpre') hx hy
        (ih (wordless_append ho _) (wordless_append ho' _))
  | path hv hw _ _ hx hy _ ih =>
      exact fun ho ho' => .path hv hw (hclear _ _ _ hv) (hclear _ _ _ hw) hx hy
        (ih (wordless_append ho _) (wordless_append ho' _))

/-- The same characters before what is alike. -/
theorem Alike.append (u : List Char) (h : Alike isWord fits clear (o ++ u) (o' ++ u) x y) :
    Alike isWord fits clear o o' (u ++ x) (u ++ y) := by
  induction u generalizing o o' with
  | nil => simpa using h
  | cons c u ih => exact .same c (ih (by simpa using h))

theorem Alike.eq (h : Alike isWord fits clear pre pre' x y) (hnone : ∀ kind v, ¬ fits kind v) :
    x = y := by
  induction h with
  | nil => rfl
  | same c _ ih => rw [ih]
  | value _ hv => exact absurd hv (hnone _ _)
  | path hv => exact absurd hv (hnone _ _)

end Alike

/-! ### Names, by the first and the third pass -/

section Names

variable {isWord : Char → Bool} {fits : Kind → List Char → Prop}
  {clear : List Char → List Char → Prop} {ns : List (List Char)} {put : List Char → List Char}
  {pre pre' o o' x y t : List Char} {k : List Char}

/-- No name stands as a token across the `/dev/disk/by-id/` that begins after `pre`. -/
def Uncrossed (ns : List (List Char)) (pre rest : List Char) : Prop :=
  ∀ a k b, pre ++ rest = a ++ k ++ b → k ∈ ns →
    a.getLast?.any Char.isAlphanum = false → b.head?.any Char.isAlphanum = false →
    a.length + k.length ≤ pre.length ∨ pre.length + byIdDir.length ≤ a.length

/-- A value is letters and digits, as many as make it long, and is in no name. -/
def ApartFrom (ns : List (List Char)) (v : List Char) : Prop :=
  8 ≤ v.length ∧ (∀ c ∈ v, c.isAlphanum = true) ∧ ∀ k ∈ ns, ¬ v <:+: k

def IsPath (v : List Char) : Prop :=
  ∃ name, v = byIdDir ++ name ∧ name ≠ [] ∧ ∀ c ∈ name, isPathChar c = true

theorem IsPath.head {v : List Char} (h : IsPath v) (rest : List Char) :
    (v ++ rest).head? = some '/' := by
  obtain ⟨name, rfl, -⟩ := h
  rfl

theorem head_alphanum {v : List Char} (h : ApartFrom ns v) (rest : List Char) :
    (v ++ rest).head?.any Char.isAlphanum = true := by
  obtain ⟨hlength, hv, -⟩ := h
  cases v with
  | nil => exact absurd hlength (by decide)
  | cons c v => exact hv c List.mem_cons_self

/-- A name that stands as a token where a text goes on has none of the values in it: it is there in
a text alike. -/
theorem token_alike (hvalue : ∀ kind v, kind ≠ .byId → fits kind v → ApartFrom ns v)
    (hpath : ∀ v, fits .byId v → IsPath v) (hk : k ∈ ns)
    (hpre : pre.getLast?.any Char.isAlphanum = false) (ht : t.head?.any Char.isAlphanum = false) :
    ∀ {k₀ k₁ y : List Char}, k = k₀ ++ k₁ →
    Alike isWord fits (Uncrossed ns) (pre ++ k₀) (pre' ++ k₀) (k₁ ++ t) y →
      ∃ t', y = k₁ ++ t' ∧ t'.head?.any Char.isAlphanum = false ∧
      Alike isWord fits (Uncrossed ns) (pre ++ k) (pre' ++ k) t t' := by
  intro k₀ k₁
  induction k₁ generalizing k₀ with
  | nil =>
      intro y hcut h
      rw [List.append_nil] at hcut
      subst hcut
      refine ⟨y, rfl, ?_, h⟩
      rw [List.nil_append] at h
      cases h with
      | nil => rfl
      | same c _ => exact ht
      | value hkind hv hw =>
          rw [head_alphanum (hvalue _ _ hkind hv)] at ht
          cases ht
      | path hv hw =>
          rw [(hpath _ hw).head]
          decide
  | cons c k₁ ih =>
      intro y hcut h
      rw [List.cons_append] at h
      generalize hx : c :: (k₁ ++ t) = x at h
      cases h with
      | nil => cases hx
      | same d h =>
          obtain ⟨rfl, rfl⟩ := List.cons.inj hx
          obtain ⟨t', rfl, ht', h'⟩ :=
            @ih (k₀ ++ [c]) _ (by rw [hcut, List.append_assoc]; rfl) (by simpa using h)
          exact ⟨t', rfl, ht', h'⟩
      | @value _ _ v w x' y' kind hkind hv =>
          obtain ⟨-, hletters, hnot⟩ := hvalue _ _ hkind hv
          rw [← List.cons_append, List.append_eq_append_iff] at hx
          rcases hx with ⟨v', hv', rfl⟩ | ⟨k', hk', -⟩
          · -- the value goes on after the name
            cases v' with
            | nil => exact absurd ⟨k₀, [], by rw [hcut, hv']; simp⟩ (hnot k hk)
            | cons d v' =>
                rw [List.cons_append, List.head?_cons, Option.any_some,
                  hletters d (by rw [hv']; simp)] at ht
                cases ht
          · -- the name holds the value
            exact absurd ⟨k₀, k', by rw [hcut, hk', List.append_assoc]⟩ (hnot k hk)
      | @path _ _ v w x' y' hv hw hclear =>
          have hwhole : pre ++ k₀ ++ (v ++ x') = pre ++ k ++ t := by
            rw [← hx, hcut]
            simp
          have hbounds := hclear pre k t hwhole hk hpre ht
          rw [hcut] at hbounds
          have hdir : byIdDir.length = 16 := rfl
          simp only [List.length_append, List.length_cons, hdir] at hbounds
          omega

/-- What has gone before both texts is taken alike by a search for names, or does not matter to
it. -/
def Level (ns : List (List Char)) (pre pre' x : List Char) : Prop :=
  pre.getLast?.any Char.isAlphanum = pre'.getLast?.any Char.isAlphanum ∨
    wordless isPathChar x.head? ∧ ∀ k ∈ ns, ∀ c ∈ k, isPathChar c = true

theorem token_none_of_path (hnil : [] ∉ ns) (hns : ∀ k ∈ ns, ∀ c ∈ k, isPathChar c = true)
    (hx : wordless isPathChar x.head?) (prev : Option Char) :
    token ns prev x = none := by
  by_contra hne
  obtain ⟨n, hfound⟩ := Option.ne_none_iff_exists'.mp hne
  obtain ⟨-, name, hname, ⟨t, rfl⟩, -⟩ := token_eq_some hfound
  cases name with
  | nil => exact hnil hname
  | cons c name =>
      rw [wordless, List.cons_append, List.head?_cons, Option.any_some,
        hns _ hname c List.mem_cons_self] at hx
      cases hx

theorem token_level (hnil : [] ∉ ns)
    (hvalue : ∀ kind v, kind ≠ .byId → fits kind v → ApartFrom ns v)
    (hpath : ∀ v, fits .byId v → IsPath v) (h : Alike isWord fits (Uncrossed ns) pre pre' x y)
    (hsame : x.head? = y.head?) (hlevel : Level ns pre pre' x) :
    token ns pre.getLast? x = token ns pre'.getLast? y := by
  rcases hlevel with hlevel | ⟨hx, hns⟩
  · rw [token, token, ← hlevel]
    split
    · rfl
    · rename_i hpre
      rw [Bool.not_eq_true] at hpre
      have hpre' : pre'.getLast?.any Char.isAlphanum = false := hlevel ▸ hpre
      congr 1
      refine List.find?_congr fun k hk => ?_
      rw [Bool.eq_iff_iff, Bool.and_eq_true, Bool.and_eq_true, decide_eq_true_iff,
        decide_eq_true_iff, Bool.not_eq_true', Bool.not_eq_true']
      constructor
      · rintro ⟨⟨t, rfl⟩, ht⟩
        rw [List.drop_left] at ht
        obtain ⟨t', rfl, ht', -⟩ :=
          @token_alike isWord fits ns pre pre' t k hvalue hpath hk hpre ht [] k y rfl
            (by simpa using h)
        exact ⟨List.prefix_append _ _, by rwa [List.drop_left]⟩
      · rintro ⟨⟨t, rfl⟩, ht⟩
        rw [List.drop_left] at ht
        obtain ⟨t', rfl, ht', -⟩ :=
          @token_alike isWord fits ns pre' pre t k hvalue hpath hk hpre' ht [] k x rfl
            (by simpa using h.symm)
        exact ⟨List.prefix_append _ _, by rwa [List.drop_left]⟩
  · rw [token_none_of_path hnil hns hx, token_none_of_path hnil hns (hsame ▸ hx)]

/-- No name is found in a value. -/
theorem sub_value {v : List Char} (hv : ApartFrom ns v) (prev : Option Char) :
    sub (token ns) put prev (v ++ x) = v ++ sub (token ns) put (v.getLast?.or prev) x := by
  obtain ⟨-, hletters, hnot⟩ := hv
  refine sub_append_of_none fun u c s hcut => ?_
  by_contra hne
  obtain ⟨n, hfound⟩ := Option.ne_none_iff_exists'.mp hne
  obtain ⟨hprev, name, hname, hstart, hnext, -⟩ := token_eq_some hfound
  cases u using List.reverseRecOn with
  | append_singleton u d _ =>
      rw [List.getLast?_concat, Option.some_or, Option.any_some,
        hletters d (by rw [hcut]; simp)] at hprev
      cases hprev
  | nil =>
      rw [List.nil_append] at hcut
      rw [← hcut] at hstart hnext
      rcases List.prefix_or_prefix_of_prefix hstart ( List.prefix_append v x) with ⟨rest,
        hinside⟩ | hlong
      · cases rest with
        | nil => exact hnot _ hname ⟨[], [], by simpa using hinside.symm⟩
        | cons d rest =>
            rw [← hinside, List.append_assoc, List.drop_left, List.cons_append, List.head?_cons,
              Option.any_some, hletters d (by rw [← hinside]; simp)] at hnext
            cases hnext
      · exact hnot _ hname (List.IsPrefix.isInfix hlong)

theorem sub_path {v : List Char} (hnil : [] ∉ ns) (hv : IsPath v)
    (hclear : Uncrossed ns pre (v ++ x)) (hx : wordless isPathChar x.head?)
    (hns : ∀ k ∈ ns, ∀ c ∈ k, isPathChar c = true)
    (hput : ∀ k ∈ ns, put k ≠ [] ∧ ∀ c ∈ put k, isPathChar c = true) :
    ∃ name, name ≠ [] ∧ (∀ c ∈ name, isPathChar c = true) ∧
      sub (token ns) put pre.getLast? (v ++ x) = (byIdDir ++ name) ++ sub (token ns) put
        (pre ++ v).getLast? x := by
  obtain ⟨name, rfl, hne, hname⟩ := hv
  have hdir : ∀ u c s, byIdDir = u ++ c :: s →
      token ns (u.getLast?.or pre.getLast?) (c :: s ++ (name ++ x)) = none := by
    intro u c s hcut
    by_contra hsome
    obtain ⟨n, hfound⟩ := Option.ne_none_iff_exists'.mp hsome
    obtain ⟨hprev, k, hk, ⟨b, hb⟩, hnext, -⟩ := token_eq_some hfound
    rw [← hb, List.drop_left] at hnext
    have hbounds :=
      hclear (pre ++ u) k b (by rw [hcut]; simp [hb]) hk (by rwa [List.getLast?_append]) hnext
    have hlength := congrArg List.length hcut
    have hpos : 0 < k.length := List.length_pos_iff.mpr fun h => hnil (h ▸ hk)
    rw [List.length_append, List.length_cons] at hlength
    rw [List.length_append] at hbounds
    omega
  have hwithin : ∀ s, s <:+ name → s ≠ [] → ∀ prev n, token ns prev (s ++ x) = some n →
      n ≤ s.length := by
    intro s _ _ prev n hfound
    obtain ⟨-, k, hk, hstart, -, rfl⟩ := token_eq_some hfound
    by_contra hlong
    obtain ⟨rest, hrest⟩ :=
      List.prefix_of_prefix_length_le ( List.prefix_append s x) hstart (by omega)
    obtain ⟨c, rest, rfl⟩ :=
      List.exists_cons_of_ne_nil (show rest ≠ [] by rintro rfl; simp [← hrest] at hlong)
    rw [← hrest, List.prefix_append_right_inj] at hstart
    obtain ⟨tail, rfl⟩ := hstart
    have hc := hns k hk c (hrest ▸ List.mem_append_right _ List.mem_cons_self)
    rw [wordless, List.cons_append, List.head?_cons, Option.any_some, hc] at hx
    cases hx
  have hputs : ∀ prev w rest, token ns prev (w ++ rest) = some w.length →
      put w ≠ [] ∧ ∀ c ∈ put w, isPathChar c = true :=
    fun _ _ _ hfound => hput _ (token_append hfound).1
  obtain ⟨name', prev', hsub, hname', hne'⟩ :=
    @sub_within _ _ put (proper_token hnil) (isPathChar · = true) x hputs name.length name
      (byIdDir.getLast?.or pre.getLast?) rfl hwithin hname
  refine ⟨name', hne' hne, hname', ?_⟩
  rw [List.append_assoc, sub_append_of_none hdir, hsub, List.append_assoc]
  congr 2
  exact sub_of_head_none (fun prev _ => token_none_of_path hnil hns hx prev) _ _

/-- No value begins at white space or a quote, so what has gone before does not matter there. -/
theorem Alike.context_of_head (h : Alike isWord fits (fun _ _ => True) pre pre' x y)
    (hvalue : ∀ kind v, kind ≠ .byId → fits kind v → ApartFrom ns v)
    (hpath : ∀ v, fits .byId v → IsPath v) (hx : Sanitize.wordless isPathChar x.head?) :
    Alike isWord fits (fun _ _ => True) o o' x y := by
  cases h with
  | nil => exact .nil
  | same c h =>
      refine .same c (h.context (fun _ _ _ _ => trivial) ?_ ?_) <;>
        rw [List.getLast?_concat, List.getLast?_concat] <;> exact id
  | @value _ _ v _ x _ kind hkind hv =>
      have hhead := head_alphanum (hvalue kind v hkind hv) x
      obtain ⟨c, hc⟩ := Option.isSome_iff_exists.mp (Option.isSome_of_any hhead)
      rw [hc, Option.any_some] at hhead
      rw [Sanitize.wordless, hc, Option.any_some, isPathChar_of_isAlphanum hhead] at hx
      cases hx
  | path hv =>
      rw [Sanitize.wordless, (hpath _ hv).head] at hx
      exact absurd hx (by decide)

/-- What a pass for names needs of them and of what it puts in. -/
structure Masking (isWord : Char → Bool) (fits : Kind → List Char → Prop) (ns : List (List Char))
    (put : List Char → List Char) : Prop where
  nil : [] ∉ ns
  value : ∀ kind v, kind ≠ .byId → fits kind v → ApartFrom ns v
  path : ∀ v, fits .byId v → IsPath v ∧ ∀ name, name ≠ [] → (∀ c ∈ name, isPathChar c = true) →
    fits .byId (byIdDir ++ name)
  pathNames : ∀ v, fits .byId v → ∀ k ∈ ns, (∀ c ∈ k, isPathChar c = true) ∧
    ∀ c ∈ put k, isPathChar c = true
  brackets : ∀ k ∈ ns, (put k).head? = some '<' ∧ (put k).getLast? = some '>'
  wordless : isWord '<' = false ∧ isWord '>' = false

theorem Masking.put_ne_nil (hm : Masking isWord fits ns put) (hk : k ∈ ns) : put k ≠ [] :=
  fun hnil => by
    have hhead := (hm.brackets k hk).1
    rw [hnil] at hhead
    cases hhead

theorem alike_named (hm : Masking isWord fits ns put) :
    ∀ (n : ℕ) {x y pre pre' o o' : List Char}, x.length = n →
    Alike isWord fits (Uncrossed ns) pre pre' x y → Level ns pre pre' x →
    (wordless isWord pre.getLast? → wordless isWord o.getLast?) →
      (wordless isWord pre'.getLast? → wordless isWord o'.getLast?) →
        Alike isWord fits (fun _ _ => True) o o' (sub (token ns) put pre.getLast? x)
          (sub (token ns) put pre'.getLast? y) := by
  have hproper : Proper (token ns) := proper_token hm.nil
  have hpath : ∀ v, fits .byId v → IsPath v := fun v hv => (hm.path v hv).1
  have hheads : ∀ (x : List Char) prev, wordless isWord x.head? →
      wordless isWord (sub (token ns) put prev x).head? := fun x prev hx => by
    refine head?_sub_of hproper (fun _ w _ hfound => ?_) hx prev
    have hw := (token_append hfound).1
    rw [(hm.brackets w hw).1]
    exact ⟨hm.put_ne_nil hw, hm.wordless.1⟩
  intro n
  induction n using Nat.strong_induction_on with
  | _ n ih =>
      intro x y pre pre' o o' hn h hlevel ho ho'
      have htokens : x.head? = y.head? → token ns pre.getLast? x = token ns pre'.getLast? y :=
        fun hsame =>
          token_level hm.nil hm.value hpath h hsame hlevel
      cases h with
      | nil =>
          rw [sub_nil, sub_nil]
          exact .nil
      | @same _ _ x y c hrest =>
          have hsame := htokens rfl
          cases hfound : token ns pre.getLast? (c :: x) with
          | none =>
              have htail :=
                @ih x.length (by rw [← hn]; simp) x y (pre ++ [c]) (pre' ++ [c]) (o ++ [c])
                  (o' ++ [c]) rfl hrest (.inl (by simp))
                  (wordless_append ho [c]) (wordless_append ho' [c])
              rw [List.getLast?_concat, List.getLast?_concat] at htail
              rw [sub_of_none hfound, sub_of_none (hsame ▸ hfound)]
              exact .same c htail
          | some k =>
              obtain ⟨hprev, name, hname, ⟨t, ht⟩, hnext, rfl⟩ := token_eq_some hfound
              rw [← ht, List.drop_left] at hnext
              obtain ⟨t', ht', -, hrest'⟩ :=
                @token_alike isWord fits ns pre pre' t name hm.value hpath hname hprev hnext []
                  name (c :: y) rfl
                  (by rw [ht]; simpa using Alike.same c hrest)
              have hne : name ≠ [] := fun hnil => hm.nil (hnil ▸ hname)
              have hlast : wordless isWord (put name).getLast? := by
                rw [(hm.brackets name hname).2]
                exact hm.wordless.2
              have hend : ∀ o : List Char, wordless isWord (o ++ put name).getLast? := fun o => by
                rwa [List.getLast?_append_of_ne_nil _ (hm.put_ne_nil hname)]
              have hless : t.length < n := by
                rw [← hn, ← ht, List.length_append]
                exact Nat.lt_add_of_pos_left (List.length_pos_iff.mpr hne)
              have htail :=
                @ih t.length hless t t' (pre ++ name) (pre' ++ name) (o ++ put name)
                  (o' ++ put name) rfl hrest'
                  (.inl (by rw [List.getLast?_append_of_ne_nil _ hne, List.getLast?_append_of_ne_nil _ hne])) (fun _ => hend o) (fun _ => hend o')
              rw [List.getLast?_append_of_ne_nil _ hne,
                List.getLast?_append_of_ne_nil _ hne] at htail
              rw [← ht] at hfound hsame ⊢
              rw [hfound, ht'] at hsame
              rw [ht', sub_of_some hproper hfound, sub_of_some hproper hsame.symm]
              exact .append (put name) htail
      | @value _ _ v w x y kind hkind hv hw hpre hpre' hx hy hrest =>
          have hlength := (hm.value kind v hkind hv).1
          have hlast : ∀ (pre : List Char) v, fits kind v →
              (pre ++ v).getLast?.any Char.isAlphanum = true := by
            intro pre v hv
            obtain ⟨hlong, hletters, -⟩ := hm.value kind v hkind hv
            have hne : v ≠ [] := fun hnil => by simp [hnil] at hlong
            rw [List.getLast?_append_of_ne_nil _ hne, List.getLast?_eq_some_getLast hne,
              Option.any_some, hletters _ (List.getLast_mem hne)]
          have htail :=
            @ih x.length (by rw [← hn, List.length_append]; omega) x y (pre ++ v) (pre' ++ w)
              (o ++ v) (o' ++ w) rfl hrest
              (.inl (by rw [hlast _ v hv, hlast _ w hw])) (wordless_append ho v)
                (wordless_append ho' w)
          rw [sub_value (hm.value kind v hkind hv), sub_value (hm.value kind w hkind hw),
            ← List.getLast?_append, ← List.getLast?_append]
          exact .value hkind hv hw (ho hpre) (ho' hpre') (hheads _ _ hx) (hheads _ _ hy) htail
      | @path _ _ v w x y hv hw hclear hclear' hx hy hrest =>
          have hns : ∀ k ∈ ns, ∀ c ∈ k, isPathChar c = true :=
            fun k hk => (hm.pathNames v hv k hk).1
          have hputs : ∀ k ∈ ns, put k ≠ [] ∧ ∀ c ∈ put k, isPathChar c = true :=
            fun k hk => ⟨hm.put_ne_nil hk, (hm.pathNames v hv k hk).2⟩
          obtain ⟨name, hne, hname, hsub⟩ :=
            @sub_path ns put pre x v hm.nil (hpath v hv) hclear hx hns hputs
          obtain ⟨name', hne', hname', hsub'⟩ :=
            @sub_path ns put pre' y w hm.nil (hpath w hw) hclear' hy hns hputs
          have hstart : ∀ (x : List Char) prev, wordless isPathChar x.head? →
              wordless isPathChar (sub (token ns) put prev x).head? := by
            intro x prev hx
            cases x with
            | nil => rwa [sub_nil]
            | cons c x => rwa [sub_of_none (token_none_of_path hm.nil hns hx prev)]
          have hfits := (hm.path v hv).2
          have hless : x.length < n := by
            obtain ⟨name, rfl, -⟩ := hpath v hv
            rw [← hn, List.length_append]
            exact Nat.lt_add_of_pos_left (by simp [byIdDir])
          rw [hsub, hsub']
          refine .path (hfits name hne hname) (hfits name' hne' hname') trivial trivial
            (hstart _ _ hx) (hstart _ _ hy) ?_
          exact (@ih x.length hless x y (pre ++ v) (pre' ++ w) (pre ++ v) (pre' ++ w) rfl hrest
            (.inr ⟨hx, hns⟩) id id).context_of_head hm.value hpath (hstart _ _ hx)

end Names

/-! ### By-id paths, by the second pass -/

section Paths

variable {isWord : Char → Bool} {fits : Kind → List Char → Prop}
  {clear : List Char → List Char → Prop} {pre pre' o o' x y : List Char}

theorem byId_ne_none {prev : Option Char} {l : List Char} :
    byId prev l ≠ none ↔ byIdDir <+: l ∧ (l.drop byIdDir.length).head?.any isPathChar = true := by
  rw [byId, ite_ne_right_iff]
  refine (and_iff_left (by simp)).trans (and_congr_right fun _ => ?_)
  cases l.drop byIdDir.length with
  | nil => simp
  | cons c l => by_cases hc : isPathChar c = true <;> simp [hc]

theorem path_chars {v : List Char} (h : IsPath v) : ∀ c ∈ v, isPathChar c = true := by
  obtain ⟨name, rfl, -, hname⟩ := h
  exact List.forall_mem_append.mpr ⟨dir_path, hname⟩

theorem value_chars {ns : List (List Char)} {v : List Char} (h : ApartFrom ns v) :
    ∀ c ∈ v, isPathChar c = true := fun c hc => isPathChar_of_isAlphanum (h.2.1 c hc)

theorem dir_alike (hvalue : ∀ kind v, kind ≠ .byId → fits kind v → ApartFrom [] v)
    (hpath : ∀ v, fits .byId v → IsPath v) :
    ∀ {Q x y pre pre' : List Char}, Q <:+ byIdDir → Alike isWord fits clear pre pre' x y → Q <+: x →
    (x.drop Q.length).head?.any isPathChar = true →
      Q <+: y ∧ (y.drop Q.length).head?.any isPathChar = true := by
  intro Q
  induction Q with
  | nil =>
      intro x y pre pre' _ h _ hhead
      refine ⟨List.nil_prefix, ?_⟩
      rw [List.length_nil, List.drop_zero] at hhead ⊢
      cases h with
      | nil => exact hhead
      | same c _ => exact hhead
      | @value _ _ v w x y kind hkind hv hw =>
          have hlong := (hvalue kind w hkind hw).1
          have hchars := value_chars (hvalue kind w hkind hw)
          cases w with
          | nil => exact absurd hlong (by decide)
          | cons c w => exact hchars c List.mem_cons_self
      | path hv hw =>
          rw [(hpath _ hw).head]
          decide
  | cons d Q ih =>
      intro x y pre pre' hQ h hstart hhead
      cases h with
      | nil => exact absurd (List.prefix_nil.mp hstart) (by simp)
      | same c h =>
          obtain ⟨rfl, hrest⟩ := List.cons_prefix_cons.mp hstart
          obtain ⟨hstart', hhead'⟩ := ih ((List.suffix_cons d Q).trans hQ) h hrest hhead
          exact ⟨List.cons_prefix_cons.mpr ⟨rfl, hstart'⟩, hhead'⟩
      | @value _ _ v w x y kind hkind hv =>
          -- in the directory no eight characters are letters and digits alone
          obtain ⟨hlong, hletters, -⟩ := hvalue kind v hkind hv
          have hmarks : ∀ Q ∈ byIdDir.tails, Q ≠ [] →
              (Q.take 8).any (fun c => !c.isAlphanum) = true := by decide
          obtain ⟨c, hc, hmark⟩ :=
            List.any_eq_true.mp (hmarks (d :: Q) ((List.mem_tails _ _).mpr hQ) (by simp))
          have htake := List.IsPrefix.subset (hstart.take 8) hc
          rw [List.take_append_of_le_length hlong] at htake
          rw [hletters c (List.mem_of_mem_take htake)] at hmark
          exact absurd hmark (by decide)
      | @path _ _ v w x y hv hw =>
          have hwchars := path_chars (hpath w hw)
          obtain ⟨name, rfl, -⟩ := hpath v hv
          obtain ⟨name', rfl, hne, -⟩ := hpath w hw
          have hle := hQ.length_le
          have hdir : d :: Q <+: byIdDir :=
            List.prefix_of_prefix_length_le hstart
              (by rw [List.append_assoc]; exact List.prefix_append _ _) hle
          have hless : (d :: Q).length < (byIdDir ++ name').length := by
            rw [List.length_append]
            exact Nat.lt_of_le_of_lt hle (Nat.lt_add_of_pos_right (List.length_pos_iff.mpr hne))
          refine ⟨by rw [List.append_assoc]; exact hdir.trans ( List.prefix_append _ _), ?_⟩
          rw [List.drop_append_of_le_length hless.le, List.drop_eq_getElem_cons hless]
          exact hwchars _ (List.getElem_mem hless)

theorem dropWhile_alike (hvalue : ∀ kind v, kind ≠ .byId → fits kind v → ApartFrom [] v)
    (hpath : ∀ v, fits .byId v → IsPath v) (h : Alike isWord fits clear pre pre' x y) :
    Alike isWord fits clear (pre ++ x.takeWhile isPathChar) (pre' ++ y.takeWhile isPathChar)
      (x.dropWhile isPathChar) (y.dropWhile isPathChar) := by
  induction h with
  | nil => exact .nil
  | @same pre pre' x y c h ih =>
      by_cases hc : isPathChar c = true
      · rw [List.takeWhile_cons_of_pos hc, List.takeWhile_cons_of_pos hc,
          List.dropWhile_cons_of_pos hc, List.dropWhile_cons_of_pos hc]
        simpa using ih
      · rw [List.takeWhile_cons_of_neg hc, List.takeWhile_cons_of_neg hc,
          List.dropWhile_cons_of_neg hc, List.dropWhile_cons_of_neg hc]
        simpa using Alike.same c h
  | value hkind hv hw _ _ _ _ _ ih =>
      have hvchars := value_chars (hvalue _ _ hkind hv)
      have hwchars := value_chars (hvalue _ _ hkind hw)
      rw [List.takeWhile_append_of_pos hvchars, List.takeWhile_append_of_pos hwchars,
        List.dropWhile_append_of_pos hvchars, List.dropWhile_append_of_pos hwchars,
        ← List.append_assoc, ← List.append_assoc]
      exact ih
  | path hv hw _ _ _ _ _ ih =>
      have hvchars := path_chars (hpath _ hv)
      have hwchars := path_chars (hpath _ hw)
      rw [List.takeWhile_append_of_pos hvchars, List.takeWhile_append_of_pos hwchars,
        List.dropWhile_append_of_pos hvchars, List.dropWhile_append_of_pos hwchars,
        ← List.append_assoc, ← List.append_assoc]
      exact ih

theorem byId_takeWhile {prev : Option Char} {l : List Char} (h : byId prev l ≠ none) :
    byId prev (l.takeWhile isPathChar ++ l.dropWhile isPathChar)
      = some (l.takeWhile isPathChar).length := by
  obtain ⟨n, hfound⟩ := Option.ne_none_iff_exists'.mp h
  rw [List.takeWhile_append_dropWhile, hfound, (byId_eq_some hfound).2.2]

/-- A kind of values less. -/
def without (kind : Kind) (fits : Kind → List Char → Prop) : Kind → List Char → Prop :=
  fun other v => other ≠ kind ∧ fits other v

/-- The second pass takes texts alike to texts alike without by-id values. -/
theorem alike_pathless (hvalue : ∀ kind v, kind ≠ .byId → fits kind v → ApartFrom [] v)
    (hpath : ∀ v, fits .byId v → IsPath v) (hwordless : isWord '<' = false ∧ isWord '>' = false) :
    ∀ (n : ℕ) {x y pre pre' o o' : List Char} (prev prev' : Option Char), x.length = n →
      Alike isWord fits clear pre pre' x y →
      (wordless isWord pre.getLast? → wordless isWord o.getLast?) →
      (wordless isWord pre'.getLast? → wordless isWord o'.getLast?) →
        Alike isWord (without .byId fits) (fun _ _ => True) o o'
          (sub byId (fun _ => byIdShown) prev x) (sub byId (fun _ => byIdShown) prev' y) := by
  have hheads : ∀ (x : List Char) prev, wordless isWord x.head? →
      wordless isWord (sub byId (fun _ => byIdShown) prev x).head? := fun x prev hx =>
    @head?_sub_of _ _ (fun _ => byIdShown) proper_byId isWord
      (fun _ _ _ _ => ⟨by decide, hwordless.1⟩) x hx prev
  intro n
  induction n using Nat.strong_induction_on with
  | _ n ih =>
      intro x y pre pre' o o' prev prev' hn h ho ho'
      by_cases hfound : byId prev x = none
      · have hfound' : byId prev' y = none := by
          by_contra hsome
          obtain ⟨hstart, hhead⟩ := byId_ne_none.mp hsome
          exact byId_ne_none.mpr (dir_alike hvalue hpath (List.suffix_refl _) h.symm
            hstart hhead) hfound
        cases h with
        | nil =>
            rw [sub_nil, sub_nil]
            exact .nil
        | @same _ _ x y c h =>
            rw [sub_of_none hfound, sub_of_none hfound']
            exact .same c (ih x.length (by rw [← hn]; simp) _ _ rfl h (wordless_append ho [c])
              (wordless_append ho' [c]))
        | @value _ _ v w x y kind hkind hv hw hpre hpre' hx hy h =>
            have hnone : ∀ (v x : List Char), ApartFrom [] v → ∀ prev u c s, v = u ++ c :: s →
                byId (u.getLast?.or prev) (c :: s ++ x) = none := by
              rintro v x ⟨-, hletters, -⟩ prev u c s rfl
              by_contra hsome
              obtain ⟨⟨tail, htail⟩, -⟩ := byId_ne_none.mp hsome
              obtain ⟨rfl, -⟩ := List.cons.inj htail
              exact absurd (hletters '/' (by simp)) (by decide)
            have hlong := (hvalue kind v hkind hv).1
            rw [sub_append_of_none (hnone v x (hvalue kind v hkind hv) prev),
              sub_append_of_none (hnone w y (hvalue kind w hkind hw) prev')]
            exact .value hkind ⟨hkind, hv⟩ ⟨hkind, hw⟩ (ho hpre) (ho' hpre') (hheads _ _ hx)
              (hheads _ _ hy)
              (ih x.length (by rw [← hn, List.length_append]; omega) _ _ rfl h
                (wordless_append ho v) (wordless_append ho' w))
        | @path _ _ v w x y hv =>
            obtain ⟨name, rfl, hne, hname⟩ := hpath v hv
            refine absurd hfound (byId_ne_none.mpr
              ⟨by rw [List.append_assoc]; exact List.prefix_append _ _, ?_⟩)
            obtain ⟨c, name, rfl⟩ := List.exists_cons_of_ne_nil hne
            rw [List.append_assoc, List.drop_left]
            exact hname c List.mem_cons_self
      · have hfound' : byId prev' y ≠ none := by
          obtain ⟨hstart, hhead⟩ := byId_ne_none.mp hfound
          exact byId_ne_none.mpr (dir_alike hvalue hpath (List.suffix_refl _) h hstart hhead)
        have hpos := proper_byId.pos _ _ _ (byId_takeWhile hfound)
        have hless : (x.dropWhile isPathChar).length < n := by
          have hlength :=
            congrArg List.length (List.takeWhile_append_dropWhile (p := isPathChar) (l := x))
          rw [List.length_append] at hlength
          omega
        have hend : ∀ o : List Char, wordless isWord (o ++ byIdShown).getLast? := fun o => by
          rw [List.getLast?_append_of_ne_nil _ (by decide)]
          exact hwordless.2
        rw [← List.takeWhile_append_dropWhile (p := isPathChar) (l := x),
          ← List.takeWhile_append_dropWhile (p := isPathChar) (l := y), sub_of_some proper_byId
            (byId_takeWhile hfound), sub_of_some proper_byId (byId_takeWhile hfound')]
        exact .append byIdShown (ih _ hless _ _ rfl (dropWhile_alike hvalue hpath h)
          (fun _ => hend o) (fun _ => hend o'))

/-! ### Long runs, by the last two passes -/

/-- Past what is of a kind of letters, texts alike that hold no by-id path are the same and stay
alike. -/
theorem run_alike {isOf : Char → Bool} (hletters : ∀ c, isOf c = true → isWord c = true)
    (hnone : ∀ v, ¬ fits .byId v) (h : Alike isWord fits clear pre pre' x y)
    (hpre : pre.getLast?.any isWord = true) :
    ∃ w s t, x = w ++ s ∧ y = w ++ t ∧ (∀ c ∈ w, isOf c = true) ∧ s.head?.any isOf = false ∧
    s.head? = t.head? ∧
      Alike isWord fits clear (pre ++ w) (pre' ++ w) s t := by
  induction h with
  | nil => exact ⟨[], [], [], rfl, rfl, by simp, rfl, rfl, .nil⟩
  | @same pre pre' x y c h ih =>
      by_cases hc : isOf c = true
      · obtain ⟨w, s, t, rfl, rfl, hw, hs, hst, hrest⟩ :=
          ih (by rw [List.getLast?_concat]; exact hletters c hc)
        exact ⟨c :: w, s, t, rfl, rfl, List.forall_mem_cons.mpr ⟨hc, hw⟩, hs,
          hst, by simpa using hrest⟩
      · exact ⟨[], c :: x, c :: y, rfl, rfl, by simp, by simpa using hc,
          rfl, by simpa using Alike.same c h⟩
  | value _ _ _ hwordless =>
      rw [wordless, hpre] at hwordless
      cases hwordless
  | path hv => exact absurd hv (hnone _)

/-- Whether a run is long enough and ends a word does not depend on what comes after the next
character. -/
theorem run_congr {isOf : Char → Bool} {least : ℕ} {w s t : List Char} (hw : ∀ c ∈ w, isOf c = true)
    (hs : s.head?.any isOf = false) (hst : s.head? = t.head?) :
    run isWord isOf least (w ++ s) = run isWord isOf least (w ++ t) ∧
    ∀ n, run isWord isOf least (w ++ s) = some n → w.length = n := by
  have hx := takeWhile_run hw hs
  have hy := takeWhile_run hw (hst ▸ hs)
  constructor
  · rw [run, run, hx, hy, List.drop_left, List.drop_left, hst]
  · intro n hn
    rw [(run_eq_some hn).1, hx]

theorem run_same {isOf : Char → Bool} {least : ℕ} (hleast : 0 < least)
    (hletters : ∀ c, isOf c = true → isWord c = true) (hnone : ∀ v, ¬ fits .byId v)
    (h : Alike isWord fits clear pre pre' x y)
    (hstart : pre.getLast?.any isWord = true ∨ ∃ c x' y', x = c :: x' ∧ y = c :: y' ∧
      Alike isWord fits clear (pre ++ [c]) (pre' ++ [c]) x' y') :
      run isWord isOf least x = run isWord isOf least y ∧
      ∀ n, run isWord isOf least x = some n → ∃ w s t, w.length = n ∧ x = w ++ s ∧ y = w ++ t ∧
      Alike isWord fits clear (pre ++ w) (pre' ++ w) s t := by
  rcases hstart with hpre | ⟨c, x, y, rfl, rfl, h'⟩
  · obtain ⟨w, s, t, rfl, rfl, hw, hs, hst, hrest⟩ := run_alike hletters hnone h hpre
    obtain ⟨hsame, hlength⟩ := @run_congr isWord isOf least w s t hw hs hst
    exact ⟨hsame, fun n hn => ⟨w, s, t, hlength n hn, rfl, rfl, hrest⟩⟩
  · by_cases hc : isOf c = true
    · obtain ⟨w, s, t, rfl, rfl, hw, hs, hst, hrest⟩ :=
        run_alike hletters hnone h' (by rw [List.getLast?_concat]; exact hletters c hc)
      obtain ⟨hsame, hlength⟩ :=
        @run_congr isWord isOf least (c :: w) s t (List.forall_mem_cons.mpr ⟨hc, hw⟩) hs hst
      exact ⟨hsame, fun n hn => ⟨c :: w, s, t, hlength n hn, rfl, rfl, by simpa using hrest⟩⟩
    · have hshort : ∀ x, run isWord isOf least (c :: x) = none := fun x => by
        rw [run, List.takeWhile_cons_of_neg hc, if_neg]
        exact fun hfits => absurd hfits.1 (by simpa using hleast.ne')
      rw [hshort, hshort]
      exact ⟨rfl, by simp⟩

/-- What a pass for long runs needs of its pattern: it finds the values of a kind, no others, and
the same where texts alike go on with the same character. -/
structure RunPattern (isWord : Char → Bool) (fits : Kind → List Char → Prop) (kind : Kind)
    (m : Pattern Char) : Prop where
  proper : Proper m
  word : ∀ prev l, prev.any isWord = true → m prev l = none
  value : ∀ other v x prev, fits other v → wordless isWord x.head? → wordless isWord prev →
    m prev (v ++ x) = if other = kind then some v.length else none
  same : ∀ {c : Char} {x y pre pre' : List Char} {clear : List Char → List Char → Prop} {prev prev' : Option Char},
    Alike isWord fits clear (pre ++ [c]) (pre' ++ [c]) x y → prev.any isWord = prev'.any isWord →
      m prev (c :: x) = m prev' (c :: y) ∧
      ∀ n, m prev (c :: x) = some n → ∃ w s t, w.length = n ∧ c :: x = w ++ s ∧ c :: y = w ++ t ∧
      Alike isWord fits clear (pre ++ w) (pre' ++ w) s t

/-- A pass for long runs takes texts alike to texts alike without the values of its kind. -/
theorem alike_run {kind : Kind} {m : Pattern Char} {put : List Char → List Char} {shown : List Char}
    (hr : RunPattern isWord fits kind m)
    (hvalue : ∀ kind v, fits kind v → v ≠ [] ∧ ∀ c ∈ v, isWord c = true)
    (hnone : ∀ v, ¬ fits .byId v)
    (hput : ∀ prev w rest, m prev (w ++ rest) = some w.length → put w = shown)
    (hshown : shown.head?.any isWord = false ∧ shown ≠ [] ∧ wordless isWord shown.getLast?) :
    ∀ (n : ℕ) {x y pre pre' o o' : List Char}, x.length = n → Alike isWord fits clear pre pre' x y →
    pre.getLast?.any isWord = pre'.getLast?.any isWord →
      (wordless isWord pre.getLast? → wordless isWord o.getLast?) →
      (wordless isWord pre'.getLast? → wordless isWord o'.getLast?) →
        Alike isWord (without kind fits) (fun _ _ => True) o o' (sub m put pre.getLast? x)
          (sub m put pre'.getLast? y) := by
  have hheads : ∀ (x : List Char) prev, wordless isWord x.head? →
      wordless isWord (sub m put prev x).head? := fun x prev hx =>
    head?_sub_of hr.proper
      (fun _ w _ hfound => by rw [hput _ _ _ hfound]; exact ⟨hshown.2.1, hshown.1⟩) hx prev
  have hend : ∀ o : List Char, wordless isWord (o ++ shown).getLast? := fun o => by
    rw [List.getLast?_append_of_ne_nil _ hshown.2.1]
    exact hshown.2.2
  have hlast : ∀ (pre v : List Char) kind, fits kind v → (pre ++ v).getLast?.any isWord = true :=
    fun pre v kind hv => by
      obtain ⟨hne, hword⟩ := hvalue kind v hv
      rw [List.getLast?_append_of_ne_nil _ hne, List.getLast?_eq_some_getLast hne, Option.any_some,
        hword _ (List.getLast_mem hne)]
  intro n
  induction n using Nat.strong_induction_on with
  | _ n ih =>
      intro x y pre pre' o o' hn h hlevel ho ho'
      cases h with
      | nil =>
          rw [sub_nil, sub_nil]
          exact .nil
      | @same _ _ x y c h =>
          obtain ⟨hsame, hfound⟩ := hr.same h hlevel
          cases hm : m pre.getLast? (c :: x) with
          | none =>
              have htail :=
                @ih x.length (by rw [← hn]; simp) x y (pre ++ [c]) (pre' ++ [c]) (o ++ [c])
                  (o' ++ [c]) rfl h (by simp)
                  (wordless_append ho [c]) (wordless_append ho' [c])
              rw [List.getLast?_concat, List.getLast?_concat] at htail
              rw [sub_of_none hm, sub_of_none (hsame ▸ hm)]
              exact .same c htail
          | some k =>
              obtain ⟨w, s, t, rfl, hx, hy, hrest⟩ := hfound k hm
              rw [hm] at hsame
              rw [hx] at hm hn ⊢
              rw [hy] at hsame ⊢
              have hne : w ≠ [] := fun hnil => absurd (hr.proper.pos _ _ _ hm) (by simp [hnil])
              have hless : s.length < n := by
                rw [← hn, List.length_append]
                exact Nat.lt_add_of_pos_left (List.length_pos_iff.mpr hne)
              have htail :=
                @ih s.length hless s t (pre ++ w) (pre' ++ w) (o ++ shown) (o' ++ shown) rfl hrest
                  (by rw [List.getLast?_append_of_ne_nil _ hne, List.getLast?_append_of_ne_nil _ hne]) (fun _ => hend o) (fun _ => hend o')
              rw [List.getLast?_append_of_ne_nil _ hne,
                List.getLast?_append_of_ne_nil _ hne] at htail
              rw [sub_of_some hr.proper hm, sub_of_some hr.proper hsame.symm, hput _ _ _ hm]
              exact .append shown htail
      | @value _ _ v w x y other hother hv hw hpre hpre' hx hy h =>
          have hmatch := hr.value other v x _ hv hx hpre
          have hmatch' := hr.value other w y _ hw hy hpre'
          have hne := (hvalue other v hv).1
          have hne' := (hvalue other w hw).1
          have hless : x.length < n := by
            rw [← hn, List.length_append]
            exact Nat.lt_add_of_pos_left (List.length_pos_iff.mpr hne)
          have hlevel' : (pre ++ v).getLast?.any isWord = (pre' ++ w).getLast?.any isWord := by
            rw [hlast _ _ _ hv, hlast _ _ _ hw]
          by_cases hkind : other = kind
          · have htail :=
              @ih x.length hless x y (pre ++ v) (pre' ++ w) (o ++ shown) (o' ++ shown) rfl h hlevel'
                (fun _ => hend o) (fun _ => hend o')
            rw [List.getLast?_append_of_ne_nil _ hne,
              List.getLast?_append_of_ne_nil _ hne'] at htail
            rw [if_pos hkind] at hmatch hmatch'
            rw [sub_of_some hr.proper hmatch, sub_of_some hr.proper hmatch', hput _ _ _ hmatch,
              hput _ _ _ hmatch']
            exact .append shown htail
          · have hpass : ∀ (pre v x : List Char), fits other v → m pre.getLast? (v ++ x) = none →
                ∀ u c s, v = u ++ c :: s → m (u.getLast?.or pre.getLast?) (c :: s ++ x) = none := by
              intro pre v x hv hmatch u c s hcut
              cases u using List.reverseRecOn with
              | nil =>
                  rw [hcut] at hmatch
                  exact hmatch
              | append_singleton u d _ =>
                  refine hr.word _ _ ?_
                  rw [List.getLast?_concat, Option.some_or]
                  exact (hvalue other v hv).2 d (by rw [hcut]; simp)
            rw [if_neg hkind] at hmatch hmatch'
            rw [sub_append_of_none (hpass pre v x hv hmatch), sub_append_of_none
              (hpass pre' w y hw hmatch'), ← List.getLast?_append, ← List.getLast?_append]
            exact .value hother ⟨hkind, hv⟩ ⟨hkind, hw⟩ (ho hpre) (ho' hpre') (hheads _ _ hx)
              (hheads _ _ hy)
              (ih x.length hless rfl h hlevel' (wordless_append ho v) (wordless_append ho' w))
      | path hv => exact absurd hv (hnone _)

end Paths

section Values

variable (chars : CharClasses) {masks : Masks} {host text other : List Char}

/-- The values two texts may differ in: serials and GUIDs that are part of no name, and by-id paths
where neither names nor what is shown for them holds white space or a quote. -/
def Fits (masks : Masks) (host : List Char) : Kind → List Char → Prop
  | .number, v =>
      (8 ≤ v.length ∧ ∀ c ∈ v, c.isDigit = true) ∧ ∀ k, IsSecret masks host k → ¬ v <:+: k
  | .hex, v =>
      (12 ≤ v.length ∧ (∀ c ∈ v, isHex c = true) ∧ lettered v = true) ∧
        ∀ k, IsSecret masks host k → ¬ v <:+: k
  | .byId, v =>
      IsPath v ∧ ∀ mask ∈ masks, mask.name ≠ [] → (∀ c ∈ mask.name, isPathChar c = true) ∧
        ∀ c ∈ mask.shown, isPathChar c = true

/-- Two texts that differ only in which serial, GUID or by-id value stands at each place. -/
def DifferInValues (masks : Masks) (host text other : List Char) : Prop :=
  Alike chars.isWord (Fits masks host) (Uncrossed (names masks)) [] [] text other

theorem isHex_of_isDigit {c : Char} (h : c.isDigit = true) : isHex c = true := by
  rw [isHex, h, Bool.true_or]

theorem fits_hex {kind : Kind} {v : List Char} (hkind : kind ≠ .byId) (h : Fits masks host kind v) :
    8 ≤ v.length ∧ (∀ c ∈ v, isHex c = true) ∧ ∀ k, IsSecret masks host k → ¬ v <:+: k := by
  cases kind with
  | number => exact ⟨h.1.1, fun c hc => isHex_of_isDigit (h.1.2 c hc), h.2⟩
  | hex => exact ⟨by have := h.1.1; omega, h.1.2.1, h.2⟩
  | byId => exact absurd rfl hkind

theorem apartFrom_of_fits {ns : List (List Char)} (hns : ∀ k ∈ ns, IsSecret masks host k)
    {kind : Kind} {v : List Char} (hkind : kind ≠ .byId) (h : Fits masks host kind v) :
    ApartFrom ns v := by
  obtain ⟨hlong, hhex, hnot⟩ := fits_hex hkind h
  exact ⟨hlong, fun c hc => isAlphanum_of_isHex (hhex c hc), fun k hk => hnot k (hns k hk)⟩

theorem brackets_wordless : chars.isWord '<' = false ∧ chars.isWord '>' = false := by
  rw [chars.ascii '<' (by decide), chars.ascii '>' (by decide)]
  decide

theorem masking_masks (h : WellMasked masks host) :
    Masking chars.isWord (Fits masks host) (names masks) (shown masks) where
  nil hnil := (mem_names.mp hnil).2 rfl
  value kind v hkind hv := apartFrom_of_fits (fun k hk => .inl hk) hkind hv
  path v hv := ⟨hv.1, fun name hne hname => ⟨⟨name, rfl, hne, hname⟩, hv.2⟩⟩
  pathNames v hv k hk := by
    obtain ⟨hkey, hne⟩ := mem_names.mp hk
    obtain ⟨mask, hmask, rfl⟩ := Keyed.mem_keys.mp hkey
    rw [shown_of_mem hmask]
    exact hv.2 mask hmask hne
  brackets k hk := by
    obtain ⟨hkey, hne⟩ := mem_names.mp hk
    obtain ⟨mask, hmask, rfl⟩ := Keyed.mem_keys.mp hkey
    rw [shown_of_mem hmask]
    exact h.bracketed mask hmask hne
  wordless := brackets_wordless chars

theorem masking_host (h : WellMasked masks host) :
    Masking chars.isWord (without .byId (Fits masks host)) [host] fun _ => hostShown where
  nil hnil := secret_ne_nil h (.inr rfl) (List.mem_singleton.mp hnil).symm
  value _ _ hkind hv := apartFrom_of_fits (fun _ hk => .inr (List.mem_singleton.mp hk)) hkind hv.2
  path _ hv := absurd rfl hv.1
  pathNames _ hv := absurd rfl hv.1
  brackets _ _ := ⟨rfl, rfl⟩
  wordless := brackets_wordless chars

theorem marked_alike {isWord : Char → Bool} {fits : Kind → List Char → Prop}
    {clear : List Char → List Char → Prop} {pre pre' x y : List Char} (hword : isWord '0' = true)
    (hnone : ∀ v, ¬ fits .byId v)
    (h : Alike isWord fits clear (pre ++ ['0']) (pre' ++ ['0']) ('x' :: x) y) :
    ∃ y', y = 'x' :: y' ∧ Alike isWord fits clear (pre ++ ['0', 'x'])
      (pre' ++ ['0', 'x']) x y' := by
  generalize htext : 'x' :: x = text at h
  cases h with
  | nil => cases htext
  | @same _ _ _ y' c h =>
      obtain ⟨rfl, rfl⟩ := List.cons.inj htext
      exact ⟨y', rfl, by simpa using h⟩
  | value _ _ _ hpre =>
      rw [wordless, List.getLast?_concat, Option.any_some, hword] at hpre
      cases hpre
  | path hv => exact absurd hv (hnone _)

theorem longHex_same {fits : Kind → List Char → Prop} {clear : List Char → List Char → Prop}
    {pre pre' x y : List Char} {c : Char} {prev prev' : Option Char} (hnone : ∀ v, ¬ fits .byId v)
    (h : Alike chars.isWord fits clear (pre ++ [c]) (pre' ++ [c]) x y)
    (hlevel : prev.any chars.isWord = prev'.any chars.isWord) :
    longHex chars prev (c :: x) = longHex chars prev' (c :: y) ∧
    ∀ n, longHex chars prev (c :: x) = some n → ∃ w s t, w.length = n ∧ c :: x = w ++ s ∧
      c :: y = w ++ t ∧ Alike chars.isWord fits clear (pre ++ w) (pre' ++ w) s t := by
  have hzero : chars.isWord '0' = true := isWord_of_isAlphanum chars (by decide)
  have hhex : ∀ c, isHex c = true → chars.isWord c = true := fun _ => isWord_of_isHex chars
  have hplain :=
    @run_same _ _ _ _ _ _ _ isHex 12 (by decide) hhex hnone (.same c h)
      (.inr ⟨c, x, y, rfl, rfl, h⟩)
  rw [longHex, longHex, ← hlevel]
  split
  · exact ⟨rfl, by simp⟩
  · by_cases hmark : ['0', 'x'] <+: c :: x
    · obtain ⟨x', hx⟩ := hmark
      obtain ⟨rfl, htail⟩ := List.cons.inj hx
      obtain rfl : x = 'x' :: x' := htail.symm
      obtain ⟨y', rfl, h'⟩ := marked_alike hzero hnone h
      have hx : chars.isWord 'x' = true := isWord_of_isAlphanum chars (by decide)
      obtain ⟨hsame, hfound⟩ :=
        @run_same _ _ _ _ _ _ _ isHex 12 (by decide) hhex hnone h' (.inl (by simpa using hx))
      rw [if_pos ⟨x', rfl⟩, if_pos ⟨y', rfl⟩]
      refine ⟨?_, fun n hn => ?_⟩
      · rw [hplain.1]
        congr 2
      · rcases Option.or_eq_some_iff.mp hn with hmarked | ⟨-, hplain'⟩
        · obtain ⟨m, hrun, rfl⟩ := Option.map_eq_some_iff.mp hmarked
          obtain ⟨w, s, t, hw, hxs, hyt, hrest⟩ := hfound m hrun
          refine ⟨'0' :: 'x' :: w, s, t,
            ?_, by rw [hxs]; rfl, by rw [hyt]; rfl, by simpa using hrest⟩
          rw [List.length_cons, List.length_cons, hw]
          omega
        · exact hplain.2 n hplain'
    · have hmark' : ¬ ['0', 'x'] <+: c :: y := by
        rintro ⟨y', hy⟩
        obtain ⟨rfl, htail⟩ := List.cons.inj hy
        obtain rfl : y = 'x' :: y' := htail.symm
        obtain ⟨x', rfl, -⟩ := marked_alike hzero hnone h.symm
        exact hmark ⟨x', rfl⟩
      rw [if_neg hmark, if_neg hmark']
      exact hplain

theorem runPattern_hex : RunPattern chars.isWord (without .byId (Fits masks host)) .hex
      (only (longHex chars) lettered) where
  proper := proper_only (proper_longHex chars) lettered
  word prev l hprev := by rw [only, longHex, if_pos hprev]; rfl
  value other v x prev hv hx hprev := by
    obtain ⟨hlong, hhex, -⟩ := fits_hex hv.1 hv.2
    rw [only, longHex_append chars (by omega) hhex hprev hx]
    cases other with
    | hex =>
        obtain ⟨⟨hlong, -, hlettered⟩, -⟩ := hv.2
        rw [if_pos hlong, if_pos rfl, Option.filter_some, List.take_left, if_pos hlettered]
    | number =>
        have hdigits : lettered v = false := by
          rw [lettered, Bool.not_eq_false', List.all_eq_true]
          exact hv.2.1.2
        rw [if_neg (show ¬ Kind.number = Kind.hex by decide)]
        split
        · rw [Option.filter_some, List.take_left, if_neg (by simp [hdigits])]
        · rfl
    | byId => exact absurd rfl hv.1
  same := by
    intro c x y pre pre' clear prev prev' h hlevel
    obtain ⟨hsame, hfound⟩ := longHex_same chars (fun v hv => hv.1 rfl) h hlevel
    rw [only, only, ← hsame]
    cases hlong : longHex chars prev (c :: x) with
    | none => exact ⟨rfl, by simp⟩
    | some n =>
        obtain ⟨w, s, t, rfl, hx, hy, hrest⟩ := hfound n hlong
        rw [hx, hy, Option.filter_some, Option.filter_some, List.take_left, List.take_left]
        refine ⟨rfl, fun m hm => ⟨w, s, t, ?_, rfl, rfl, hrest⟩⟩
        split at hm
        · exact Option.some.inj hm
        · cases hm

theorem runPattern_number : RunPattern chars.isWord (without .hex (without .byId (Fits masks host)))
      .number (longNumber chars) where
  proper := proper_longNumber chars
  word prev l hprev := by rw [longNumber, if_pos hprev]
  value other v x prev hv hx hprev := by
    cases other with
    | number =>
        obtain ⟨⟨hlong, hdigits⟩, -⟩ := hv.2.2
        have hdecimal : ∀ c ∈ v, chars.isDecimal c = true :=
          fun c hc => isDecimal_of_isDigit chars (hdigits c hc)
        rw [longNumber, if_neg (by rw [show prev.any chars.isWord = false from hprev]; decide),
          run_append chars.decimal_word hdecimal hx, if_pos hlong, if_pos rfl]
    | hex => exact absurd rfl hv.1
    | byId => exact absurd rfl hv.2.1
  same := by
    intro c x y pre pre' clear prev prev' h hlevel
    rw [longNumber, longNumber, ← hlevel]
    split
    · exact ⟨rfl, by simp⟩
    · exact run_same (by decide) chars.decimal_word (fun v hv => hv.2.1 rfl) (.same c h)
        (.inr ⟨c, x, y, rfl, rfl, h⟩)

/-- Which of the values stands where does not show in the output. -/
theorem sanitize_eq_of_differInValues (h : WellMasked masks host)
    (hd : DifferInValues chars masks host text other) :
    sanitize chars host text masks = sanitize chars host other masks := by
  have hwordless := brackets_wordless chars
  have hmasked : Alike chars.isWord (Fits masks host) (fun _ _ => True) [] [] (masked masks text)
      (masked masks other) :=
    alike_named (masking_masks chars h) text.length rfl hd (.inl rfl) id id
  have hpathless : Alike chars.isWord (without .byId (Fits masks host)) (fun _ _ => True) [] []
      (pathless masks text) (pathless masks other) :=
    alike_pathless (fun kind v hkind hv => apartFrom_of_fits (fun k hk =>
      absurd hk List.not_mem_nil) hkind hv) (fun v hv => hv.1) hwordless _ none none rfl hmasked
      id id
  have hhostless : Alike chars.isWord (without .byId (Fits masks host)) (fun _ _ => True) [] []
      (hostless host masks text) (hostless host masks other) :=
    alike_named (masking_host chars h) (pathless masks text).length rfl
      (hpathless.context (fun _ _ _ hv => absurd rfl hv.1) id id) (.inl rfl) id id
  have hchars : ∀ kind v, without .byId (Fits masks host) kind v →
      v ≠ [] ∧ ∀ c ∈ v, chars.isWord c = true := fun kind v hv => by
    obtain ⟨hlong, hhex, -⟩ := fits_hex hv.1 hv.2
    exact ⟨fun hnil => by simp [hnil] at hlong, fun c hc => isWord_of_isHex chars (hhex c hc)⟩
  have hends : ∀ t ∈ [hexShown, numberShown], t.head? = some '<' ∧ t ≠ [] ∧
      t.getLast? = some '>' := by decide
  have hshown : ∀ t ∈ [hexShown, numberShown], t.head?.any chars.isWord = false ∧ t ≠ [] ∧
      wordless chars.isWord t.getLast? := fun t ht => by
    obtain ⟨hopens, hne, hcloses⟩ := hends t ht
    rw [hopens, hcloses]
    exact ⟨hwordless.1, hne, hwordless.2⟩
  have hhexless : Alike chars.isWord (without .hex (without .byId (Fits masks host)))
      (fun _ _ => True) [] [] (hexless chars host masks text)
      (hexless chars host masks other) :=
    alike_run (runPattern_hex chars) hchars (fun v hv => hv.1 rfl)
      (fun _ _ _ hfound => putHex_lettered (only_append.mp hfound).2) (hshown _ (by simp))
      (hostless host masks text).length rfl hhostless rfl id id
  have hout : Alike chars.isWord (without .number (without .hex (without .byId (Fits masks host))))
      (fun _ _ => True) [] []
      (sub (longNumber chars) (fun _ => numberShown) none (hexless chars host masks text))
      (sub (longNumber chars) (fun _ => numberShown) none (hexless chars host masks other)) :=
    alike_run (runPattern_number chars) (fun kind v hv => hchars kind v hv.2)
      (fun v hv => hv.2.1 rfl) (fun _ _ _ _ => rfl) (hshown _ (by simp))
      (hexless chars host masks text).length rfl hhexless rfl id id
  rw [sanitize_eq chars h.long, sanitize_eq chars h.long]
  refine hout.eq fun kind v hv => ?_
  cases kind with
  | number => exact hv.1 rfl
  | hex => exact hv.2.1 rfl
  | byId => exact hv.2.2.1 rfl

end Values

/-- A sanitised text names nothing: no name stands in it as a token, no long run stands in it by
itself, and it is the same whichever serials, GUIDs and by-id values stood in what was sanitised. -/
theorem sanitize_names_nothing (chars : CharClasses) {masks : Masks} {host : List Char}
    (h : WellMasked masks host) (text : List Char) :
    (∀ k, IsSecret masks host k → ¬ TokenIn k (sanitize chars host text masks)) ∧
      (∀ w, IsLongRun chars w → ¬ StandsIn chars w (sanitize chars host text masks)) ∧
        ∀ other, DifferInValues chars masks host text other →
        sanitize chars host text masks = sanitize chars host other masks :=
  ⟨fun _ hk => not_tokenIn_sanitize chars h hk, fun _ hw => not_standsIn_sanitize chars h.long hw,
    fun _ hd => sanitize_eq_of_differInValues chars h hd⟩

/-! ### On texts of ASCII -/

def asciiClasses : CharClasses where
  isWord c := c == '_' || c.isAlphanum
  ascii c _ := Bool.or_comm (c == '_') c.isAlphanum
  isDecimal := Char.isDigit
  decimal_ascii _ _ := rfl
  decimal_word c h := by rw [Char.isAlphanum, h, Bool.or_true, Bool.or_true]

/-- The names as they are tried, and all that may be shown. -/
theorem namesApart_iff {masks : Masks} {host : List Char} : NamesApart masks host ↔
    2 ≤ host.length ∧ ∀ k ∈ host :: names masks,
    ∀ t ∈ [byIdShown, hostShown, hexShown, numberShown] ++ masks.items.map Mask.shown,
    ¬ k <:+: t := by
  have hsecret : ∀ k, IsSecret masks host k ↔ k ∈ host :: names masks :=
    fun k => by rw [IsSecret, List.mem_cons, or_comm]
  have hshown : ∀ t, IsShown masks t ↔
      t ∈ [byIdShown, hostShown, hexShown, numberShown] ++ masks.items.map Mask.shown := fun t => by
    rw [IsShown, List.mem_append, List.mem_map]
    exact or_congr_right (exists_congr fun mask => and_congr_right fun _ => eq_comm)
  constructor
  · exact fun h => ⟨h.long, fun k hk t ht => h.apart k ((hsecret k).mpr hk) t ((hshown t).mpr ht)⟩
  · exact fun h => ⟨h.1, fun k hk t ht => h.2 k ((hsecret k).mp hk) t ((hshown t).mp ht)⟩

instance (masks : Masks) (host : List Char) : Decidable (NamesApart masks host) :=
  decidable_of_iff _ namesApart_iff.symm

/-- One name, shown so. -/
def oneMask (name shown : String) : Masks := ⟨[⟨name.toList, shown.toList⟩], List.nodup_singleton _⟩

def hostBox : List Char := ['b', 'o', 'x']

theorem wellMasked_pool : WellMasked (oneMask "zsta" "<pool-a>") hostBox where
  toNamesApart := by decide +kernel
  plain k hk := by
    have hall : ∀ k ∈ hostBox :: names (oneMask "zsta" "<pool-a>"), '<' ∉ k ∧ '>' ∉ k := by
      decide +kernel
    exact hall k (hk.elim (List.mem_cons_of_mem _) fun h => h ▸ List.mem_cons_self)
  bracketed := by decide +kernel

theorem sanitize_names_nothing_pool :
    ¬ TokenIn "zsta".toList (sanitize asciiClasses hostBox "zsta 123456789".toList
      (oneMask "zsta" "<pool-a>")) ∧
    ¬ StandsIn asciiClasses "123456789".toList
      (sanitize asciiClasses hostBox "zsta 123456789".toList (oneMask "zsta" "<pool-a>")) ∧
      sanitize asciiClasses hostBox "zsta 123456789".toList (oneMask "zsta" "<pool-a>") =
        sanitize asciiClasses hostBox "zsta 98765432".toList (oneMask "zsta" "<pool-a>") := by
  obtain ⟨hnames, hruns, hvalues⟩ :=
    sanitize_names_nothing asciiClasses wellMasked_pool "zsta 123456789".toList
  refine ⟨hnames _ (.inl (by decide +kernel)), hruns _ (.inl (by decide +kernel)), hvalues _ ?_⟩
  have hfits : ∀ v ∈ ["123456789".toList, "98765432".toList],
      Fits (oneMask "zsta" "<pool-a>") hostBox .number v := by
    intro v hv
    have hall : ∀ v ∈ ["123456789".toList, "98765432".toList],
        (8 ≤ v.length ∧ ∀ c ∈ v, c.isDigit = true) ∧
        ∀ k ∈ hostBox :: names (oneMask "zsta" "<pool-a>"), ¬ v <:+: k := by decide +kernel
    exact ⟨(hall v hv).1, fun k hk => (hall v hv).2 k (hk.elim (List.mem_cons_of_mem _) fun h =>
      h ▸ List.mem_cons_self)⟩
  have hvalue : Alike asciiClasses.isWord (Fits (oneMask "zsta" "<pool-a>") hostBox)
      (Uncrossed (names (oneMask "zsta" "<pool-a>"))) "zsta ".toList "zsta ".toList
      ("123456789".toList ++ []) ("98765432".toList ++ []) :=
    .value (by decide) (hfits _ (by simp)) (hfits _ (by simp)) (by decide) (by decide) rfl rfl .nil
  exact .append "zsta ".toList hvalue

/-- Two names. -/
def twoMasks (name shown name' shown' : String) (h : name.toList ≠ name'.toList) : Masks :=
  ⟨[⟨name.toList, shown.toList⟩, ⟨name'.toList, shown'.toList⟩], by simpa using h⟩

/-- What stands between characters that are no letter or digit, or ends. -/
def Delimited (k text : List Char) : Prop :=
  ∃ a b, text = a ++ k ++ b ∧ a.getLast?.any Char.isAlphanum = false ∧
  b.head?.any Char.isAlphanum = false

def boxed (masks : Masks) (text : String) : List Char :=
  sanitize asciiClasses hostBox text.toList masks

/-- A number after `_`; a name next to another's place, a name that what is shown and what follows
make up, with brackets and without; a serial that is a name; a name in the directory's path; white
space in what is shown and in a name. -/
theorem sanitize_leaks :
    (NamesApart ⟨[], List.nodup_nil⟩ hostBox ∧
      Delimited "12345678".toList (boxed ⟨[], List.nodup_nil⟩ "x_12345678")) ∧
    (∃ masks, NamesApart masks hostBox ∧ "/dev/shm/r".toList ∈ names masks ∧
      Delimited "/dev/shm/r".toList (boxed masks "zsta/dev/shm/r")) ∧
    (∃ masks, NamesApart masks hostBox ∧ "v.w".toList ∈ names masks ∧
      Delimited "v.w".toList (boxed masks "k.w")) ∧
    (∃ masks, NamesApart masks hostBox ∧ "b> c".toList ∈ names masks ∧
      Delimited "b> c".toList (boxed masks "a c")) ∧
    (∃ masks, NamesApart masks hostBox ∧ boxed masks "7C3B9E21D4F6" ≠ boxed masks "8C3B9E21D4F6") ∧
    (∃ masks, NamesApart masks hostBox ∧
      boxed masks "/dev/disk/by-id/usb-S" ≠ boxed masks "/dev/disk/by-id/usb-T") ∧
    (∃ masks, NamesApart masks hostBox ∧
      boxed masks "/dev/disk/by-id/usb-S" ≠ boxed masks "/dev/disk/by-id/usb-T") ∧
    ∃ masks, NamesApart masks hostBox ∧
    boxed masks "/dev/disk/by-id/X-a b" ≠ boxed masks "/dev/disk/by-id/Y b" := by
  refine ⟨⟨by decide +kernel, "x_".toList, [], by decide +kernel⟩,
    ⟨twoMasks "zsta" "<pool-a>" "/dev/shm/r" "<run>"
      (by decide), by decide +kernel, by decide +kernel, "<pool-a>".toList, [], by decide +kernel⟩,
    ⟨twoMasks "k" "v" "v.w" "z" (by decide), by decide +kernel, by decide +kernel, [],
      [], by decide +kernel⟩,
    ⟨twoMasks "a" "<b>" "b> c" "<z>" (by decide), by decide +kernel, by decide +kernel, ['<'],
      [], by decide +kernel⟩,
    ⟨oneMask "7C3B9E21D4F6" "<serial>", by decide +kernel, by decide +kernel⟩,
    ⟨oneMask "disk" "<pool-a>", by decide +kernel, by decide +kernel⟩,
    ⟨oneMask "usb" "<a b>", by decide +kernel, by decide +kernel⟩,
    ⟨oneMask "a b" "<s>", by decide +kernel, by decide +kernel⟩⟩

end Zark.Sanitize
