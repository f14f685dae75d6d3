import Zark.Proof.Coverage
import Zark.Rounds

/-!
# The rounds respect parents and never call an incomplete run complete

A round works its plans off in the order of their depth, so an ancestor is settled before what lies
below it, and the failed names it carries are those of what it has settled. A round that ends with
no space ends the run, and only a resumed or discarded partial receive asks for another one. What is
called complete is what the last survey says of every expected dataset.
-/

namespace Zark

open Hierarchy

/-- A dataset's name strictly above another. -/
def Above (t r : Rel) : Prop := t ≠ [] ∧ Under r t ∧ t ≠ r

theorem under_parent_iff {r t : Rel} (ht : t ≠ []) : Under (parent r) t ↔ Under r t ∧ t ≠ r := by
  refine ⟨fun h => ⟨(under_parent r).trans h, ?_⟩, fun ⟨h, hne⟩ => h.parent_of_ne (Ne.symm hne)⟩
  rintro rfl
  have hlen := h.length_le
  rw [List.length_dropLast] at hlen
  have := List.length_pos_of_ne_nil ht
  omega

theorem blockedByParent_iff {rel : Rel} {failed : List Rel} :
    blockedByParent rel failed = true ↔ ∃ t ∈ failed, Above t rel := by
  simp only [blockedByParent, List.any_eq_true, List.mem_inits, Bool.and_eq_true, decide_eq_true_eq,
    List.contains_iff_mem]
  constructor
  · rintro ⟨t, ht, hne, hfailed⟩
    exact ⟨t, hfailed, hne, (under_parent_iff hne).mp ht⟩
  · rintro ⟨t, hfailed, hne, ht⟩
    exact ⟨t, (under_parent_iff hne).mpr ht, hne, hfailed⟩

section Round

variable {attempts : Rel → Attempt} {plans : List DatasetPlan} {failed : List Rel}

theorem plan_attemptOne (p : DatasetPlan) : (attemptOne attempts failed p).plan = p := by
  unfold attemptOne
  split <;> rfl

/-- A round takes its plans in order and leaves none out before it ends. -/
theorem plan_sendEach (l : List DatasetPlan) :
    (sendEach attempts failed l).map Turn.plan <+: l := by
  induction l generalizing failed with
  | nil => exact List.nil_prefix
  | cons p rest ih =>
      rw [sendEach, List.map_cons, plan_attemptOne]
      refine List.cons_prefix_cons.mpr ⟨rfl, ?_⟩
      split
      · exact List.nil_prefix
      · exact ih

/-- A new dataset is not sent once a dataset above it failed or was blocked. -/
theorem unblocked_sendEach (l : List DatasetPlan) {before after : List Turn}
    {p : DatasetPlan} {a : Attempt}
    (hsplit : sendEach attempts failed l = before ++ .sent p a :: after) (hnew : p.state = .new) :
    (∀ t ∈ failed, ¬Above t p.rel) ∧ ∀ e ∈ before, e.hasFailed = true → ¬Above e.rel p.rel := by
  induction l generalizing failed before with
  | nil => simp [sendEach] at hsplit
  | cons q rest ih =>
      rw [sendEach] at hsplit
      cases before with
      | nil =>
          -- The first plan of the list is the one that was sent.
          obtain ⟨hone, -⟩ := List.cons.inj hsplit
          unfold attemptOne at hone
          split at hone
          · cases hone
          · rename_i hnot
            obtain ⟨rfl, -⟩ := Turn.sent.inj hone
            rw [not_and, Bool.not_eq_true] at hnot
            refine ⟨fun t ht habove => ?_, by simp⟩
            exact Bool.false_ne_true ((hnot hnew).symm.trans
              (blockedByParent_iff.mpr ⟨t, ht, habove⟩))
      | cons e before =>
          obtain ⟨hone, hrest⟩ := List.cons.inj hsplit
          split at hrest
          · cases before <;> cases hrest
          · obtain ⟨hfailed, hbefore⟩ := ih hrest
            have hsub : ∀ t ∈ failed, t ∈ if (attemptOne attempts failed q).hasFailed
                = true then q.rel :: failed else failed := by
              intro t ht
              split
              · exact List.mem_cons_of_mem _ ht
              · exact ht
            refine ⟨fun t ht => hfailed t (hsub t ht), fun x hx hxfailed => ?_⟩
            rcases List.mem_cons.mp hx with rfl | hx
            · refine hfailed _ ?_
              rw [hone, if_pos hxfailed, ← hone, Turn.rel, plan_attemptOne]
              exact List.mem_cons_self
            · exact hbefore x hx hxfailed

/-- A transfer that runs out of space is a round's last. -/
theorem enospc_sendEach (l : List DatasetPlan) :
    ∀ e ∈ (sendEach attempts failed l).dropLast, e.isEnospc = false := by
  induction l generalizing failed with
  | nil => simp [sendEach]
  | cons q rest ih =>
      rw [sendEach]
      split
      · simp
      · rename_i henospc
        rw [Bool.not_eq_true] at henospc
        intro e he
        cases hrest :
            sendEach attempts
                (if (attemptOne attempts failed q).hasFailed = true then q.rel :: failed
                    else failed) rest with
        | nil =>
            rw [hrest] at he
            cases he
        | cons x xs =>
            rw [hrest, List.dropLast_cons_of_ne_nil (List.cons_ne_nil x xs)] at he
            rcases List.mem_cons.mp he with rfl | he
            · exact henospc
            · exact ih e (hrest ▸ he)

theorem pairwise_depthOrder (plans : List DatasetPlan) :
    (depthOrder plans).Pairwise fun p q => p.rel.length ≤ q.rel.length := by
  let before :=
    fun p q : DatasetPlan => p.rel.length < q.rel.length ∨ p.rel.length = q.rel.length ∧
      p.rel.text ≤ q.rel.text
  let : Std.Total before := ⟨fun p q => by
    rcases lt_trichotomy p.rel.length q.rel.length with h | h | h
    · exact .inl (.inl h)
    · exact (le_total p.rel.text q.rel.text).imp (fun hle => .inr ⟨h, hle⟩) fun hle =>
        .inr ⟨h.symm, hle⟩
    · exact .inr (.inl h)⟩
  let : IsTrans DatasetPlan before := ⟨fun p q r hpq hqr => by
    rcases hpq with hpq | ⟨hpq, hle⟩ <;> rcases hqr with hqr | ⟨hqr, hle'⟩
    · exact .inl (hpq.trans hqr)
    · exact .inl (hqr ▸ hpq)
    · exact .inl (hpq ▸ hqr)
    · exact .inr ⟨hpq.trans hqr, hle.trans hle'⟩⟩
  exact (List.pairwise_insertionSort before plans).imp fun h => h.elim Nat.le_of_lt fun h => h.1.le

/-- A round that respects parents: nothing new is sent once a dataset above it failed or was
blocked, and nothing is sent or blocked before a dataset above it. -/
structure Respectful (events : List Turn) : Prop where
  unblocked : ∀ before p a after, events = before ++ .sent p a :: after → p.state = .new →
    ∀ e ∈ before, e.hasFailed = true → ¬Above e.rel p.rel
  ordered : events.Pairwise fun e f => ¬Above f.rel e.rel

theorem respectful_sendRound (attempts : Rel → Attempt) (plans : List DatasetPlan) :
    Respectful (sendRound attempts plans) := by
  constructor
  · intro before p a after hsplit hnew
    exact (unblocked_sendEach (todo plans) hsplit hnew).2
  · have hplans : ((sendRound attempts plans).map Turn.plan).Pairwise fun p q =>
        p.rel.length ≤ q.rel.length :=
      ((pairwise_depthOrder plans).sublist List.filter_sublist).sublist
        (plan_sendEach (todo plans)).sublist
    refine (List.pairwise_map.mp hplans).imp fun {e f} hle habove => ?_
    have hlt := length_lt_of_under_of_ne habove.2.1 (Ne.symm habove.2.2)
    exact absurd hle (Nat.not_le.mpr hlt)

end Round

/-! ### A run -/

section Run

variable {aim : Aim} {m : Meets}

/-- What the rounds of a run are: each respects parents, only the last can end without space, there
are at most `fuel`, and each but the last has a partial receive that needs another. -/
structure Orderly (fuel : ℕ) (rounds : List (List Turn)) : Prop where
  respectful : ∀ events ∈ rounds, Respectful events
  enospc : ∀ e ∈ rounds.flatten.dropLast, e.isEnospc = false
  length : rounds.length ≤ fuel
  needed : ∀ events ∈ rounds.dropLast, ∃ e ∈ events, e.needsRound = true

theorem orderly_nil (fuel : ℕ) : Orderly fuel [] := ⟨by simp, by simp, Nat.zero_le _, by simp⟩

theorem orderly_roundsFrom (fuel n : ℕ) (plans : List DatasetPlan) :
    Orderly fuel (roundsFrom aim m fuel n plans).rounds := by
  induction fuel generalizing n plans with
  | zero => exact orderly_nil 0
  | succ fuel ih =>
      unfold roundsFrom
      split
      · exact orderly_nil _
      · rename_i l hl
        split
        · exact orderly_nil _
        · rename_i htodo
          have hrespectful := respectful_sendRound (m.attempts n) (aim.plan l)
          have hlast : ∀ e ∈ (sendRound (m.attempts n) (aim.plan l)).dropLast, e.isEnospc = false :=
            enospc_sendEach _
          dsimp only
          generalize sendRound (m.attempts n) (aim.plan l) = events at hrespectful hlast ⊢
          split
          · refine ⟨by simpa using hrespectful, by simpa using hlast,
              Nat.succ_le_succ (Nat.zero_le _), by simp⟩
          · -- The round goes on to another one, so no transfer of it ran out of space.
            rename_i hagain
            rw [Bool.or_eq_true, not_or, Bool.not_eq_true', Bool.not_eq_false,
              List.any_eq_true] at hagain
            obtain ⟨henospc, hneeds⟩ := hagain
            obtain ⟨hall, hspace, hlength, hneeded⟩ := ih (n + 1) (aim.plan l)
            refine ⟨List.forall_mem_cons.mpr ⟨hrespectful, hall⟩, ?_, Nat.succ_le_succ hlength, ?_⟩
            · intro e he
              have hmem : e ∈ events ∨ e ∈ (roundsFrom aim m fuel (n + 1)
                  (aim.plan l)).rounds.flatten.dropLast := by
                rw [List.flatten_cons] at he
                by_cases hrest : (roundsFrom aim m fuel (n + 1) (aim.plan l)).rounds.flatten = []
                · rw [hrest, List.append_nil] at he
                  exact .inl (List.dropLast_subset _ he)
                · rw [List.dropLast_append_of_ne_nil hrest] at he
                  exact List.mem_append.mp he
              refine hmem.elim (fun he => ?_) (hspace e)
              exact Bool.eq_false_iff.mpr fun h => henospc ⟨e, he, h⟩
            · intro x hx
              cases hrest : (roundsFrom aim m fuel (n + 1) (aim.plan l)).rounds with
              | nil =>
                  rw [hrest] at hx
                  cases hx
              | cons y ys =>
                  rw [hrest] at hx hneeded
                  rcases List.mem_cons.mp hx with rfl | hx
                  · exact List.any_eq_true.mp hneeds
                  · exact hneeded x hx

/-- The drive's newest snapshot of a dataset is origin's snapshot of the point. -/
def AtPoint (l : Listing) (point : String) (rel : Rel) : Prop :=
  ∃ o d newest pt, l.origin.get? rel = some o ∧ l.dest.get? rel = some d ∧ d.newest = some newest ∧
    o.snaps.get? point = some pt ∧
    newest.guid = pt.guid

theorem atPoint_of_reached {l : Listing} (h : reached (aim.plan l) = true) {rel : Rel}
    (hrel : rel ∈ expected l.origin aim.exclusions) :
    AtPoint l aim.point rel := by
  obtain ⟨o, ho, hexpected⟩ := mem_expected.mp hrel
  obtain ⟨hmem, rfl⟩ := Keyed.get?_eq_some_iff.mp ho
  have hlive := @get?_liveDatasets l.dest o.rel (isArchived_of_isExpected hexpected)
  have hstate : (planExpected o l.origin (liveDatasets l.dest) aim.point).state
      = (planDataset o (l.dest.get? o.rel) aim.point).state := by
    unfold planExpected
    dsimp only
    rw [hlive]
    split
    · exact cloneBase_state _ o l.origin _
    · rfl
  have hat : (planDataset o (l.dest.get? o.rel) aim.point).state = .atPoint := by
    rw [← hstate]
    have hall := List.all_eq_true.mp h (planExpected o l.origin (liveDatasets l.dest) aim.point)
    rw [List.mem_filter] at hall
    refine beq_iff_eq.mp (hall ⟨mem_plan_of_expected hmem hexpected, ?_⟩)
    obtain ⟨horphan, hexcluded⟩ := planExpected_ne o l.origin (liveDatasets l.dest) aim.point
    simp [horphan, hexcluded]
  cases hd : l.dest.get? o.rel with
  | none =>
      rw [hd] at hat
      cases hat
  | some d =>
      rw [hd] at hat
      rw [planDataset_eq_unwritten (by rw [hat]; decide)] at hat
      have hspec := planUnwritten_spec o d aim.point
      generalize planUnwritten o (some d) aim.point = p at hspec hat
      cases hspec with
      | atPoint htoken hnewest hown hname =>
          obtain ⟨hmem, hguid⟩ := snapByGuid_eq_some hown
          exact ⟨o, d, _, _, ho, hd, hnewest, Keyed.get?_eq_some_iff.mpr ⟨hmem, hname⟩, hguid.symm⟩
      | _ => cases hat

/-- A result whose rounds are orderly and whose plans, unless the run was aborted or could not be
verified, are those of the last survey. -/
structure Settled (aim : Aim) (m : Meets) (r : Result) : Prop where
  orderly : Orderly maxRounds r.rounds
  last : r.aborted = true ∨ r.unverified = true ∨ ∃ l, m.surveys (r.asked - 1) = some l ∧
    r.plans = aim.plan l

theorem settled_transferAll (aim : Aim) (m : Meets) (n : ℕ) :
    Settled aim m (transferAll aim m n) := by
  unfold transferAll
  split
  · exact ⟨orderly_nil _, .inr (.inl rfl)⟩
  · rename_i first hfirst
    have horderly : Orderly maxRounds (roundsFrom aim m maxRounds (n + 1)
        (aim.plan first)).rounds := orderly_roundsFrom _ _ _
    dsimp only
    split
    · exact ⟨horderly, .inr (.inl rfl)⟩
    · split
      · exact ⟨horderly, .inr (.inl rfl)⟩
      · rename_i last hlast
        exact ⟨horderly, .inr (.inr ⟨last, hlast, rfl⟩)⟩

theorem settled_replicate (aim : Aim) (m : Meets) : Settled aim m (replicate aim m) := by
  have haborted : ∀ n, Settled aim m { aborted := true, asked := n } :=
    fun _ => ⟨orderly_nil _, .inl rfl⟩
  unfold replicate
  split
  · exact haborted 1
  · unfold decideAndSend
    split
    · exact haborted _
    · split
      · exact settled_transferAll aim m _
      · exact haborted _

/-- The rounds of a run respect parents, stop at an ENOSPC and start again only where a partial
receive needs it, and a run that is called complete left every expected dataset at the point, as its
last survey found it. -/
theorem replicate_orderly (aim : Aim) (m : Meets) :
    (∀ events ∈ (replicate aim m).rounds, Respectful events) ∧
      (∀ e ∈ (replicate aim m).rounds.flatten.dropLast, e.isEnospc = false) ∧
        (replicate aim m).rounds.length ≤ maxRounds ∧
          (∀ events ∈ (replicate aim m).rounds.dropLast, ∃ e ∈ events, e.needsRound = true) ∧
            ∀ stale, { replicate aim m with stale }.ok = true →
              ∃ l, m.surveys ((replicate aim m).asked - 1) = some l ∧
              ∀ rel ∈ expected l.origin aim.exclusions, AtPoint l aim.point rel := by
  obtain ⟨⟨hrespectful, henospc, hlength, hneeded⟩, hlast⟩ := settled_replicate aim m
  refine ⟨hrespectful, henospc, hlength, hneeded, fun stale hok => ?_⟩
  simp only [Result.ok, Bool.and_eq_true, Bool.not_eq_true'] at hok
  obtain ⟨⟨⟨⟨haborted, hunverified⟩, -⟩, -⟩, hreached⟩ := hok
  rcases hlast with h | h | ⟨l, hl, hplans⟩
  · exact absurd (h.symm.trans haborted) (by decide)
  · exact absurd (h.symm.trans hunverified) (by decide)
  · exact ⟨l, hl, fun rel hrel => atPoint_of_reached (hplans ▸ hreached) hrel⟩

end Run

end Zark
