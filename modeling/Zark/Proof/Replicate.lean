import Zark.Proof.Planner
import Zark.Replicate

/-!
# What a run leaves for its ending

A dataset of the drive that holds the run's point holds it as its newest snapshot, with nothing to
resume, in a dataset a receive began on, and origin had it at the last survey. That is what both
endings of a run rest on.
-/

namespace Zark

open Hierarchy

/-- The guids of the snapshots of a dataset of the drive, oldest first. -/
def guidsOf (drive : Drive) (rel : Rel) : List String :=
  ((drive.get? rel).map fun d => d.snaps.items.map Ref.guid).getD []

/-- A dataset that holds the guid holds it newest, and has nothing to resume. -/
def Lands (guid : String) (drive : Drive) (rel : Rel) : Prop :=
  guid ∈ guidsOf drive rel →
    (guidsOf drive rel).getLast? = some guid ∧ ∀ d, drive.get? rel = some d → d.token = ""

/-! ### Receives -/

section Receives

variable {dest after : Drive} {rel : Rel} {cloneFrom : Option SnapName} {stream : Stream}

theorem guidsOf_of_get? {d : Dest} (h : dest.get? rel = some d) :
    guidsOf dest rel = d.snaps.items.map Ref.guid := by
  rw [guidsOf, h]
  rfl

theorem receive_guids {d e : Dest} {refs : List Ref} (h : d.receive refs = some e) :
    e.rel = d.rel ∧ e.token = d.token ∧
      e.snaps.items.map Ref.guid = d.snaps.items.map Ref.guid ++ refs.map Ref.guid := by
  obtain ⟨snaps, hsnaps, rfl⟩ := Option.map_eq_some_iff.mp h
  refine ⟨rfl, rfl, ?_⟩
  show snaps.items.map Ref.guid = _
  rw [Keyed.ofList?_eq_some_iff.mp hsnaps, List.map_append, map_guid_received]

/-- A receive adds the stream's snapshots after the dataset's own and touches nothing else. -/
theorem zfsReceive_guids (h : zfsReceive dest rel cloneFrom stream = some after) :
    guidsOf after rel = guidsOf dest rel ++ stream.refs.map Ref.guid ∧
      (∀ d, after.get? rel = some d → d.token = "") ∧
      ∀ r, r ≠ rel → after.get? r = dest.get? r := by
  cases hget : dest.get? rel with
  | some d =>
      obtain ⟨hmem, hrel⟩ := Keyed.get?_eq_some_iff.mp hget
      simp only [zfsReceive, hget, Option.ite_none_right_eq_some] at h
      obtain ⟨⟨-, -, htoken, -⟩, h⟩ := h
      obtain ⟨e, he, rfl⟩ := Option.map_eq_some_iff.mp h
      obtain ⟨herel, hetoken, hguids⟩ := receive_guids he
      have hafter : (dest.set e).get? rel = some e := hrel ▸ get?_set_receive hmem herel
      refine ⟨?_, ?_, fun r hr => Keyed.get?_set_of_ne (by rwa [herel, hrel])⟩
      · rw [guidsOf_of_get? hafter, guidsOf_of_get? hget, hguids]
      · intro x hx
        obtain rfl : e = x := Option.some.inj (hafter.symm.trans hx)
        exact hetoken.trans htoken
  | none =>
      simp only [zfsReceive, hget, Option.ite_none_right_eq_some] at h
      obtain ⟨-, h⟩ := h
      obtain ⟨e, he, hpush⟩ := Option.bind_eq_some_iff.mp h
      obtain ⟨herel, hetoken, hguids⟩ := receive_guids he
      have hafter : after.get? rel = some e :=
        Keyed.get?_eq_some_iff.mpr ⟨(Keyed.mem_push? hpush).mpr (.inr rfl), herel⟩
      refine ⟨?_, ?_, fun r hr => ?_⟩
      · rw [guidsOf_of_get? hafter, hguids, guidsOf, hget]
        rfl
      · intro x hx
        obtain rfl : e = x := Option.some.inj (hafter.symm.trans hx)
        exact hetoken
      · exact Keyed.get?_push?_of_ne hpush (by rwa [herel])

end Receives

/-! ### Streams that end at the point -/

/-- A stream that carries the guid carries it once, as its last. -/
def EndsAt (guid : String) (guids : List String) : Prop :=
  guid ∈ guids → guids.getLast? = some guid ∧ guid ∉ guids.dropLast

theorem endsAt_singleton (guid other : String) : EndsAt guid [other] := by
  intro h
  rw [List.mem_singleton] at h
  subst h
  exact ⟨rfl, List.not_mem_nil⟩

theorem not_mem_take_of_endsAt {guid : String} {guids : List String} {k : ℕ} (h : EndsAt guid guids)
    (hk : k < guids.length) : guid ∉ guids.take k := by
  intro hmem
  obtain ⟨-, hinit⟩ := h (List.mem_of_mem_take hmem)
  apply hinit
  have hle : k ≤ guids.length - 1 := by omega
  rw [List.dropLast_eq_take]
  exact (List.take_prefix_take_left hle).subset hmem

section Sends

variable {origin : Origins} {o : Origin} {s : Ref}

theorem endsAt_of_ordered (hordered : Ordered o) (hguids : UniqueGuids o) (hs : s ∈ o.snaps)
    {refs : List Ref} (hsub : refs.Sublist o.snaps.items)
    (hle : ∀ x ∈ refs, x.createtxg ≤ s.createtxg) : EndsAt s.guid (refs.map Ref.guid) := by
  intro hmem
  have hunique : ∀ x ∈ refs, x.guid = s.guid → x = s := fun x hx => hguids x (hsub.subset hx) s hs
  obtain ⟨x, hx, hguid⟩ := List.mem_map.mp hmem
  obtain rfl := hunique x hx hguid
  obtain ⟨init, last, rfl⟩ := List.eq_nil_or_concat' refs |>.resolve_left (List.ne_nil_of_mem hx)
  have hpairs : (init ++ [last]).Pairwise fun s t => s.createtxg < t.createtxg :=
    List.Pairwise.sublist hsub hordered
  have hbefore : ∀ y ∈ init, y.createtxg < last.createtxg := fun y hy =>
    (List.pairwise_append.mp hpairs).2.2 y hy last (List.mem_singleton_self _)
  have hlast : last.createtxg ≤ x.createtxg := hle last (by simp)
  have hout : x ∉ init := fun hy => absurd (hbefore x hy) (by omega)
  obtain rfl : x = last := by simpa [hout] using hx
  refine ⟨by simp, ?_⟩
  rw [List.map_append, List.map_singleton, List.dropLast_concat]
  intro hinit
  obtain ⟨y, hy, hyguid⟩ := List.mem_map.mp hinit
  exact hout (hunique y (List.mem_append_left _ hy) hyguid ▸ hy)

variable (ho : origin.get? o.rel = some o) (hordered : Ordered o) (hguids : UniqueGuids o)
  (hs : s ∈ o.snaps)

include ho hordered hguids hs

theorem endsAt_fromSnapshot {raw : Bool} {source : SnapName} {stream : Stream}
    (h : zfsSend origin (.fromSnapshot raw source o.rel s.name) = some stream) :
    EndsAt s.guid (stream.refs.map Ref.guid) := by
  simp only [zfsSend, ho, Keyed.get?_of_mem hs, Option.bind_some] at h
  obtain ⟨base, -, h⟩ := Option.bind_eq_some_iff.mp h
  split at h
  · rw [Option.ite_none_right_eq_some, Option.some.injEq] at h
    obtain ⟨-, rfl⟩ := h
    refine endsAt_of_ordered hordered hguids hs List.filter_sublist fun x hx => ?_
    have hx := (List.mem_filter.mp hx).2
    rw [Bool.and_eq_true, decide_eq_true_eq, decide_eq_true_eq] at hx
    exact hx.2
  · rw [Option.ite_none_right_eq_some, Option.some.injEq] at h
    obtain ⟨-, rfl⟩ := h
    exact endsAt_of_ordered hordered hguids hs List.filter_sublist fun x hx => by
      simpa using (List.mem_filter.mp hx).2

omit ho hordered hguids hs in
theorem sendArgs_cases (origin : Origins) (dest : Drive) (point : String) (p : DatasetPlan) :
    sendArgs origin dest point p false = [] ∨
      (∃ token, sendArgs origin dest point p false = [.resume token]) ∨
      (∃ raw, sendArgs origin dest point p false = [.full raw p.rel point]) ∨
      (∃ raw source, sendArgs origin dest point p false = [.fromSnapshot raw source p.rel point]) ∨
      ∃ bm first, sendArgs origin dest point p false = sendsFromBookmark p.rel bm first point := by
  unfold sendArgs
  dsimp only
  split
  · exact .inr (.inl ⟨_, rfl⟩)
  split
  · split
    · exact .inr (.inr (.inr (.inl ⟨_, _, rfl⟩)))
    · exact .inl rfl
  split
  · exact .inr (.inr (.inl ⟨_, rfl⟩))
  split
  · exact .inr (.inr (.inr (.inr ⟨_, _, rfl⟩)))
  · split
    · exact .inr (.inr (.inr (.inl ⟨_, _, rfl⟩)))
    · exact .inl rfl
  · exact .inl rfl

/-- The sends of a plan carry the point last, and only the last of them does. -/
theorem endsAt_sendArgs {dest : Drive} {p : DatasetPlan} (hrel : p.rel = o.rel) :
    (∀ send ∈ sendArgs origin dest s.name p false, ∀ stream, zfsSend origin send = some stream →
        EndsAt s.guid (stream.refs.map Ref.guid)) ∧
      ∀ send ∈ (sendArgs origin dest s.name p false).dropLast, ∀ stream,
        zfsSend origin send = some stream → s.guid ∉ stream.refs.map Ref.guid := by
  rcases sendArgs_cases origin dest s.name p with
    h | ⟨token, h⟩ | ⟨raw, h⟩ | ⟨raw, source, h⟩ | ⟨bm, first, h⟩
  · rw [h]
    exact ⟨fun send hsend => absurd hsend List.not_mem_nil, fun send hsend =>
      absurd hsend List.not_mem_nil⟩
  · rw [h]
    refine ⟨fun send hsend stream hstream => ?_, fun send hsend => absurd hsend List.not_mem_nil⟩
    rw [List.mem_singleton.mp hsend] at hstream
    cases hstream
  · rw [h]
    refine ⟨fun send hsend stream hstream => ?_, fun send hsend => absurd hsend List.not_mem_nil⟩
    rw [List.mem_singleton.mp hsend] at hstream
    obtain ⟨t, -, rfl⟩ := Option.map_eq_some_iff.mp hstream
    exact endsAt_singleton _ _
  · rw [h, hrel]
    refine ⟨fun send hsend stream hstream => ?_, fun send hsend => absurd hsend List.not_mem_nil⟩
    rw [List.mem_singleton.mp hsend] at hstream
    exact endsAt_fromSnapshot ho hordered hguids hs hstream
  · -- The first stream over a bookmark carries one snapshot, the point itself when it is the
    -- only one.
    have hfirst : ∀ stream, zfsSend origin (.fromBookmark o.rel bm first) = some stream →
        ∃ t, o.snaps.get? first = some t ∧ stream.refs = [t] := by
      intro stream hstream
      simp only [zfsSend, ho, Option.bind_some] at hstream
      obtain ⟨b, -, hstream⟩ := Option.bind_eq_some_iff.mp hstream
      obtain ⟨t, ht, hstream⟩ := Option.bind_eq_some_iff.mp hstream
      rw [Option.ite_none_right_eq_some, Option.some.injEq] at hstream
      obtain ⟨-, rfl⟩ := hstream
      exact ⟨t, ht, rfl⟩
    rw [h, hrel, sendsFromBookmark]
    constructor
    · intro send hsend stream hstream
      rcases List.mem_cons.mp hsend with rfl | hsend
      · obtain ⟨t, -, hrefs⟩ := hfirst stream hstream
        rw [hrefs]
        exact endsAt_singleton _ _
      · split at hsend
        · cases hsend
        · rw [List.mem_singleton.mp hsend] at hstream
          exact endsAt_fromSnapshot ho hordered hguids hs hstream
    · intro send hsend stream hstream
      by_cases hpoint : first = s.name
      · rw [if_pos hpoint] at hsend
        cases hsend
      · rw [if_neg hpoint] at hsend
        rw [List.mem_singleton.mp hsend] at hstream
        obtain ⟨t, ht, hrefs⟩ := hfirst stream hstream
        obtain ⟨htmem, htname⟩ := Keyed.get?_eq_some_iff.mp ht
        rw [hrefs, List.map_singleton, List.mem_singleton]
        intro hguid
        rw [← hguids s hs t htmem hguid] at htname
        exact hpoint htname.symm

end Sends

/-! ### What a transfer leaves -/

section Transfers

variable {dest after : Drive} {rel : Rel} {guid : String}

theorem lands_of_not_mem (h : guid ∉ guidsOf dest rel) : Lands guid dest rel :=
  fun hmem => absurd hmem h

theorem receives_get?_of_ne {cloneFrom : Option SnapName} {stream : Stream} {ok : Bool}
    (h : Receives dest rel cloneFrom stream ok after) {r : Rel} (hr : r ≠ rel) :
    after.get? r = dest.get? r := by
  cases h with
  | whole h => exact (zfsReceive_guids h).2.2 r hr
  | @cut k mid e token hk h he =>
      have hrel : e.rel = rel := Keyed.key_of_get? he
      exact (Keyed.get?_set_of_ne (hrel ▸ hr)).trans ((zfsReceive_guids h).2.2 r hr)
  | refused => rfl

theorem lands_of_receives {cloneFrom : Option SnapName} {stream : Stream} {ok : Bool}
    (h : Receives dest rel cloneFrom stream ok after)
    (hends : EndsAt guid (stream.refs.map Ref.guid)) (hbefore : guid ∉ guidsOf dest rel) :
    Lands guid after rel ∧ (guid ∉ stream.refs.map Ref.guid → guid ∉ guidsOf after rel) := by
  cases h with
  | whole h =>
      obtain ⟨hguids, htoken, -⟩ := zfsReceive_guids h
      refine ⟨fun hmem => ⟨?_, htoken⟩, fun hout hmem => ?_⟩
      · rw [hguids] at hmem ⊢
        have hmem := (List.mem_append.mp hmem).resolve_left hbefore
        rw [List.getLast?_append, (hends hmem).1]
        rfl
      · rw [hguids] at hmem
        exact (List.mem_append.mp hmem).elim hbefore hout
  | @cut k mid e token hk h he =>
      obtain ⟨hguids, -, -⟩ := zfsReceive_guids h
      have hset :=
        Keyed.get?_set_of_get? (b := { e with token }) he (Keyed.key_of_get? he : e.rel = rel)
      have hout : guid ∉ guidsOf (mid.set { e with token }) rel := by
        rw [guidsOf_of_get? hset, ← guidsOf_of_get? he, hguids, List.map_take,
          List.mem_append, not_or]
        exact ⟨hbefore, not_mem_take_of_endsAt hends (by rwa [List.length_map])⟩
      exact ⟨lands_of_not_mem hout, fun _ => hout⟩
  | refused => exact ⟨lands_of_not_mem hbefore, fun _ => hbefore⟩

variable {origin : Origins} {p : DatasetPlan} {sends : List Send}

theorem transfers_get?_of_ne (h : Transfers origin p dest sends after) {r : Rel} (hr : r ≠ p.rel) :
    after.get? r = dest.get? r := by
  induction h with
  | done | unsent => rfl
  | stopped hsend hreceive => exact receives_get?_of_ne hreceive hr
  | next hsend hreceive hrest ih => exact ih.trans (receives_get?_of_ne hreceive hr)

/-- Streams of which only the last can carry the guid, and only as its end, land it. -/
theorem lands_of_transfers (h : Transfers origin p dest sends after)
    (hends : ∀ send ∈ sends, ∀ stream, zfsSend origin send = some stream →
      EndsAt guid (stream.refs.map Ref.guid))
    (hmiddle : ∀ send ∈ sends.dropLast, ∀ stream, zfsSend origin send = some stream →
      guid ∉ stream.refs.map Ref.guid)
    (hbefore : guid ∉ guidsOf dest p.rel) : Lands guid after p.rel := by
  induction h with
  | done | unsent => exact lands_of_not_mem hbefore
  | stopped hsend hreceive =>
      exact (lands_of_receives hreceive (hends _ List.mem_cons_self _ hsend) hbefore).1
  | @next dest mid after send rest stream hsend hreceive hrest ih =>
      obtain ⟨hlands, hout⟩ :=
        lands_of_receives hreceive (hends _ List.mem_cons_self _ hsend) hbefore
      cases rest with
      | nil =>
          cases hrest
          exact hlands
      | cons second rest =>
          have hfirst : guid ∉ stream.refs.map Ref.guid := hmiddle send (by simp) _ hsend
          exact ih (fun send hsend => hends send (List.mem_cons_of_mem _ hsend))
            (fun send hsend => hmiddle send (List.mem_cons_of_mem _ hsend)) (hout hfirst)

end Transfers

/-! ### What is transferred -/

section Planned

variable {o : Origin} {d : Dest} {point : String}

theorem state_of_newest {s newest : Ref} (hguids : UniqueGuids o) (hs : s ∈ o.snaps)
    (hname : s.name = point) (htoken : d.token = "") (hnewest : d.newest = some newest)
    (hguid : newest.guid = s.guid) : (planDataset o (some d) point).state = .atPoint := by
  have hown : o.snapByGuid newest.guid = some s := hguid ▸ snapByGuid_of_mem hguids hs
  have hplan : planUnwritten o (some d) point = { rel := o.rel, state := .atPoint } := by
    simp [planUnwritten, htoken, hnewest, hown, hname]
  by_cases hwritten : d.written = 0
  · rw [planDataset_of_unwritten hwritten, hplan]
  · simp [planDataset, hwritten, hplan, State.isIncremental]

/-- A dataset that is to be transferred does not hold the point. -/
theorem not_held_of_transferable {origin : Origins} {dest : Drive} {skip : List Rel}
    {p : DatasetPlan} {s : Ref} (hp : p ∈ plan origin dest point skip)
    (hstate : p.state.transferable = true) (hpoint : p.state ≠ .atPoint)
    (hguids : ∀ o ∈ origin, UniqueGuids o)
    (hs : s ∈ ((origin.get? p.rel).map fun o => o.snaps.items).getD []) (hname : s.name = point)
    (hlands : Lands s.guid dest p.rel) : s.guid ∉ guidsOf dest p.rel := by
  intro hmem
  obtain ⟨o, ho, hexpected, hplan⟩ := mem_plan_expected hp
    (fun h => by rw [h] at hstate; cases hstate) (fun h => by rw [h] at hstate; cases hstate)
  have hrel : p.rel = o.rel := by rw [hplan, planExpected_rel]
  rw [hrel] at hs hlands hmem
  rw [ho] at hs
  obtain ⟨hlast, htoken⟩ := hlands hmem
  cases hd : dest.get? o.rel with
  | none => rw [guidsOf, hd] at hmem; cases hmem
  | some d =>
      rw [guidsOf_of_get? hd, List.getLast?_map] at hlast
      obtain ⟨newest, hnewest, hguid⟩ := Option.map_eq_some_iff.mp hlast
      have hlive : (liveDatasets dest).get? o.rel = some d :=
        (get?_liveDatasets (isArchived_of_isExpected hexpected)).trans hd
      have hne : (planDataset o (some d) point).state ≠ .new := planDataset_ne_new d
      have hrow : p = planDataset o (some d) point := by
        rw [hplan, planExpected, hlive]
        exact if_neg (by simpa using hne)
      rw [hrow] at hpoint
      exact hpoint (state_of_newest (hguids o (Keyed.mem_of_get? ho)) hs hname
        (htoken d hd) hnewest hguid)

end Planned

/-! ### The point -/

/-- A run about to take its point: nothing in origin has the run's stamp yet, and the snapshots that
`zfs snapshot` will make are new to both sides. -/
structure Begins (run : Run) (made : Rel → Ref) (w : World) : Prop where
  point : isPoint run.point = true
  started : run.started = []
  fresh : ∀ o ∈ w.origin, (∀ s ∈ o.snaps, s.name ≠ run.point ∧ s.name ≠ run.keep) ∧
    ∀ b ∈ o.bookmarks, b.name ≠ run.keep
  ordered : ∀ o ∈ w.origin, Ordered o
  unique : ∀ o ∈ w.origin, UniqueGuids o
  named : ∀ rel, (made rel).name = run.point
  later : ∀ o ∈ w.origin, ∀ s ∈ o.snaps, s.createtxg < (made o.rel).createtxg
  new : ∀ o ∈ w.origin, ∀ s ∈ o.snaps, s.guid ≠ (made o.rel).guid
  unheld : ∀ rel, ∀ d ∈ w.drive, ∀ s ∈ d.snaps, s.guid ≠ (made rel).guid

section Point

variable {made : Rel → Ref} {origin after : Origins}

theorem addSnap_spec {rel : Rel} (h : addSnap made origin rel = some after) :
    snapsOf after rel = snapsOf origin rel ++ [made rel] ∧
      (∀ r, r ≠ rel → snapsOf after r = snapsOf origin r) ∧
      ∀ r, bookmarksOf after r = bookmarksOf origin r := by
  obtain ⟨o, ho, h⟩ := Option.bind_eq_some_iff.mp h
  obtain ⟨snaps, hsnaps, rfl⟩ := Option.map_eq_some_iff.mp h
  obtain rfl : o.rel = rel := Keyed.key_of_get? ho
  have hself : (origin.set { o with snaps }).get? o.rel = some { o with snaps } :=
    Keyed.get?_set_of_get? ho rfl
  have hother : ∀ r, r ≠ o.rel → (origin.set { o with snaps }).get? r = origin.get? r := fun r hr =>
    Keyed.get?_set_of_ne hr
  refine ⟨?_, fun r hr => by rw [snapsOf, hother r hr, snapsOf], fun r => ?_⟩
  · rw [snapsOf_of_get? hself, snapsOf_of_get? ho]
    exact Keyed.push?_items hsnaps
  · by_cases hr : r = o.rel
    · rw [hr, bookmarksOf_of_get? hself, bookmarksOf_of_get? ho]
    · rw [bookmarksOf, hother r hr, bookmarksOf]

theorem snapsOf_ne_append_twice {rel : Rel} {l : List Ref} {s : Ref} :
    snapsOf after rel ≠ l ++ [s] ++ [s] := by
  intro h
  have hnodup := nodup_snapsOf after rel
  rw [h] at hnodup
  simp [List.nodup_append] at hnodup

theorem foldlM_addSnap {names : List Rel} (h : names.foldlM (addSnap made) origin = some after) :
    ∀ rel, bookmarksOf after rel = bookmarksOf origin rel ∧
      (snapsOf after rel = snapsOf origin rel ∨
        rel ∈ names ∧ snapsOf after rel = snapsOf origin rel ++ [made rel]) := by
  induction names generalizing origin with
  | nil =>
      intro rel
      cases h
      exact ⟨rfl, .inl rfl⟩
  | cons head rest ih =>
      intro rel
      obtain ⟨mid, hmid, hrest⟩ := Option.bind_eq_some_iff.mp h
      obtain ⟨hself, hother, hbookmarks⟩ := addSnap_spec hmid
      obtain ⟨hafter, hsnaps⟩ := ih hrest rel
      refine ⟨hafter.trans (hbookmarks rel), ?_⟩
      by_cases hrel : rel = head
      · subst hrel
        right
        refine ⟨List.mem_cons_self, ?_⟩
        rw [hself] at hsnaps
        exact hsnaps.elim id fun ⟨_, htwice⟩ => absurd htwice snapsOf_ne_append_twice
      · rw [hother rel hrel] at hsnaps
        exact hsnaps.imp id fun ⟨hmem, hsnaps⟩ => ⟨List.mem_cons_of_mem _ hmem, hsnaps⟩

/-- Each dataset has at most the new snapshot more than before, which then names the drive. -/
def Took (made : Rel → Ref) (disk : String) (w w' : World) : Prop :=
  w'.drive = w.drive ∧ ∀ rel, bookmarksOf w'.origin rel = bookmarksOf w.origin rel ∧
    (snapsOf w'.origin rel = snapsOf w.origin rel ∨
      snapsOf w'.origin rel = snapsOf w.origin rel ++ [made rel] ∧
      w'.owner rel (made rel).guid = disk)

theorem took_refl {disk : String} {w w' : World} (hdrive : w'.drive = w.drive)
    (horigin : w'.origin = w.origin) :
    Took made disk w w' :=
  ⟨hdrive, fun rel => by rw [horigin]; exact ⟨rfl, .inl rfl⟩⟩

theorem took_snapshot {names : List Rel} {disk : String} {w w' : World} (h : Took made disk w w') :
    Took made disk w (w'.snapshot names made disk).2 := by
  obtain ⟨hdrive, htaken⟩ := h
  unfold World.snapshot
  split
  · exact ⟨hdrive, htaken⟩
  · split
    · rename_i origin horigin
      refine ⟨hdrive, fun rel => ?_⟩
      obtain ⟨hbookmarks, hsnaps⟩ := foldlM_addSnap horigin rel
      obtain ⟨hbefore, hold⟩ := htaken rel
      refine ⟨hbookmarks.trans hbefore, ?_⟩
      rcases hsnaps with hsame | ⟨hmem, hmade⟩
      · refine hold.imp (fun hold => hsame.trans hold) fun ⟨hold, howner⟩ => ⟨hsame.trans hold, ?_⟩
        show (if rel ∈ names ∧ (made rel).guid = (made rel).guid then disk
          else w'.owner rel _) = disk
        rw [howner, ite_self]
      · rcases hold with hold | ⟨hold, -⟩
        · refine .inr ⟨by rw [hmade, hold], ?_⟩
          exact if_pos ⟨hmem, rfl⟩
        · rw [hold] at hmade
          exact absurd hmade snapsOf_ne_append_twice
    · exact ⟨hdrive, htaken⟩

theorem took_snapshotPools {disk : String} {wanted : List Rel} {pools : List Rel} {w w' : World}
    (h : Took made disk w w') : Took made disk w (snapshotPools made disk wanted pools w').2 := by
  induction pools generalizing w' with
  | nil => exact h
  | cons pool rest ih =>
      unfold snapshotPools
      dsimp only
      split
      · exact ih h
      · split
        · exact ih (took_snapshot h)
        · exact took_snapshot h

theorem takePoint_spec (run : Run) (made : Rel → Ref) (w : World) :
    Took made run.disk.text w (takePoint run made w).2.2 ∧
      ∃ origin, (takePoint run made w).2.1 = { run with origin } := by
  unfold takePoint
  dsimp only
  split
  · exact ⟨took_refl rfl rfl, run.origin, rfl⟩
  · exact ⟨took_snapshotPools (took_refl rfl rfl), _, rfl⟩

end Point

/-! ### Every run -/

/-- What a run has ready for its ending. -/
structure Ready (run : Run) (w : World) : Prop where
  point : isPoint run.point = true
  ordered : ∀ o ∈ w.origin, Ordered o
  unique : ∀ o ∈ w.origin, UniqueGuids o
  fresh : ∀ rel, (∀ s ∈ snapsOf w.origin rel, s.name ≠ run.keep) ∧
    ∀ b ∈ bookmarksOf w.origin rel, b.name ≠ run.keep
  owned : ∀ rel, ∀ s ∈ snapsOf w.origin rel, s.name = run.point → w.owner rel s.guid = run.disk.text
  idle : run.started = [] →
    ∀ rel, ∀ s ∈ snapsOf w.origin rel, s.name = run.point → ∀ r, s.guid ∉ guidsOf w.drive r
  held : ∀ rel, ∀ s ∈ snapsOf w.origin rel, s.name = run.point → Lands s.guid w.drive rel ∧
    (s.guid ∈ guidsOf w.drive rel → rel ∈ run.started ∧ s ∈ snapsOf run.origin rel)

theorem mem_guidsOf {drive : Drive} {rel : Rel} {guid : String} :
    guid ∈ guidsOf drive rel ↔ ∃ d, drive.get? rel = some d ∧ ∃ s ∈ d.snaps, s.guid = guid := by
  cases hget : drive.get? rel with
  | none => simp [guidsOf, hget]
  | some d =>
      rw [guidsOf_of_get? hget, List.mem_map]
      constructor
      · intro h
        exact ⟨d, rfl, h⟩
      · rintro ⟨d', hd, h⟩
        exact Option.some.inj hd ▸ h

section Runs

variable {run₀ run : Run} {made : Rel → Ref} {w₀ w : World}

theorem ready_takePoint (h : Begins run₀ made w₀) :
    Ready (takePoint run₀ made w₀).2.1 (takePoint run₀ made w₀).2.2 := by
  obtain ⟨⟨hdrive, htaken⟩, origin, hrun⟩ := takePoint_spec run₀ made w₀
  have hold : ∀ rel, ∀ s ∈ snapsOf w₀.origin rel, (s.name ≠ run₀.point ∧ s.name ≠ run₀.keep) ∧
      s.createtxg < (made rel).createtxg ∧ s.guid ≠ (made rel).guid := by
    intro rel s hs
    obtain ⟨o, ho, hsnap⟩ := mem_snapsOf.mp hs
    obtain ⟨hmem, rfl⟩ := Keyed.get?_eq_some_iff.mp ho
    exact ⟨(h.fresh o hmem).1 s hsnap, h.later o hmem s hsnap, h.new o hmem s hsnap⟩
  have hcases : ∀ rel, ∀ s ∈ snapsOf (takePoint run₀ made w₀).2.2.origin rel,
      s ∈ snapsOf w₀.origin rel ∨
        s = made rel ∧ (takePoint run₀ made w₀).2.2.owner rel (made rel).guid = run₀.disk.text := by
    intro rel s hs
    rcases (htaken rel).2 with hsame | ⟨hmade, howner⟩
    · exact .inl (hsame ▸ hs)
    · rw [hmade, List.mem_append, List.mem_singleton] at hs
      exact hs.imp id fun hs => ⟨hs, howner⟩
  have hmade : ∀ rel, ∀ s ∈ snapsOf (takePoint run₀ made w₀).2.2.origin rel, s.name = run₀.point →
      s = made rel ∧ (takePoint run₀ made w₀).2.2.owner rel (made rel).guid = run₀.disk.text :=
    fun rel s hs hname => (hcases rel s hs).resolve_left fun hs => (hold rel s hs).1.1 hname
  have hout : ∀ rel, ∀ s ∈ snapsOf (takePoint run₀ made w₀).2.2.origin rel, s.name = run₀.point →
      ∀ r, s.guid ∉ guidsOf (takePoint run₀ made w₀).2.2.drive r := by
    intro rel s hs hname r hmem
    rw [hdrive, (hmade rel s hs hname).1] at hmem
    obtain ⟨d, hd, t, ht, hguid⟩ := mem_guidsOf.mp hmem
    exact h.unheld rel d (Keyed.mem_of_get? hd) t ht hguid
  rw [hrun]
  refine ⟨h.point, ?_, ?_, fun rel => ⟨fun s hs => ?_, ?_⟩, ?_, fun _ => hout, ?_⟩
  · refine (forall_snapsOf (P := List.Pairwise _) .nil).mpr fun rel => ?_
    have hbefore := (forall_snapsOf (P := List.Pairwise _) .nil).mp h.ordered rel
    rcases (htaken rel).2 with hsame | ⟨happended, -⟩
    · rwa [hsame]
    · rw [happended, List.pairwise_append]
      refine ⟨hbefore, List.pairwise_singleton _ _, fun s hs t ht => ?_⟩
      rw [List.mem_singleton.mp ht]
      exact (hold rel s hs).2.1
  · refine (forall_snapsOf (P := fun l => ∀ s ∈ l, ∀ t ∈ l, s.guid = t.guid → s = t) (by simp)).mpr
      fun rel s hs t ht hguid => ?_
    have hbefore :=
      (forall_snapsOf (P := fun l => ∀ s ∈ l, ∀ t ∈ l, s.guid = t.guid →
        s = t) (by simp)).mp h.unique rel
    rcases hcases rel s hs with hs | ⟨rfl, -⟩
    · rcases hcases rel t ht with ht | ⟨rfl, -⟩
      · exact hbefore s hs t ht hguid
      · exact absurd hguid (hold rel s hs).2.2
    · rcases hcases rel t ht with ht | ⟨rfl, -⟩
      · exact absurd hguid.symm (hold rel t ht).2.2
      · rfl
  · rcases hcases rel s hs with hs | ⟨rfl, -⟩
    · exact (hold rel s hs).1.2
    · intro hkeep
      have hpoint : isPoint run₀.keep = true := by
        show isPoint (Run.keep { run₀ with origin }) = true
        rw [← hkeep, h.named]
        exact h.point
      rw [Run.keep, isPoint_anchorName run₀.disk h.point] at hpoint
      cases hpoint
  · rw [(htaken rel).1]
    intro b hb
    obtain ⟨o, ho, hb⟩ := mem_bookmarksOf.mp hb
    exact (h.fresh o (Keyed.mem_of_get? ho)).2 b hb
  · intro rel s hs hname
    obtain ⟨rfl, howner⟩ := hmade rel s hs hname
    exact howner
  · intro rel s hs hname
    exact ⟨lands_of_not_mem (hout rel s hs hname rel), fun hmem =>
      absurd hmem (hout rel s hs hname rel)⟩

/-- A survey reads both sides, or only origin, and changes neither. -/
theorem survey_spec (run : Run) (w : World) :
    (∃ origin dest, (survey run w).2.1 = { run with origin, dest } ∧
        (origin = run.origin ∨ origin = w.origin)) ∧
      (survey run w).2.2.origin = w.origin ∧ (survey run w).2.2.drive = w.drive ∧
        (survey run w).2.2.owner = w.owner := by
  unfold survey
  dsimp only
  split
  · exact ⟨⟨run.origin, run.dest, rfl, .inl rfl⟩, rfl, rfl, rfl⟩
  · split
    · exact ⟨⟨w.origin, run.dest, rfl, .inr rfl⟩, rfl, rfl, rfl⟩
    · exact ⟨⟨w.origin, w.drive, rfl, .inr rfl⟩, rfl, rfl, rfl⟩

theorem ready_survey (h : Ready run w) : Ready (survey run w).2.1 (survey run w).2.2 := by
  obtain ⟨⟨origin, dest, hrun, hread⟩, horigin, hdrive, howner⟩ := survey_spec run w
  rw [hrun]
  refine ⟨h.point, ?_, ?_, ?_, ?_, ?_, ?_⟩
  · rw [horigin]
    exact h.ordered
  · rw [horigin]
    exact h.unique
  · rw [horigin]
    exact h.fresh
  · rw [horigin, howner]
    exact h.owned
  · rw [horigin, hdrive]
    exact h.idle
  · rw [horigin, hdrive]
    intro rel s hs hname
    obtain ⟨hlands, hheld⟩ := h.held rel s hs hname
    refine ⟨hlands, fun hmem => ⟨(hheld hmem).1, ?_⟩⟩
    show s ∈ snapsOf origin rel
    rcases hread with rfl | rfl
    · exact (hheld hmem).2
    · exact hs

theorem outcome_get?_of_ne {p : DatasetPlan} {dest after : Drive}
    (h : Outcome run p dest after) {r : Rel} (hr : r ≠ p.rel) : after.get? r = dest.get? r := by
  cases h with
  | sent h => exact transfers_get?_of_ne h hr
  | @resumed d x snaps hstate hd htoken hsnaps =>
      have hrel : d.rel = p.rel := Keyed.key_of_get? hd
      exact Keyed.get?_set_of_ne (hrel ▸ hr)

/-- A transfer lands the point where it was not: its streams end there, and a resumed receive adds
one snapshot. -/
theorem lands_of_outcome {p : DatasetPlan} {dest after : Drive} {o : Origin} {s : Ref}
    (h : Outcome run p dest after) (ho : run.origin.get? p.rel = some o) (hordered : Ordered o)
    (hguids : UniqueGuids o) (hs : s ∈ o.snaps) (hname : s.name = run.point)
    (hbefore : s.guid ∉ guidsOf dest p.rel) : Lands s.guid after p.rel := by
  obtain hrel : o.rel = p.rel := Keyed.key_of_get? ho
  cases h with
  | sent h =>
      rw [← hname] at h
      rw [← hrel] at ho
      obtain ⟨hends, hmiddle⟩ := endsAt_sendArgs ho hordered hguids hs hrel.symm
      exact lands_of_transfers h hends hmiddle hbefore
  | @resumed d x snaps hstate hd htoken hsnaps =>
      intro hmem
      have hset :=
        Keyed.get?_set_of_get? (b := { d with snaps, token := "" }) hd
          (Keyed.key_of_get? hd : d.rel = _)
      have hguids : guidsOf (dest.set { d with snaps, token := "" }) p.rel
          = guidsOf dest p.rel ++ [x.guid] := by
        rw [guidsOf_of_get? hset, guidsOf_of_get? hd]
        show snaps.items.map Ref.guid = _
        rw [Keyed.push?_items hsnaps, List.map_append, List.map_singleton]
      have hlast : s.guid = x.guid := by
        rw [hguids, List.mem_append, List.mem_singleton] at hmem
        exact hmem.resolve_left hbefore
      refine ⟨by rw [hguids, hlast]; simp, fun e he => ?_⟩
      obtain rfl := Option.some.inj (hset.symm.trans he)
      rfl

theorem ready_transfer {p : DatasetPlan} {drive : Drive} (h : Ready run w)
    (horigin : run.origin = w.origin) (hdest : run.dest.get? p.rel = w.drive.get? p.rel)
    (hp : p ∈ plan run.origin run.dest run.point run.exclusions)
    (hstate : p.state.transferable = true) (hpoint : p.state ≠ .atPoint)
    (houtcome : Outcome run p w.drive drive) :
    Ready { run with started := p.rel :: run.started } { w with drive } := by
  refine ⟨h.point, h.ordered, h.unique, h.fresh, h.owned, fun hidle =>
    absurd hidle (List.cons_ne_nil _ _), fun rel s hs hname => ?_⟩
  obtain ⟨hlands, hheld⟩ := h.held rel s hs hname
  by_cases hrel : rel = p.rel
  · subst hrel
    refine ⟨?_, fun _ => ⟨List.mem_cons_self, horigin.symm ▸ hs⟩⟩
    have hguids : guidsOf run.dest p.rel = guidsOf w.drive p.rel := by rw [guidsOf, hdest, guidsOf]
    have hbefore : s.guid ∉ guidsOf w.drive p.rel := by
      rw [← hguids]
      refine not_held_of_transferable hp hstate hpoint ?_ ?_ hname ?_
      · rw [horigin]
        exact h.unique
      · rw [horigin]
        exact hs
      · rw [Lands, hguids, hdest]
        exact hlands
    cases ho : w.origin.get? p.rel with
    | none =>
        rw [snapsOf, ho] at hs
        cases hs
    | some o =>
        have hmem := Keyed.mem_of_get? ho
        rw [snapsOf_of_get? ho] at hs
        exact lands_of_outcome houtcome (horigin ▸ ho) (h.ordered o hmem)
          (h.unique o hmem) hs hname hbefore
  · have hother : drive.get? rel = w.drive.get? rel := outcome_get?_of_ne houtcome hrel
    show Lands s.guid drive rel ∧ (s.guid ∈ guidsOf drive rel →
      rel ∈ p.rel :: run.started ∧ s ∈ snapsOf run.origin rel)
    rw [Lands, guidsOf, hother, ← guidsOf]
    exact ⟨hlands, fun hmem => ⟨List.mem_cons_of_mem _ (hheld hmem).1, (hheld hmem).2⟩⟩

theorem ready_discard {drive : Drive} (h : Ready run w)
    (hdrive : ∀ e ∈ drive, ∃ d ∈ w.drive, d.rel = e.rel ∧ e.snaps = d.snaps ∧
      (e.token = d.token ∨ e.token = "")) :
    Ready run { w with drive } := by
  have hget : ∀ {rel e}, drive.get? rel = some e →
      ∃ d, w.drive.get? rel = some d ∧ e.snaps = d.snaps ∧ (e.token = d.token ∨ e.token = "") := by
    intro rel e he
    obtain ⟨hmem, rfl⟩ := Keyed.get?_eq_some_iff.mp he
    obtain ⟨d, hd, hrel, hsnaps, htoken⟩ := hdrive e hmem
    exact ⟨d, Keyed.get?_eq_some_iff.mpr ⟨hd, hrel⟩, hsnaps, htoken⟩
  have hguids : ∀ {rel guid}, guid ∈ guidsOf drive rel →
      guidsOf drive rel = guidsOf w.drive rel := by
    intro rel guid hmem
    obtain ⟨e, he, -⟩ := mem_guidsOf.mp hmem
    obtain ⟨d, hd, hsnaps, -⟩ := hget he
    rw [guidsOf_of_get? he, guidsOf_of_get? hd, hsnaps]
  refine ⟨h.point, h.ordered, h.unique, h.fresh, h.owned, fun hidle rel s hs hname r hmem => ?_,
    fun rel s hs hname => ?_⟩
  · exact h.idle hidle rel s hs hname r (hguids hmem ▸ hmem)
  · obtain ⟨hlands, hheld⟩ := h.held rel s hs hname
    refine ⟨fun hmem => ?_, fun hmem => hheld (hguids hmem ▸ hmem)⟩
    obtain ⟨hlast, htoken⟩ := hlands (hguids hmem ▸ hmem)
    refine ⟨hguids hmem ▸ hlast, fun e he => ?_⟩
    obtain ⟨d, hd, -, hsame⟩ := hget he
    exact hsame.elim (fun hsame => hsame.trans (htoken d hd)) id

/-- Every run comes to its ending ready for it. -/
theorem ready_of_progress (hbegins : Begins run₀ made w₀) (h : Progress run₀ made w₀ run w) :
    Ready run w := by
  induction h with
  | took => exact ready_takePoint hbegins
  | surveyed h ih => exact ready_survey ih
  | @decided run w dest drive h hstarted hdrive ih =>
      have hout : ∀ rel, ∀ s ∈ snapsOf w.origin rel, s.name = run.point →
          ∀ r, s.guid ∉ guidsOf drive r := by
        intro rel s hs hname r hmem
        obtain ⟨e, he, t, ht, hguid⟩ := mem_guidsOf.mp hmem
        obtain ⟨d, hd, x, hx, hsame⟩ := hdrive e (Keyed.mem_of_get? he) t ht
        refine ih.idle hstarted rel s hs hname d.rel
          (mem_guidsOf.mpr ⟨d, Keyed.get?_of_mem hd, x, hx, ?_⟩)
        exact hsame.trans hguid
      refine ⟨ih.point, ih.ordered, ih.unique, ih.fresh, ih.owned, fun _ =>
        hout, fun rel s hs hname => ?_⟩
      exact ⟨lands_of_not_mem (hout rel s hs hname rel), fun hmem =>
        absurd hmem (hout rel s hs hname rel)⟩
  | transferred h horigin hdest hp hstate hpoint houtcome ih =>
      exact ready_transfer ih horigin hdest hp hstate hpoint houtcome
  | discarded h hdrive ih => exact ready_discard ih hdrive

end Runs

end Zark
