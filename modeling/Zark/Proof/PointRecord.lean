import Zark.Library.Best
import Zark.PointRecord
import Zark.Proof.PointMark

/-!
# A record reads back whole or not at all

A record is told apart from a pointer by the fields of its JSON, and a pointer's digest is that of
the whole record. So whichever writes of a new record took effect over an earlier one, the mark
stands for one of the two, and what the parts give is that record or nothing.
-/

namespace Zark

/-! ### The parts of a record -/

theorem length_parts (mark : String) :
    (parts mark).length = (mark.toList.length + markLimit - 1) / markLimit := by
  rw [parts, List.length_map, List.length_cutInto]

theorem join_parts (mark : String) : String.join (parts mark) = mark := by
  apply String.toList_injective
  rw [String.toList_join, parts, List.flatMap_map]
  simp only [String.toList_ofList]
  rw [List.flatMap_id', List.flatten_cutInto (by decide)]

theorem partProp_injective {i j : ℕ} (h : partProp i = partProp j) : i = j := by
  have hlist := congrArg String.toList h
  simp only [partProp, String.toList_append, List.append_cancel_left_eq,
    String.toList_ofList] at hlist
  rw [← @Nat.ofDigitChars_ten_toDigits i, hlist, Nat.ofDigitChars_ten_toDigits]

theorem partProp_ne_markProp (i : ℕ) : partProp i ≠ markProp := by
  intro h
  have hlen := congrArg (fun s => s.toList.length) h
  simp only [partProp, String.toList_append, List.length_append] at hlen
  have hdot : ".".toList.length = 1 := rfl
  omega

/-! ### What a value stands for -/

section Pointer

variable {sha : String → String}

theorem pointer_dump {m : PointMark} (h : m.Named) : pointer m.dump = none := by
  rw [pointer, PointMark.dump, String.toList_ofList, Json.loads_dumps (plain_toJson h)]
  rfl

theorem plain_pointerTo (mark : String) : Json.Plain (pointerTo sha mark) :=
  ⟨⟨trivial, trivial, trivial⟩, by simp⟩

theorem pointer_pointerTo {mark : String} (hone : 1 ≤ (parts mark).length)
    (hmost : (parts mark).length ≤ maxParts) :
    pointer (String.ofList (Json.dumps (pointerTo sha mark)))
      = some ((parts mark).length, sha mark) := by
  rw [pointer, String.toList_ofList, Json.loads_dumps (plain_pointerTo mark)]
  have hrange : 1 ≤ ((parts mark).length : Int) ∧ ((parts mark).length : Int) ≤ (maxParts : ℕ) := by
    omega
  show some (if _ then _ else _) = _
  rw [if_pos hrange, Int.toNat_natCast]

theorem pointer_le {value digest : String} {n : ℕ} (h : pointer value = some (n, digest)) :
    n ≤ maxParts := by
  unfold pointer at h
  split at h
  · obtain ⟨v, -, hv⟩ := Option.map_eq_some_iff.mp h
    split at hv
    · split at hv
      · rename_i hrange
        obtain ⟨rfl, -⟩ := Prod.mk.inj hv
        omega
      · obtain ⟨rfl, -⟩ := Prod.mk.inj hv
        exact Nat.zero_le _
    · obtain ⟨rfl, -⟩ := Prod.mk.inj hv
      exact Nat.zero_le _
  · cases h

end Pointer

/-! ### What a drive's snapshots give -/

theorem pieces_eq {props : Props} {most n : ℕ} (h : n ≤ most) :
    pieces props most n = (List.range n).map fun i => props (partProp (i + 1)) :=
  List.map_congr_left fun _ hi => if_pos ((List.mem_range.mp hi).trans_le h)

/-- What is read for a snapshot is what its own mark stands for, whatever the other snapshots
hold. -/
theorem lookup_pointRecords (sha : String → String) {drive : Keyed MarkedSnap.snap} {s : MarkedSnap}
    {value : String} (hs : s ∈ drive) (hvalue : s.props markProp = some value) :
    (pointRecords sha drive).lookup s.snap = some (recordOf sha maxParts s.props value) := by
  have hmark : (s, value) ∈ recordMarks drive := by
    refine List.mem_filterMap.mpr ⟨s, hs, ?_⟩
    rw [hvalue]
    rfl
  have hone : ∀ m ∈ recordMarks drive, m.1.snap = s.snap → m = (s, value) := by
    intro m hm hsnap
    obtain ⟨t, ht, hmap⟩ := List.mem_filterMap.mp hm
    obtain ⟨v, hv, rfl⟩ := Option.map_eq_some_iff.mp hmap
    obtain rfl : t = s := drive.eq_of_key ht hs hsnap
    rw [hvalue] at hv
    cases hv
    rfl
  have hmost : ∀ n digest, pointer value = some (n, digest) →
      n ≤ (((recordMarks drive).filterMap fun m => pointer m.2).map Prod.fst).foldl max 0 := by
    intro n digest hpointer
    refine (Best.foldl_max_le_iff (f := id).mp le_rfl).2 n (List.mem_map.mpr ⟨(n, digest), ?_, rfl⟩)
    exact List.mem_filterMap.mpr ⟨(s, value), hmark, hpointer⟩
  show List.lookup s.snap ((recordMarks drive).map fun m => (m.1.snap,
    recordOf sha ((((recordMarks drive).filterMap fun m => pointer m.2).map Prod.fst).foldl max 0)
      m.1.props m.2)) = _
  generalize (((recordMarks drive).filterMap fun m => pointer m.2).map Prod.fst).foldl max 0
    = most at hmost ⊢
  have hrecord : recordOf sha most s.props value = recordOf sha maxParts s.props value := by
    rw [recordOf, recordOf]
    cases hpointer : pointer value with
    | none => rfl
    | some p =>
        dsimp only
        rw [pieces_eq (hmost p.1 p.2 hpointer), pieces_eq (pointer_le hpointer)]
  rw [← hrecord]
  generalize recordMarks drive = marks at hmark hone
  induction marks with
  | nil => exact absurd hmark List.not_mem_nil
  | cons m marks ih =>
      rw [List.map_cons, List.lookup_cons]
      by_cases hsnap : m.1.snap = s.snap
      · rw [hone m List.mem_cons_self hsnap]
        simp
      · have hne : m ≠ (s, value) := by
          rintro rfl
          exact hsnap rfl
        rw [beq_eq_false_iff_ne.mpr (Ne.symm hsnap)]
        exact ih ((List.mem_cons.mp hmark).resolve_left (Ne.symm hne)) fun x hx =>
          hone x (List.mem_cons_of_mem _ hx)

/-! ### Writing a record -/

theorem write_cases (props : Props) (ws : List (String × String)) (k : String) :
    (∃ w ∈ ws, w.1 = k ∧ write props ws k = some w.2) ∨ (∀ w ∈ ws, w.1 ≠ k) ∧
    write props ws k = props k := by
  induction ws using List.reverseRecOn with
  | nil => exact .inr ⟨fun _ h => absurd h List.not_mem_nil, rfl⟩
  | append_singleton ws w ih =>
      have hstep : write props (ws ++ [w]) = Function.update (write props ws) w.1 (some w.2) := by
        rw [write, List.foldl_append]
        rfl
      rw [hstep]
      by_cases hk : w.1 = k
      · subst hk
        exact .inl ⟨w, by simp, rfl, Function.update_self _ _ _⟩
      · rw [Function.update_of_ne (Ne.symm hk)]
        refine ih.imp ?_ ?_
        · rintro ⟨x, hx, hkey, hvalue⟩
          exact ⟨x, List.mem_append_left _ hx, hkey, hvalue⟩
        · rintro ⟨hnone, hvalue⟩
          refine ⟨fun x hx => ?_, hvalue⟩
          obtain hx | hx := List.mem_append.mp hx
          · exact hnone x hx
          · rw [List.mem_singleton.mp hx]
            exact hk

section Record

variable (sha : String → String)

/-- The record is written on the snapshot. -/
def Holds (props : Props) (mark : String) : Prop := ∀ w ∈ recordProps sha mark, props w.1 = some w.2

/-- The texts whose digests are compared while the record is written: the parts joined after some of
the writes. -/
def comparedTexts (props : Props) (mark : String) : Set String :=
  {text | ∃ ws, (∀ w ∈ ws, w ∈ recordProps sha mark) ∧ ∃ n ≤ maxParts, text = joined (pieces (write props ws) maxParts n)}

/-- The value a record's mark has. -/
def headValue (mark : String) : String :=
  if mark.toList.length ≤ markLimit then mark else String.ofList (Json.dumps (pointerTo sha mark))

variable {sha}

theorem nodup_recordProps (mark : String) : ((recordProps sha mark).map Prod.fst).Nodup := by
  rw [recordProps]
  split
  · exact List.nodup_singleton _
  · have hkeys : ((parts mark).mapIdx fun i p => (partProp (i + 1), p)).map Prod.fst =
        (List.range (parts mark).length).map fun i => partProp (i + 1) :=
        List.ext_getElem (by simp) fun i _ _ => by simp
    rw [List.map_cons, List.nodup_cons, hkeys]
    refine ⟨fun h => ?_, List.nodup_range.map fun i j h =>
      Nat.succ_injective (partProp_injective h)⟩
    obtain ⟨i, -, heq⟩ := List.mem_map.mp h
    exact partProp_ne_markProp _ heq

theorem holds_write (props : Props) (mark : String) :
    Holds sha (write props (recordProps sha mark)) mark := by
  intro w hw
  obtain ⟨x, hx, hkey, hvalue⟩ | ⟨hnone, -⟩ := write_cases props (recordProps sha mark) w.1
  · rw [hvalue, List.inj_on_of_nodup_map (nodup_recordProps mark) hx hw hkey]
  · exact absurd rfl (hnone w hw)

theorem Holds.markProp {props : Props} {mark : String} (h : Holds sha props mark) :
    props Zark.markProp = some (headValue sha mark) := by
  have hmem : (Zark.markProp, headValue sha mark) ∈ recordProps sha mark := by
    rw [recordProps, headValue]
    split <;> simp
  exact h _ hmem

theorem Holds.joined {props : Props} {mark : String} (h : Holds sha props mark)
    (hlong : ¬mark.toList.length ≤ markLimit) :
    (List.range (parts mark).length).map (fun i => props (partProp (i + 1))) =
    (parts mark).map some := by
  refine List.ext_getElem (by simp) fun i hi _ => ?_
  rw [List.length_map, List.length_range] at hi
  rw [List.getElem_map, List.getElem_map, List.getElem_range]
  refine h (partProp (i + 1), (parts mark)[i]) ?_
  rw [recordProps, if_neg hlong]
  refine List.mem_cons_of_mem _ (List.mem_mapIdx.mpr ⟨i, hi, rfl⟩)

theorem joined_map_some (l : List String) : Zark.joined (l.map some) = String.join l := by
  rw [Zark.joined, List.reduceOption, List.filterMap_map]
  exact congrArg String.join List.filterMap_some

theorem partsNeeded_eq {mark : String} (hlong : ¬mark.toList.length ≤ markLimit) :
    partsNeeded mark = (parts mark).length ∧ 1 ≤ (parts mark).length := by
  have hone : 1 ≤ (parts mark).length := by
    rw [length_parts]
    rw [markLimit] at hlong ⊢
    omega
  refine ⟨?_, hone⟩
  rw [partsNeeded, ← length_parts]
  exact max_eq_right hone

theorem Holds.recordOf {props : Props} {m : PointMark} (hnamed : m.Named)
    (hparts : partsNeeded m.dump ≤ maxParts) (h : Holds sha props m.dump) :
    recordOf sha maxParts props (headValue sha m.dump) = some m.dump := by
  rw [Zark.recordOf, headValue]
  split_ifs with hshort
  · rw [pointer_dump hnamed]
  · obtain ⟨hneeded, hone⟩ := partsNeeded_eq hshort
    rw [hneeded] at hparts
    rw [pointer_pointerTo hone hparts]
    dsimp only
    rw [pieces_eq hparts, h.joined hshort]
    rw [joined_map_some, join_parts, if_pos ⟨hone, by simp, rfl⟩]

/-- Whatever the parts hold, a record's mark stands for that record or for nothing. -/
theorem recordOf_headValue {props : Props} {m : PointMark} (hnamed : m.Named)
    (hparts : partsNeeded m.dump ≤ maxParts)
    (hdigest : ¬m.dump.toList.length ≤ markLimit → ∀ n ≤ maxParts,
      sha (Zark.joined (pieces props maxParts n)) = sha m.dump →
      Zark.joined (pieces props maxParts n) = m.dump) :
    recordOf sha maxParts props (headValue sha m.dump) = some m.dump ∨
      recordOf sha maxParts props (headValue sha m.dump) = none := by
  rw [Zark.recordOf, headValue]
  split_ifs with hshort
  · rw [pointer_dump hnamed]
    exact .inl rfl
  · obtain ⟨hneeded, hone⟩ := partsNeeded_eq hshort
    rw [hneeded] at hparts
    rw [pointer_pointerTo hone hparts]
    dsimp only
    split_ifs with hwhole
    · exact .inl (congrArg some (hdigest hshort _ hparts hwhole.2.2))
    · exact .inr rfl

/-- A record that is on the snapshot is, when it has parts, one of the texts compared. -/
theorem Holds.mem_comparedTexts {props : Props} {mark mark' : String} {ws : List (String × String)}
    (hws : ∀ w ∈ ws, w ∈ recordProps sha mark') (h : Holds sha (write props ws) mark)
    (hlong : ¬mark.toList.length ≤ markLimit) (hparts : partsNeeded mark ≤ maxParts) :
    mark ∈ comparedTexts sha props mark' := by
  rw [(partsNeeded_eq hlong).1] at hparts
  refine ⟨ws, hws, (parts mark).length, hparts, ?_⟩
  rw [pieces_eq hparts, h.joined hlong, joined_map_some, join_parts]

end Record

/-- Once every property of a record is set it reads back, whatever the earlier record left; when
only some were, it, the earlier record or nothing reads back. -/
theorem point_record_whole_or_none (sha : String → String) {earlier m : PointMark}
    (hnamed₀ : earlier.Named) (hnamed : m.Named) (hparts₀ : partsNeeded earlier.dump ≤ maxParts)
    (hparts : partsNeeded m.dump ≤ maxParts) {drive : Keyed MarkedSnap.snap} {s : MarkedSnap}
    (hs : s ∈ drive) (hearlier : Holds sha s.props earlier.dump)
    (hsha : Set.InjOn sha (comparedTexts sha s.props m.dump)) :
    (pointRecords sha (drive.set ⟨s.snap, write s.props (recordProps sha m.dump)⟩)).lookup s.snap
      = some (some m.dump) ∧
    ∀ ws, (∀ w ∈ ws, w ∈ recordProps sha m.dump) →
      ∃ found, (pointRecords sha (drive.set ⟨s.snap, write s.props ws⟩)).lookup s.snap
        = some found ∧
        (found = some m.dump ∨ found = some earlier.dump ∨ found = none) := by
  have hmem : ∀ props, (⟨s.snap, props⟩ : MarkedSnap) ∈ drive.set ⟨s.snap, props⟩ := fun props =>
    Keyed.mem_set.mpr (.inr ⟨rfl, Keyed.mem_keys.mpr ⟨s, hs, rfl⟩⟩)
  have hread : ∀ {props value}, props markProp = some value →
      (pointRecords sha (drive.set ⟨s.snap, props⟩)).lookup s.snap
          = some (recordOf sha maxParts props value) := fun {props} _ h =>
    lookup_pointRecords sha (hmem props) h
  have hall : Holds sha (write s.props (recordProps sha m.dump)) m.dump :=
    holds_write s.props m.dump
  refine ⟨?_, fun ws hws => ?_⟩
  · rw [hread hall.markProp]
    exact congrArg some (hall.recordOf hnamed hparts)
  · -- The digest of a compared text is that of a record in parts only for that record.
    have hdigest : ∀ m' : PointMark, m'.dump ∈ comparedTexts sha s.props m.dump → ∀ n ≤ maxParts,
        sha (joined (pieces (write s.props ws) maxParts n)) = sha m'.dump →
          joined (pieces (write s.props ws) maxParts n) = m'.dump := fun m' hm' n hn h =>
      hsha ⟨ws, hws, n, hn, rfl⟩ hm' h
    obtain ⟨w, hw, hkey, hvalue⟩ | ⟨-, hvalue⟩ := write_cases s.props ws markProp
    · have hhead : w.2 = headValue sha m.dump := by
        have hwritten := hall w (hws w hw)
        rw [hkey, hall.markProp] at hwritten
        exact (Option.some.inj hwritten).symm
      rw [hhead] at hvalue
      refine ⟨_, hread hvalue, (recordOf_headValue hnamed hparts fun hlong =>
        hdigest m ?_).imp_right .inr⟩
      exact hall.mem_comparedTexts (fun _ h => h) hlong hparts
    · rw [hearlier.markProp] at hvalue
      refine ⟨_, hread hvalue, .inr (recordOf_headValue hnamed₀ hparts₀ fun hlong =>
        hdigest earlier ?_)⟩
      exact @Holds.mem_comparedTexts sha s.props earlier.dump m.dump []
        (fun _ h => absurd h List.not_mem_nil) hearlier hlong hparts₀

/-- The record of a point that left `rpool/data` out, mounted at a path of `n` letters. -/
def longMark (n : ℕ) : PointMark where
  tops := ⟨[⟨["rpool", "data"], .backups⟩], by simp⟩
  datasets := ⟨[⟨["rpool", "data"], "on", String.ofList (List.replicate n 'd')⟩], by simp⟩

theorem named_longMark (n : ℕ) : (longMark n).Named := by
  have hname : Rel.IsName ["rpool", "data"] := by decide +kernel
  refine ⟨fun t ht => ?_, fun d hd => ?_⟩
  · rw [List.mem_singleton.mp ht]
    exact hname
  · rw [List.mem_singleton.mp hd]
    exact hname

theorem length_dump_longMark (n : ℕ) : (longMark n).dump.toList.length = n + 69 := by
  have hescapes : (Json.escapes (String.ofList (List.replicate n 'd')).toList).length = n + 1 := by
    have hflat : (List.replicate n 'd').flatMap Json.escape = List.replicate n 'd' := by
      rw [List.flatMap_replicate, show Json.escape 'd' = ['d'] from rfl]
      simp
    rw [Json.escapes, String.toList_ofList, hflat]
    simp
  have hfields : (longMark n).toJson = .obj [("datasets",
      .obj [("rpool/data", .arr [.str "on", .str (String.ofList (List.replicate n 'd'))])]),
      ("tops", .obj [("rpool/data", .str "backups")])] := rfl
  rw [PointMark.dump, String.toList_ofList, hfields]
  generalize String.ofList (List.replicate n 'd') = path at hescapes
  have hrest : (Json.escapes "rpool/data".toList).length = 11 ∧
      (Json.escapes "datasets".toList).length = 9 ∧ (Json.escapes "tops".toList).length = 5 ∧
      (Json.escapes "on".toList).length = 3 ∧
      (Json.escapes "backups".toList).length = 8 := by decide
  simp only [Json.dumps, Json.dumpItems, Json.dumpFields, List.length_cons, List.length_append,
    List.length_nil, hrest, hescapes]
  omega

theorem partsNeeded_longMark (n : ℕ) :
    partsNeeded (longMark n).dump = max 1 ((n + 69 + 8190) / 8191) := by
  rw [partsNeeded, length_dump_longMark, markLimit]
  rfl

/-- A snapshot that carries a record, and the drive it is on. -/
def markedSnap (mark : String) : MarkedSnap :=
  ⟨(["rpool"], "zark_2026-03-01_00:00:00Z"), write (fun _ => none) (recordProps id mark)⟩

def markedDrive (mark : String) : Keyed MarkedSnap.snap :=
  ⟨[markedSnap mark], List.nodup_singleton _⟩

theorem mem_markedDrive (mark : String) : markedSnap mark ∈ markedDrive mark :=
  List.mem_singleton_self (markedSnap mark)

theorem holds_markedSnap (mark : String) : Holds id (markedSnap mark).props mark := holds_write _ _

/-- A record in three parts is overwritten by one in two; where the writes stop early, what reads
back is one of them or nothing. -/
theorem point_record_whole_or_none_fewer :
    let old := markedSnap (longMark 20000).dump
    let new := recordProps id (longMark 10000).dump
    let readBack :=
      fun ws => (pointRecords id ((markedDrive (longMark 20000).dump).set
        ⟨old.snap, write old.props ws⟩)).lookup old.snap
    partsNeeded (longMark 20000).dump = 3 ∧ partsNeeded (longMark 10000).dump = 2 ∧
      readBack new = some (some (longMark 10000).dump) ∧
      ∀ ws, (∀ w ∈ ws, w ∈ new) →
        ∃ found, readBack ws = some found ∧ (found = some (longMark 10000).dump ∨
            found = some (longMark 20000).dump ∨ found = none) := by
  have hthree : partsNeeded (longMark 20000).dump = 3 := partsNeeded_longMark 20000
  have htwo : partsNeeded (longMark 10000).dump = 2 := partsNeeded_longMark 10000
  exact ⟨hthree, htwo, point_record_whole_or_none id (named_longMark 20000) (named_longMark 10000)
    (by rw [hthree, maxParts]; decide)
    (by rw [htwo, maxParts]; decide) (mem_markedDrive _) (holds_markedSnap _) (Set.injOn_id _)⟩
end Zark
