import Zark.Cleanup

/-!
# What a signal cannot undo

The code of a command is, at every moment, what handlers have put in front, then what is left of an
entry into the cleanup or of a way out of it, then the rest; while `_run` goes on nothing is in
front of it, since every signal is ignored by then. From that shape come the theorems: at most one
stop is recorded and none interrupts what follows it, and what is tracked is released once, in
order.
-/

namespace Zark.Cleanup

open Interrupts

/-! ### What the log says -/

/-- Whether something is tracked, after one more event: it is tracked only while it is not, and let
go of only while it is. -/
def follow (k : Kind) (name : String) (up : Bool) : Event → Option Bool
  | .tracked k' name' => if k' = k ∧ name' = name then if up then none else some true else some up
  | .untracked k' name' | .dropped k' name' | .released k' name' =>
      if k' = k ∧ name' = name then if up then some false else none else some up
  | .command _ => some up

/-- Whether something is tracked once the log is gone through, `none` where the log lets go of it
twice. -/
def standing (k : Kind) (name : String) (log : List Event) : Option Bool :=
  log.foldlM (follow k name) false

/-- The kinds `_run` has gone through before one. -/
def earlier (k : Kind) : List Kind := kinds.takeWhile (· ≠ k)

/-- Nothing is released while something of an earlier kind is tracked. -/
def Orderly (log : List Event) : Prop :=
  ∀ before k name after, log = before ++ .released k name :: after →
    ∀ k' ∈ earlier k, ∀ name', standing k' name' before = some false

/-- The log comes to what is held. -/
structure Accounts (log : List Event) (held : Kind → List String) : Prop where
  nodup : ∀ k, (held k).Nodup
  standing : ∀ k name, standing k name log = some (decide (name ∈ held k))
  orderly : Orderly log

variable {log : List Event} {held held' : Kind → List String} {k : Kind} {name : String}

theorem standing_append (log more : List Event) :
    standing k name (log ++ more) = (standing k name log).bind fun up =>
      more.foldlM (follow k name) up :=
  List.foldlM_append

theorem orderly_nil : Orderly [] := by
  intro before k name after h
  simp at h

theorem Orderly.push (h : Orderly log) {event : Event}
    (hevent : ∀ k name, event = .released k name →
      ∀ k' ∈ earlier k, ∀ name', Cleanup.standing k' name' log = some false) :
    Orderly (log ++ [event]) := by
  intro before k name after hsplit
  obtain ⟨more, hbefore, hmore⟩ | ⟨more, hlog, hmore⟩ := List.append_eq_append_iff.mp hsplit
  · cases more with
    | nil =>
        rw [List.append_nil] at hbefore
        rw [List.nil_append, List.cons.injEq] at hmore
        exact hbefore ▸ hevent k name hmore.1
    | cons a more => simp at hmore
  · cases more with
    | nil =>
        rw [List.append_nil] at hlog
        rw [List.nil_append, List.cons.injEq] at hmore
        exact hlog ▸ hevent k name hmore.1.symm
    | cons a more =>
        rw [List.cons_append, List.cons.injEq] at hmore
        obtain ⟨rfl, -⟩ := hmore
        exact h before k name more hlog

namespace Accounts

theorem nil : Accounts [] fun _ => [] := ⟨fun _ => List.nodup_nil, fun _ _ => rfl, orderly_nil⟩

theorem congr (h : Accounts log held) (hnodup : ∀ k, (held' k).Nodup)
    (hmem : ∀ k name, name ∈ held' k ↔ name ∈ held k) : Accounts log held' :=
  ⟨hnodup, fun k name => by rw [h.standing, decide_eq_decide.mpr (hmem k name)], h.orderly⟩

theorem commands (h : Accounts log held) (texts : List String) :
    Accounts (log ++ texts.map .command) held := by
  induction texts generalizing log with
  | nil => simpa using h
  | cons text texts ih =>
      rw [List.map_cons, List.append_cons]
      refine ih ⟨h.nodup, fun k name => ?_, h.orderly.push fun k name hevent => by cases hevent⟩
      rw [standing_append, h.standing]
      rfl

theorem track (h : Accounts log held) (hname : name ∉ held k) :
    Accounts (log ++ [.tracked k name]) (Function.update held k (held k ++ [name])) := by
  refine ⟨fun k' => ?_, fun k' name' => ?_, h.orderly.push fun k name hevent => by cases hevent⟩
  · obtain rfl | hk := eq_or_ne k' k
    · rw [Function.update_self]
      exact List.nodup_append_comm.mp (List.nodup_cons.mpr ⟨hname, h.nodup _⟩)
    · rw [Function.update_of_ne hk]
      exact h.nodup k'
  · rw [standing_append, h.standing]
    obtain rfl | hk := eq_or_ne k' k
    · obtain rfl | hne := eq_or_ne name' name
      · simp [follow, hname]
      · simp [follow, hne, Ne.symm hne]
    · simp [follow, hk, Ne.symm hk]

theorem drop (h : Accounts log held) (event : Event) {names : List String} (hname : name ∈ held k)
    (hevent : event = .untracked k name ∨ event = .dropped k name ∨ event = .released k name)
    (horder : event = .released k name → ∀ k' ∈ earlier k, held k' = []) (hnodup : names.Nodup)
    (hmem : ∀ name', name' ∈ names ↔ name' ∈ held k ∧ name' ≠ name) :
    Accounts (log ++ [event]) (Function.update held k names) := by
  refine ⟨fun k' => ?_, fun k' name' => ?_, h.orderly.push fun k₀ name₀ hrel k' hk' name' => ?_⟩
  · obtain rfl | hk := eq_or_ne k' k
    · rw [Function.update_self]
      exact hnodup
    · rw [Function.update_of_ne hk]
      exact h.nodup k'
  · rw [standing_append, h.standing]
    have hfollow : ∀ up, follow k' name' up event =
        if k = k' ∧ name = name' then if up then some false else none else some up := by
      obtain rfl | rfl | rfl := hevent <;> exact fun _ => rfl
    rw [Option.bind_some, List.foldlM_cons, hfollow]
    obtain rfl | hk := eq_or_ne k' k
    · obtain rfl | hne := eq_or_ne name' name
      · simp [hname, hmem]
      · simp [hne, Ne.symm hne, hmem]
    · simp [hk, Ne.symm hk]
  · have hsame : event = .released k name ∧ k₀ = k := by
      obtain rfl | rfl | rfl := hevent
      · cases hrel
      · cases hrel
      · exact ⟨rfl, by cases hrel; rfl⟩
    rw [h.standing, horder hsame.1 k' (hsame.2 ▸ hk')]
    rfl

theorem dropKind (h : Accounts log held) {names : List String} (hnames : held k = names) :
    Accounts (log ++ names.map (.dropped k)) (Function.update held k []) := by
  induction names generalizing log held with
  | nil =>
      have hsame : Function.update held k [] = held := by rw [← hnames, Function.update_eq_self]
      rwa [List.map_nil, List.append_nil, hsame]
  | cons name names ih =>
      obtain ⟨hname, hnodup⟩ := List.nodup_cons.mp (hnames ▸ h.nodup k)
      have hone :=
        h.drop (.dropped k name) (by simp [hnames]) (.inr (.inl rfl))
            (by simp) hnodup fun name' => by
          rw [hnames, List.mem_cons]
          refine ⟨fun hmem => ⟨.inr hmem, fun heq => hname (heq ▸ hmem)⟩, fun hmem =>
            hmem.1.resolve_left hmem.2⟩
      have hrest := ih hone (Function.update_self k names held)
      rw [Function.update_idem] at hrest
      rwa [List.map_cons, List.append_cons]

theorem dropAll (h : Accounts log held) :
    Accounts (log ++ kinds.flatMap fun k => (held k).map (.dropped k)) fun _ => [] := by
  have hkinds : ∀ ks : List Kind, ks.Nodup → ∀ log held', Accounts log held' →
      (∀ k ∈ ks, held' k = held k) →
      Accounts (log ++ ks.flatMap fun k => (held k).map (.dropped k)) fun k =>
          if k ∈ ks then [] else held' k := by
    intro ks hnodup
    induction ks with
    | nil => exact fun log held' h' _ => by simpa using h'
    | cons k ks ih =>
        intro log held' h' hsame
        obtain ⟨hk, hnodup⟩ := List.nodup_cons.mp hnodup
        rw [List.flatMap_cons, ← List.append_assoc]
        have hone := h'.dropKind (hsame k List.mem_cons_self)
        refine (ih hnodup _ _ hone fun k' hk' => ?_).congr (fun k' => ?_) fun k' name => ?_
        · rw [Function.update_of_ne fun heq : k' = k => hk (heq ▸ hk'),
            hsame k' (List.mem_cons_of_mem _ hk')]
        · split
          · exact List.nodup_nil
          · exact h'.nodup k'
        · obtain rfl | hne := eq_or_ne k' k
          · simp
          · simp [hne]
  have hall := hkinds kinds (by decide) log held h fun _ _ => rfl
  have hmem : ∀ k, k ∈ kinds := fun k => by cases k <;> decide
  simpa only [hmem, if_true] using hall

end Accounts

theorem not_mem_of_earlier {ks : List Kind} (hks : k :: ks <:+ kinds) {k' : Kind}
    (hk' : k' ∈ earlier k) : k' ∉ k :: ks := by
  obtain ⟨pre, hpre⟩ := hks
  have hnodup : (pre ++ k :: ks).Nodup := hpre ▸ (by decide : kinds.Nodup)
  obtain ⟨-, -, hdisjoint⟩ := List.nodup_append.mp hnodup
  have hk : k ∉ pre := fun hmem => hdisjoint k hmem k List.mem_cons_self rfl
  have hne : ∀ a ∈ pre, decide (a ≠ k) = true := fun a ha => decide_eq_true fun heq => hk (heq ▸ ha)
  have hearlier : earlier k = pre := by
    rw [earlier, ← hpre, List.takeWhile_append_of_pos hne]
    simp
  exact fun hmem => hdisjoint k' (hearlier ▸ hk') k' hmem rfl

/-! ### The code of a command, at every moment -/

/-- The steps that handlers put in front. -/
def isFront : Op → Bool
  | .onSignal _ | .ignore _ | .stop _ | .write => true
  | _ => false

/-- The steps of a command's own code and of what comes after it. -/
def isOuter (o : Op) : Bool :=
  isCommandOp o ||
    match o with
    | .atexit | .setTeardown | .ignore _ | .resumeUnlessReceived => true
    | _ => false

/-- The next stop of a code is recorded once every signal is ignored. -/
def Covered (ignored : ExitSignal → Bool) : Code → Prop
  | [] => True
  | .op (.ignore sig) :: rest => Covered (Function.update ignored sig true) rest
  | .op (.stop _) :: _ => ∀ sig, ignored sig = true
  | _ :: rest => Covered ignored rest

/-- What handlers have put in front: a stop is recorded once every signal is ignored, and only
writes come between that and what it raises. -/
structure Front (y : Code) (st : State) : Prop where
  bare : ∀ i ∈ y, Bare (isFront ·) i
  covered : st.received = [] → Covered st.ignored y
  settled : st.received ≠ [] → y = [] ∨ ∃ e ws rest, y = ws ++ .raise e :: rest ∧
    ∀ i ∈ ws, i = .op .write

/-- What is left of an entry into the cleanup. -/
structure Entering (w : Code) (st : State) : Prop where
  suffix : w <:+ teardown ++ [.op .enter]
  teardown : .op .setTeardown ∉ w → st.teardown = true
  ignored : ∀ sig, .op (.ignore sig) ∉ w → st.ignored sig = true

/-- What is left of an entry into the cleanup, or of the way out of it. -/
inductive Middle (y : Code) (st : State) : Code → Prop where
  | nothing : Middle y st []
  | entering {w : Code} (h : Entering w st) : Middle y st w
  | leaving {w : Code} (hw : w <:+ resume) (hfront : st.received ≠ [] → y ≠ []) : Middle y st w

/-- What a loop of `_run` has left to release, one kind at a time. -/
def loop : Option (Kind × List String) → Code
  | none => []
  | some (k, todo) => [.op (.release k todo)]

/-- What is held while a loop goes on. -/
def heldIn (st : State) : Option (Kind × List String) → Kind → List String
  | none => st.tracked
  | some (k, todo) => Function.update st.tracked k todo

/-- What is left of `_run`: writes, the loop it is in and the kinds after that. -/
structure Cleaning (ws : Code) (todo : Option (Kind × List String)) (ks : List Kind) (st : State) :
    Prop where
  quiet : ∀ i ∈ ws, i = .op .write ∨ i = .op .reset
  teardown : st.teardown = true
  ignored : ∀ sig, st.ignored sig = true
  suffix : (todo.map Prod.fst).toList ++ ks <:+ kinds
  gone : ∀ k, k ∉ (todo.map Prod.fst).toList ++ ks → st.tracked k = []
  taken : ∀ names, todo = some (.action, names) → st.tracked .action = []

/-- The code of `_run` from some point of it on. -/
def cleaningCode (ws : Code) (todo : Option (Kind × List String)) (ks : List Kind) : Code :=
  ws ++ loop todo ++ (ks.map fun k => .op (.start k)) ++ [.final [.op .resumeUnlessReceived]]

/-- The code, with what is held at that point. -/
inductive Shape (st : State) : Code → (Kind → List String) → Prop where
  | outside {y w z : Code} (front : Front y st) (middle : Middle y st w)
      (outer : ∀ i ∈ z, Clean (isOuter ·) i) :
      Shape st (y ++ w ++ z) st.tracked
  | cleaning {ws : Code} {todo : Option (Kind × List String)} {ks : List Kind} {z : Code}
      (here : Cleaning ws todo ks st)
      (outer : ∀ i ∈ z, Clean (isOuter ·) i) :
      Shape st (cleaningCode ws todo ks ++ z) (heldIn st todo)

/-- What holds of a command at every moment. -/
structure Inv (code : Code) (st : State) : Prop where
  one : st.received.length ≤ 1
  ignored : st.received ≠ [] → ∀ sig, st.ignored sig = true
  shape : ∃ held, Shape st code held ∧ Accounts st.log held

variable {st : State} {y w z : Code}

theorem Front.nil : Front [] st := ⟨by simp, fun _ => trivial, fun _ => .inl rfl⟩

theorem Middle.bare (h : Middle y st w) : ∀ i ∈ w, Bare (fun _ => True) i := by
  have hsuffix : w <:+ teardown ++ [.op .enter] ∨ w <:+ resume := by
    cases h with
    | nothing => exact .inl List.nil_suffix
    | entering h => exact .inl h.suffix
    | leaving hw => exact .inr hw
  have hall : (∀ i ∈ teardown ++ [.op .enter], Bare (fun _ => True) i) ∧
      ∀ i ∈ resume, Bare (fun _ => True) i := by
    simp [Cleanup.teardown, resume, exitSignals, Bare]
  intro i hi
  obtain hw | hw := hsuffix
  · exact hall.1 i (hw.mem hi)
  · exact hall.2 i (hw.mem hi)

theorem Front.any (h : Front y st) : ∀ i ∈ y, Bare (fun _ => True) i := by
  intro i hi
  have hbare := h.bare i hi
  cases i with
  | op o => trivial
  | raise e => trivial
  | guard k handler => exact hbare
  | final fin => exact hbare

namespace Inv

theorem plain (one : st.received.length ≤ 1)
    (ignored : st.received ≠ [] → ∀ sig, st.ignored sig = true)
    (accounts : Accounts st.log st.tracked) (outer : ∀ i ∈ z, Clean (isOuter ·) i) : Inv z st :=
  ⟨one, ignored, st.tracked, .outside (y := []) (w := []) .nil .nothing outer, accounts⟩

end Inv

/-! ### What handlers put in front -/

theorem covered_stopWith (ignored : ExitSignal → Bool) (s : Stop) (y : Code) :
    Covered ignored (stopWith s ++ y) := by
  intro sig
  cases sig <;> rfl

theorem Front.stopWith (hreceived : st.received = []) (s : Stop) (h : Front y st) :
    Front (stopWith s ++ y) st := by
  refine ⟨fun i hi => ?_, fun _ => covered_stopWith _ s y, fun hne => absurd hreceived hne⟩
  obtain hi | hi := List.mem_append.mp hi
  · have hall : ∀ i ∈ Cleanup.stopWith s, Bare (isFront ·) i := by
      simp [Cleanup.stopWith, exitSignals, Bare, isFront]
    exact hall i hi
  · exact h.bare i hi

theorem Front.onSignal (hreceived : st.received = []) (sig : ExitSignal) (h : Front y st) :
    Front (.op (.onSignal sig) :: y) st := by
  refine ⟨fun i hi => ?_, h.covered, fun hne => absurd hreceived hne⟩
  obtain rfl | hi := List.mem_cons.mp hi
  · rfl
  · exact h.bare i hi

/-- What a step of the signals leaves as it was, with `y` in front afterwards. -/
structure Kept (st st' : State) (y : Code) : Prop where
  front : Front y st'
  one : st'.received.length ≤ 1
  ignored : st'.received ≠ [] → ∀ sig, st'.ignored sig = true
  raised : st'.received ≠ [] → y ≠ []
  tracked : st'.tracked = st.tracked
  log : st'.log = st.log
  teardown : st'.teardown = st.teardown
  grown : ∀ sig, st.ignored sig = true → st'.ignored sig = true

/-- Once a stop is recorded, only writes are left in front of what it raises. -/
theorem Front.write_of_received {o : Op} (h : Front (.op o :: y) st) (hne : st.received ≠ []) :
    o = .write ∧ y ≠ [] ∧ Front y st := by
  obtain hnil | ⟨e, ws, rest, heq, hws⟩ := h.settled hne
  · cases hnil
  · cases ws with
    | nil => cases heq
    | cons i ws =>
        rw [List.cons_append, List.cons.injEq] at heq
        obtain ⟨rfl, rfl⟩ := heq
        have htail : ∀ i ∈ ws, i = .op .write := fun i hi => hws i (List.mem_cons_of_mem _ hi)
        exact ⟨by simpa using hws _ List.mem_cons_self, by simp, fun i hi =>
          h.bare i (List.mem_cons_of_mem _ hi), fun hr => absurd hr hne, fun _ =>
            .inr ⟨e, ws, rest, rfl, htail⟩⟩

theorem Front.step {o : Op} (h : Front (.op o :: y) st) (one : st.received.length ≤ 1)
    (ignored : st.received ≠ [] → ∀ sig, st.ignored sig = true) (answer : Answer) :
    Kept st (perform o answer st).1 ((perform o answer st).2 ++ y) := by
  have hbare : ∀ i ∈ y, Bare (isFront ·) i := fun i hi => h.bare i (List.mem_cons_of_mem _ hi)
  have hfirst : isFront o = true := h.bare _ List.mem_cons_self
  obtain hr | hr := eq_or_ne st.received []
  · have habsurd : ∀ {P : Prop}, st.received ≠ [] → P := fun hne => absurd hr hne
    cases o with
    | onSignal sig =>
        have hy : Front y st := ⟨hbare, fun _ => h.covered hr, habsurd⟩
        refine ⟨?_, one, ignored, habsurd, rfl, rfl, rfl, fun _ hsig => hsig⟩
        rw [perform]
        dsimp only
        split
        · exact hy
        · exact hy.stopWith hr _
    | write =>
        have hy : Front y st := ⟨hbare, fun _ => h.covered hr, habsurd⟩
        refine ⟨?_, one, ignored, habsurd, rfl, rfl, rfl, fun _ hsig => hsig⟩
        rw [perform]
        dsimp only
        split
        · exact hy.stopWith hr _
        · exact hy
    | ignore sig =>
        refine ⟨⟨hbare, fun _ => h.covered hr, habsurd⟩, one, habsurd, habsurd, rfl, rfl, rfl,
          fun sig' hsig => ?_⟩
        obtain rfl | hne := eq_or_ne sig' sig
        · exact Function.update_self ..
        · exact (Function.update_of_ne hne ..).trans hsig
    | stop s =>
        have hall : ∀ sig, st.ignored sig = true := h.covered hr
        have hone : (st.received ++ [s]).length ≤ 1 := by simp [hr]
        refine ⟨⟨fun i hi => ?_, fun hnil => absurd hnil (by simp [perform]), fun _ =>
          .inr ⟨s.exit, [.op .write], y, rfl, by simp⟩⟩, hone, fun _ =>
            hall, by simp [perform], rfl, rfl, rfl, fun _ hsig => hsig⟩
        obtain hi | hi := List.mem_append.mp hi
        · have hnew : ∀ i ∈ ([.op .write, .raise s.exit] : Code), Bare (isFront ·) i := by
            simp [Bare, isFront]
          exact hnew i hi
        · exact hbare i hi
    | _ => cases hfirst
  · obtain ⟨rfl, hne, hy⟩ := h.write_of_received hr
    have hsame : (perform .write answer st).2 = [] := by simp [perform, hr]
    rw [hsame]
    exact ⟨hy, one, ignored, fun _ => hne, rfl, rfl, rfl, fun _ hsig => hsig⟩

theorem Middle.kept {st' : State} {y' : Code} (h : Middle y st w) (hkept : Kept st st' y') :
    Middle y' st' w := by
  cases h with
  | nothing => exact .nothing
  | entering h =>
      exact .entering ⟨h.suffix, fun hmem => hkept.teardown.trans (h.teardown hmem), fun sig hmem =>
        hkept.grown sig (h.ignored sig hmem)⟩
  | leaving hw hfront => exact .leaving hw hkept.raised

theorem Inv.of_kept {st' : State} {y' : Code} (middle : Middle y st w)
    (outer : ∀ i ∈ z, Clean (isOuter ·) i) (accounts : Accounts st.log st.tracked)
    (hkept : Kept st st' y') : Inv (y' ++ w ++ z) st' :=
  ⟨hkept.one, hkept.ignored, st'.tracked,
    .outside hkept.front (middle.kept hkept) outer, by rwa [hkept.log, hkept.tracked]⟩

/-! ### An entry into the cleanup, and the way out of it -/

theorem Entering.cleaning (h : Entering [.op .enter] st) :
    Cleaning [.op .write, .op .reset] none kinds st where
  quiet := by simp
  teardown := h.teardown (by simp)
  ignored sig := h.ignored sig (by simp)
  suffix := List.suffix_refl _
  gone k hk := absurd (by cases k <;> decide) hk
  taken names hnames := by cases hnames

/-- One step of an entry with nothing in front: it is the last one, or nothing but the signals and
the flag change. -/
theorem Entering.step {o : Op} (h : Entering (.op o :: w) st) (answer : Answer) :
    o = .enter ∧ w = [] ∨
      (perform o answer st).2 = [] ∧ w ≠ [] ∧ Entering w (perform o answer st).1 ∧
      (perform o answer st).1.tracked = st.tracked ∧
        (perform o answer st).1.log = st.log ∧ (perform o answer st).1.received = st.received ∧
          ∀ sig, st.ignored sig = true → (perform o answer st).1.ignored sig = true := by
  have hsuffix : w <:+ Cleanup.teardown ++ [.op .enter] := (List.suffix_cons _ w).trans h.suffix
  have hcases : (∃ sig, o = .ignore sig) ∧ w ≠ [] ∨ o = .setTeardown ∧ w ≠ [] ∨
      o = .enter ∧ w = [] := by
    have hall := h.suffix
    simp only [Cleanup.teardown, exitSignals, List.map_cons, List.map_nil, List.cons_append,
      List.nil_append, List.suffix_cons_iff, List.suffix_nil, List.cons.injEq, Instr.op.injEq,
      reduceCtorEq, or_false] at hall
    obtain ⟨rfl, rfl⟩ | ⟨rfl, rfl⟩ | ⟨rfl, rfl⟩ | ⟨rfl, rfl⟩ | ⟨rfl, rfl⟩ := hall <;> simp
  obtain ⟨⟨sig, rfl⟩, hne⟩ | ⟨rfl, hne⟩ | ⟨rfl, rfl⟩ := hcases
  · have hgrown : ∀ sig', st.ignored sig' = true →
        Function.update st.ignored sig true sig' = true := by
      intro sig' hsig
      obtain rfl | hdiff := eq_or_ne sig' sig
      · exact Function.update_self ..
      · exact (Function.update_of_ne hdiff ..).trans hsig
    refine .inr ⟨rfl, hne, ⟨hsuffix, fun hmem => h.teardown (by simpa using hmem),
      fun sig' hmem => ?_⟩, rfl, rfl, rfl, hgrown⟩
    obtain rfl | hdiff := eq_or_ne sig' sig
    · exact Function.update_self ..
    · exact hgrown sig' (h.ignored sig' (by simpa [hdiff] using hmem))
  · exact .inr ⟨rfl, hne, ⟨hsuffix, fun _ => rfl, fun sig hmem =>
      h.ignored sig (by simpa using hmem)⟩, rfl, rfl, rfl, fun _ hsig => hsig⟩
  · exact .inl ⟨rfl, rfl⟩

theorem cleaningCode_start : runCode ++ [.final [.op .resumeUnlessReceived]]
      = cleaningCode [.op .write, .op .reset] none kinds := by
  simp [runCode, cleaningCode, loop]

theorem Middle.step {o : Op} (h : Middle [] st (.op o :: w)) (one : st.received.length ≤ 1)
    (ignored : st.received ≠ [] → ∀ sig, st.ignored sig = true)
    (accounts : Accounts st.log st.tracked) (outer : ∀ i ∈ z, Clean (isOuter ·) i)
    (answer : Answer) : Inv ((perform o answer st).2 ++ (w ++ z)) (perform o answer st).1 := by
  cases h with
  | entering h =>
      obtain ⟨rfl, rfl⟩ | ⟨hcode, -, hw, htracked, hlog, hreceived, hgrown⟩ := h.step answer
      · refine ⟨one, ignored, heldIn st none, ?_, accounts⟩
        have hcode : (perform .enter answer st).2
            = cleaningCode [.op .write, .op .reset] none kinds := cleaningCode_start
        rw [hcode]
        exact .cleaning h.cleaning outer
      · rw [hcode]
        refine ⟨hreceived ▸ one, fun hne sig => hgrown sig (ignored (hreceived ▸ hne) sig),
          (perform o answer st).1.tracked,
          .outside (y := []) (w := w) .nil (.entering hw) outer, by rwa [hlog, htracked]⟩
  | leaving hw hfront =>
      have hr : st.received = [] := by_contra fun hne => hfront hne rfl
      have hsuffix : w <:+ resume := (List.suffix_cons _ w).trans hw
      have hcases : (∃ sig, o = .handle sig) ∨ o = .clearTeardown := by
        simp only [resume, exitSignals, List.map_cons, List.map_nil, List.suffix_cons_iff,
          List.suffix_nil, List.cons.injEq, Instr.op.injEq, reduceCtorEq, or_false] at hw
        obtain ⟨rfl, -⟩ | ⟨rfl, -⟩ | ⟨rfl, -⟩ | ⟨rfl, -⟩ := hw <;> simp
      have hinv : ∀ st' : State, st'.received = [] → Accounts st'.log st'.tracked →
          Inv ([] ++ w ++ z) st' := fun st' hr' haccounts =>
        ⟨by simp [hr'], fun hne => absurd hr' hne, st'.tracked,
          .outside .nil (.leaving hsuffix fun hne => absurd hr' hne) outer, haccounts⟩
      obtain ⟨sig, rfl⟩ | rfl := hcases
      · exact hinv _ hr accounts
      · exact hinv _ hr accounts

/-! ### What a cleanup comes to -/

/-- What a cleanup that begins now goes through, in its order. -/
def owed (st : State) : List (Kind × String) := kinds.flatMap fun k => (st.order k).map (k, ·)

/-- What one release writes in the log: its commands, as what they answer has them, then itself. -/
def IsRelease (item : Kind × String) (events : List Event) : Prop :=
  ∃ answer, events = (releaseCommands item.1 item.2 answer).map .command ++
    [.released item.1 item.2]

/-- The log of a state, then the release of each thing it had tracked. -/
def CarriedOut (first : State) (log : List Event) : Prop :=
  ∃ releases, List.Forall₂ IsRelease (owed first) releases ∧ log = first.log ++ releases.flatten

def queued : Option (Kind × List String) → List (Kind × String)
  | none => []
  | some (k, names) => names.map (k, ·)

/-- How far `_run` is with what `first` had tracked. -/
structure Halfway (first : State) (todo : Option (Kind × List String)) (ks : List Kind)
    (st : State) : Prop where
  gone : ∃ gone releases, owed first = gone ++ (queued todo ++ ks.flatMap fun k =>
    (first.order k).map (k, ·)) ∧
    List.Forall₂ IsRelease gone releases ∧ st.log = first.log ++ releases.flatten
  rest : ∀ k ∈ ks, st.tracked k = first.tracked k

theorem order_congr {first : State} {k : Kind} (h : st.tracked k = first.tracked k) :
    st.order k = first.order k := by
  cases k <;> simp only [State.order, h]

namespace Halfway

variable {first : State} {todo : Option (Kind × List String)} {ks : List Kind}

theorem refl (htracked : st.tracked = first.tracked) (hlog : st.log = first.log) :
    Halfway first none kinds st :=
  ⟨⟨[], [], rfl, .nil, by simp [hlog]⟩, fun k _ => by rw [htracked]⟩

theorem release {k : Kind} {name : String} {names : List String}
    (h : Halfway first (some (k, name :: names)) ks st) (answer : Answer) :
    Halfway first (some (k, names)) ks (st.release k name answer) := by
  obtain ⟨gone, releases, howed, hreleases, hlog⟩ := h.gone
  refine ⟨⟨gone ++ [(k, name)], releases ++
    [(releaseCommands k name answer).map .command ++ [.released k name]], ?_, ?_, ?_⟩, h.rest⟩
  · rw [howed]
    simp [queued]
  · exact List.rel_append hreleases (.cons ⟨answer, rfl⟩ .nil)
  · rw [State.release, State.push, hlog]
    simp

theorem clear {k : Kind} (h : Halfway first (some (k, [])) ks st) (hk : k ∉ ks) (answer : Answer) :
    Halfway first none ks (perform (.release k []) answer st).1 := by
  have hlog : (perform (.release k []) answer st).1.log = st.log := by
    rw [perform]
    split <;> rfl
  refine ⟨?_, fun k' hk' => ?_⟩
  · rw [hlog]
    exact h.gone
  · rw [← h.rest k' hk', perform]
    split
    · rfl
    · exact Function.update_of_ne (fun heq : k' = k => hk (heq ▸ hk')) ..

theorem start {k : Kind} (h : Halfway first none (k :: ks) st) (hk : k ∉ ks) (answer : Answer) :
    Halfway first (some (k, st.order k)) ks (perform (.start k) answer st).1 := by
  have hlog : (perform (.start k) answer st).1.log = st.log := by
    rw [perform]
    dsimp only
    split <;> rfl
  refine ⟨?_, fun k' hk' => ?_⟩
  · rw [hlog, order_congr (h.rest k List.mem_cons_self)]
    exact h.gone
  · rw [← h.rest k' (List.mem_cons_of_mem _ hk'), perform]
    dsimp only
    split
    · exact Function.update_of_ne (fun heq : k' = k => hk (heq ▸ hk')) ..
    · rfl

theorem carriedOut (h : Halfway first none [] st) : CarriedOut first st.log := by
  obtain ⟨gone, releases, howed, hreleases, hlog⟩ := h.gone
  have hgone : owed first = gone := by simpa [queued] using howed
  exact ⟨releases, hgone ▸ hreleases, hlog⟩

end Halfway

/-! ### The cleanup itself -/

namespace Cleaning

variable {ws : Code} {todo : Option (Kind × List String)} {ks : List Kind}

theorem of_state {st' : State} (h : Cleaning ws todo ks st) (hteardown : st'.teardown = st.teardown)
    (hignored : st'.ignored = st.ignored) (htracked : st'.tracked = st.tracked) :
    Cleaning ws todo ks st' :=
  ⟨h.quiet, hteardown ▸ h.teardown, hignored ▸ h.ignored, h.suffix, htracked ▸ h.gone,
    htracked ▸ h.taken⟩

theorem tail {i : Instr Op Clause Exit} (h : Cleaning (i :: ws) todo ks st) :
    Cleaning ws todo ks st :=
  ⟨fun j hj => h.quiet j (List.mem_cons_of_mem _ hj), h.teardown, h.ignored, h.suffix,
    h.gone, h.taken⟩

theorem release {k : Kind} {name : String} {names : List String}
    (h : Cleaning [] (some (k, name :: names)) ks st)
    (accounts : Accounts st.log (heldIn st (some (k, name :: names)))) (answer : Answer) :
    Cleaning [.op .write] (some (k, names)) ks (st.release k name answer) ∧
      Accounts (st.release k name answer).log
        (heldIn (st.release k name answer) (some (k, names))) := by
  refine ⟨⟨by simp, h.teardown, h.ignored, h.suffix, h.gone, fun names' hnames' =>
    h.taken (name :: names) ?_⟩, ?_⟩
  · cases hnames'
    rfl
  · obtain ⟨hname, hnodup⟩ : name ∉ names ∧ names.Nodup :=
      List.nodup_cons.mp (by simpa [heldIn] using accounts.nodup k)
    have hcommands := accounts.commands (releaseCommands k name answer)
    have hdrop :=
      hcommands.drop (.released k name) (by simp [heldIn]) (.inr (.inr rfl))
        (fun _ k' hk' => ?_) hnodup fun name' => ?_
    · rw [heldIn, Function.update_idem, List.append_assoc] at hdrop
      exact hdrop
    · have hnot := not_mem_of_earlier h.suffix hk'
      rw [heldIn, Function.update_of_ne fun heq : k' = k => hnot (heq ▸ List.mem_cons_self)]
      exact h.gone k' hnot
    · rw [heldIn, Function.update_self, List.mem_cons]
      exact ⟨fun hmem => ⟨.inr hmem, fun heq => hname (heq ▸ hmem)⟩, fun hmem =>
        hmem.1.resolve_left hmem.2⟩

theorem clear {k : Kind} (h : Cleaning [] (some (k, [])) ks st)
    (accounts : Accounts st.log (heldIn st (some (k, [])))) (answer : Answer) :
    Cleaning [] none ks (perform (.release k []) answer st).1 ∧
      Accounts (perform (.release k []) answer st).1.log
        (heldIn (perform (.release k []) answer st).1 none) ∧
        (perform (.release k []) answer st).1.received = st.received := by
  have htracked : (perform (.release k []) answer st).1.tracked
      = Function.update st.tracked k [] := by
    rw [perform]
    split
    · rename_i hk
      have hempty := h.taken [] (by rw [hk])
      rw [hk, ← hempty, Function.update_eq_self]
    · rfl
  have hothers : (perform (.release k []) answer st).1.teardown = st.teardown ∧
      (perform (.release k []) answer st).1.ignored = st.ignored ∧
      (perform (.release k []) answer st).1.log = st.log ∧
      (perform (.release k []) answer st).1.received = st.received := by
    rw [perform]
    split <;> exact ⟨rfl, rfl, rfl, rfl⟩
  obtain ⟨hteardown, hignored, hlog, hreceived⟩ := hothers
  refine ⟨⟨by simp, hteardown ▸ h.teardown, hignored ▸ h.ignored,
    (List.suffix_cons _ _).trans h.suffix, fun k' hk' => ?_, by simp⟩, ?_, hreceived⟩
  · obtain rfl | hne := eq_or_ne k' k
    · rw [htracked, Function.update_self]
    · rw [htracked, Function.update_of_ne hne]
      exact h.gone k' (by simpa [hne] using hk')
  · rw [hlog, heldIn, htracked]
    exact accounts

theorem start {k : Kind} (h : Cleaning [] none (k :: ks) st) (accounts : Accounts st.log st.tracked)
    (answer : Answer) :
    Cleaning [] (some (k, st.order k)) ks (perform (.start k) answer st).1 ∧
      Accounts (perform (.start k) answer st).1.log
        (heldIn (perform (.start k) answer st).1 (some (k, st.order k))) ∧
        (perform (.start k) answer st).1.received = st.received := by
  have htracked : ∀ names, Function.update (perform (.start k) answer st).1.tracked k names
      = Function.update st.tracked k names := by
    intro names
    rw [perform]
    dsimp only
    split
    · rename_i hk
      rw [hk, State.setTracked, Function.update_idem]
    · rfl
  have hothers : (perform (.start k) answer st).1.teardown = st.teardown ∧
      (perform (.start k) answer st).1.ignored = st.ignored ∧
      (perform (.start k) answer st).1.log = st.log ∧
      (perform (.start k) answer st).1.received = st.received := by
    rw [perform]
    dsimp only
    split <;> exact ⟨rfl, rfl, rfl, rfl⟩
  obtain ⟨hteardown, hignored, hlog, hreceived⟩ := hothers
  have hkept : ∀ k', k' ≠ k → (perform (.start k) answer st).1.tracked k' = st.tracked k' :=
    fun k' hne => by
      simpa [hne] using congrFun (htracked []) k'
  refine ⟨⟨by simp, hteardown ▸ h.teardown, hignored ▸ h.ignored, h.suffix, fun k' hk' => ?_,
    fun names hnames => ?_⟩, ?_, hreceived⟩
  · rw [hkept k' fun heq => hk' (heq ▸ List.mem_cons_self)]
    exact h.gone k' hk'
  · cases hnames
    simp [perform, State.setTracked]
  · have hmem : ∀ name, name ∈ st.order k ↔ name ∈ st.tracked k := by
      intro name
      cases k <;> simp [State.order]
    have hnodup : (st.order k).Nodup := by
      have hk := accounts.nodup k
      cases k <;> simpa [State.order] using hk
    rw [hlog, heldIn, htracked]
    refine accounts.congr (fun k' => ?_) fun k' name => ?_
    · obtain rfl | hne := eq_or_ne k' k
      · rw [Function.update_self]
        exact hnodup
      · rw [Function.update_of_ne hne]
        exact accounts.nodup k'
    · obtain rfl | hne := eq_or_ne k' k
      · rw [Function.update_self, hmem]
      · rw [Function.update_of_ne hne]

theorem not_mem_of_suffix {k : Kind} (h : k :: ks <:+ kinds) : k ∉ ks :=
  (List.nodup_cons.mp (h.sublist.nodup (by decide : kinds.Nodup))).1

/-- One step of the cleanup: it goes on, or everything is released and it ends. -/
theorem step (h : Cleaning ws todo ks st) (accounts : Accounts st.log (heldIn st todo))
    (answer : Answer) {c : Config State Op Clause Exit}
    (hstep : process.step (.run answer) ⟨cleaningCode ws todo ks ++ z, st⟩ = some c) :
    (∃ ws' todo' ks', c.code = cleaningCode ws' todo' ks' ++ z ∧ Cleaning ws' todo' ks' c.state ∧
      Accounts c.state.log (heldIn c.state todo') ∧ c.state.received = st.received ∧
        ∀ first, Halfway first todo ks st → Halfway first todo' ks' c.state) ∨
      c = ⟨.op .resumeUnlessReceived :: z, st⟩ ∧ todo = none ∧ ks = [] ∧
      ∀ k, st.tracked k = [] := by
  cases ws with
  | cons i ws =>
      left
      obtain rfl | rfl := h.quiet i List.mem_cons_self
      · have hcode : (perform .write answer st).2 = [] := by simp [perform, h.teardown]
        cases hstep
        refine ⟨ws, todo, ks, ?_, h.tail, accounts, rfl, fun _ hfirst => hfirst⟩
        change (perform .write answer st).2 ++ _ = _
        rw [hcode]
        rfl
      · cases hstep
        exact ⟨ws, todo, ks, rfl, h.tail.of_state rfl rfl rfl, by cases todo <;> exact accounts,
          rfl, fun _ hfirst => ⟨hfirst.gone, hfirst.rest⟩⟩
  | nil =>
      cases todo with
      | some loop =>
          left
          obtain ⟨k, names⟩ := loop
          cases names with
          | nil =>
              cases hstep
              obtain ⟨hcleaning, haccounts, hreceived⟩ := h.clear accounts answer
              exact ⟨[], none, ks, rfl, hcleaning, haccounts, hreceived, fun _ hfirst =>
                hfirst.clear (not_mem_of_suffix h.suffix) answer⟩
          | cons name names =>
              cases hstep
              obtain ⟨hcleaning, haccounts⟩ := h.release accounts answer
              exact ⟨[.op .write], some (k, names), ks, rfl, hcleaning, haccounts, rfl,
                fun _ hfirst => hfirst.release answer⟩
      | none =>
          cases ks with
          | cons k ks =>
              left
              cases hstep
              obtain ⟨hcleaning, haccounts, hreceived⟩ := h.start accounts answer
              exact ⟨[], some (k, st.order k), ks, rfl, hcleaning, haccounts, hreceived,
                fun _ hfirst => hfirst.start (not_mem_of_suffix h.suffix) answer⟩
          | nil =>
              right
              cases hstep
              exact ⟨rfl, rfl, rfl, fun k => h.gone k (by simp)⟩

end Cleaning

/-! ### Every step -/

theorem Inv.outer {o : Op} (ho : isOuter o = true) (one : st.received.length ≤ 1)
    (ignored : st.received ≠ [] → ∀ sig, st.ignored sig = true)
    (accounts : Accounts st.log st.tracked) (outer : ∀ i ∈ z, Clean (isOuter ·) i)
    (answer : Answer) :
    Inv ((perform o answer st).2 ++ z) (perform o answer st).1 := by
  have hclean : ∀ code : Code, (∀ i ∈ code, Clean (isOuter ·) i) → Inv (code ++ z) st :=
    fun code hcode =>
      .plain one ignored accounts (clean_append hcode outer)
  cases o with
  | track k name =>
      rw [perform, State.track]
      split
      · exact hclean [] (by simp)
      · rename_i hname
        exact .plain one ignored (accounts.track hname) outer
  | untrack k name =>
      rw [perform, State.untrack]
      split
      · rename_i hname
        refine .plain one ignored (accounts.drop (.untracked k name) hname (.inl rfl)
          (fun hrel => by cases hrel) ((accounts.nodup k).erase name) fun name' => ?_) outer
        rw [(accounts.nodup k).mem_erase_iff, and_comm]
      · exact hclean [] (by simp)
  | disable => exact .plain one ignored accounts.dropAll outer
  | register =>
      rw [perform]
      split
      · exact hclean [] (by simp)
      · exact .plain one ignored accounts outer
  | run =>
      rw [perform]
      dsimp only
      split
      · refine ⟨one, ignored, st.tracked,
          .outside (y := []) (w := teardown ++ [.op .enter]) .nil (.entering ?_) outer, accounts⟩
        refine ⟨List.suffix_refl _, fun hmem => absurd (by simp [teardown]) hmem, fun sig hmem =>
          absurd ?_ hmem⟩
        cases sig <;> simp [teardown, exitSignals]
      · exact hclean [] (by simp)
  | write =>
      rw [perform]
      dsimp only
      split
      · rename_i hgone
        have hr : st.received = [] := by
          simp only [Bool.and_eq_true, List.isEmpty_iff] at hgone
          exact hgone.1.2
        have hfront : Front (stopWith .pipe ++ []) st := Front.nil.stopWith hr .pipe
        refine ⟨one, ignored, st.tracked, ?_, accounts⟩
        rw [List.append_nil] at hfront
        have hshape : Shape st (stopWith .pipe ++ [] ++ z) st.tracked :=
          .outside hfront .nothing outer
        rwa [List.append_nil] at hshape
      · exact hclean [] (by simp)
  | interactive on => exact .plain one ignored accounts outer
  | atexit =>
      rw [perform]
      split
      · exact hclean [] (by simp)
      · rename_i call rest hcalls
        refine .plain one ignored accounts (clean_append ?_ outer)
        cases call <;> simp +contextual [teardown, exitSignals, Clean.op, Clean.guard,
          isOuter, isCommandOp]
  | setTeardown => exact .plain one ignored accounts outer
  | ignore sig =>
      refine .plain one (fun hne sig' => ?_) accounts outer
      obtain rfl | hdiff := eq_or_ne sig' sig
      · exact Function.update_self ..
      · exact (Function.update_of_ne hdiff ..).trans (ignored hne sig')
  | resumeUnlessReceived =>
      rw [perform]
      dsimp only
      split
      · rename_i hr
        rw [List.isEmpty_iff] at hr
        exact ⟨one, ignored, st.tracked, .outside (y := []) (w := resume) .nil
          (.leaving (List.suffix_refl _) fun hne => absurd hr hne) outer, accounts⟩
      · exact hclean [] (by simp)
  | _ => cases ho

/-- What one step keeps. -/
theorem Inv.step (event : Interrupts.Event Answer ExitSignal) (c c' : Config State Op Clause Exit)
    (hstep : process.step event c = some c') (h : Inv c.code c.state) : Inv c'.code c'.state := by
  obtain ⟨code, st⟩ := c
  obtain ⟨one, ignored, held, hshape, accounts⟩ := h
  cases event with
  | interrupt sig =>
      have hcase : c' = ⟨code, st⟩ ∨ st.ignored sig = false ∧
          c' = ⟨.op (.onSignal sig) :: code, st⟩ := by
        cases code with
        | nil => cases hstep
        | cons i rest =>
            rw [Machine.step, Option.some.injEq] at hstep
            split at hstep
            · rename_i henabled
              exact .inr ⟨by simpa [process] using henabled, hstep.symm⟩
            · exact .inl hstep.symm
      obtain rfl | ⟨hhandled, rfl⟩ := hcase
      · exact ⟨one, ignored, held, hshape, accounts⟩
      · have hr : st.received = [] := by_contra fun hne => by
          rw [ignored hne sig] at hhandled
          cases hhandled
        cases hshape with
        | cleaning here outer =>
            rw [here.ignored sig] at hhandled
            cases hhandled
        | @outside y w z front middle outer =>
            have hfront : Front (.op (.onSignal sig) :: y) st := front.onSignal hr sig
            refine ⟨one, ignored, st.tracked,
              .outside (y := .op (.onSignal sig) :: y) hfront ?_ outer, accounts⟩
            cases middle with
            | nothing => exact .nothing
            | entering h => exact .entering h
            | leaving hw hne => exact .leaving hw fun _ => by simp
  | run answer =>
      cases hshape with
      | cleaning here outer =>
          obtain ⟨ws', todo', ks', hcode, hcleaning, haccounts, hreceived, -⟩ | ⟨rfl, rfl, -⟩ :=
            here.step accounts answer hstep
          · rw [hcode]
            exact ⟨hreceived ▸ one, fun _ => hcleaning.ignored, _,
              .cleaning hcleaning outer, haccounts⟩
          · refine .plain one ignored accounts fun i hi => ?_
            obtain rfl | hi := List.mem_cons.mp hi
            · exact .op rfl
            · exact outer i hi
      | @outside y w z front middle outer =>
          cases y with
          | cons i y =>
              cases i with
              | op o =>
                  cases hstep
                  have hinv := Inv.of_kept middle outer accounts (front.step one ignored answer)
                  rw [List.append_assoc _ y w, List.append_assoc] at hinv
                  exact hinv
              | raise e =>
                  cases hstep
                  have hbare : ∀ i ∈ y, Bare (fun _ => True) i :=
                    fun i hi => front.any i (List.mem_cons_of_mem _ hi)
                  have hunwind : process.unwind e (y ++ w ++ z) = process.unwind e z := by
                    rw [List.append_assoc, unwind_bare hbare, unwind_bare middle.bare]
                  exact .plain one ignored accounts (hunwind ▸ clean_unwind outer)
              | guard k handler => exact (front.bare _ List.mem_cons_self).elim
              | final fin => exact (front.bare _ List.mem_cons_self).elim
          | nil =>
              cases w with
              | cons i w =>
                  have hi := middle.bare i List.mem_cons_self
                  cases i with
                  | op o =>
                      cases hstep
                      exact middle.step one ignored accounts outer answer
                  | raise e =>
                      cases middle with
                      | entering h =>
                          have hmem : Instr.raise e ∈ teardown ++ [.op .enter] :=
                            h.suffix.mem List.mem_cons_self
                          simp [teardown] at hmem
                      | leaving hw hne =>
                          have hmem : Instr.raise e ∈ resume := hw.mem List.mem_cons_self
                          simp [resume] at hmem
                  | guard k handler => exact hi.elim
                  | final fin => exact hi.elim
              | nil =>
                  cases z with
                  | nil => cases hstep
                  | cons i z =>
                      have houter : ∀ i ∈ z, Clean (isOuter ·) i :=
                        fun i hi => outer i (List.mem_cons_of_mem _ hi)
                      cases outer i List.mem_cons_self with
                      | op ho =>
                          cases hstep
                          exact .outer ho one ignored accounts houter answer
                      | raise =>
                          cases hstep
                          exact .plain one ignored accounts (clean_unwind houter)
                      | guard hhandler =>
                          cases hstep
                          exact .plain one ignored accounts houter
                      | final hfin =>
                          cases hstep
                          exact .plain one ignored accounts (clean_append hfin houter)

variable {command : Code} {locked : Bool}
  {events during after : List (Interrupts.Event Answer ExitSignal)}
  {c : Config State Op Clause Exit}

theorem outer_of_command (hcommand : ∀ i ∈ command, Clean (isCommandOp ·) i) :
    ∀ i ∈ main command, Clean (isOuter ·) i := by
  have hmono : ∀ o, isCommandOp o = true → isOuter o = true := fun o ho => by simp [isOuter, ho]
  refine clean_append (fun i hi => (hcommand i hi).mono hmono) ?_
  simp +contextual [Clean.op, Clean.guard, Clean.raise, isOuter, isCommandOp]

theorem inv_runs (hcommand : ∀ i ∈ command, Clean (isCommandOp ·) i)
    (hruns : process.runs events (begin locked command) = some c) :
    Inv c.code c.state :=
  Machine.runs_induction (P := fun c => Inv c.code c.state) Inv.step hruns
    (.plain (by simp [begin]) (fun hne => absurd rfl hne) .nil (outer_of_command hcommand))

/-- Outside of `_run` what is held is what is tracked. -/
theorem accounts_outside {code : Code} (h : Inv code st)
    (hcode : ∀ i ∈ code, ∀ fin, i ≠ .final fin) : Accounts st.log st.tracked := by
  obtain ⟨-, -, held, hshape, accounts⟩ := h
  cases hshape with
  | outside => exact accounts
  | cleaning =>
      exact absurd rfl (hcode (.final [.op .resumeUnlessReceived]) (by simp [cleaningCode]) _)

/-- Whatever a command does and whenever signals come: one stop at most is recorded, and every
signal is ignored from then on; what is tracked is released, untracked or dropped once and nothing
else is, and nothing is released while something of an earlier kind is tracked; when the process is
over, what is tracked is what the log leaves so. -/
theorem cleanup_once (hcommand : ∀ i ∈ command, Clean (isCommandOp ·) i)
    (hruns : process.runs events (begin locked command) = some c) :
    c.state.received.length ≤ 1 ∧ (c.state.received ≠ [] → ∀ sig, c.state.ignored sig = true) ∧
      Orderly c.state.log ∧ (∀ k name, standing k name c.state.log ≠ none) ∧
        (c.code = [] → ∀ k name, standing k name c.state.log
          = some (decide (name ∈ c.state.tracked k))) := by
  have hinv := inv_runs hcommand hruns
  obtain ⟨held, -, accounts⟩ := hinv.shape
  refine ⟨hinv.one, hinv.ignored, accounts.orderly, fun k name => by simp [accounts.standing],
    fun hcode k name => ?_⟩
  exact (accounts_outside hinv (by simp [hcode])).standing k name

/-- A command that mounts from a pool and then fails. -/
def failingCommand : Code :=
  [.op .register, .op (trackMount "/mnt/zark/tank"), .op (trackPool "tank"), .op .write,
    .raise .error]

theorem command_failingCommand : ∀ i ∈ failingCommand, Clean (isCommandOp ·) i := by
  simp +contextual [failingCommand, trackMount, trackPool, Clean.op, Clean.raise, isCommandOp]

/-- It is sent SIGTERM and, before the handler is through, SIGHUP; what stops it is the second. -/
def stoppedDuring : List (Interrupts.Event Answer ExitSignal) :=
  List.replicate 3 (.run {}) ++ [.interrupt .sigterm, .run {}, .run {}, .interrupt .sighup] ++
    List.replicate 7 (.run {})

/-- A Ctrl-C comes while the pool is exported, with `-f`. -/
def stoppedAfter : List (Interrupts.Event Answer ExitSignal) :=
  List.replicate 16 (.run { exported := false }) ++ [.interrupt .sigint] ++
    List.replicate 18 (.run { exported := false })

theorem cleanup_once_stopped : ∃ c, process.runs (stoppedDuring ++ stoppedAfter)
      (begin true failingCommand) = some c ∧ c.code = [] ∧
    c.state.received = [.signal .sighup] ∧ c.state.exportedPools = ["tank"] ∧
    c.state.received.length ≤ 1 ∧
      (c.state.received ≠ [] → ∀ sig, c.state.ignored sig = true) ∧ Orderly c.state.log ∧
      (∀ k name, standing k name c.state.log ≠ none) ∧
        (c.code = [] → ∀ k name, standing k name c.state.log
          = some (decide (name ∈ c.state.tracked k))) :=
  ⟨_, rfl, rfl, rfl, rfl,
    cleanup_once command_failingCommand
      (rfl : process.runs (stoppedDuring ++ stoppedAfter) (begin true failingCommand) = some _)⟩

/-! ### The end of a command -/

/-- The steps that come once the cleanup is over. -/
def isLate : Op → Bool
  | .atexit | .run | .write | .onSignal _ | .setTeardown | .ignore _ | .stop _ | .resumeUnlessReceived | .clearTeardown | .handle _ => true
  | _ => false

theorem pending_eq_false (h : ∀ k, st.tracked k = []) : st.pending = false := by
  simp [State.pending, h]

/-- With nothing tracked they release nothing and track nothing. -/
theorem isLate_perform {o : Op} (ho : isLate o = true) (answer : Answer)
    (h : ∀ k, st.tracked k = []) :
    (perform o answer st).1.tracked = st.tracked ∧ (perform o answer st).1.log = st.log ∧
      ∀ i ∈ (perform o answer st).2, Clean (isLate ·) i := by
  have hteardown : ∀ i ∈ teardown, Clean (isLate ·) i := by
    simp +contextual [teardown, exitSignals, Clean.op, isLate]
  have hstop : ∀ s, ∀ i ∈ stopWith s, Clean (isLate ·) i := by
    simp +contextual [stopWith, exitSignals, Clean.op, isLate]
  have hnil : ∀ i ∈ ([] : Code), Clean (isLate ·) i := by simp
  cases o with
  | run =>
      rw [perform, if_neg (by simp [pending_eq_false h])]
      exact ⟨rfl, rfl, hnil⟩
  | write =>
      refine ⟨rfl, rfl, ?_⟩
      rw [perform]
      dsimp only
      split
      · exact hstop _
      · exact hnil
  | onSignal sig =>
      refine ⟨rfl, rfl, ?_⟩
      rw [perform]
      dsimp only
      split
      · exact hnil
      · exact hstop _
  | atexit =>
      rw [perform]
      split
      · exact ⟨rfl, rfl, hnil⟩
      · rename_i call rest hcalls
        refine ⟨rfl, rfl, clean_append ?_ (by simp +contextual [Clean.op, Clean.guard, isLate])⟩
        cases call
        · simp +contextual [Clean.op, isLate]
        · exact clean_append hteardown (by simp +contextual [Clean.op, isLate])
  | resumeUnlessReceived =>
      refine ⟨rfl, rfl, ?_⟩
      rw [perform]
      dsimp only
      split
      · simp +contextual [resume, exitSignals, Clean.op, isLate]
      · exact hnil
  | stop s =>
      refine ⟨rfl, rfl, ?_⟩
      rw [perform]
      simp +contextual [Clean.op, Clean.raise, isLate]
  | setTeardown => exact ⟨rfl, rfl, hnil⟩
  | ignore sig => exact ⟨rfl, rfl, hnil⟩
  | clearTeardown => exact ⟨rfl, rfl, hnil⟩
  | handle sig => exact ⟨rfl, rfl, hnil⟩
  | _ => cases ho

/-- Everything is released, and nothing will be tracked any more. -/
structure Released (first : State) (code : Code) (st : State) : Prop where
  tracked : ∀ k, st.tracked k = []
  log : CarriedOut first st.log
  clean : ∀ i ∈ code, Clean (isLate ·) i

theorem Released.step {first : State} (event : Interrupts.Event Answer ExitSignal)
    {c c' : Config State Op Clause Exit} (hstep : process.step event c = some c')
    (h : Released first c.code c.state) : Released first c'.code c'.state := by
  obtain ⟨code, st⟩ := c
  obtain ⟨tracked, log, clean⟩ := h
  cases code with
  | nil => cases event <;> cases hstep
  | cons i rest =>
      have hrest : ∀ i ∈ rest, Clean (isLate ·) i := fun i hi => clean i (List.mem_cons_of_mem _ hi)
      cases event with
      | interrupt sig =>
          rw [Machine.step, Option.some.injEq] at hstep
          split at hstep
          · cases hstep
            exact ⟨tracked, log, clean_append
              (by simp +contextual [process, Clean.op, isLate]) clean⟩
          · cases hstep
            exact ⟨tracked, log, clean⟩
      | run answer =>
          cases clean i List.mem_cons_self with
          | op ho =>
              cases hstep
              obtain ⟨htracked, hlog, hcode⟩ := isLate_perform ho answer tracked
              exact ⟨fun k => (congrFun htracked k).trans (tracked k), by rwa [← hlog] at log,
                clean_append hcode hrest⟩
          | raise =>
              cases hstep
              exact ⟨tracked, log, clean_unwind hrest⟩
          | guard hhandler =>
              cases hstep
              exact ⟨tracked, log, hrest⟩
          | final hfin =>
              cases hstep
              exact ⟨tracked, log, clean_append hfin hrest⟩

/-- The cleanup is registered once, and called before what was registered earlier. -/
structure Calls (st : State) : Prop where
  first : .cleanup ∈ st.exitCalls → ∃ rest, st.exitCalls = .cleanup :: rest ∧ .cleanup ∉ rest
  off : st.registered = false → .cleanup ∉ st.exitCalls

theorem Calls.perform (h : Calls st) (o : Op) (answer : Answer) :
    Calls (perform o answer st).1 := by
  cases o with
  | track k name =>
      rw [Cleanup.perform, State.track]
      split <;> exact ⟨h.first, h.off⟩
  | untrack k name =>
      rw [Cleanup.perform, State.untrack]
      split <;> exact ⟨h.first, h.off⟩
  | register =>
      rw [Cleanup.perform]
      split
      · exact h
      · rename_i hoff
        exact ⟨fun _ => ⟨st.exitCalls, rfl, h.off (by simpa using hoff)⟩,
          fun hregistered => by cases hregistered⟩
  | atexit =>
      rw [Cleanup.perform]
      split
      · exact h
      · rename_i call rest hcalls
        have hnot : .cleanup ∉ rest := by
          intro hmem
          obtain ⟨rest', heq, hnot⟩ := h.first (hcalls ▸ List.mem_cons_of_mem _ hmem)
          rw [hcalls, List.cons.injEq] at heq
          exact hnot (heq.2 ▸ hmem)
        exact ⟨fun hmem => absurd hmem hnot, fun _ => hnot⟩
  | start k =>
      rw [Cleanup.perform]
      dsimp only
      split <;> exact ⟨h.first, h.off⟩
  | release k todo =>
      cases todo with
      | nil =>
          rw [Cleanup.perform]
          dsimp only
          split <;> exact ⟨h.first, h.off⟩
      | cons name todo => exact ⟨h.first, h.off⟩
  | _ => exact ⟨h.first, h.off⟩

/-- What the interpreter does after `Cleanup.run`. -/
def afterCleanup : Code := [.guard .all [], .op .atexit]

theorem isLate_afterCleanup : ∀ i ∈ afterCleanup, Clean (isLate ·) i := by
  simp +contextual [afterCleanup, Clean.op, Clean.guard, isLate]

theorem tracked_of_not_pending (hon : st.disabled = false) (h : ¬st.pending = true) (k : Kind) :
    st.tracked k = [] := by
  by_contra hne
  have hk : k ∈ kinds := by cases k <;> decide
  have hany : (kinds.any fun k => !(st.tracked k).isEmpty) = true :=
    List.any_eq_true.mpr ⟨k, hk, by simpa using hne⟩
  exact h (by rw [State.pending, hon, hany]; rfl)

/-- How far the exit of a process is that began at `first`. -/
inductive Leaving (first st : State) : Code → Prop where
  | waiting {rest : List ExitCall} (hcalls : st.exitCalls = .cleanup :: rest)
      (hon : st.disabled = false)
      (accounts : Accounts st.log st.tracked) (here : Halfway first none kinds st) :
      Leaving first st [.op .atexit]
  | called (hon : st.disabled = false) (accounts : Accounts st.log st.tracked)
      (here : Halfway first none kinds st) :
      Leaving first st (.op .run :: afterCleanup)
  | entering {w : Code} (h : Entering w st) (hne : w ≠ []) (accounts : Accounts st.log st.tracked)
      (here : Halfway first none kinds st) :
      Leaving first st (w ++ afterCleanup)
  | cleaning {ws : Code} {todo : Option (Kind × List String)} {ks : List Kind}
      (h : Cleaning ws todo ks st)
      (accounts : Accounts st.log (heldIn st todo)) (here : Halfway first todo ks st) :
      Leaving first st (cleaningCode ws todo ks ++ afterCleanup)
  | released {code : Code} (h : Released first code st) : Leaving first st code

theorem Halfway.carriedOut_of_nil {first : State} (h : Halfway first none kinds st)
    (hnil : ∀ k, st.tracked k = []) : CarriedOut first st.log := by
  refine carriedOut ⟨?_, by simp⟩
  have hnone : (kinds.flatMap fun k => (first.order k).map (k, ·)) = [] := by
    refine List.flatMap_eq_nil_iff.mpr fun k hk => ?_
    have hk' : first.tracked k = [] := (h.rest k hk).symm.trans (hnil k)
    cases k <;> simp [State.order, hk']
  simpa only [hnone, List.flatMap_nil] using h.gone

theorem Leaving.step {first : State} (answer : Answer) {c c' : Config State Op Clause Exit}
    (hstep : process.step (.run answer) c = some c') (h : Leaving first c.state c.code) :
    Leaving first c'.state c'.code := by
  obtain ⟨code, st⟩ := c
  cases h with
  | waiting hcalls hon accounts here =>
      cases hstep
      change Leaving first (perform .atexit answer st).1 ((perform .atexit answer st).2 ++ [])
      rw [perform, hcalls]
      exact .called hon accounts ⟨here.gone, here.rest⟩
  | called hon accounts here =>
      cases hstep
      change Leaving first st ((perform .run answer st).2 ++ afterCleanup)
      rw [perform]
      dsimp only
      split
      · refine .entering ⟨List.suffix_refl _, fun hmem => absurd (by simp [teardown]) hmem,
          fun sig hmem => absurd ?_ hmem⟩ (by simp) accounts here
        cases sig <;> simp [teardown, exitSignals]
      · rename_i hpending
        have hnil : ∀ k, st.tracked k = [] := tracked_of_not_pending hon hpending
        exact .released ⟨hnil, here.carriedOut_of_nil hnil, isLate_afterCleanup⟩
  | @entering w h hne accounts here =>
      cases w with
      | nil => exact absurd rfl hne
      | cons i w =>
          have hi := (Middle.entering (y := []) h).bare i List.mem_cons_self
          cases i with
          | op o =>
              cases hstep
              change Leaving first (perform o answer st).1
                ((perform o answer st).2 ++ (w ++ afterCleanup))
              obtain ⟨rfl, rfl⟩ | ⟨hcode, hne, hw, htracked, hlog, -, -⟩ := h.step answer
              · have hcode : (perform .enter answer st).2
                    = cleaningCode [.op .write, .op .reset] none kinds := cleaningCode_start
                rw [hcode]
                exact .cleaning h.cleaning accounts here
              · rw [hcode]
                exact .entering hw hne (by rwa [hlog, htracked])
                  ⟨hlog ▸ here.gone, htracked ▸ here.rest⟩
          | raise e =>
              have hmem : Instr.raise e ∈ teardown ++ [.op .enter] :=
                h.suffix.mem List.mem_cons_self
              simp [teardown] at hmem
          | guard k handler => exact hi.elim
          | final fin => exact hi.elim
  | cleaning h accounts here =>
      obtain ⟨ws', todo', ks', hcode, hcleaning, haccounts, -, hnext⟩ | ⟨rfl, rfl, rfl, hgone⟩ :=
        h.step accounts answer hstep
      · rw [hcode]
        exact .cleaning hcleaning haccounts (hnext first here)
      · refine .released ⟨hgone, here.carriedOut, fun i hi => ?_⟩
        obtain rfl | hi := List.mem_cons.mp hi
        · exact .op rfl
        · exact isLate_afterCleanup i hi
  | released h => exact .released (h.step _ hstep)

/-- A signal that comes once the exit has begun and before the cleanup has every signal ignored
leaves the pool as it is. -/
theorem signal_at_exit_leaves : ∃ st,
    process.runs (List.replicate 12 (.run {}) ++ [.interrupt .sighup] ++
      List.replicate 15 (.run {}))
    (begin true failingCommand) = some ⟨[], st⟩ ∧ st.received = [.signal .sighup] ∧
    st.registered = true ∧ st.disabled = false ∧
      st.tracked .pool = ["tank"] :=
  ⟨_, rfl, rfl, rfl, rfl, rfl⟩

end Zark.Cleanup
